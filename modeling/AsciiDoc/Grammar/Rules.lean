import AsciiDoc.Grammar.Parser
import AsciiDoc.Tree.Basic

namespace AsciiDoc.Grammar

open AsciiDoc.Parser

def spaces : Parser (List Token) := (token .space).repeated

def text : Parser Node :=
  ((token .inlineText).andThen spaces).several.map fun words =>
    .ofChildren .text (words.flatMap fun (word, spaces) => .token word :: spaces.map .token)

def headline : Parser Node :=
  ((((token .newline).andThen (token .headline)).andThen spaces).andThen text).map
    fun (((newline, marker), spaces), text) =>
      .ofChildren .headline (.token newline :: .token marker :: spaces.map .token ++ [.node text])

def emptyLine : Parser Node :=
  (token .emptyLine).map fun blank => .ofChildren .emptyLine [.token blank]

def line : Parser (List (Child Node)) :=
  (((token .newline).andThen spaces).andThen text).map fun ((newline, indent), text) =>
    .token newline :: indent.map .token ++ [.node text]

def paragraph : Parser Node := line.several.map fun lines => .ofChildren .paragraph lines.flatten

def moreWords : Parser (List Token) :=
  ((token .space).andThen (token .stringText)).repeated.map fun pairs =>
    pairs.flatMap fun (space, word) => [space, word]

def stringWords : Parser (List Token) :=
  ((token .stringText).andThen moreWords).map fun (first, rest) => first :: rest

def quotedValue : Parser Node :=
  (((token .stringStart).andThen stringWords.optional).andThen (token .stringEnd)).map
    fun ((opening, words), closing) =>
      .ofChildren .attributeValue
        (.token opening :: (words.getD []).map .token ++ [.token closing])

def bareValue : Parser Node :=
  (token .listText).map fun value => .ofChildren .attributeValue [.token value]

def attributeValue : Parser Node := quotedValue.orElse bareValue

def attributeEntry : Parser Node :=
  ((((token .listText).andThen (token .assignment)).optional).andThen attributeValue).map
    fun (key, value) =>
      match key with
      | none => .ofChildren .attributeEntry [.node value]
      | some (key, assignment) =>
        .ofChildren .attributeEntry [.token key, .token assignment, .node value]

def marked (mark : Kind) : Parser Node :=
  ((token mark).andThen (token .listText)).several.map fun pairs =>
    .ofChildren .shorthand (pairs.flatMap fun (mark, value) => [.token mark, .token value])

def legacyId : Parser Node :=
  (((token .legacyIdStart).andThen (token .listText)).andThen (token .legacyIdEnd)).map
    fun ((opening, value), closing) =>
      .ofChildren .shorthand [.token opening, .token value, .token closing]

def shorthand : Parser Node :=
  ((legacyId.orElse (marked .idMark)).orElse (marked .roleMark)).orElse
    (marked .optionMark)

def moreEntries : Parser (List (Child Node)) :=
  ((token .comma).andThen attributeEntry).repeated.map fun pairs =>
    pairs.flatMap fun (comma, entry) => [.token comma, .node entry]

def attributeEntries : Parser (List (Child Node)) :=
  (attributeEntry.andThen moreEntries).map fun (first, rest) => .node first :: rest

def listItem : Parser (List (Child Node)) :=
  (shorthand.map fun n => [.node n]).orElse attributeEntries

def listItems : Parser (List (Child Node)) := listItem.repeated.map List.flatten

def attributeList : Parser Node :=
  (((token .listStart).andThen listItems).andThen (token .listEnd)).map
    fun ((opening, items), closing) =>
      .ofChildren .attributeList (.token opening :: items ++ [.token closing])

def attributeBlock : Parser Node :=
  ((token .newline).andThen attributeList).map fun (newline, list) =>
    .ofChildren .attributeBlock [.token newline, .node list]

def block : Parser Node := ((headline.orElse attributeBlock).orElse paragraph).orElse emptyLine

/-- Blocks, and a newline behind them if there is one: a blank document is nothing but that newline. -/
def blocks : Parser Node :=
  (block.repeated.andThen (token .newline).optional).map fun (blocks, newline) =>
    .ofChildren .document (blocks.map .node ++ newline.toList.map .token)

def document : Parser Node := (blocks.andThen endOfInput).map fun (tree, _) => tree

end AsciiDoc.Grammar
