import AsciiDoc.Document.Outline

namespace AsciiDoc

namespace Report

def unequal (remark : Option String) (left right : String) : String :=
  "assertion `left == right` failed" ++ (remark.map (": " ++ ·)).getD "" ++
    "\n  left: " ++ left ++ "\n right: " ++ right

def demand {α : Type} [DecidableEq α] (render : α → String) (remark : Option String)
    (left right : α) : Except String Unit :=
  if left = right then .ok () else .error (unequal remark (render left) (render right))

def text (s : Text) : String := String.ofList (Text.quoted s)

def texts (ts : List Text) : String := String.ofList (Text.quotedList ts)

def textOrNone : Option Text → String
  | some s => "Some(" ++ text s ++ ")"
  | none => "None"

end Report

inductive BlockExpectation where
  | headline (level : Option Nat) (title : Option Text)
  | paragraph (isLiteral : Option Bool) (lineCount : Option Nat) (line : Option (Nat × Text))
  | emptyLine
  | attributes (count : Option Nat) (keyed : Option (Text × List Text))
      (positional : Option (Nat × List Text))
  deriving DecidableEq, Repr

inductive Expectation where
  | blockCount (n : Nat)
  | blockTypes (names : List Text)
  | block (index : Nat) (expected : BlockExpectation)
  deriving DecidableEq, Repr

namespace BlockExpectation

open Report

def given {α : Type} (o : Option α) (check : α → Except String Unit) : Except String Unit :=
  match o with
  | some a => check a
  | none => .ok ()

def element : BlockExpectation → Element
  | headline .. => .headline
  | paragraph .. => .paragraph
  | emptyLine => .emptyLine
  | attributes .. => .attributeBlock

def checkLine (context : String) (p : Paragraph) (index : Nat) (expected : Text) :
    Except String Unit :=
  match p.lines[index]? with
  | none => .error (context ++ ": No line at index " ++ toString index)
  | some l =>
    demand text (some (context ++ ": Unexpected text on line " ++ toString index)) l.joined expected

def checkKeyed (context : String) (l : AttributeList) (key : Text) (values : List Text) :
    Except String Unit :=
  match l.get? key with
  | none => .error (context ++ ": No attribute with key " ++ text key)
  | some a =>
    demand texts (some (context ++ ": Unexpected values for " ++ text key)) a.value.values values

def checkPositional (context : String) (l : AttributeList) (index : Nat) (values : List Text) :
    Except String Unit :=
  match l.attributes[index]? with
  | none => .error (context ++ ": No attribute at index " ++ toString index)
  | some a => do
    demand textOrNone (some (context ++ ": Attribute " ++ toString index ++ " has a key"))
      a.key none
    demand texts none a.value.values values

def check (context : String) (b : Block) (e : BlockExpectation) : Except String Unit :=
  match b, e with
  | .headline h, headline level title => do
    given level fun n =>
      demand toString (some (context ++ ": Expected headline level " ++ toString n ++ ", found " ++
        toString h.level)) h.level n
    given title fun s =>
      demand text (some (context ++ ": Expected headline text " ++ text s ++ ", found " ++
        text h.title.joined)) h.title.joined s
  | .paragraph p, paragraph isLiteral lineCount line => do
    given isLiteral fun b =>
      demand toString (some (context ++ ": Expected is_literal = " ++ toString b)) p.isLiteral b
    given lineCount fun n =>
      demand toString (some (context ++ ": Expected " ++ toString n ++ " lines, found " ++
        toString p.lines.length ++ " lines")) p.lines.length n
    given line fun l => checkLine context p l.1 l.2
  | .emptyLine _, emptyLine => .ok ()
  | .attributes b, attributes count keyed positional => do
    given count fun n =>
      demand toString (some (context ++ ": Expected " ++ toString n ++ " attributes, found " ++
        toString b.list.attributes.length)) b.list.attributes.length n
    given keyed fun k => checkKeyed context b.list k.1 k.2
    given positional fun k => checkPositional context b.list k.1 k.2
  | b, e =>
    .error (context ++ ": Expected " ++ e.element.name ++ ", found " ++ b.element.name)

end BlockExpectation

namespace Expectation

open Report

def check (d : Document) : Expectation → Except String Unit
  | blockCount n =>
    let types := ", ".intercalate (d.blocks.map fun b => b.element.name)
    demand toString (some ("Expected " ++ toString n ++ " items, found " ++
      toString d.blocks.length ++ " items: [" ++ types ++ "]")) d.blocks.length n
  | blockTypes names =>
    demand texts (some "Unexpected block sequence")
      (d.blocks.map fun b => b.element.name.toList) names
  | block index expected =>
    match d.blocks[index]? with
    | none =>
      .error ("Item index " ++ toString index ++ " out of bounds (document has " ++
        toString d.blocks.length ++ " items)")
    | some b => expected.check ("items[" ++ toString index ++ "]") b

end Expectation

end AsciiDoc
