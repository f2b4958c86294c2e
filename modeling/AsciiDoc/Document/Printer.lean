import AsciiDoc.Config.Basic
import AsciiDoc.Text.Class

/-!
The canonical text of a document. Every line stands behind a newline, of which the first one is
taken away again; the text ends with one newline. An attribute list shows the entries first and the
shorthands after them, ids before roles before options.
-/

namespace AsciiDoc

namespace AttributeValue

def fitsShorthand (v : AttributeValue) : Bool :=
  v.values.all fun s =>
    !s.isEmpty && s.all fun c => !(Text.isBlank c || c = '"' || Text.isDelimiter c)

/-- Whether the values stand between quotes. A single value that holds a quote can only be bare. -/
def needsQuotes (c : Config) (v : AttributeValue) : Bool :=
  match v.values with
  | [s] => if s.contains '"' then false else c.alwaysQuote || s.any Text.isDelimiter
  | _ => true

def print (c : Config) (v : AttributeValue) : Text :=
  let joined := Text.unwords v.values
  if v.needsQuotes c then '"' :: joined ++ ['"'] else joined

end AttributeValue

namespace Attribute

def shorthand? (c : Config) (a : Attribute) : Option Mark := do
  let m ← Mark.ofKey? (← a.key)
  guard (c.style m = .shorthand ∧ a.value.fitsShorthand)
  return m

def printEntry (c : Config) (a : Attribute) : Text :=
  match a.key with
  | some key => key ++ '=' :: a.value.print c
  | none => a.value.print c

end Attribute

namespace AttributeList

def entries (c : Config) (l : AttributeList) : List Attribute :=
  l.attributes.filter fun a => a.shorthand? c = none

def marked (c : Config) (l : AttributeList) (m : Mark) : List Text :=
  (l.attributes.filter fun a => a.shorthand? c = some m).flatMap fun a => a.value.values

def printMarked (c : Config) (l : AttributeList) (m : Mark) : Text :=
  (l.marked c m).flatMap fun s => m.symbol :: s

def print (c : Config) (l : AttributeList) : Text :=
  '[' :: [','].intercalate ((l.entries c).map (Attribute.printEntry c)) ++ l.printMarked c .id ++
    l.printMarked c .role ++ l.printMarked c .option ++ [']']

end AttributeList

namespace Paragraph

/-- The indent of a line. A literal line that begins with `=` keeps one space at least, because it
would be a headline without. -/
def indent (c : Config) (p : Paragraph) (line : Text) : Text :=
  if p.isLiteral then
    if c.literalIndent = 0 ∧ line.head? = some '=' then [' ']
    else List.replicate c.literalIndent ' '
  else []

def print (c : Config) (p : Paragraph) : Text :=
  p.lines.flatMap fun l => '\n' :: p.indent c l.joined ++ l.joined

end Paragraph

namespace Block

def print (c : Config) : Block → Text
  | headline h => '\n' :: h.marker ++ ' ' :: h.title.joined
  | paragraph p => p.print c
  | emptyLine _ => ['\n']
  | attributes b => '\n' :: b.list.print c

end Block

def Text.dropNewline : Text → Text
  | '\n' :: s => s
  | s => s

namespace Document

def print (c : Config) (d : Document) : Text :=
  Text.dropNewline ((d.blocks.dropWhile Block.isEmptyLine).flatMap (Block.print c)) ++ ['\n']

end Document

end AsciiDoc
