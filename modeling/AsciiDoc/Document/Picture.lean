import AsciiDoc.Document.Outline

namespace AsciiDoc

namespace Element

def icon : Element → Char
  | root => '⧉'
  | headline => '§'
  | paragraph => '¶'
  | text => '↵'
  | emptyLine => '␤'
  | attributeBlock => '▣'
  | attributeList => '☰'
  | attributeItem => '•'
  | attributeValue => '◦'

end Element

namespace Picture

def labelLength : Nat := 30

def caption (e : Element) (label : Text) : Text :=
  match Text.clip labelLength ['.', '.', '.'] label with
  | [] => [e.icon]
  | shown => e.icon :: ' ' :: shown

def column (isLast : Bool) : Text := if isLast then [' ', ' ', ' '] else ['│', ' ', ' ']

def connector (isLast : Bool) : Text := if isLast then ['└', '─'] else ['├', '─']

mutual

def node (columns : Text) (isLast : Bool) : Outline → Text
  | ⟨element, label, _, parts⟩ =>
    columns ++ connector isLast ++ ' ' :: caption element label ++
      '\n' :: nodes (columns ++ column isLast) parts

def nodes (columns : Text) : List Outline → Text
  | [] => []
  | o :: os => node columns os.isEmpty o ++ nodes columns os

end

end Picture

namespace Outline

def picture (o : Outline) : Text :=
  Picture.caption o.element o.label ++ '\n' :: Picture.nodes [] o.parts

end Outline

end AsciiDoc
