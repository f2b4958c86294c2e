import AsciiDoc.Document.Basic
import AsciiDoc.Text.Quoted

namespace AsciiDoc

inductive Element where
  | root
  | headline
  | paragraph
  | text
  | emptyLine
  | attributeBlock
  | attributeList
  | attributeItem
  | attributeValue
  deriving DecidableEq, Repr

namespace Element

def name : Element → String
  | root => "Root"
  | headline => "Headline"
  | paragraph => "Paragraph"
  | text => "Text"
  | emptyLine => "EmptyLine"
  | attributeBlock => "AttributeBlock"
  | attributeList => "AttributeList"
  | attributeItem => "Attribute"
  | attributeValue => "AttributeValue"

end Element

structure Outline where
  element : Element
  label : Text
  location : Location
  parts : List Outline

def Line.labelLength : Nat := 50

def Paragraph.labelLength : Nat := 30

namespace Line

def label (l : Line) : Text := Text.clip labelLength ['…'] l.joined

def outline (l : Line) : Outline := ⟨.text, l.label, l.location, []⟩

def summary (l : Line) : Text := "Text('".toList ++ l.joined ++ "')".toList

end Line

namespace Headline

def label (h : Headline) : Text := h.marker ++ ' ' :: h.title.label

def outline (h : Headline) : Outline := ⟨.headline, h.label, h.location, [h.title.outline]⟩

def summary (h : Headline) : Text :=
  "Headline(level=".toList ++ Text.decimal h.level ++ ", '".toList ++ h.title.joined ++
    "')".toList

end Headline

namespace Paragraph

def label (p : Paragraph) : Text :=
  Text.clip labelLength ['…'] ((p.lines.head?.map Line.joined).getD []) ++ [' ', '('] ++
    (if p.isLiteral then "literal, ".toList else []) ++ Text.decimal p.lines.length ++
    " lines)".toList

def outline (p : Paragraph) : Outline :=
  ⟨.paragraph, p.label, p.location, p.lines.map Line.outline⟩

def summary (p : Paragraph) : Text :=
  "Paragraph(".toList ++ Text.decimal p.lines.length ++ " lines)".toList

end Paragraph

namespace AttributeValue

def label (v : AttributeValue) : Text := Text.quotedList v.values

def outline (v : AttributeValue) : Outline := ⟨.attributeValue, v.label, v.location, []⟩

end AttributeValue

namespace Attribute

def label (a : Attribute) : Text :=
  match a.key with
  | some key => key ++ '=' :: a.value.label
  | none => a.value.label

def outline (a : Attribute) : Outline := ⟨.attributeItem, a.label, a.location, [a.value.outline]⟩

def summary (a : Attribute) : Text := "Attribute(".toList ++ a.label ++ [')']

end Attribute

namespace AttributeList

def label (l : AttributeList) : Text :=
  '[' :: [',', ' '].intercalate (l.attributes.map fun a => a.key.getD ['_']) ++ [']']

def outline (l : AttributeList) : Outline :=
  ⟨.attributeList, l.label, l.location, l.attributes.map Attribute.outline⟩

end AttributeList

namespace AttributeBlock

def label (b : AttributeBlock) : Text :=
  Text.decimal b.list.attributes.length ++ " attributes".toList

def outline (b : AttributeBlock) : Outline :=
  ⟨.attributeBlock, b.label, b.location, [b.list.outline]⟩

end AttributeBlock

namespace Block

def outline : Block → Outline
  | headline h => h.outline
  | paragraph p => p.outline
  | emptyLine l => ⟨.emptyLine, [], l, []⟩
  | attributes b => b.outline

def element (b : Block) : Element := b.outline.element

def summaries : Block → List Text
  | headline h => [h.summary, h.title.summary]
  | paragraph p => p.summary :: p.lines.map Line.summary
  | emptyLine _ => []
  | attributes b => b.list.attributes.map Attribute.summary

end Block

namespace Document

def label (d : Document) : Text :=
  "Document (".toList ++ Text.decimal d.blocks.length ++ " blocks)".toList

def outline (d : Document) : Outline := ⟨.root, d.label, d.location, d.blocks.map Block.outline⟩

def summary (d : Document) : Text :=
  "Document(".toList ++ Text.decimal d.blocks.length ++ " blocks)".toList

def summaries (d : Document) : List Text := d.summary :: d.blocks.flatMap Block.summaries

end Document

structure OutlineEntry where
  depth : Nat
  element : Element
  label : Text
  location : Location
  deriving DecidableEq, Repr

namespace Outline

mutual

def preorder (depth : Nat) : Outline → List OutlineEntry
  | ⟨element, label, location, parts⟩ =>
    ⟨depth, element, label, location⟩ :: preorderAll (depth + 1) parts

def preorderAll (depth : Nat) : List Outline → List OutlineEntry
  | [] => []
  | o :: os => preorder depth o ++ preorderAll depth os

end

end Outline

end AsciiDoc
