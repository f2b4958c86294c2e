import AsciiDoc.Document.Basic
import AsciiDoc.Json.Value
import AsciiDoc.Token.Basic

namespace AsciiDoc

def Extent.toJson (e : Extent) : Json := .object [("start", .nat e.start), ("end", .nat e.stop)]

def Location.toJson (l : Location) : Json := .object [("start", .int l.start), ("end", .int l.stop)]

def Token.toJson (t : Token) : Json :=
  .object [("kind", .text t.kind.tag.toList), ("text", .text t.text), ("span", t.extent.toJson)]

def Json.element (type : String) (members : List (String × Json)) (l : Location) : Json :=
  .object (("type", .text type.toList) :: members ++ [("location", l.toJson)])

def Line.toJson (l : Line) : Json :=
  .element "text" [("words", .array (l.words.map .text))] l.location

def Headline.toJson (h : Headline) : Json :=
  .element "headline" [("level", .nat h.level), ("text", h.title.toJson)] h.location

def Paragraph.toJson (p : Paragraph) : Json :=
  .element "paragraph"
    [("lines", .array (p.lines.map Line.toJson)), ("isLiteral", .bool p.isLiteral)] p.location

def AttributeValue.toJson (v : AttributeValue) : Json :=
  .element "attributeValue" [("values", .array (v.values.map .text))] v.location

def Attribute.toJson (a : Attribute) : Json :=
  .element "attribute" [("key", .textOrNull a.key), ("value", a.value.toJson)] a.location

def AttributeList.toJson (l : AttributeList) : Json :=
  .element "attributeList" [("attributes", .array (l.attributes.map Attribute.toJson))] l.location

def AttributeBlock.toJson (b : AttributeBlock) : Json :=
  .element "attributeBlock" [("list", b.list.toJson)] b.location

def Block.toJson : Block → Json
  | headline h => h.toJson
  | paragraph p => p.toJson
  | emptyLine l => .element "emptyLine" [] l
  | attributes b => b.toJson

def Document.toJson (d : Document) : Json :=
  .element "root" [("children", .array (d.blocks.map Block.toJson))] d.location

end AsciiDoc
