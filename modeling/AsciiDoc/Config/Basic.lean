import AsciiDoc.Document.Basic
import AsciiDoc.Json.Value

namespace AsciiDoc

inductive Style where
  | shorthand
  | formal
  deriving DecidableEq, Repr

namespace Style

def name : Style → String
  | shorthand => "shorthand"
  | formal => "formal"

def title : Style → String
  | shorthand => "Shorthand"
  | formal => "Formal"

def ofName? (name : Text) : Option Style :=
  [shorthand, formal].find? fun s => s.name.toList = name

end Style

structure Config where
  literalIndent : Nat := 2
  alwaysQuote : Bool := false
  idStyle : Style := .shorthand
  optionStyle : Style := .shorthand
  roleStyle : Style := .shorthand
  verbose : Bool := false
  legacyIds : Bool := true
  deriving DecidableEq, Repr

namespace Config

def style (c : Config) : Mark → Style
  | .id => c.idStyle
  | .role => c.roleStyle
  | .option => c.optionStyle

def withStyle (c : Config) (s : Style) : Config :=
  { c with idStyle := s, optionStyle := s, roleStyle := s }

def toJson (c : Config) : Json :=
  .object
    [("literalParagraphIndent", .nat c.literalIndent),
      ("alwaysQuoteAttributeValues", .bool c.alwaysQuote),
      ("idFormat", .text c.idStyle.name.toList),
      ("optionFormat", .text c.optionStyle.name.toList),
      ("roleFormat", .text c.roleStyle.name.toList),
      ("verbose", .bool c.verbose),
      ("legacyIdBrackets", .bool c.legacyIds)]

def describe (c : Config) : String :=
  "Config \x7b literal_paragraph_indent: " ++ toString c.literalIndent ++
    ", always_quote_attribute_values: " ++ toString c.alwaysQuote ++
    ", id_format: " ++ c.idStyle.title ++
    ", option_format: " ++ c.optionStyle.title ++
    ", role_format: " ++ c.roleStyle.title ++
    ", verbose: " ++ toString c.verbose ++
    ", legacy_id_brackets: " ++ toString c.legacyIds ++ " \x7d"

end Config

end AsciiDoc
