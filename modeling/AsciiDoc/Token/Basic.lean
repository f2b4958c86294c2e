import AsciiDoc.Location
import AsciiDoc.Text.Quoted

namespace AsciiDoc

inductive Kind where
  | headline
  | listStart
  | space
  | emptyLine
  | newline
  | tab
  | inlineText
  | listEnd
  | legacyIdStart
  | comma
  | stringStart
  | assignment
  | optionMark
  | idMark
  | roleMark
  | listText
  | legacyIdEnd
  | stringEnd
  | stringText
  deriving DecidableEq, Repr

namespace Kind

def all : List Kind :=
  [headline, listStart, space, emptyLine, newline, tab, inlineText, listEnd, legacyIdStart, comma,
    stringStart, assignment, optionMark, idMark, roleMark, listText, legacyIdEnd, stringEnd,
    stringText]

def name : Kind → String
  | headline => "Headline"
  | listStart => "AttributeListStart"
  | space => "Space"
  | emptyLine => "EmptyLine"
  | newline => "Newline"
  | tab => "Tab"
  | inlineText => "InlineText"
  | listEnd => "AttributeListEnd"
  | legacyIdStart => "LegacyIdStart"
  | comma => "Comma"
  | stringStart => "StringStart"
  | assignment => "Assignment"
  | optionMark => "AttributeOptionShorthand"
  | idMark => "AttributeIdShorthand"
  | roleMark => "AttributeRoleShorthand"
  | listText => "AttributeInlineText"
  | legacyIdEnd => "LegacyIdEnd"
  | stringEnd => "StringEnd"
  | stringText => "StringText"

def tag : Kind → String
  | optionMark => "OptionShorthand"
  | idMark => "IdShorthand"
  | roleMark => "RoleShorthand"
  | k => k.name

theorem mem_all (k : Kind) : k ∈ all := by cases k <;> decide

end Kind

structure Token where
  kind : Kind
  text : Text
  extent : Extent
  deriving DecidableEq, Repr

namespace Token

def render (t : Token) : String :=
  t.kind.name ++ "(" ++ String.ofList (Text.quoted t.text) ++ ")"

def source (ts : List Token) : Text := ts.flatMap Token.text

def lastStop (ts : List Token) : Nat := (ts.getLast?.map (·.extent.stop)).getD 0

end Token

end AsciiDoc
