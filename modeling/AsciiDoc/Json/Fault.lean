import AsciiDoc.Text.Quoted

namespace AsciiDoc.Json

inductive Found where
  | null
  | boolean (b : Bool)
  | integer (n : Int)
  | floating (numeral : Text)
  | text (s : Text)
  | sequence
  | map
  deriving DecidableEq, Repr

inductive Cause where
  | endInValue
  | endInObject
  | endInList
  | endInString
  | expectedColon
  | expectedListEnd
  | expectedObjectEnd
  | expectedIdent
  | expectedValue
  | invalidEscape
  | invalidNumber
  | numberOutOfRange
  | controlCharacter
  | keyNotString
  | loneSurrogate
  | unfinishedSurrogate
  | trailingComma
  | trailingCharacters
  | invalidType (found : Found) (wanted : String)
  | invalidValue (found : Found) (wanted : String)
  | unknownName (name : Text) (known : List String)
  | duplicateField (name : String)
  deriving DecidableEq, Repr

/-- A cause, and the number of bytes from the place where it was noticed to the end. -/
structure Fault where
  cause : Cause
  left : Nat
  deriving DecidableEq, Repr

namespace Found

def describe : Found → String
  | null => "null"
  | boolean b => "boolean `" ++ toString b ++ "`"
  | integer n => "integer `" ++ toString n ++ "`"
  | floating numeral => "floating point `" ++ String.ofList numeral ++ "`"
  | text s => "string " ++ String.ofList (Text.quoted s)
  | sequence => "sequence"
  | map => "map"

end Found

namespace Cause

def describe : Cause → String
  | endInValue => "EOF while parsing a value"
  | endInObject => "EOF while parsing an object"
  | endInList => "EOF while parsing a list"
  | endInString => "EOF while parsing a string"
  | expectedColon => "expected `:`"
  | expectedListEnd => "expected `,` or `]`"
  | expectedObjectEnd => "expected `,` or `\x7d`"
  | expectedIdent => "expected ident"
  | expectedValue => "expected value"
  | invalidEscape => "invalid escape"
  | invalidNumber => "invalid number"
  | numberOutOfRange => "number out of range"
  | controlCharacter => "control character (\\u0000-\\u001F) found while parsing a string"
  | keyNotString => "key must be a string"
  | loneSurrogate => "lone leading surrogate in hex escape"
  | unfinishedSurrogate => "unexpected end of hex escape"
  | trailingComma => "trailing comma"
  | trailingCharacters => "trailing characters"
  | invalidType found wanted => "invalid type: " ++ found.describe ++ ", expected " ++ wanted
  | invalidValue found wanted => "invalid value: " ++ found.describe ++ ", expected " ++ wanted
  | unknownName name known =>
    "unknown variant `" ++ String.ofList name ++ "`, expected " ++
      " or ".intercalate (known.map fun s => "`" ++ s ++ "`")
  | duplicateField name => "duplicate field `" ++ name ++ "`"

end Cause

namespace Fault

def before (cause : Cause) (rest : Text) : Fault := ⟨cause, Text.bytes rest⟩

/-- A fault of the next byte of `rest`, which counts as read if there is one. -/
def reading (cause : Cause) (rest : Text) : Fault := ⟨cause, Text.bytes rest - 1⟩

end Fault

end AsciiDoc.Json
