import AsciiDoc.Text.Class
import AsciiDoc.Text.Position
import AsciiDoc.Token.Mode

namespace AsciiDoc

structure Lexeme where
  kind : Kind
  extra : Nat
  shift : Shift
  deriving DecidableEq, Repr

namespace Lexeme

def single (k : Kind) : Lexeme := ⟨k, 0, .stay⟩

def opening (k : Kind) (m : Mode) : Lexeme := ⟨k, 0, .push m⟩

def closing (k : Kind) : Lexeme := ⟨k, 0, .pop⟩

def running (k : Kind) (p : Char → Bool) (cs : Text) : Lexeme := ⟨k, Text.run p cs, .stay⟩

def isWord (c : Char) : Bool := !Text.isBlank c

def isListText (c : Char) : Bool := !Text.isBlank c && !Text.isDelimiter c

def isStringText (c : Char) : Bool := !Text.isBlank c && c != '"'

/-- A quote opens a quoted value only if another quote follows on the same line. -/
def closesOnLine (cs : Text) : Bool := (cs.takeWhile (· != '\n')).contains '"'

/-- A newline with the spaces and tabs behind it is an empty line if the next line ends there. -/
def newline (cs : Text) : Lexeme :=
  if (cs.dropWhile Text.isIndent).head? = some '\n' then running .emptyLine Text.isIndent cs
  else single .newline

def inRoot (lineStart : Bool) (c : Char) (cs : Text) : Option Lexeme :=
  if c = '=' ∧ lineStart then some (running .headline (· = '=') cs)
  else if c = '[' then some (opening .listStart .attributeList)
  else if c = ' ' then some (single .space)
  else if c = '\n' then some (newline cs)
  else if c = '\t' then some (single .tab)
  else if isWord c then some (running .inlineText isWord cs)
  else none

def inList (c : Char) (cs : Text) : Option Lexeme :=
  if c = ']' then some (closing .listEnd)
  else if c = '[' then some (opening .legacyIdStart .legacyId)
  else if c = ',' then some (single .comma)
  else if c = '"' ∧ closesOnLine cs then some (opening .stringStart .string)
  else if c = '=' then some (single .assignment)
  else if c = '%' then some (single .optionMark)
  else if c = '#' then some (single .idMark)
  else if c = '.' then some (single .roleMark)
  else if isListText c then some (running .listText isListText cs)
  else none

def inLegacyId (c : Char) (cs : Text) : Option Lexeme :=
  if c = ']' then some (closing .legacyIdEnd)
  else if isListText c then some (running .listText isListText cs)
  else none

def inString (c : Char) (cs : Text) : Option Lexeme :=
  if c = '"' then some (closing .stringEnd)
  else if c = ' ' then some (single .space)
  else if isStringText c then some (running .stringText isStringText cs)
  else none

def next? (mode : Mode) (lineStart : Bool) (c : Char) (cs : Text) : Option Lexeme :=
  match mode with
  | .root => inRoot lineStart c cs
  | .attributeList => inList c cs
  | .legacyId => inLegacyId c cs
  | .string => inString c cs

end Lexeme

inductive LexCause where
  | noMatch (mode : Mode) (snippet : Text)
  | legacyIdDisabled
  deriving DecidableEq, Repr

structure LexError where
  offset : Nat
  position : Position
  cause : LexCause
  deriving DecidableEq, Repr

namespace LexError

def reason : LexCause → String
  | .noMatch mode snippet =>
    "no " ++ mode.name ++ " token matches " ++ String.ofList (Text.quoted snippet)
  | .legacyIdDisabled => "legacy [[id]] brackets are disabled"

def message (e : LexError) : String :=
  "Lexing error at " ++ e.position.render ++ " (offset " ++ toString e.offset ++ "): " ++
    reason e.cause

end LexError

namespace Lexer

structure Step where
  modes : ModeStack
  token : Token
  shift : Shift
  deriving DecidableEq, Repr

structure Run where
  steps : List Step
  stop : Option (Nat × LexCause)
  deriving DecidableEq, Repr

def snippetLength : Nat := 12

def read (legacyIds : Bool) (mode : Mode) (lineStart : Bool) (c : Char) (cs : Text) :
    Except LexCause Lexeme :=
  match Lexeme.next? mode lineStart c cs with
  | none => .error (.noMatch mode ((c :: cs).take snippetLength))
  | some l =>
    if l.kind = .legacyIdStart ∧ legacyIds = false then .error .legacyIdDisabled else .ok l

def runFrom (legacyIds : Bool) (modes : ModeStack) (lineStart : Bool) (offset : Nat) : Text → Run
  | [] => ⟨[], none⟩
  | c :: cs =>
    match read legacyIds modes.current lineStart c cs with
    | .error cause => ⟨[], some (offset, cause)⟩
    | .ok l =>
      let text := c :: cs.take l.extra
      let stop := offset + Text.bytes text
      let rest := runFrom legacyIds (modes.shift l.shift) (text.getLast? = some '\n') stop
        (cs.drop l.extra)
      ⟨⟨modes, ⟨l.kind, text, ⟨offset, stop⟩⟩, l.shift⟩ :: rest.steps, rest.stop⟩
termination_by s => s.length
decreasing_by
  rw [List.length_drop, List.length_cons]
  omega

def run (legacyIds : Bool) (source : Text) : Run := runFrom legacyIds .start false 0 source

def Run.tokens (source : Text) (r : Run) : Except LexError (List Token) :=
  match r.stop with
  | none => .ok (r.steps.map Step.token)
  | some (offset, cause) => .error ⟨offset, Text.locate source offset, cause⟩

end Lexer

def tokenize (legacyIds : Bool) (source : Text) : Except LexError (List Token) :=
  (Lexer.run legacyIds source).tokens source

end AsciiDoc
