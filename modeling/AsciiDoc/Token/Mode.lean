import AsciiDoc.Token.Basic

/-!
Lexical modes. What a character means depends on whether it stands in running text, in an attribute
list, in the brackets of a legacy id or in a quoted value; the modes entered and not yet left form a
stack, at whose bottom the root mode always stays.
-/

namespace AsciiDoc

inductive Mode where
  | root
  | attributeList
  | legacyId
  | string
  deriving DecidableEq, Repr

namespace Mode

def name : Mode → String
  | root => "root"
  | attributeList => "attribute-list"
  | legacyId => "legacy-id"
  | string => "string"

def kinds : Mode → List Kind
  | root => [.headline, .listStart, .space, .emptyLine, .newline, .tab, .inlineText]
  | attributeList =>
    [.listEnd, .legacyIdStart, .comma, .stringStart, .assignment, .optionMark, .idMark, .roleMark,
      .listText]
  | legacyId => [.legacyIdEnd, .listText]
  | string => [.stringEnd, .stringText, .space]

end Mode

structure ModeStack where
  entered : List Mode
  deriving DecidableEq, Repr

inductive Shift where
  | stay
  | push (mode : Mode)
  | pop
  deriving DecidableEq, Repr

namespace ModeStack

def start : ModeStack := ⟨[]⟩

def current (s : ModeStack) : Mode := s.entered.headD .root

def depth (s : ModeStack) : Nat := s.entered.length + 1

def push (s : ModeStack) (m : Mode) : ModeStack := ⟨m :: s.entered⟩

def pop (s : ModeStack) : Option Mode × ModeStack :=
  match s.entered with
  | [] => (none, s)
  | m :: rest => (some m, ⟨rest⟩)

def shift (s : ModeStack) : Shift → ModeStack
  | .stay => s
  | .push m => s.push m
  | .pop => s.pop.2

end ModeStack

end AsciiDoc
