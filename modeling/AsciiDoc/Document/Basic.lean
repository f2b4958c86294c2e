import AsciiDoc.Location

namespace AsciiDoc

structure Line where
  words : List Text
  location : Location
  deriving DecidableEq, Repr

structure Headline where
  level : Nat
  title : Line
  location : Location
  deriving DecidableEq, Repr

structure Paragraph where
  lines : List Line
  isLiteral : Bool
  location : Location
  deriving DecidableEq, Repr

structure AttributeValue where
  values : List Text
  location : Location
  deriving DecidableEq, Repr

structure Attribute where
  key : Option Text
  value : AttributeValue
  location : Location
  deriving DecidableEq, Repr

structure AttributeList where
  attributes : List Attribute
  location : Location
  deriving DecidableEq, Repr

structure AttributeBlock where
  list : AttributeList
  location : Location
  deriving DecidableEq, Repr

inductive Block where
  | headline (h : Headline)
  | paragraph (p : Paragraph)
  | emptyLine (location : Location)
  | attributes (b : AttributeBlock)
  deriving DecidableEq, Repr

structure Document where
  blocks : List Block
  location : Location
  deriving DecidableEq, Repr

inductive Mark where
  | id
  | role
  | option
  deriving DecidableEq, Repr

namespace Mark

def key : Mark → Text
  | id => ['i', 'd']
  | role => ['r', 'o', 'l', 'e']
  | option => ['o', 'p', 't', 'i', 'o', 'n']

def symbol : Mark → Char
  | id => '#'
  | role => '.'
  | option => '%'

def ofKey? (key : Text) : Option Mark := [id, role, option].find? fun m => m.key = key

end Mark

namespace Line

def joined (l : Line) : Text := Text.unwords l.words

end Line

namespace Headline

/-- How many signs a level has, in 64-bit arithmetic: the greatest level has none. Beyond 64 bits a level
counts the signs itself. -/
def signs (level : Nat) : Nat :=
  if level < Nat.pow 2 64 then (level + 1) % Nat.pow 2 64 else level

def levelOf (signs : Nat) : Nat := if signs < Nat.pow 2 64 then signs - 1 else signs

def marker (h : Headline) : Text := List.replicate (signs h.level) '='

end Headline

def Attribute.extend (values : List Text) (a : Attribute) : Attribute :=
  { a with value := ⟨a.value.values ++ values, a.value.location⟩ }

namespace AttributeList

def get? (l : AttributeList) (key : Text) : Option Attribute :=
  l.attributes.find? fun a => a.key = some key

end AttributeList

namespace Block

def isEmptyLine : Block → Bool
  | emptyLine _ => true
  | _ => false

def location : Block → Location
  | headline h => h.location
  | paragraph p => p.location
  | emptyLine l => l
  | attributes b => b.location

end Block

namespace Document

def isEmpty (d : Document) : Bool := d.blocks.isEmpty

def headlines (d : Document) : List Headline :=
  d.blocks.filterMap fun
    | .headline h => some h
    | _ => none

def attributeBlocks (d : Document) : List AttributeBlock :=
  d.blocks.filterMap fun
    | .attributes b => some b
    | _ => none

end Document

end AsciiDoc
