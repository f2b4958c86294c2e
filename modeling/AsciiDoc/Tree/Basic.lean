import AsciiDoc.Token.Basic

/-!
Syntax trees. A node belongs to a rule of the grammar and keeps its children in the order in which
they were added. Read by slot, tokens come first, by kind, and nodes follow, by rule; read in order,
children are sorted by where they start.
-/

namespace AsciiDoc

inductive Rule where
  | text
  | headline
  | emptyLine
  | paragraph
  | attributeValue
  | attributeEntry
  | shorthand
  | attributeList
  | attributeBlock
  | document
  deriving DecidableEq, Repr

namespace Rule

def all : List Rule :=
  [text, headline, emptyLine, paragraph, attributeValue, attributeEntry, shorthand, attributeList,
    attributeBlock, document]

def name : Rule → String
  | text => "text"
  | headline => "headline"
  | emptyLine => "emptyLine"
  | paragraph => "paragraph"
  | attributeValue => "attributeValue"
  | attributeEntry => "attributeEntry"
  | shorthand => "attributeEntryShorthand"
  | attributeList => "attributeList"
  | attributeBlock => "attributeBlock"
  | document => "document"

theorem mem_all (r : Rule) : r ∈ all := by cases r <;> decide

end Rule

inductive Child (α : Type) where
  | token (t : Token)
  | node (n : α)

structure Node where
  rule : Rule
  span : Option Extent
  children : List (Child Node)

inductive Slot where
  | token (kind : Kind)
  | rule (rule : Rule)
  deriving DecidableEq, Repr

namespace Slot

def all : List Slot := Kind.all.map token ++ Rule.all.map rule

def name : Slot → String
  | token k => "token:" ++ k.name
  | rule r => "rule:" ++ r.name

end Slot

namespace Child

def slot : Child Node → Slot
  | token t => .token t.kind
  | node n => .rule n.rule

def extent? : Child Node → Option Extent
  | token t => some t.extent
  | node n => n.span

/-- Where the child starts; one without an extent is taken to stand at the very end. -/
def start (c : Child Node) : Nat := (c.extent?.map Extent.start).getD Extent.lastOffset

def token? : Child Node → Option Token
  | token t => some t
  | node _ => none

def node? : Child Node → Option Node
  | token _ => none
  | node n => some n

def insertByStart (c : Child Node) : List (Child Node) → List (Child Node)
  | [] => [c]
  | d :: ds => if c.start ≤ d.start then c :: d :: ds else d :: insertByStart c ds

def sortByStart (cs : List (Child Node)) : List (Child Node) := cs.foldr insertByStart []

end Child

namespace Node

def widen : Option Extent → Option Extent → Option Extent
  | none, e => e
  | some a, none => some a
  | some a, some b => some (a.union b)

def empty (r : Rule) : Node := ⟨r, none, []⟩

def push (n : Node) (c : Child Node) : Node :=
  ⟨n.rule, widen n.span c.extent?, n.children ++ [c]⟩

def ofChildren (r : Rule) (cs : List (Child Node)) : Node :=
  ⟨r, (cs.map Child.extent?).foldl widen none, cs⟩

def tokens (n : Node) (k : Kind) : List Token :=
  (n.children.filterMap Child.token?).filter fun t => t.kind = k

def nodes (n : Node) (r : Rule) : List Node :=
  (n.children.filterMap Child.node?).filter fun m => m.rule = r

def hasToken (n : Node) (k : Kind) : Bool := !(n.tokens k).isEmpty

def slotChildren (n : Node) (s : Slot) : List (Child Node) :=
  n.children.filter fun c => c.slot = s

def slots (n : Node) : List (Slot × Nat) :=
  (Slot.all.map fun s => (s, (n.slotChildren s).length)).filter fun p => p.2 != 0

def orderedChildren (n : Node) : List (Child Node) :=
  Child.sortByStart (Slot.all.flatMap n.slotChildren)

def orderedNodes (n : Node) : List Node := n.orderedChildren.filterMap Child.node?

theorem foldl_push (cs : List (Child Node)) (n : Node) :
    cs.foldl push n = ⟨n.rule, (cs.map Child.extent?).foldl widen n.span, n.children ++ cs⟩ := by
  induction cs generalizing n with
  | nil => cases n; simp
  | cons c cs ih => simp [ih, push]

theorem ofChildren_eq_foldl_push (r : Rule) (cs : List (Child Node)) :
    ofChildren r cs = cs.foldl push (empty r) := by
  simp [foldl_push, ofChildren, empty]

end Node

end AsciiDoc
