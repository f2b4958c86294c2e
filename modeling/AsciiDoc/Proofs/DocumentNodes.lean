import AsciiDoc.Document.Outline
import Mathlib.Data.List.Basic

namespace AsciiDoc

inductive DocumentNode where
  | root (d : Document)
  | headline (h : Headline)
  | paragraph (p : Paragraph)
  | text (l : Line)
  | emptyLine (location : Location)
  | attributeBlock (b : AttributeBlock)
  | attributeList (l : AttributeList)
  | attributeItem (a : Attribute)
  | attributeValue (v : AttributeValue)

/-- A node in the tree of a document. The marks tell, for each node on the way from the root down to this
one and the root left out, whether it is the last child of the node above it. -/
structure PlacedNode where
  lasts : List Bool
  node : DocumentNode

namespace DocumentNode

def element : DocumentNode → Element
  | root _ => .root
  | headline _ => .headline
  | paragraph _ => .paragraph
  | text _ => .text
  | emptyLine _ => .emptyLine
  | attributeBlock _ => .attributeBlock
  | attributeList _ => .attributeList
  | attributeItem _ => .attributeItem
  | attributeValue _ => .attributeValue

def label : DocumentNode → Text
  | root d => d.label
  | headline h => h.label
  | paragraph p => p.label
  | text l => l.label
  | emptyLine _ => []
  | attributeBlock b => b.label
  | attributeList l => l.label
  | attributeItem a => a.label
  | attributeValue v => v.label

def location : DocumentNode → Location
  | root d => d.location
  | headline h => h.location
  | paragraph p => p.location
  | text l => l.location
  | emptyLine location => location
  | attributeBlock b => b.location
  | attributeList l => l.location
  | attributeItem a => a.location
  | attributeValue v => v.location

end DocumentNode

def PlacedNode.depth (n : PlacedNode) : Nat := n.lasts.length

def markLast {α : Type} (xs : List α) : List (α × Bool) :=
  xs.mapIdx fun i x => (x, i + 1 = xs.length)

namespace Block

def placedNodes (b : Block) (last : Bool) : List PlacedNode :=
  match b with
  | headline h => [⟨[last], .headline h⟩, ⟨[last, true], .text h.title⟩]
  | paragraph p => ⟨[last], .paragraph p⟩ :: (markLast p.lines).map fun x => ⟨[last, x.2], .text x.1⟩
  | emptyLine location => [⟨[last], .emptyLine location⟩]
  | attributes b => ⟨[last], .attributeBlock b⟩ :: ⟨[last, true], .attributeList b.list⟩ ::
      (markLast b.list.attributes).flatMap fun x =>
        [⟨[last, true, x.2], .attributeItem x.1⟩, ⟨[last, true, x.2, true], .attributeValue x.1.value⟩]

end Block

def Document.placedNodes (d : Document) : List PlacedNode :=
  ⟨[], .root d⟩ :: (markLast d.blocks).flatMap fun x => x.1.placedNodes x.2

theorem markLast_cons {α : Type} (x : α) (xs : List α) : markLast (x :: xs) = (x, xs.isEmpty) :: markLast xs := by
  rw [markLast, List.mapIdx_cons, markLast]
  cases xs <;> simp

theorem mem_of_mem_markLast {α : Type} {xs : List α} {x : α × Bool} (h : x ∈ markLast xs) : x.1 ∈ xs := by
  induction xs with
  | nil => cases h
  | cons y xs ih =>
    rw [markLast_cons] at h
    rcases List.mem_cons.mp h with rfl | h
    · exact List.mem_cons_self
    · exact List.mem_cons_of_mem _ (ih h)

namespace Outline

mutual

def placed (lasts : List Bool) : Outline → List (List Bool × Outline)
  | ⟨element, label, location, parts⟩ => (lasts, ⟨element, label, location, parts⟩) :: placedAll lasts parts

def placedAll (lasts : List Bool) : List Outline → List (List Bool × Outline)
  | [] => []
  | o :: os => placed (lasts ++ [os.isEmpty]) o ++ placedAll lasts os

end

theorem placed_eq (lasts : List Bool) (o : Outline) : placed lasts o = (lasts, o) :: placedAll lasts o.parts := by
  cases o
  rw [placed]

theorem placedAll_map {α : Type} (lasts : List Bool) (f : α → Outline) (xs : List α) :
    placedAll lasts (xs.map f) = (markLast xs).flatMap fun x => placed (lasts ++ [x.2]) (f x.1) := by
  induction xs with
  | nil => rfl
  | cons x xs ih => rw [markLast_cons, List.flatMap_cons, List.map_cons, placedAll, ih, List.isEmpty_map]

theorem placedAll_singleton (lasts : List Bool) (o : Outline) : placedAll lasts [o] = placed (lasts ++ [true]) o := by
  rw [placedAll, placedAll, List.append_nil]
  rfl

theorem exists_of_mem_placedAll {lasts : List Bool} {os : List Outline} {x : List Bool × Outline}
    (h : x ∈ placedAll lasts os) : ∃ o ∈ os, ∃ marks, x ∈ o.placed marks := by
  induction os with
  | nil => cases h
  | cons o os ih =>
    rw [placedAll, List.mem_append] at h
    rcases h with h | h
    · exact ⟨o, List.mem_cons_self, _, h⟩
    · obtain ⟨p, hp, hx⟩ := ih h
      exact ⟨p, List.mem_cons_of_mem _ hp, hx⟩

mutual

theorem preorder_eq : (o : Outline) → (lasts : List Bool) →
    preorder lasts.length o = (placed lasts o).map fun x => ⟨x.1.length, x.2.element, x.2.label, x.2.location⟩
  | ⟨element, label, location, parts⟩, lasts => by
    rw [preorder, placed, List.map_cons, preorderAll_eq parts lasts]

theorem preorderAll_eq : (os : List Outline) → (lasts : List Bool) →
    preorderAll (lasts.length + 1) os =
      (placedAll lasts os).map fun x => ⟨x.1.length, x.2.element, x.2.label, x.2.location⟩
  | [], _ => rfl
  | o :: os, lasts => by
    have ho := preorder_eq o (lasts ++ [os.isEmpty])
    rw [List.length_append, List.length_singleton] at ho
    rw [preorderAll, placedAll, List.map_append, ho, preorderAll_eq os lasts]

end

end Outline

def DocumentNode.outline : DocumentNode → Outline
  | root d => d.outline
  | headline h => h.outline
  | paragraph p => p.outline
  | text l => l.outline
  | emptyLine location => ⟨.emptyLine, [], location, []⟩
  | attributeBlock b => b.outline
  | attributeList l => l.outline
  | attributeItem a => a.outline
  | attributeValue v => v.outline

namespace DocumentNode

@[simp] theorem element_outline (n : DocumentNode) : n.outline.element = n.element := by cases n <;> rfl

@[simp] theorem label_outline (n : DocumentNode) : n.outline.label = n.label := by cases n <;> rfl

@[simp] theorem location_outline (n : DocumentNode) : n.outline.location = n.location := by cases n <;> rfl

end DocumentNode

def PlacedNode.outline (n : PlacedNode) : List Bool × Outline := (n.lasts, n.node.outline)

theorem Block.placed_outline (b : Block) (last : Bool) :
    b.outline.placed [last] = (b.placedNodes last).map PlacedNode.outline := by
  cases b with
  | headline h =>
    rw [outline, Outline.placed_eq, Headline.outline, Outline.placedAll_singleton]
    rfl
  | paragraph p =>
    have hlines := List.map_eq_flatMap (f := fun x : Line × Bool =>
      PlacedNode.outline ⟨[last, x.2], .text x.1⟩) (l := markLast p.lines)
    rw [outline, Outline.placed_eq, Paragraph.outline, Outline.placedAll_map, placedNodes, List.map_cons, List.map_map]
    exact congrArg _ hlines.symm
  | emptyLine location => rfl
  | attributes b =>
    rw [outline, Outline.placed_eq, AttributeBlock.outline, Outline.placedAll_singleton, Outline.placed_eq,
      AttributeList.outline, Outline.placedAll_map, placedNodes, List.map_cons, List.map_cons, List.map_flatMap]
    rfl

/-- The outline shows the document: its nodes are those of the blocks, lines, lists, attributes and values. -/
theorem Document.placed_outline (d : Document) : d.outline.placed [] = d.placedNodes.map PlacedNode.outline := by
  rw [Outline.placed_eq, outline, Outline.placedAll_map, placedNodes, List.map_cons, List.map_flatMap]
  simp only [List.nil_append, Block.placed_outline]
  rfl

theorem Document.preorder_outline (d : Document) : d.outline.preorder 0 =
    d.placedNodes.map fun n => ⟨n.depth, n.node.element, n.node.label, n.node.location⟩ := by
  have hentries := Outline.preorder_eq d.outline []
  rw [placed_outline, List.map_map] at hentries
  rw [show (0 : Nat) = ([] : List Bool).length from rfl, hentries]
  simp [Function.comp_def, PlacedNode.outline, PlacedNode.depth]

end AsciiDoc
