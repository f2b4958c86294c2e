import AsciiDoc.Tree.Basic
import Mathlib.Data.List.Sort

namespace AsciiDoc

theorem Slot.nodup_all : Slot.all.Nodup := by decide

theorem Slot.mem_all (s : Slot) : s ∈ Slot.all := by
  cases s with
  | token k => exact List.mem_append_left _ (List.mem_map_of_mem (Kind.mem_all k))
  | rule r => exact List.mem_append_right _ (List.mem_map_of_mem (Rule.mem_all r))

namespace Child

def byStart (a b : Child Node) : Prop := a.start ≤ b.start

instance : DecidableRel byStart := fun a b => inferInstanceAs (Decidable (a.start ≤ b.start))

instance : Std.Total byStart := ⟨fun a b => Nat.le_total a.start b.start⟩

instance : IsTrans (Child Node) byStart := ⟨fun _ _ _ hab hbc => Nat.le_trans hab hbc⟩

theorem sortByStart_eq (cs : List (Child Node)) : sortByStart cs = cs.insertionSort byStart := by
  have hinsert (c : Child Node) (ds : List (Child Node)) :
      insertByStart c ds = ds.orderedInsert byStart c := by
    induction ds with
    | nil => rfl
    | cons d ds ih =>
      rw [insertByStart, List.orderedInsert_cons, ih]
      rfl
  induction cs with
  | nil => rfl
  | cons c cs ih =>
    rw [List.insertionSort_cons, ← hinsert, ← ih]
    rfl

theorem flatMap_slots_perm {ss : List Slot} (hss : ss.Nodup) (cs : List (Child Node))
    (hcs : ∀ c ∈ cs, c.slot ∈ ss) :
    (ss.flatMap fun s => cs.filter fun c => c.slot = s).Perm cs := by
  induction cs with
  | nil => simp
  | cons c cs ih =>
    have hrest := ih fun d hd => hcs d (List.mem_cons_of_mem c hd)
    obtain ⟨before, after, rfl⟩ := List.append_of_mem (hcs c List.mem_cons_self)
    have hother {s : Slot} (hs : s ∈ before ∨ s ∈ after) :
        ((c :: cs).filter fun d => d.slot = s) = cs.filter fun d => d.slot = s := by
      have hne : c.slot ≠ s := by
        rintro rfl
        rcases hs with hs | hs
        · exact (List.nodup_append.mp hss).2.2 c.slot hs c.slot List.mem_cons_self rfl
        · exact (List.nodup_cons.mp (List.nodup_append.mp hss).2.1).1 hs
      rw [List.filter_cons_of_neg (by simpa using hne)]
    have hsame : ((c :: cs).filter fun d => d.slot = c.slot) = c :: cs.filter fun d => d.slot = c.slot :=
      List.filter_cons_of_pos (by simp)
    rw [List.flatMap_append, List.flatMap_cons] at hrest ⊢
    rw [List.flatMap_congr fun s hs => hother (Or.inl hs),
      List.flatMap_congr (l := after) fun s hs => hother (Or.inr hs), hsame, List.cons_append]
    exact List.perm_middle.trans (hrest.cons c)

end Child

theorem Node.orderedChildren_perm (n : Node) : n.orderedChildren.Perm n.children := by
  rw [orderedChildren, Child.sortByStart_eq]
  apply (List.perm_insertionSort Child.byStart _).trans
  exact Child.flatMap_slots_perm Slot.nodup_all n.children fun c _ => Slot.mem_all c.slot

theorem Node.orderedChildren_eq {n : Node} (h : n.children.Pairwise fun a b => a.start < b.start) :
    n.orderedChildren = n.children := by
  have hsorted : n.orderedChildren.Pairwise Child.byStart := by
    rw [orderedChildren, Child.sortByStart_eq]
    exact List.pairwise_insertionSort Child.byStart _
  have hperm := n.orderedChildren_perm
  have hdistinct : n.orderedChildren.Pairwise fun a b => a.start ≠ b.start :=
    hperm.symm.pairwise (h.imp fun hlt => Nat.ne_of_lt hlt) fun hne => Ne.symm hne
  have hstrict : n.orderedChildren.Pairwise fun a b => a.start < b.start :=
    hsorted.imp₂ (fun _ _ hle hne => Nat.lt_of_le_of_ne hle hne) hdistinct
  exact hperm.eq_of_pairwise (fun a b _ _ hab hba => absurd hab (Nat.lt_asymm hba)) hstrict h

inductive Tiles : Nat → Nat → List (Child Node) → Prop
  | nil (a : Nat) : Tiles a a []
  | cons {a b d : Nat} {c : Child Node} {cs : List (Child Node)} (hc : c.extent? = some ⟨a, b⟩)
      (hlt : a < b) (h : Tiles b d cs) : Tiles a d (c :: cs)

namespace Tiles

theorem le {a b : Nat} {cs : List (Child Node)} (h : Tiles a b cs) : a ≤ b := by
  induction h with
  | nil a => exact Nat.le_refl a
  | cons hc hlt h ih => omega

theorem lt {a b : Nat} {cs : List (Child Node)} (h : Tiles a b cs) (hcs : cs ≠ []) : a < b := by
  cases h with
  | nil => exact absurd rfl hcs
  | cons hc hlt h =>
    have := h.le
    omega

theorem append_iff {a b : Nat} {cs ds : List (Child Node)} :
    Tiles a b (cs ++ ds) ↔ ∃ m, Tiles a m cs ∧ Tiles m b ds := by
  induction cs generalizing a with
  | nil =>
    constructor
    · intro h
      exact ⟨a, .nil a, h⟩
    · rintro ⟨m, hnil, h⟩
      cases hnil
      exact h
  | cons c cs ih =>
    constructor
    · intro h
      cases h with
      | cons hc hlt h =>
        obtain ⟨m, hcs, hds⟩ := ih.mp h
        exact ⟨m, .cons hc hlt hcs, hds⟩
    · rintro ⟨m, h, hds⟩
      cases h with
      | cons hc hlt hcs => exact .cons hc hlt (ih.mpr ⟨m, hcs, hds⟩)

theorem start_ge {a b : Nat} {cs : List (Child Node)} (h : Tiles a b cs) : ∀ c ∈ cs, a ≤ c.start := by
  induction h with
  | nil => simp
  | @cons a b d c cs hc hlt h ih =>
    have hstart : c.start = a := by rw [Child.start, hc]; rfl
    intro e he
    rcases List.mem_cons.mp he with rfl | he
    · omega
    · have := ih e he
      omega

theorem pairwise {a b : Nat} {cs : List (Child Node)} (h : Tiles a b cs) :
    cs.Pairwise fun c d => c.start < d.start := by
  induction h with
  | nil => exact .nil
  | @cons a b d c cs hc hlt h ih =>
    have hstart : c.start = a := by rw [Child.start, hc]; rfl
    refine .cons ?_ ih
    intro e he
    have := h.start_ge e he
    omega

theorem foldl_widen {a b x : Nat} {cs : List (Child Node)} (h : Tiles a b cs) (hx : x ≤ a) :
    (cs.map Child.extent?).foldl Node.widen (some ⟨x, a⟩) = some ⟨x, b⟩ := by
  induction h with
  | nil => rfl
  | @cons a b d c cs hc hlt h ih =>
    have hunion : Extent.union ⟨x, a⟩ ⟨a, b⟩ = ⟨x, b⟩ := by
      simp only [Extent.union, Extent.mk.injEq]
      omega
    rw [List.map_cons, List.foldl_cons, hc, Node.widen, hunion]
    exact ih (by omega)

theorem span_ofChildren {a b : Nat} {cs : List (Child Node)} (h : Tiles a b cs) (hcs : cs ≠ [])
    (r : Rule) : (Node.ofChildren r cs).span = some ⟨a, b⟩ := by
  cases h with
  | nil => exact absurd rfl hcs
  | cons hc hlt h =>
    rw [Node.ofChildren, List.map_cons, List.foldl_cons, hc]
    exact h.foldl_widen (Nat.le_of_lt hlt)

theorem orderedChildren_ofChildren {a b : Nat} {cs : List (Child Node)} (h : Tiles a b cs) (r : Rule) :
    (Node.ofChildren r cs).orderedChildren = cs := Node.orderedChildren_eq h.pairwise

end Tiles

end AsciiDoc
