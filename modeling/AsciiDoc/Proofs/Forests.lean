import AsciiDoc.Proofs.Derivation
import AsciiDoc.Proofs.SourceOrder

namespace AsciiDoc

namespace Node

theorem sizeOf_lt_of_mem {n m : Node} (h : Child.node m ∈ n.orderedChildren) : sizeOf m < sizeOf n := by
  obtain ⟨rule, span, children⟩ := n
  have hmem : Child.node m ∈ children := (orderedChildren_perm _).mem_iff.mp h
  have hlt := List.sizeOf_lt_of_mem hmem
  rw [Child.node.sizeOf_spec] at hlt
  rw [Node.mk.sizeOf_spec]
  omega

def leaves (n : Node) : List Token :=
  n.orderedChildren.attach.flatMap fun
    | ⟨.token t, _⟩ => [t]
    | ⟨.node m, _⟩ => m.leaves
termination_by sizeOf n
decreasing_by exact sizeOf_lt_of_mem ‹_›

inductive Contains : Node → Node → Prop
  | self (n : Node) : Contains n n
  | child {n l m : Node} (hl : Child.node l ∈ n.orderedChildren) (hm : Contains l m) : Contains n m

def Spans (n : Node) : Prop :=
  match n.span with
  | none => n.leaves = []
  | some e => e.start < e.stop ∧
    ∀ x, (e.start ≤ x ∧ x < e.stop) ↔ ∃ t ∈ n.leaves, t.extent.start ≤ x ∧ x < t.extent.stop

def Follows (n : Node) : Prop := n.orderedChildren.map Child.slot ∈ n.rule.body.matches'

end Node

def Child.leaves : Child Node → List Token
  | .token t => [t]
  | .node n => n.leaves

theorem Node.leaves_eq (n : Node) : n.leaves = n.orderedChildren.flatMap Child.leaves := by
  have hattach := congrArg (List.flatMap Child.leaves) (List.attach_map_subtype_val n.orderedChildren)
  rw [List.flatMap_map] at hattach
  rw [leaves, ← hattach]
  apply List.flatMap_congr
  rintro ⟨_ | _, _⟩ _ <;> rfl

inductive Forest : List (Child Node) → List Token → Prop
  | nil : Forest [] []
  | token (t : Token) {cs : List (Child Node)} {ts : List Token} (h : Forest cs ts) :
      Forest (.token t :: cs) (t :: ts)
  | node {r : Rule} {ds cs : List (Child Node)} {us ts : List Token}
      (hbody : ds.map Child.slot ∈ r.body.matches') (hus : us ≠ []) (hds : Forest ds us)
      (h : Forest cs ts) : Forest (.node (.ofChildren r ds) :: cs) (us ++ ts)

namespace Forest

theorem tokens (ts : List Token) : Forest (ts.map .token) ts := by
  induction ts with
  | nil => exact .nil
  | cons t ts ih => exact .token t ih

theorem single {r : Rule} {ds : List (Child Node)} {us : List Token}
    (hbody : ds.map Child.slot ∈ r.body.matches') (hus : us ≠ []) (hds : Forest ds us) :
    Forest [.node (.ofChildren r ds)] us := by
  have h := Forest.node hbody hus hds .nil
  rwa [List.append_nil] at h

theorem append {cs ds : List (Child Node)} {ts us : List Token} (hcs : Forest cs ts) (hds : Forest ds us) :
    Forest (cs ++ ds) (ts ++ us) := by
  induction hcs with
  | nil => exact hds
  | token t _ ih => exact .token t ih
  | node hbody hne hbelow _ _ ih =>
    rw [List.append_assoc]
    exact .node hbody hne hbelow ih

theorem flatMap {α : Type} {f : α → List (Child Node)} {g : α → List Token} {xs : List α}
    (h : ∀ x ∈ xs, Forest (f x) (g x)) : Forest (xs.flatMap f) (xs.flatMap g) := by
  induction xs with
  | nil => exact .nil
  | cons x xs ih =>
    obtain ⟨hx, hxs⟩ := List.forall_mem_cons.mp h
    exact hx.append (ih hxs)

theorem eq_nil_iff {cs : List (Child Node)} {ts : List Token} (h : Forest cs ts) : cs = [] ↔ ts = [] := by
  cases h with
  | nil => simp
  | token => simp
  | node _ hus => simp [hus]

theorem tiles {cs : List (Child Node)} {ts : List Token} (h : Forest cs ts) {a b : Nat}
    (hts : Tiles a b (ts.map .token)) : Tiles a b cs := by
  induction h generalizing a b with
  | nil => exact hts
  | token t _ ih =>
    cases hts with
    | cons ht hlt hrest => exact .cons ht hlt (ih hrest)
  | @node r ds cs us ts hbody hus hds _ ihds ih =>
    rw [List.map_append] at hts
    obtain ⟨m, hfirst, hrest⟩ := Tiles.append_iff.mp hts
    have hbelow := ihds hfirst
    have hne : ds ≠ [] := mt hds.eq_nil_iff.mp hus
    exact .cons (hbelow.span_ofChildren hne r) (hbelow.lt hne) (ih hrest)

theorem flatMap_leaves {cs : List (Child Node)} {ts : List Token} (h : Forest cs ts) {a b : Nat}
    (hts : Tiles a b (ts.map .token)) : cs.flatMap Child.leaves = ts := by
  induction h generalizing a b with
  | nil => rfl
  | token t _ ih =>
    cases hts with
    | cons ht hlt hrest =>
      rw [List.flatMap_cons, ih hrest]
      rfl
  | @node r ds cs us ts hbody hus hds _ ihds ih =>
    rw [List.map_append] at hts
    obtain ⟨m, hfirst, hrest⟩ := Tiles.append_iff.mp hts
    have hnode : (Node.ofChildren r ds).leaves = us := by
      rw [Node.leaves_eq, (hds.tiles hfirst).orderedChildren_ofChildren, ihds hfirst]
    rw [List.flatMap_cons, ih hrest, Child.leaves, hnode]

end Forest

theorem Tiles.covers_iff {a b : Nat} {ts : List Token} (h : Tiles a b (ts.map .token)) (x : Nat) :
    (a ≤ x ∧ x < b) ↔ ∃ t ∈ ts, t.extent.start ≤ x ∧ x < t.extent.stop := by
  induction ts generalizing a with
  | nil =>
    cases h
    simp
  | cons t ts ih =>
    cases h with
    | @cons _ m _ _ _ ht hlt hrest =>
      have hextent : t.extent = ⟨a, m⟩ := Option.some.inj ht
      have hle := hrest.le
      rw [List.exists_mem_cons_iff, ← ih hrest, hextent]
      dsimp only
      omega

namespace Forest

theorem ofChildren {r : Rule} {cs : List (Child Node)} {ts : List Token} (h : Forest cs ts)
    (hbody : cs.map Child.slot ∈ r.body.matches') {a b : Nat} (hts : Tiles a b (ts.map .token)) :
    (Node.ofChildren r cs).leaves = ts ∧ (Node.ofChildren r cs).Spans ∧ (Node.ofChildren r cs).Follows := by
  have hordered := (h.tiles hts).orderedChildren_ofChildren r
  have hleaves : (Node.ofChildren r cs).leaves = ts := by
    rw [Node.leaves_eq, hordered, h.flatMap_leaves hts]
  refine ⟨hleaves, ?_, ?_⟩
  · rw [Node.Spans, hleaves]
    by_cases hcs : cs = []
    · rw [h.eq_nil_iff.mp hcs, hcs]
      rfl
    · rw [(h.tiles hts).span_ofChildren hcs]
      exact ⟨(h.tiles hts).lt hcs, hts.covers_iff⟩
  · rw [Node.Follows, hordered]
    exact hbody

theorem sound {cs : List (Child Node)} {ts : List Token} (h : Forest cs ts) {a b : Nat}
    (hts : Tiles a b (ts.map .token)) {n m : Node} (hn : Child.node n ∈ cs) (hm : n.Contains m) :
    m.Spans ∧ m.Follows := by
  -- The induction is on the forest; a node of it is the one in front, whose children make a smaller
  -- forest, or one behind.
  induction h generalizing a b n with
  | nil => cases hn
  | token t _ ih =>
    cases hts with
    | cons ht hlt hrest =>
      rcases List.mem_cons.mp hn with hn | hn
      · cases hn
      · exact ih hrest hn hm
  | @node r ds cs us ts hbody hus hds _ ihds ih =>
    rw [List.map_append] at hts
    obtain ⟨k, hfirst, hrest⟩ := Tiles.append_iff.mp hts
    rcases List.mem_cons.mp hn with hn | hn
    · obtain rfl := Child.node.inj hn
      cases hm with
      | self => exact (hds.ofChildren hbody hfirst).2
      | child hl hm =>
        rw [(hds.tiles hfirst).orderedChildren_ofChildren] at hl
        exact ihds hfirst hl hm
    · exact ih hrest hn hm

end Forest

end AsciiDoc
