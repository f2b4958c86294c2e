import AsciiDoc.Proofs.Items

namespace AsciiDoc

def Mark.ofKind? (k : Kind) : Option Mark := [id, role, option].find? fun m => m.kind = k

theorem Mark.ofKind?_kind (m : Mark) : Mark.ofKind? m.kind = some m := by
  cases m <;> rfl

namespace Token

def textLocation (ts : List Token) : Location :=
  (ts.filter fun t => t.kind = .listText).foldl (fun l t => l.union (.ofExtent t.extent)) .unresolved

def values (ts : List Token) : List Text :=
  texts (if ts.any fun t => t.kind = .stringStart then .stringText else .listText) ts

end Token

structure Gathered where
  mark : Option Mark
  built : Attribute

namespace Gathered

def extend (values : List Text) (g : Gathered) : Gathered := ⟨g.mark, g.built.extend values⟩

def extendMark (m : Mark) (values : List Text) (gs : List Gathered) : List Gathered :=
  gs.map fun g => if g.mark = some m then g.extend values else g

def addItem (parent : Rule) (gs : List Gathered) (item : Node) : Except TreeError (List Gathered) :=
  match item.rule with
  | .attributeEntry => do return gs ++ [⟨none, ← item.toEntry⟩]
  | .shorthand => do
    let m ← item.mark
    let values := item.texts .listText
    if gs.any fun g => g.mark = some m then return extendMark m values gs
    else return gs ++ [⟨some m, some m.key, ⟨values, item.valueLocation⟩, ← item.location⟩]
  | r => .error (.unexpectedNode parent r)

section Index

variable {gs : List Gathered} {m : Mark}

def indexOf? (gs : List Gathered) (m : Mark) : Option Nat := gs.findIdx? fun g => g.mark = some m

def index (gs : List Gathered) : Gathering := ⟨gs.map built, indexOf? gs⟩

theorem extendMark_of_ne (h : ∀ g ∈ gs, g.mark ≠ some m) (vs : List Text) : extendMark m vs gs = gs := by
  induction gs with
  | nil => rfl
  | cons g gs ih =>
    obtain ⟨hg, hgs⟩ := List.forall_mem_cons.mp h
    rw [extendMark, List.map_cons, if_neg hg]
    exact congrArg (g :: ·) (ih hgs)

theorem mark_extendMark (m : Mark) (vs : List Text) (gs : List Gathered) :
    (extendMark m vs gs).map mark = gs.map mark := by
  rw [extendMark, List.map_map]
  apply List.map_congr_left
  intro g _
  rw [Function.comp_apply]
  split <;> rfl

theorem indexOf?_congr {hs : List Gathered} (h : hs.map mark = gs.map mark) : indexOf? hs = indexOf? gs := by
  have hmarks (gs : List Gathered) (m : Mark) : indexOf? gs m = (gs.map mark).findIdx? fun x => x = some m := by
    rw [List.findIdx?_map]
    rfl
  funext m
  rw [hmarks, hmarks, h]

theorem map_built_extendMark (h : (gs.filterMap mark).Nodup) {i : Nat} (hi : indexOf? gs m = some i)
    (vs : List Text) : (extendMark m vs gs).map built = (gs.map built).modify i (Attribute.extend vs) := by
  induction gs generalizing i with
  | nil => cases hi
  | cons g gs ih =>
    rw [indexOf?, List.findIdx?_cons] at hi
    by_cases hg : g.mark = some m
    · rw [List.filterMap_cons_some hg, List.nodup_cons] at h
      have hother : ∀ f ∈ gs, f.mark ≠ some m := fun f hf hmark => h.1 (List.mem_filterMap.mpr ⟨f, hf, hmark⟩)
      rw [if_pos (by simpa using hg)] at hi
      cases hi
      have hrest := extendMark_of_ne hother vs
      rw [extendMark] at hrest ⊢
      rw [List.map_cons, if_pos hg, hrest]
      rfl
    · have hrest : (gs.filterMap mark).Nodup := by
        rw [List.filterMap_cons] at h
        split at h
        · exact h
        · exact h.of_cons
      rw [if_neg (by simpa using hg)] at hi
      obtain ⟨j, hj, rfl⟩ := Option.map_eq_some_iff.mp hi
      have htail := ih hrest hj
      rw [extendMark] at htail ⊢
      rw [List.map_cons, if_neg hg, List.map_cons, htail]
      rfl

theorem index_extendMark (h : (gs.filterMap mark).Nodup) {i : Nat} (hi : indexOf? gs m = some i)
    (vs : List Text) : index (extendMark m vs gs) = (index gs).extendAt i vs := by
  rw [index, map_built_extendMark h hi, indexOf?_congr (mark_extendMark m vs gs)]
  rfl

theorem index_concat (gs : List Gathered) (a : Attribute) : index (gs ++ [⟨none, a⟩]) = (index gs).push a := by
  have hindex : indexOf? (gs ++ [⟨none, a⟩]) = indexOf? gs := by
    funext m
    rw [indexOf?, List.findIdx?_append]
    simp [indexOf?]
  rw [index, hindex, List.map_append]
  rfl

theorem index_concat_mark (h : indexOf? gs m = none) (a : Attribute) :
    index (gs ++ [⟨some m, a⟩]) = (index gs).pushMark m a := by
  have hindex : indexOf? (gs ++ [⟨some m, a⟩]) =
      fun k => if k = m then some gs.length else indexOf? gs k := by
    funext k
    rw [indexOf?, List.findIdx?_append]
    by_cases hk : k = m
    · subst hk
      rw [if_pos rfl, show gs.findIdx? _ = none from h]
      simp
    · rw [if_neg hk]
      simp [indexOf?, Ne.symm hk]
  rw [index, hindex, List.map_append, Gathering.pushMark]
  simp [index]

theorem any_mark (gs : List Gathered) (m : Mark) :
    (gs.any fun g => g.mark = some m) = (indexOf? gs m).isSome := List.findIdx?_isSome.symm

theorem addItem_index (h : (gs.filterMap mark).Nodup) (parent : Rule) (item : Node) :
    Gathering.addItem parent (index gs) item = (addItem parent gs item).map index := by
  unfold Gathering.addItem addItem
  cases item.rule with
  | attributeEntry =>
    cases item.toEntry with
    | error e => rfl
    | ok a => exact congrArg Except.ok (index_concat gs a).symm
  | shorthand =>
    cases item.mark with
    | error e => rfl
    | ok m =>
      have hmerged : (index gs).merged m = indexOf? gs m := rfl
      simp only [bind, Except.bind, pure, Except.pure, any_mark, hmerged]
      cases hindex : indexOf? gs m with
      | some i => exact congrArg Except.ok (index_extendMark h hindex _).symm
      | none =>
        cases item.location with
        | error e => rfl
        | ok l => exact congrArg Except.ok (index_concat_mark hindex _).symm
  | _ => rfl

theorem notMem_of_indexOf? (h : indexOf? gs m = none) : m ∉ gs.filterMap mark := by
  intro hmem
  obtain ⟨g, hg, hmark⟩ := List.mem_filterMap.mp hmem
  have hnone := List.findIdx?_eq_none_iff.mp h g hg
  simp [hmark] at hnone

theorem filterMap_extendMark (m : Mark) (vs : List Text) (gs : List Gathered) :
    (extendMark m vs gs).filterMap mark = gs.filterMap mark := by
  have hmarks (gs : List Gathered) : gs.filterMap mark = (gs.map mark).filterMap id := by
    rw [List.filterMap_map]
    rfl
  rw [hmarks, mark_extendMark, ← hmarks]

theorem nodup_addItem (h : (gs.filterMap mark).Nodup) {parent : Rule} {item : Node} {hs : List Gathered}
    (hadd : addItem parent gs item = .ok hs) : (hs.filterMap mark).Nodup := by
  unfold addItem at hadd
  cases hrule : item.rule with
  | attributeEntry =>
    rw [hrule] at hadd
    cases hentry : item.toEntry with
    | error e =>
      rw [hentry] at hadd
      cases hadd
    | ok a =>
      rw [hentry] at hadd
      cases hadd
      simpa using h
  | shorthand =>
    rw [hrule] at hadd
    cases hmark : item.mark with
    | error e =>
      rw [hmark] at hadd
      cases hadd
    | ok m =>
      simp only [hmark, bind, Except.bind, pure, Except.pure, any_mark] at hadd
      cases hindex : indexOf? gs m with
      | some i =>
        rw [hindex] at hadd
        cases hadd
        rwa [filterMap_extendMark]
      | none =>
        rw [hindex] at hadd
        cases hlocation : item.location with
        | error e =>
          rw [hlocation] at hadd
          cases hadd
        | ok l =>
          rw [hlocation] at hadd
          cases hadd
          rw [List.filterMap_append]
          exact h.append (List.nodup_singleton m) (by simpa using notMem_of_indexOf? hindex)
  | _ =>
    rw [hrule] at hadd
    cases hadd

theorem foldlM_index (gs : List Gathered) (h : (gs.filterMap mark).Nodup) (parent : Rule) (items : List Node) :
    items.foldlM (Gathering.addItem parent) (index gs) = (items.foldlM (addItem parent) gs).map index := by
  induction items generalizing gs with
  | nil => rfl
  | cons item items ih =>
    rw [List.foldlM_cons, List.foldlM_cons, addItem_index h]
    cases hadd : addItem parent gs item with
    | error e => rfl
    | ok hs => exact ih hs (nodup_addItem h hadd)

end Index

end Gathered

/-- The list of a node, with the marks kept at the attributes instead of an index for each mark. -/
theorem Node.toAttributeList_eq (n : Node) : n.toAttributeList = do
    let gathered ← n.orderedNodes.foldlM (Gathered.addItem n.rule) []
    return ⟨gathered.map Gathered.built, ← n.location⟩ := by
  have hfold : n.orderedNodes.foldlM (Gathering.addItem n.rule) .empty =
      (n.orderedNodes.foldlM (Gathered.addItem n.rule) []).map Gathered.index :=
    Gathered.foldlM_index [] List.nodup_nil n.rule n.orderedNodes
  rw [toAttributeList, hfold]
  cases n.orderedNodes.foldlM (Gathered.addItem n.rule) [] <;> rfl

def Gathered.shorthand (m : Mark) (ts : List Token) (gs : List Gathered) : List Gathered :=
  if gs.any fun g => g.mark = some m then extendMark m (Token.texts .listText ts) gs
  else gs ++ [⟨some m, some m.key, ⟨Token.texts .listText ts, Token.textLocation ts⟩, Token.location ts⟩]

namespace Item

def mark? : Item → Option Mark
  | legacyId _ _ _ => some .id
  | marked pairs => pairs.head?.bind fun p => Mark.ofKind? p.1.kind
  | _ => none

def gather (gs : List Gathered) : Item → List Gathered
  | punctuation _ => gs
  | entry key value =>
    gs ++ [⟨none, key.map fun p => p.1.text, ⟨Token.values value, Token.location value⟩,
      Token.location (entry key value).tokens⟩]
  | i => (i.mark?.map fun m => Gathered.shorthand m i.tokens gs).getD gs

theorem child_marked (pairs : List (Token × Token)) : (marked pairs).child =
    .node (.ofChildren .shorthand ((marked pairs).tokens.map .token)) := by
  rw [child, tokens, List.map_flatMap]
  rfl

theorem child_of_mark? {i : Item} {m : Mark} (h : i.mark? = some m) :
    i.child = .node (.ofChildren .shorthand (i.tokens.map .token)) := by
  cases i with
  | punctuation t => cases h
  | entry key value => cases h
  | legacyId a b c => rfl
  | marked pairs => exact child_marked pairs

theorem extent_child (i : Item) : i.child.extent? = Token.span? i.tokens := by
  match i with
  | punctuation t => rfl
  | legacyId a b c => rfl
  | marked pairs =>
    rw [child_marked]
    exact Node.extents_tokens _
  | entry none value => exact Node.extents_tokens value
  | entry (some (k, a)) value =>
    have hvalue : (Child.node (.ofChildren .attributeValue (value.map .token))).extent? =
        Token.span? value := Node.extents_tokens value
    change Node.widen (some (k.extent.union a.extent)) _ = _
    rw [hvalue]
    exact (Node.span?_append [k, a] value).symm

theorem mark_legacyId {ts : List Token} (h : ∃ t ∈ ts, t.kind = .legacyIdStart) :
    (Node.ofChildren .shorthand (ts.map .token)).mark = .ok .id := by
  have hlegacy := (Node.hasToken_ofTokens .shorthand .legacyIdStart ts).mpr h
  rw [Node.mark, hlegacy]
  rfl

theorem mark_pairs {m : Mark} {ts : List Token} (h : ∃ t ∈ ts, t.kind = m.kind)
    (hts : ∀ t ∈ ts, t.kind = m.kind ∨ t.kind = .listText) :
    (Node.ofChildren .shorthand (ts.map .token)).mark = .ok m := by
  have hmark := (Node.hasToken_ofTokens .shorthand m.kind ts).mpr h
  have hother (k : Kind) (hk : k ≠ m.kind ∧ k ≠ .listText) :
      (Node.ofChildren .shorthand (ts.map .token)).hasToken k = false := by
    rw [Bool.eq_false_iff, ne_eq, Node.hasToken_ofTokens]
    rintro ⟨t, ht, rfl⟩
    rcases hts t ht with h | h
    · exact hk.1 h
    · exact hk.2 h
  unfold Node.mark
  cases m with
  | id => simp [hother .legacyIdStart (by decide), show Node.hasToken _ .idMark = true from hmark]
  | role =>
    simp [hother .legacyIdStart (by decide), hother .idMark (by decide),
      show Node.hasToken _ .roleMark = true from hmark]
  | option =>
    simp [hother .legacyIdStart (by decide), hother .idMark (by decide), hother .roleMark (by decide),
      show Node.hasToken _ .optionMark = true from hmark]

theorem mem_tokens_marked {pairs : List (Token × Token)} {t : Token} :
    t ∈ (marked pairs).tokens ↔ ∃ p ∈ pairs, t = p.1 ∨ t = p.2 := by
  rw [tokens, List.mem_flatMap]
  simp only [List.mem_cons, List.not_mem_nil, or_false]

theorem mark?_marked {m : Mark} {pairs : List (Token × Token)} (hne : pairs ≠ [])
    (h : ∀ p ∈ pairs, p.1.kind = m.kind ∧ p.2.kind = .listText) : (marked pairs).mark? = some m := by
  obtain ⟨p, ps, rfl⟩ := List.exists_cons_of_ne_nil hne
  rw [mark?, List.head?_cons, Option.bind_some, (h p List.mem_cons_self).1, Mark.ofKind?_kind]

theorem texts_marked {m : Mark} {pairs : List (Token × Token)}
    (h : ∀ p ∈ pairs, p.1.kind = m.kind ∧ p.2.kind = .listText) :
    Token.texts .listText (marked pairs).tokens = pairs.map fun p => p.2.text := by
  induction pairs with
  | nil => rfl
  | cons p pairs ih =>
    obtain ⟨⟨hmark, htext⟩, hrest⟩ := List.forall_mem_cons.mp h
    have hne : p.1.kind ≠ .listText := by
      rw [hmark]
      cases m <;> decide
    have htail := ih hrest
    rw [Token.texts, tokens] at htail ⊢
    rw [List.flatMap_cons, List.cons_append, List.cons_append, List.nil_append,
      List.filter_cons_of_neg (by simpa using hne), List.filter_cons_of_pos (by simpa using htext),
      List.map_cons, htail]
    rfl

theorem mark_node {i : Item} (hi : i.Valid) {m : Mark} (hm : i.mark? = some m) :
    (Node.ofChildren .shorthand (i.tokens.map .token)).mark = .ok m := by
  cases i with
  | punctuation t => cases hm
  | entry key value => cases hm
  | legacyId a b c =>
    cases hm
    exact mark_legacyId ⟨a, List.mem_cons_self, hi.1⟩
  | marked pairs =>
    obtain ⟨hne, l, hl⟩ := hi
    rw [mark?_marked hne hl] at hm
    cases hm
    obtain ⟨p, hp⟩ := List.exists_mem_of_ne_nil pairs hne
    apply mark_pairs
    · exact ⟨p.1, mem_tokens_marked.mpr ⟨p, hp, Or.inl rfl⟩, (hl p hp).1⟩
    · intro t ht
      obtain ⟨q, hq, rfl | rfl⟩ := mem_tokens_marked.mp ht
      · exact Or.inl (hl q hq).1
      · exact Or.inr (hl q hq).2

theorem addItem_shorthand (parent : Rule) (gs : List Gathered) {i : Item} (hi : i.Valid) {m : Mark}
    (hm : i.mark? = some m) :
    Gathered.addItem parent gs (.ofChildren .shorthand (i.tokens.map .token)) =
      .ok (Gathered.shorthand m i.tokens gs) := by
  have hmark := mark_node hi hm
  have hlocation := Node.location_ofTokens .shorthand hi.tokens_ne_nil
  have htexts := Node.texts_ofTokens .shorthand .listText i.tokens
  have hvalues : (Node.ofChildren .shorthand (i.tokens.map .token)).valueLocation =
      Token.textLocation i.tokens := by
    rw [Node.valueLocation, Node.tokens, Node.ofChildren, Node.filterMap_token?]
    rfl
  have hrule : (Node.ofChildren .shorthand (i.tokens.map .token)).rule = .shorthand := rfl
  unfold Gathered.addItem Gathered.shorthand
  simp only [hrule, hmark, htexts, hlocation, hvalues, bind, Except.bind, pure, Except.pure]
  split <;> rfl

theorem toValue_ofTokens {ts : List Token} (hts : ts ≠ []) :
    (Node.ofChildren .attributeValue (ts.map .token)).toValue =
      .ok ⟨Token.values ts, Token.location ts⟩ := by
  have hstring : (Node.ofChildren .attributeValue (ts.map .token)).hasToken .stringStart =
      ts.any fun t => t.kind = .stringStart := by
    rw [Bool.eq_iff_iff, Node.hasToken_ofTokens, List.any_eq_true]
    simp only [decide_eq_true_eq]
  rw [Node.toValue]
  simp only [hstring, Node.texts_ofTokens, Node.location_ofTokens .attributeValue hts, bind, Except.bind,
    pure, Except.pure]
  rfl

theorem toEntry_eq {n v : Node} {value : AttributeValue} {l : Location}
    (hnodes : n.nodes .attributeValue = [v]) (hvalue : v.toValue = .ok value) (hl : n.location = .ok l) :
    n.toEntry = .ok ⟨if n.hasToken .assignment then (n.texts .listText).head? else none, value, l⟩ := by
  rw [Node.toEntry, Node.child, hnodes]
  simp only [hvalue, hl, bind, Except.bind, pure, Except.pure]

theorem addItem_entry (parent : Rule) (gs : List Gathered) {key : Option (Token × Token)}
    {value : List Token} (h : (entry key value).Valid) :
    ∃ n, (entry key value).child = .node n ∧
      Gathered.addItem parent gs n = .ok ((entry key value).gather gs) := by
  have hvalue := toValue_ofTokens h.2.ne_nil
  obtain ⟨n, hn, hrule, hnodes, hkey⟩ : ∃ n, (entry key value).child = .node n ∧
      n.rule = .attributeEntry ∧
      n.nodes .attributeValue = [.ofChildren .attributeValue (value.map .token)] ∧
      (if n.hasToken .assignment then (n.texts .listText).head? else none) = key.map fun p => p.1.text := by
    cases key with
    | none => exact ⟨_, rfl, rfl, rfl, rfl⟩
    | some p =>
      obtain ⟨hk, ha⟩ := h.1 p rfl
      refine ⟨_, rfl, rfl, rfl, ?_⟩
      simp [Node.hasToken, Node.texts, Node.tokens, Node.ofChildren, Child.token?, hk, ha]
  have hlocation : n.location = .ok (Token.location (entry key value).tokens) := by
    obtain ⟨e, he⟩ := Node.span?_ne_none h.tokens_ne_nil
    have hspan : n.span = some e := by
      rw [← he, ← extent_child, hn]
      rfl
    rw [Node.location, hspan, Token.location, he]
    rfl
  refine ⟨n, hn, ?_⟩
  unfold Gathered.addItem
  simp only [hrule, toEntry_eq hnodes hvalue hlocation, hkey, bind, Except.bind, pure, Except.pure]
  rfl

theorem exists_mark? {i : Item} (h : i.Valid) :
    (∃ t, i = punctuation t) ∨ (∃ key value, i = entry key value) ∨
      ∃ m, i.mark? = some m ∧ ∀ gs, i.gather gs = Gathered.shorthand m i.tokens gs := by
  cases i with
  | punctuation t => exact Or.inl ⟨t, rfl⟩
  | entry key value => exact Or.inr (Or.inl ⟨key, value, rfl⟩)
  | legacyId a b c => exact Or.inr (Or.inr ⟨.id, rfl, fun gs => rfl⟩)
  | marked pairs =>
    obtain ⟨hne, m, hm⟩ := h
    have hmark := mark?_marked hne hm
    refine Or.inr (Or.inr ⟨m, hmark, fun gs => ?_⟩)
    change ((marked pairs).mark?.map fun m => _).getD gs = _
    rw [hmark]
    rfl

theorem foldlM_addItem (parent : Rule) {items : List Item} (h : ∀ i ∈ items, i.Valid)
    (gs : List Gathered) :
    ((items.map child).filterMap Child.node?).foldlM (Gathered.addItem parent) gs =
      .ok (items.foldl gather gs) := by
  induction items generalizing gs with
  | nil => rfl
  | cons i items ih =>
    have hi := h i List.mem_cons_self
    have hrest := ih fun j hj => h j (List.mem_cons_of_mem i hj)
    rw [List.map_cons, List.foldl_cons]
    rcases exists_mark? hi with ⟨t, rfl⟩ | ⟨key, value, rfl⟩ | ⟨m, hm, hgather⟩
    · exact hrest gs
    · obtain ⟨n, hn, hadd⟩ := addItem_entry parent gs hi
      rw [hn, Node.filterMap_node?_cons, List.foldlM_cons, hadd]
      exact hrest _
    · rw [child_of_mark? hm, Node.filterMap_node?_cons, List.foldlM_cons,
        addItem_shorthand parent gs hi hm, hgather]
      exact hrest _

theorem location_attributeList {items : List Item} (h : ∀ i ∈ items, i.Valid) (hne : items ≠ []) :
    (Node.ofChildren .attributeList (items.map child)).location =
      .ok (Token.location (items.flatMap tokens)) := by
  have htokens : items.flatMap tokens ≠ [] := by
    obtain ⟨i, rest, rfl⟩ := List.exists_cons_of_ne_nil hne
    rw [List.flatMap_cons]
    exact List.append_ne_nil_of_left_ne_nil (h i List.mem_cons_self).tokens_ne_nil _
  exact Node.location_ofChildren .attributeList
    (Node.extents_flatMap child tokens fun i _ => extent_child i) htokens

theorem toAttributeList_ofChildren {a b : Nat} {items : List Item} (h : ∀ i ∈ items, i.Valid)
    (hne : items ≠ []) (htiles : Tiles a b ((items.flatMap tokens).map .token)) :
    (Node.ofChildren .attributeList (items.map child)).toAttributeList =
      .ok ⟨(items.foldl gather []).map Gathered.built, Token.location (items.flatMap tokens)⟩ := by
  have hchildren : Tiles a b (items.map child) :=
    htiles.of_tokens child tokens fun i hi => ⟨extent_child i, (h i hi).tokens_ne_nil⟩
  rw [Node.toAttributeList_eq, Node.orderedNodes, hchildren.orderedChildren_ofChildren, foldlM_addItem _ h,
    location_attributeList h hne]
  rfl

end Item

end AsciiDoc
