import AsciiDoc.Proofs.Forests
import AsciiDoc.Proofs.SyntaxTrees

namespace AsciiDoc

inductive Contribution where
  | entry (key : Option Text) (values : List Text)
  | run (mark : Mark) (values : List Text)
  deriving DecidableEq, Repr

namespace Contribution

def values : Contribution → List Text
  | entry _ vs => vs
  | run _ vs => vs

def entry? : Contribution → Option (Option Text × List Text)
  | entry key vs => some (key, vs)
  | run _ _ => none

def valuesFor (m : Mark) : Contribution → List Text
  | run l vs => if l = m then vs else []
  | entry _ _ => []

end Contribution

structure Merged where
  mark : Option Mark
  key : Option Text
  values : List Text
  deriving DecidableEq, Repr

inductive Dealt : List Text → List (List Text) → Prop
  | nil : Dealt [] []
  | pile {vs : List Text} {piles : List (List Text)} (h : Dealt vs piles) : Dealt vs (piles ++ [[]])
  | deal {vs p : List Text} {before after : List (List Text)} (h : Dealt vs (before ++ p :: after)) (v : Text) :
      Dealt (vs ++ [v]) (before ++ (p ++ [v]) :: after)

namespace Dealt

theorem append {vs p : List Text} {before after : List (List Text)} (h : Dealt vs (before ++ p :: after))
    (ws : List Text) : Dealt (vs ++ ws) (before ++ (p ++ ws) :: after) := by
  induction ws generalizing vs p with
  | nil => simpa using h
  | cons w ws ih => simpa using ih (h.deal w)

theorem concat {vs : List Text} {piles : List (List Text)} (h : Dealt vs piles) (ws : List Text) :
    Dealt (vs ++ ws) (piles ++ [ws]) := by
  simpa using h.pile.append ws

end Dealt

namespace Merged

-- the values go to the first attribute of the mark, or make one at the end
def addRun (m : Mark) (vs : List Text) : List Merged → List Merged
  | [] => [⟨some m, some m.key, vs⟩]
  | r :: rs => if r.mark = some m then { r with values := r.values ++ vs } :: rs else r :: addRun m vs rs

def add (rs : List Merged) : Contribution → List Merged
  | .entry key vs => rs ++ [⟨none, key, vs⟩]
  | .run m vs => addRun m vs rs

def ofContributions (cs : List Contribution) : List Merged := cs.foldl add []

theorem addRun_cases (m : Mark) (vs : List Text) (rs : List Merged) :
    ((∀ r ∈ rs, r.mark ≠ some m) ∧ addRun m vs rs = rs ++ [⟨some m, some m.key, vs⟩]) ∨
      ∃ before r after, rs = before ++ r :: after ∧ r.mark = some m ∧
        addRun m vs rs = before ++ { r with values := r.values ++ vs } :: after := by
  induction rs with
  | nil => exact Or.inl ⟨by simp, rfl⟩
  | cons r rs ih =>
    by_cases hr : r.mark = some m
    · exact Or.inr ⟨[], r, rs, rfl, hr, if_pos hr⟩
    · have hrun : addRun m vs (r :: rs) = r :: addRun m vs rs := if_neg hr
      rcases ih with ⟨hnone, hadd⟩ | ⟨before, s, after, rfl, hs, hadd⟩
      · exact Or.inl ⟨List.forall_mem_cons.mpr ⟨hr, hnone⟩, by rw [hrun, hadd, List.cons_append]⟩
      · exact Or.inr ⟨r :: before, s, after, rfl, hs, by rw [hrun, hadd, List.cons_append]⟩

structure Complete (cs : List Contribution) (rs : List Merged) : Prop where
  nodup : (rs.filterMap mark).Nodup
  entries : (rs.filter fun r => r.mark = none).map (fun r => (r.key, r.values)) = cs.filterMap Contribution.entry?
  runs : ∀ r ∈ rs, ∀ m, r.mark = some m → r.key = some m.key ∧ r.values = cs.flatMap (Contribution.valuesFor m)
  marks : ∀ m vs, .run m vs ∈ cs → ∃ r ∈ rs, r.mark = some m
  dealt : Dealt (cs.flatMap Contribution.values) (rs.map values)

namespace Complete

variable {cs : List Contribution} {rs : List Merged}

theorem valuesFor_eq_nil (h : Complete cs rs) {m : Mark} (hm : ∀ r ∈ rs, r.mark ≠ some m) :
    cs.flatMap (Contribution.valuesFor m) = [] := by
  apply List.flatMap_eq_nil_iff.mpr
  intro c hc
  cases c with
  | entry key vs => rfl
  | run l vs =>
    apply if_neg
    rintro rfl
    obtain ⟨r, hr, hmark⟩ := h.marks l vs hc
    exact hm r hr hmark

theorem nil : Complete [] [] where
  nodup := by simp
  entries := rfl
  runs := by simp
  marks := by simp
  dealt := .nil

theorem add_entry (h : Complete cs rs) (key : Option Text) (vs : List Text) :
    Complete (cs ++ [.entry key vs]) (Merged.add rs (.entry key vs)) where
  nodup := by simpa [Merged.add] using h.nodup
  entries := by simp [Merged.add, h.entries, Contribution.entry?]
  runs := by
    intro r hr m hm
    rcases List.mem_append.mp hr with hr | hr
    · simpa [Contribution.valuesFor] using h.runs r hr m hm
    · rw [List.mem_singleton.mp hr] at hm
      cases hm
  marks := by
    intro m ws hrun
    have hold : .run m ws ∈ cs := by simpa using hrun
    obtain ⟨r, hr, hm⟩ := h.marks m ws hold
    exact ⟨r, List.mem_append_left _ hr, hm⟩
  dealt := by simpa [Merged.add, Contribution.values] using h.dealt.concat vs

theorem add_first_run (h : Complete cs rs) {m : Mark} (hm : ∀ r ∈ rs, r.mark ≠ some m) (vs : List Text) :
    Complete (cs ++ [.run m vs]) (rs ++ [⟨some m, some m.key, vs⟩]) where
  nodup := by
    have hnew : m ∉ rs.filterMap mark := by simpa using hm
    rw [List.filterMap_append]
    exact List.nodup_append_comm.mp (List.nodup_cons.mpr ⟨hnew, h.nodup⟩)
  entries := by simp [h.entries, Contribution.entry?]
  runs := by
    intro r hr l hl
    rw [List.flatMap_append, List.flatMap_singleton]
    rcases List.mem_append.mp hr with hr | hr
    · have hne : m ≠ l := by
        rintro rfl
        exact hm r hr hl
      simpa [Contribution.valuesFor, hne] using h.runs r hr l hl
    · obtain rfl := List.mem_singleton.mp hr
      cases hl
      simp [h.valuesFor_eq_nil hm, Contribution.valuesFor]
  marks := by
    intro l ws hrun
    rcases List.mem_append.mp hrun with hrun | hrun
    · obtain ⟨r, hr, hl⟩ := h.marks l ws hrun
      exact ⟨r, List.mem_append_left _ hr, hl⟩
    · cases List.mem_singleton.mp hrun
      exact ⟨_, List.mem_append_right _ (List.mem_singleton_self _), rfl⟩
  dealt := by simpa [Contribution.values] using h.dealt.concat vs

theorem add_later_run {before after : List Merged} {r : Merged} (h : Complete cs (before ++ r :: after))
    {m : Mark} (hm : r.mark = some m) (vs : List Text) :
    Complete (cs ++ [.run m vs]) (before ++ { r with values := r.values ++ vs } :: after) where
  nodup := by simpa [List.filterMap_append, List.filterMap_cons, hm] using h.nodup
  entries := by simpa [hm, List.filterMap_cons, Contribution.entry?] using h.entries
  runs := by
    have hother : ∀ s, s ∈ before ∨ s ∈ after → s.mark ≠ some m := by
      have hnodup := h.nodup
      rw [List.filterMap_append, List.filterMap_cons_some hm, List.nodup_middle, List.nodup_cons] at hnodup
      intro s hs hmark
      apply hnodup.1
      rw [← List.filterMap_append]
      exact List.mem_filterMap.mpr ⟨s, List.mem_append.mpr hs, hmark⟩
    intro s hs l hl
    rw [List.flatMap_append, List.flatMap_singleton]
    by_cases hsame : s ∈ before ∨ s ∈ after
    · have hne : m ≠ l := by
        rintro rfl
        exact hother s hsame hl
      have hold : s ∈ before ++ r :: after := by grind
      simpa [Contribution.valuesFor, hne] using h.runs s hold l hl
    · obtain rfl : s = { r with values := r.values ++ vs } := by grind
      obtain rfl : m = l := Option.some.inj (hm.symm.trans hl)
      obtain ⟨hkey, hvalues⟩ := h.runs r (by simp) m hm
      simp [Contribution.valuesFor, hkey, hvalues]
  marks := by
    intro l ws hrun
    have hsame : (before ++ { r with values := r.values ++ vs } :: after).map mark =
        (before ++ r :: after).map mark := by simp
    have hl : some l ∈ (before ++ r :: after).map mark := by
      rcases List.mem_append.mp hrun with hrun | hrun
      · exact List.mem_map.mpr (h.marks l ws hrun)
      · cases List.mem_singleton.mp hrun
        simp [hm]
    rw [← hsame] at hl
    exact List.mem_map.mp hl
  dealt := by
    have hdealt := h.dealt
    rw [List.map_append, List.map_cons] at hdealt
    simpa [Contribution.values] using hdealt.append vs

theorem add (h : Complete cs rs) (c : Contribution) : Complete (cs ++ [c]) (Merged.add rs c) := by
  cases c with
  | entry key vs => exact h.add_entry key vs
  | run m vs =>
    rw [Merged.add]
    rcases addRun_cases m vs rs with ⟨hnone, hadd⟩ | ⟨before, r, after, rfl, hr, hadd⟩
    · rw [hadd]
      exact h.add_first_run hnone vs
    · rw [hadd]
      exact h.add_later_run hr vs

end Complete

theorem complete_foldl {cs : List Contribution} {rs : List Merged} (h : Complete cs rs) (ds : List Contribution) :
    Complete (cs ++ ds) (ds.foldl add rs) := by
  induction ds generalizing cs rs with
  | nil => simpa using h
  | cons d ds ih => simpa using ih (h.add d)

theorem complete_ofContributions (cs : List Contribution) : Complete cs (ofContributions cs) :=
  complete_foldl .nil cs

end Merged

namespace Token

def isText (t : Token) : Bool := t.kind = .stringText ∨ t.kind = .listText

def words (ts : List Token) : List Text := (ts.filter isText).map Token.text

def valueTexts : List Token → List Text
  | [] => []
  | t :: ts =>
    -- a text in front of an assignment is a key
    if t.isText ∧ ts.head?.map Token.kind ≠ some .assignment then t.text :: valueTexts ts else valueTexts ts

theorem valueTexts_append {ts us : List Token} (hts : ∀ t ∈ ts, t.kind ≠ .assignment)
    (hus : us.head?.map Token.kind ≠ some .assignment) : valueTexts (ts ++ us) = words ts ++ valueTexts us := by
  induction ts with
  | nil => rfl
  | cons t ts ih =>
    obtain ⟨-, hrest⟩ := List.forall_mem_cons.mp hts
    have hhead : (ts ++ us).head?.map Token.kind ≠ some .assignment := by
      cases ts with
      | nil => exact hus
      | cons u ts => simpa using hrest u List.mem_cons_self
    rw [List.cons_append, valueTexts, ih hrest]
    by_cases ht : t.isText = true
    · rw [if_pos ⟨ht, hhead⟩]
      simp [words, ht]
    · rw [if_neg fun h => ht h.1]
      simp [words, ht]

theorem words_eq_texts {ts : List Token} (h : ∀ t ∈ ts, t.kind ≠ .stringText) : words ts = texts .listText ts := by
  apply congrArg (List.map Token.text)
  apply List.filter_congr
  intro t ht
  simp [isText, h t ht]

end Token

namespace Item

def contribution? : Item → Option Contribution
  | punctuation _ => none
  | legacyId _ text _ => some (.run .id [text.text])
  | marked pairs => (marked pairs).mark?.map fun m => .run m (pairs.map fun p => p.2.text)
  | entry key value => some (.entry (key.map fun p => p.1.text) (Token.words value))

theorem ValidValue.kinds {ts : List Token} (h : ValidValue ts) :
    (∃ t, ts = [t] ∧ t.kind = .listText) ∨ (ts.any fun t => t.kind = .stringStart) = true ∧
      ∀ t ∈ ts, t.kind = .stringStart ∨ t.kind = .stringText ∨ t.kind = .space ∨ t.kind = .stringEnd := by
  rcases h with h | ⟨a, words, b, rfl, ha, hb, hwords⟩
  · exact Or.inl h
  · refine Or.inr ⟨by simp [ha], fun t ht => ?_⟩
    rcases List.mem_append.mp ht with ht | ht
    · rcases List.mem_cons.mp ht with rfl | ht
      · exact Or.inl ha
      · rcases hwords t ht with hk | hk <;> simp [hk]
    · simp [List.mem_singleton.mp ht, hb]

theorem ValidValue.values_eq {ts : List Token} (h : ValidValue ts) : Token.values ts = Token.words ts := by
  rcases h.kinds with ⟨t, rfl, ht⟩ | ⟨hstring, hkinds⟩
  · simp [Token.values, Token.texts, Token.words, Token.isText, ht]
  · rw [Token.values, hstring, if_pos rfl]
    apply congrArg (List.map Token.text)
    apply List.filter_congr
    intro t ht
    rcases hkinds t ht with hk | hk | hk | hk <;> simp [Token.isText, hk]

theorem ValidValue.ne_assignment {ts : List Token} (h : ValidValue ts) : ∀ t ∈ ts, t.kind ≠ .assignment := by
  intro t ht
  rcases h.kinds with ⟨u, rfl, hu⟩ | ⟨-, hkinds⟩
  · simp [List.mem_singleton.mp ht, hu]
  · rcases hkinds t ht with hk | hk | hk | hk <;> simp [hk]

theorem Valid.head?_tokens {i : Item} (h : i.Valid) (ts : List Token) :
    (i.tokens ++ ts).head?.map Token.kind ≠ some .assignment := by
  cases i with
  | punctuation t => rcases h with h | h | h <;> simp [tokens, h]
  | legacyId a b c => simp [tokens, h.1]
  | marked pairs =>
    obtain ⟨hne, m, hm⟩ := h
    obtain ⟨p, ps, rfl⟩ := List.exists_cons_of_ne_nil hne
    simp only [tokens, List.flatMap_cons, List.cons_append, List.head?_cons, Option.map_some,
      (hm p List.mem_cons_self).1]
    cases m <;> decide
  | entry key value =>
    cases key with
    | none =>
      obtain ⟨v, vs, rfl⟩ := List.exists_cons_of_ne_nil h.2.ne_nil
      simpa [tokens] using h.2.ne_assignment v List.mem_cons_self
    | some p => simp [tokens, (h.1 p rfl).1]

theorem contribution?_of_mark? {i : Item} (hi : i.Valid) {m : Mark} (hm : i.mark? = some m) :
    i.contribution? = some (.run m (Token.texts .listText i.tokens)) ∧
      ∀ t ∈ i.tokens, t.kind ≠ .assignment ∧ t.kind ≠ .stringText := by
  cases i with
  | punctuation t => cases hm
  | entry key value => cases hm
  | legacyId a b c =>
    cases hm
    obtain ⟨ha, hb, hc⟩ := hi
    simp [contribution?, tokens, Token.texts, ha, hb, hc]
  | marked pairs =>
    obtain ⟨hne, l, hl⟩ := hi
    obtain rfl : l = m := Option.some.inj ((mark?_marked hne hl).symm.trans hm)
    refine ⟨by rw [contribution?, hm, texts_marked hl, Option.map_some], fun t ht => ?_⟩
    obtain ⟨p, hp, rfl | rfl⟩ := mem_tokens_marked.mp ht
    · rw [(hl p hp).1]
      cases l <;> decide
    · rw [(hl p hp).2]
      decide

theorem valueTexts_tokens {i : Item} (h : i.Valid) {ts : List Token}
    (hts : ts.head?.map Token.kind ≠ some .assignment) : Token.valueTexts (i.tokens ++ ts) =
      (i.contribution?.map Contribution.values).getD [] ++ Token.valueTexts ts := by
  rcases exists_mark? h with ⟨t, rfl⟩ | ⟨key, value, rfl⟩ | ⟨m, hm, -⟩
  · rw [Token.valueTexts_append (by rcases h with h | h | h <;> simp [tokens, h]) hts]
    rcases h with h | h | h <;> simp [tokens, contribution?, Token.words, Token.isText, h]
  · have hvalue := Token.valueTexts_append h.2.ne_assignment hts
    cases key with
    | none => exact hvalue
    | some p =>
      obtain ⟨hk, ha⟩ := h.1 p rfl
      rw [tokens, List.cons_append, List.cons_append, Token.valueTexts, if_neg (by simp [ha]), Token.valueTexts,
        if_neg (by simp [Token.isText, ha]), hvalue]
      rfl
  · obtain ⟨hcontribution, hkinds⟩ := contribution?_of_mark? h hm
    rw [Token.valueTexts_append (fun t ht => (hkinds t ht).1) hts,
      Token.words_eq_texts fun t ht => (hkinds t ht).2, hcontribution]
    rfl

theorem valueTexts_flatMap {items : List Item} (h : ∀ i ∈ items, i.Valid) :
    Token.valueTexts (items.flatMap tokens) =
      (items.filterMap contribution?).flatMap Contribution.values := by
  induction items with
  | nil => rfl
  | cons i items ih =>
    obtain ⟨hi, hitems⟩ := List.forall_mem_cons.mp h
    have hhead : (items.flatMap tokens).head?.map Token.kind ≠ some .assignment := by
      cases items with
      | nil => simp
      | cons j items => exact (hitems j List.mem_cons_self).head?_tokens _
    rw [List.flatMap_cons, valueTexts_tokens hi hhead, ih hitems]
    cases hc : i.contribution? <;> simp [hc]

end Item

namespace Gathered

def merged (g : Gathered) : Merged := ⟨g.mark, g.built.key, g.built.value.values⟩

theorem shorthand_cons_of_ne {m : Mark} {g : Gathered} (h : g.mark ≠ some m) (ts : List Token)
    (gs : List Gathered) : shorthand m ts (g :: gs) = g :: shorthand m ts gs := by
  rw [shorthand, shorthand, List.any_cons, extendMark, List.map_cons, if_neg h, decide_eq_false h,
    Bool.false_or]
  split <;> rfl

theorem shorthand_cons_of_eq {m : Mark} {g : Gathered} (h : g.mark = some m) {gs : List Gathered}
    (hgs : ∀ f ∈ gs, f.mark ≠ some m) (ts : List Token) :
    shorthand m ts (g :: gs) = g.extend (Token.texts .listText ts) :: gs := by
  have hany : ((g :: gs).any fun f => f.mark = some m) = true := by
    rw [List.any_cons, decide_eq_true h, Bool.true_or]
  rw [shorthand, hany, if_pos rfl, extendMark, List.map_cons, if_pos h]
  exact congrArg _ (extendMark_of_ne hgs _)

theorem map_merged_shorthand {m : Mark} {gs : List Gathered} (h : ((gs.map merged).filterMap Merged.mark).Nodup)
    (ts : List Token) :
    (shorthand m ts gs).map merged = Merged.addRun m (Token.texts .listText ts) (gs.map merged) := by
  induction gs with
  | nil => rfl
  | cons g gs ih =>
    -- the marks are distinct, so only the first attribute of the mark is extended
    by_cases hg : g.merged.mark = some m
    · rw [List.map_cons, List.filterMap_cons_some hg, List.nodup_cons] at h
      have hother : ∀ f ∈ gs, f.mark ≠ some m := by
        intro f hf hmark
        exact h.1 (List.mem_filterMap.mpr ⟨f.merged, List.mem_map_of_mem hf, hmark⟩)
      rw [shorthand_cons_of_eq hg hother, List.map_cons, List.map_cons, Merged.addRun, if_pos hg]
      rfl
    · have hrest : ((gs.map merged).filterMap Merged.mark).Nodup := by
        rw [List.map_cons, List.filterMap_cons] at h
        split at h
        · exact h
        · exact h.of_cons
      rw [shorthand_cons_of_ne hg, List.map_cons, List.map_cons, Merged.addRun, if_neg hg, ih hrest]

end Gathered

namespace Tiles

variable {a b : Nat}

theorem part {ts us : List Token} (h : Tiles a b (ts.map .token)) (hus : us <:+: ts) :
    ∃ m n, Tiles m n (us.map .token) := by
  obtain ⟨before, after, rfl⟩ := hus
  rw [List.map_append, List.map_append] at h
  obtain ⟨n, hfirst, -⟩ := append_iff.mp h
  obtain ⟨m, -, hus⟩ := append_iff.mp hfirst
  exact ⟨m, n, hus⟩

theorem leaves_ofChildren {ts : List Token} (h : Tiles a b (ts.map .token)) (r : Rule) :
    (Node.ofChildren r (ts.map .token)).leaves = ts := by
  rw [Node.leaves_eq, h.orderedChildren_ofChildren, List.flatMap_map]
  exact List.flatMap_singleton' ts

theorem leaves_nested (ts : List Token) {us : List Token} (h : Tiles a b ((ts ++ us).map .token)) (hus : us ≠ [])
    (r q : Rule) :
    (Node.ofChildren r (ts.map .token ++ [.node (.ofChildren q (us.map .token))])).leaves = ts ++ us := by
  rw [List.map_append] at h
  obtain ⟨m, hts, hbelow⟩ := append_iff.mp h
  have hne : us.map Child.token ≠ ([] : List (Child Node)) := by simpa using hus
  have hnode : Tiles m b [.node (.ofChildren q (us.map .token))] :=
    .cons (hbelow.span_ofChildren hne q) (hbelow.lt hne) (.nil b)
  rw [Node.leaves_eq, (append_iff.mpr ⟨m, hts, hnode⟩).orderedChildren_ofChildren, List.flatMap_append,
    List.flatMap_map, List.flatMap_singleton, Child.leaves, hbelow.leaves_ofChildren]
  exact congrArg (· ++ us) (List.flatMap_singleton' ts)

end Tiles

namespace Item

theorem map_merged_gather {i : Item} (hi : i.Valid) {gs : List Gathered}
    (h : ((gs.map Gathered.merged).filterMap Merged.mark).Nodup) : (i.gather gs).map Gathered.merged =
      i.contribution?.elim (gs.map Gathered.merged) (Merged.add (gs.map Gathered.merged)) := by
  rcases exists_mark? hi with ⟨t, rfl⟩ | ⟨key, value, rfl⟩ | ⟨m, hm, hgather⟩
  · rfl
  · rw [gather, List.map_append, hi.2.values_eq]
    rfl
  · rw [hgather, Gathered.map_merged_shorthand h, (contribution?_of_mark? hi hm).1]
    rfl

theorem map_merged_foldl {items : List Item} (h : ∀ i ∈ items, i.Valid) {cs : List Contribution}
    {gs : List Gathered} (hgs : Merged.Complete cs (gs.map Gathered.merged)) :
    (items.foldl gather gs).map Gathered.merged =
      (items.filterMap contribution?).foldl Merged.add (gs.map Gathered.merged) := by
  induction items generalizing cs gs with
  | nil => rfl
  | cons i items ih =>
    obtain ⟨hi, hitems⟩ := List.forall_mem_cons.mp h
    have hstep := map_merged_gather hi hgs.nodup
    rw [List.foldl_cons]
    cases hc : i.contribution? with
    | none =>
      rw [hc, Option.elim_none] at hstep
      rw [← hstep] at hgs
      rw [ih hitems hgs, hstep, List.filterMap_cons_none hc]
    | some c =>
      rw [hc, Option.elim_some] at hstep
      have hnext := hgs.add c
      rw [← hstep] at hnext
      rw [ih hitems hnext, hstep, List.filterMap_cons_some hc, List.foldl_cons]

theorem leaves_child {i : Item} (hi : i.Valid) {a b : Nat} (h : Tiles a b (i.tokens.map .token)) :
    i.child.leaves = i.tokens := by
  rcases exists_mark? hi with ⟨t, rfl⟩ | ⟨key, value, rfl⟩ | ⟨m, hm, -⟩
  · rfl
  · cases key with
    | none => exact Tiles.leaves_nested [] h hi.2.ne_nil _ _
    | some p => exact Tiles.leaves_nested [p.1, p.2] h hi.2.ne_nil _ _
  · rw [child_of_mark? hm]
    exact h.leaves_ofChildren .shorthand

theorem flatMap_leaves {items : List Item} (h : ∀ i ∈ items, i.Valid) {a b : Nat}
    (htiles : Tiles a b ((items.flatMap tokens).map .token)) :
    (items.map child).flatMap Child.leaves = items.flatMap tokens := by
  induction items generalizing a with
  | nil => rfl
  | cons i items ih =>
    obtain ⟨hi, hitems⟩ := List.forall_mem_cons.mp h
    rw [List.flatMap_cons, List.map_append] at htiles
    obtain ⟨m, hfirst, hrest⟩ := Tiles.append_iff.mp htiles
    rw [List.map_cons, List.flatMap_cons, leaves_child hi hfirst, ih hitems hrest, List.flatMap_cons]

end Item

def AttributeBlock.MergedFrom (n : Node) (b : AttributeBlock) : Prop :=
  ∃ (m : Node) (items : List Item) (cs : List Contribution) (rs : List Merged),
    n.child .attributeList = .ok m ∧ m.orderedChildren = items.map Item.child ∧
    m.leaves = items.flatMap Item.tokens ∧ (∀ i ∈ items, i.Valid) ∧
    cs = items.filterMap Item.contribution? ∧ rs = Merged.ofContributions cs ∧
    (b.list.attributes.map fun a => (a.key, a.value.values)) = rs.map (fun r => (r.key, r.values)) ∧
    Merged.Complete cs rs ∧ Token.valueTexts m.leaves = cs.flatMap Contribution.values

namespace Part

section Attributes

variable {opening : Token} {list : List Token} {a b : Nat}

theorem tiles_items (h : (attributes opening list).Valid)
    (htiles : Tiles a b ((attributes opening list).tokens.map .token)) :
    ∃ m, Tiles m b (((Item.ofTokens list).flatMap Item.tokens).map .token) := by
  obtain ⟨m, -, htail⟩ := Tiles.append_iff.mp
    (show Tiles a b ([Child.token opening] ++ list.map .token) from htiles)
  rw [(items_attributes h).2]
  exact ⟨m, htail⟩

theorem orderedChildren_attributes (h : (attributes opening list).Valid)
    (htiles : Tiles a b ((attributes opening list).tokens.map .token)) :
    (Node.ofChildren .attributeList ((Item.ofTokens list).map Item.child)).orderedChildren =
      (Item.ofTokens list).map Item.child := by
  obtain ⟨m, hitems⟩ := tiles_items h htiles
  have hchildren := hitems.of_tokens Item.child Item.tokens fun i hi =>
    ⟨Item.extent_child i, ((items_attributes h).1 i hi).tokens_ne_nil⟩
  exact hchildren.orderedChildren_ofChildren _

theorem mergedFrom_attributes (h : (attributes opening list).Valid)
    (htiles : Tiles a b ((attributes opening list).tokens.map .token)) {n : Node}
    (hn : (attributes opening list).child = .node n) {block : AttributeBlock}
    (hblock : (attributes opening list).block? = some (.attributes block)) : block.MergedFrom n := by
  obtain ⟨hvalid, -⟩ := items_attributes h
  obtain ⟨m, hitems⟩ := tiles_items h htiles
  have hchildren := orderedChildren_attributes h htiles
  have hleaves : (Node.ofChildren .attributeList ((Item.ofTokens list).map Item.child)).leaves =
      (Item.ofTokens list).flatMap Item.tokens := by
    rw [Node.leaves_eq, hchildren, Item.flatMap_leaves hvalid hitems]
  have hmerged : ((Item.ofTokens list).foldl Item.gather []).map Gathered.merged =
      Merged.ofContributions ((Item.ofTokens list).filterMap Item.contribution?) :=
    Item.map_merged_foldl hvalid .nil
  cases hn
  cases hblock
  refine ⟨_, Item.ofTokens list, _, _, rfl, hchildren, hleaves, hvalid, rfl, rfl, ?_,
    Merged.complete_ofContributions _, ?_⟩
  · have hattributes := congrArg (List.map fun r : Merged => (r.key, r.values)) hmerged
    rw [List.map_map] at hattributes ⊢
    exact hattributes
  · rw [hleaves, Item.valueTexts_flatMap hvalid]

end Attributes

theorem forall₂_attributeBlocks {R : Node → AttributeBlock → Prop} {parts : List Part}
    (h : ∀ opening list, attributes opening list ∈ parts → ∀ n block,
      (attributes opening list).child = .node n →
      (attributes opening list).block? = some (.attributes block) → R n block) (l : Location) :
    List.Forall₂ R ((Node.ofChildren .document (parts.map child)).nodes .attributeBlock)
      (Document.attributeBlocks ⟨parts.filterMap block?, l⟩) := by
  induction parts with
  | nil => exact .nil
  | cons p parts ih =>
    have hrest := ih fun opening list hmem => h opening list (List.mem_cons_of_mem p hmem)
    cases p with
    | newline t => exact hrest
    | emptyLine t => exact hrest
    | headline opening marker rest => exact hrest
    | attributes opening list => exact .cons (h opening list List.mem_cons_self _ _ rfl rfl) hrest
    | paragraph rows => exact hrest

end Part

/-- The tree of a source makes a document, and in each attribute list entries stay apart while the shorthands
of a mark go to the attribute that the first of them makes. -/
theorem Document.shorthands_merged {legacyIds : Bool} {source : Text} {ts : List Token} {n : Node}
    (htokens : tokenize legacyIds source = .ok ts) (htree : Node.parse ts = .ok n) :
    ∃ d, n.toDocument = .ok d ∧
      List.Forall₂ AttributeBlock.MergedFrom (n.nodes .attributeBlock) d.attributeBlocks := by
  obtain ⟨haccepts, rfl⟩ := Node.parse_eq_ok_iff.mp htree
  obtain ⟨ps, b, hps, rfl⟩ := (tokenize_eq_ok_iff _ _ _).mp htokens
  obtain ⟨hvalid, hparts, -⟩ := Part.ofRows_split haccepts
  have htiles := Tiles.place hps.text_ne_nil 0
  refine ⟨_, Node.toDocument_ofTokens haccepts htiles, ?_⟩
  rw [← hparts] at htiles
  apply Part.forall₂_attributeBlocks
  intro opening list hmem n block hn hblock
  obtain ⟨x, y, hpart⟩ := htiles.part (List.infix_of_mem_flatten (List.mem_map_of_mem hmem))
  exact Part.mergedFrom_attributes (hvalid _ hmem) hpart hn hblock

theorem exists_ok_of_any {ε α : Type} {e : Except ε α} {p : α → Bool} (h : e.toOption.any p = true) :
    ∃ a, e = .ok a ∧ p a = true := by
  cases e with
  | error e => cases h
  | ok a => exact ⟨a, rfl, h⟩

theorem Document.shorthands_merged_mixed :
    let source := "\n[.e#k.f[i]id=z,id=\"x y\"%o#l.g]\n[b.c]".toList
    ∃ ts n d, tokenize true source = .ok ts ∧ Node.parse ts = .ok n ∧ n.toDocument = .ok d ∧
      (d.attributeBlocks.map fun b => b.list.attributes.map fun a => (a.key, a.value.values)) =
        [[(some Mark.role.key, [['e'], ['f'], ['g']]), (some Mark.id.key, [['k'], ['i'], ['l']]),
          (some Mark.id.key, [['z']]), (some Mark.id.key, [['x'], ['y']]), (some Mark.option.key, [['o']])],
          [(none, [['b']]), (some Mark.role.key, [['c']])]] ∧
      List.Forall₂ AttributeBlock.MergedFrom (n.nodes .attributeBlock) d.attributeBlocks := by
  intro source
  have hrun : (tokenize true source).toOption.any (fun ts => (Node.parse ts).toOption.any fun n =>
      n.toDocument.toOption.any fun d =>
        (d.attributeBlocks.map fun b => b.list.attributes.map fun a => (a.key, a.value.values)) =
          [[(some Mark.role.key, [['e'], ['f'], ['g']]), (some Mark.id.key, [['k'], ['i'], ['l']]),
            (some Mark.id.key, [['z']]), (some Mark.id.key, [['x'], ['y']]), (some Mark.option.key, [['o']])],
            [(none, [['b']]), (some Mark.role.key, [['c']])]]) = true := by
    decide +kernel
  obtain ⟨ts, htokens, hrun⟩ := exists_ok_of_any hrun
  obtain ⟨n, htree, hrun⟩ := exists_ok_of_any hrun
  obtain ⟨d, hd, hmerged⟩ := shorthands_merged htokens htree
  rw [hd] at hrun
  exact ⟨ts, n, d, htokens, htree, hd, of_decide_eq_true hrun, hmerged⟩

end AsciiDoc
