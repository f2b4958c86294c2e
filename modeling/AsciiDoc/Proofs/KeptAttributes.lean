import AsciiDoc.Proofs.Idempotence

namespace AsciiDoc

namespace Attribute

def valuesUnder (key : Option Text) (as : List Attribute) : List Text :=
  (as.filter fun a => a.key = key).flatMap fun a => a.value.values

theorem valuesUnder_append (key : Option Text) (as bs : List Attribute) :
    valuesUnder key (as ++ bs) = valuesUnder key as ++ valuesUnder key bs := by
  rw [valuesUnder, List.filter_append, List.flatMap_append]
  rfl

theorem valuesUnder_perm (key : Option Text) {as bs : List Attribute} (h : as.Perm bs) :
    (valuesUnder key as).Perm (valuesUnder key bs) := (h.filter _).flatMap_right _

theorem valuesUnder_bare (key : Option Text) (as : List Attribute) :
    valuesUnder key (as.map bare) = valuesUnder key as := by
  rw [valuesUnder, List.filter_map, List.flatMap_map]
  rfl

theorem key_of_isShort {c : Config} {m : Mark} {a : Attribute} (h : a.isShort c m = true) :
    a.key = some m.key := by
  rw [isShort, Bool.and_eq_true, decide_eq_true_eq] at h
  exact h.1.1

end Attribute

theorem Mark.key_injective {m n : Mark} (h : m.key = n.key) : m = n := by
  revert h
  cases m <;> cases n <;> decide

namespace AttributeList

def keys (l : AttributeList) : List (Option Text) := l.attributes.map Attribute.key

def KeepsKeys (c : Config) (l : AttributeList) : Prop :=
  ∀ a ∈ l.attributes, ∃ b ∈ l.attributes, b.key = a.key ∧ (b.shorthand? c = none ∨ b.value.values ≠ [])

instance (c : Config) (l : AttributeList) : Decidable (l.KeepsKeys c) := by
  unfold KeepsKeys
  infer_instance

theorem keys_bare (l : AttributeList) : l.bare.keys = l.keys := by
  rw [keys, bare, List.map_map]
  rfl

variable {l : AttributeList} {c : Config}

theorem valuesUnder_gathered (l : AttributeList) (c : Config) (m : Mark) (key : Option Text) :
    Attribute.valuesUnder key (l.gathered c m) = if key = some m.key then l.short c m else [] := by
  by_cases hshort : l.short c m = []
  · simp [gathered, hshort, Attribute.valuesUnder]
  · by_cases hkey : key = some m.key
    · simp [gathered, hshort, Attribute.valuesUnder, hkey]
    · simp [gathered, hshort, Attribute.valuesUnder, hkey, Ne.symm hkey]

theorem valuesUnder_short (l : AttributeList) (c : Config) (key : Option Text) :
    Attribute.valuesUnder key
        (l.attributes.filter fun a => a.isShort c .id || a.isShort c .role || a.isShort c .option) =
      Attribute.valuesUnder key (l.gathered c .id ++ l.gathered c .role ++ l.gathered c .option) := by
  have hshort {a : Attribute} (h : (a.isShort c .id || a.isShort c .role || a.isShort c .option) = true) :
      ∃ m, a.isShort c m = true := by
    simp only [Bool.or_eq_true] at h
    rcases h with (h | h) | h <;> exact ⟨_, h⟩
  simp only [Attribute.valuesUnder_append, valuesUnder_gathered]
  by_cases hkey : ∃ m : Mark, key = some m.key
  · obtain ⟨m, rfl⟩ := hkey
    have hfilter : (l.attributes.filter fun a => decide (a.key = some m.key) &&
        (a.isShort c .id || a.isShort c .role || a.isShort c .option)) =
          l.attributes.filter fun a => a.isShort c m := by
      apply List.filter_congr
      intro a _
      rw [Bool.eq_iff_iff, Bool.and_eq_true, decide_eq_true_eq]
      constructor
      · rintro ⟨hkey, h⟩
        obtain ⟨n, hn⟩ := hshort h
        rwa [Mark.key_injective (Option.some.inj (hkey.symm.trans (Attribute.key_of_isShort hn)))]
      · intro h
        refine ⟨Attribute.key_of_isShort h, ?_⟩
        cases m <;> simp [h]
    rw [Attribute.valuesUnder, List.filter_filter, hfilter, ← short]
    cases m <;> simp [Mark.key]
  · have hnone (m : Mark) : key ≠ some m.key := fun h => hkey ⟨m, h⟩
    simp only [hnone, if_false, List.append_nil]
    rw [Attribute.valuesUnder, List.filter_filter, List.flatMap_eq_nil_iff]
    intro a ha
    have hmem := List.of_mem_filter ha
    rw [Bool.and_eq_true, decide_eq_true_eq] at hmem
    obtain ⟨n, hn⟩ := hshort hmem.2
    exact absurd (hmem.1.symm.trans (Attribute.key_of_isShort hn)) (hnone n)

theorem valuesUnder_canonical (l : AttributeList) (c : Config) (key : Option Text) :
    (Attribute.valuesUnder key l.attributes).Perm (Attribute.valuesUnder key (l.canonical c).attributes) := by
  have hparts := List.filter_append_perm
    (fun a : Attribute => a.isShort c .id || a.isShort c .role || a.isShort c .option) l.attributes
  have hvalues := Attribute.valuesUnder_perm key (List.perm_append_comm.trans hparts)
  rw [Attribute.valuesUnder_append, valuesUnder_short, ← Attribute.valuesUnder_append, ← List.append_assoc,
    ← List.append_assoc] at hvalues
  exact hvalues.symm

theorem mem_keys_gathered (h : ∀ a ∈ l.attributes, a.WellFormed) (m : Mark) (key : Option Text) :
    key ∈ (l.gathered c m).map Attribute.key ↔
      ∃ a ∈ l.attributes, a.key = key ∧ a.shorthand? c = some m ∧ a.value.values ≠ [] := by
  have hmem : key ∈ (l.gathered c m).map Attribute.key ↔ some m.key = key ∧ l.short c m ≠ [] := by
    by_cases hshort : l.short c m = []
    · simp [gathered, hshort]
    · simp [gathered, hshort, eq_comm]
  rw [hmem]
  constructor
  · rintro ⟨rfl, hne⟩
    obtain ⟨s, hs⟩ := List.exists_mem_of_ne_nil _ hne
    obtain ⟨a, ha, hshort, hs⟩ := mem_short.mp hs
    refine ⟨a, ha, Attribute.key_of_isShort hshort, ?_, List.ne_nil_of_mem hs⟩
    exact (Attribute.shorthand?_eq_some_iff_isShort (h a ha) c m).mpr hshort
  · rintro ⟨a, ha, rfl, hshort, hne⟩
    rw [Attribute.shorthand?_eq_some_iff_isShort (h a ha)] at hshort
    obtain ⟨s, hs⟩ := List.exists_mem_of_ne_nil _ hne
    exact ⟨(Attribute.key_of_isShort hshort).symm, List.ne_nil_of_mem (mem_short.mpr ⟨a, ha, hshort, hs⟩)⟩

theorem mem_keys_canonical (h : ∀ a ∈ l.attributes, a.WellFormed) (key : Option Text) :
    key ∈ (l.canonical c).keys ↔
      ∃ a ∈ l.attributes, a.key = key ∧ (a.shorthand? c = none ∨ a.value.values ≠ []) := by
  have hformal : key ∈ (l.formal c).map Attribute.key ↔
      ∃ a ∈ l.attributes, a.key = key ∧ a.shorthand? c = none := by
    rw [← entries_eq h, List.mem_map]
    constructor
    · rintro ⟨a, ha, hkey⟩
      obtain ⟨ha, hnone⟩ := List.mem_filter.mp ha
      exact ⟨a, ha, hkey, of_decide_eq_true hnone⟩
    · rintro ⟨a, ha, hkey, hnone⟩
      exact ⟨a, List.mem_filter.mpr ⟨ha, decide_eq_true hnone⟩, hkey⟩
  simp only [keys, canonical, List.map_append, List.mem_append, hformal, mem_keys_gathered h]
  constructor
  · rintro (((⟨a, ha, hkey, hnone⟩ | ⟨a, ha, hkey, -, hne⟩) | ⟨a, ha, hkey, -, hne⟩) | ⟨a, ha, hkey, -, hne⟩)
    · exact ⟨a, ha, hkey, Or.inl hnone⟩
    all_goals exact ⟨a, ha, hkey, Or.inr hne⟩
  · rintro ⟨a, ha, hkey, hkept⟩
    cases hshort : a.shorthand? c with
    | none => exact Or.inl (Or.inl (Or.inl ⟨a, ha, hkey, hshort⟩))
    | some m =>
      have hne := hkept.resolve_left (by simp [hshort])
      cases m with
      | id => exact Or.inl (Or.inl (Or.inr ⟨a, ha, hkey, hshort, hne⟩))
      | role => exact Or.inl (Or.inr ⟨a, ha, hkey, hshort, hne⟩)
      | option => exact Or.inr ⟨a, ha, hkey, hshort, hne⟩

theorem keys_canonical_iff (h : ∀ a ∈ l.attributes, a.WellFormed) :
    (∀ key, key ∈ (l.canonical c).keys ↔ key ∈ l.keys) ↔ l.KeepsKeys c := by
  have hmem (key : Option Text) : key ∈ l.keys ↔ ∃ a ∈ l.attributes, a.key = key := List.mem_map
  simp only [mem_keys_canonical h, hmem]
  constructor
  · intro hkeys a ha
    exact (hkeys a.key).mpr ⟨a, ha, rfl⟩
  · intro hkeeps key
    constructor
    · rintro ⟨a, ha, hkey, -⟩
      exact ⟨a, ha, hkey⟩
    · rintro ⟨a, ha, rfl⟩
      exact hkeeps a ha

end AttributeList

namespace Document

theorem attributeBlocks_bare (d : Document) :
    d.bare.attributeBlocks = d.attributeBlocks.map fun b => ⟨b.list.bare, .unresolved⟩ := by
  rw [attributeBlocks, attributeBlocks, bare, List.filterMap_map, List.map_filterMap]
  congr 1
  funext b
  cases b <;> rfl

theorem attributeBlocks_canonical {d : Document} (h : d.core = d.blocks) (c : Config) :
    (d.canonical c).attributeBlocks =
      d.attributeBlocks.map fun b => { b with list := b.list.canonical c } := by
  rw [attributeBlocks, attributeBlocks, canonical, h, List.filterMap_map, List.map_filterMap]
  congr 1
  funext b
  cases b <;> rfl

variable {c : Config} {text : Text} {d d' : Document}

theorem forall₂_canonical (h : parse c text = .ok d) (hquotes : d.QuoteFree)
    (h' : parse c (d.print c) = .ok d') :
    List.Forall₂ (fun b b' => (∀ a ∈ b.list.attributes, a.WellFormed) ∧
      (b.list.canonical c).bare = b'.list.bare) d.attributeBlocks d'.attributeBlocks := by
  have hwf := wellFormed_of_parse h hquotes
  obtain rfl : ofPieces (d.printedPieces c) = d' :=
    Except.ok.inj ((parse_print hwf (marked_of_parse h) c c.legacyIds).symm.trans h')
  have hblocks := congrArg attributeBlocks (bare_printedPieces hwf (marked_of_parse h) c)
  rw [attributeBlocks_bare, attributeBlocks_bare, attributeBlocks_canonical (core_of_parse h), List.map_map,
    eq_comm, ← List.forall₂_eq_eq_eq, List.forall₂_map_left_iff, List.forall₂_map_right_iff] at hblocks
  rw [List.forall₂_and_left]
  constructor
  · intro b hb
    exact hwf.blocks _ (mem_attributeBlocks.mp hb)
  · exact hblocks.imp fun _ _ hb => congrArg AttributeBlock.list hb

/-- A document that is printed and read again has as many attribute blocks as before. Under every key they
have the same values, and they have the same keys exactly if each key has something to be written. -/
theorem attributes_kept (h : parse c text = .ok d) (hquotes : d.QuoteFree)
    (h' : parse c (d.print c) = .ok d') :
    List.Forall₂ (fun b b' =>
      (∀ key, (Attribute.valuesUnder key b.list.attributes).Perm
        (Attribute.valuesUnder key b'.list.attributes)) ∧
      ((∀ key, key ∈ b'.list.keys ↔ key ∈ b.list.keys) ↔ b.list.KeepsKeys c))
      d.attributeBlocks d'.attributeBlocks := by
  apply (forall₂_canonical h hquotes h').imp
  rintro b b' ⟨hwf, hbare⟩
  constructor
  · intro key
    have hsame : Attribute.valuesUnder key (b.list.canonical c).attributes =
        Attribute.valuesUnder key b'.list.attributes := by
      rw [← Attribute.valuesUnder_bare, ← Attribute.valuesUnder_bare key b'.list.attributes]
      exact congrArg (fun l => Attribute.valuesUnder key l.attributes) hbare
    rw [← hsame]
    exact b.list.valuesUnder_canonical c key
  · rw [← AttributeList.keys_canonical_iff hwf, ← AttributeList.keys_bare, ← hbare, AttributeList.keys_bare]

theorem attributes_kept_roles :
    ∃ d d', parse {} "[role=\"a b\",x=\"\",role=\"c.d\",y#i.e]".toList = .ok d ∧ d.QuoteFree ∧
      d.print {} = "[x=\"\",role=\"c.d\",y#i.a.b.e]\n".toList ∧ parse {} (d.print {}) = .ok d' ∧
      (∀ b ∈ d.attributeBlocks, b.list.KeepsKeys {}) ∧
      List.Forall₂ (fun b b' =>
        (∀ key, (Attribute.valuesUnder key b.list.attributes).Perm
          (Attribute.valuesUnder key b'.list.attributes)) ∧
        ∀ key, key ∈ b'.list.keys ↔ key ∈ b.list.keys) d.attributeBlocks d'.attributeBlocks := by
  have hparse : (parse {} "[role=\"a b\",x=\"\",role=\"c.d\",y#i.e]".toList).toOption.any (fun d =>
      d.QuoteFree ∧ d.print {} = "[x=\"\",role=\"c.d\",y#i.a.b.e]\n".toList ∧
        (parse {} (d.print {})).toOption.isSome ∧ ∀ b ∈ d.attributeBlocks, b.list.KeepsKeys {}) = true := by
    decide +kernel
  generalize htext : parse {} _ = result at hparse ⊢
  cases result with
  | error e => cases hparse
  | ok d =>
    obtain ⟨hquotes, hprint, hagain, hkeeps⟩ := of_decide_eq_true hparse
    cases hparse' : parse {} (d.print {}) with
    | error e =>
      rw [hparse'] at hagain
      cases hagain
    | ok d' =>
      have hkept := attributes_kept htext hquotes hparse'
      refine ⟨d, d', rfl, hquotes, hprint, hparse', hkeeps, ?_⟩
      have hboth := (List.forall₂_and_left _ _).mpr ⟨hkeeps, hkept⟩
      exact hboth.imp fun _ _ hb => ⟨hb.2.1, hb.2.2.mpr hb.1⟩

/-- An id without a value is taken for one that can be written as shorthands, of which there are none. -/
theorem attributes_kept_fails_empty_id :
    ∃ d d', parse {} "[id=\"\"]".toList = .ok d ∧ d.QuoteFree ∧ d.print {} = "[]\n".toList ∧
      parse {} (d.print {}) = .ok d' ∧
      ¬List.Forall₂ (fun b b' => ∀ key, key ∈ b'.list.keys ↔ key ∈ b.list.keys)
        d.attributeBlocks d'.attributeBlocks := by
  have hparse : (parse {} "[id=\"\"]".toList).toOption.any (fun d => d.QuoteFree ∧
      d.print {} = "[]\n".toList ∧ (d.attributeBlocks.map fun b => b.list.keys) = [[some Mark.id.key]] ∧
        (parse {} (d.print {})).toOption.any fun d' =>
          (d'.attributeBlocks.map fun b => b.list.keys) = [[]]) = true := by
    decide +kernel
  generalize htext : parse {} _ = result at hparse ⊢
  cases result with
  | error e => cases hparse
  | ok d =>
    obtain ⟨hquotes, hprint, hkeys, hagain⟩ := of_decide_eq_true hparse
    cases hparse' : parse {} (d.print {}) with
    | error e =>
      rw [hparse'] at hagain
      cases hagain
    | ok d' =>
      rw [hparse'] at hagain
      have hkeys' := of_decide_eq_true hagain
      refine ⟨d, d', rfl, hquotes, hprint, hparse', ?_⟩
      obtain ⟨b, hb, hid⟩ := List.map_eq_singleton_iff.mp hkeys
      obtain ⟨b', hb', hnone⟩ := List.map_eq_singleton_iff.mp hkeys'
      rw [hb, hb', List.forall₂_cons]
      rintro ⟨hsame, -⟩
      have hmem := (hsame (some Mark.id.key)).mpr (by simp [hid])
      rw [hnone] at hmem
      cases hmem

end Document

end AsciiDoc
