import AsciiDoc.Proofs.Reading
import Mathlib.Data.List.Chain

namespace AsciiDoc

namespace Text

def splitBytes? : Nat → Text → Option (Text × Text)
  | 0, s => some ([], s)
  | _ + 1, [] => none
  | n + 1, c :: s =>
    if c.utf8Size ≤ n + 1 then (splitBytes? (n + 1 - c.utf8Size) s).map fun p => (c :: p.1, p.2)
    else none

def slice? (s : Text) (e : Extent) : Option Text :=
  if e.start ≤ e.stop then
    (splitBytes? e.start s).bind fun p => (splitBytes? (e.stop - e.start) p.2).map Prod.fst
  else none

theorem splitBytes?_bytes (s t : Text) : splitBytes? (bytes s) (s ++ t) = some (s, t) := by
  induction s with
  | nil => cases t <;> rfl
  | cons c s ih =>
    have hc := Char.utf8Size_pos c
    obtain ⟨n, hn⟩ : ∃ n, bytes (c :: s) = n + 1 := ⟨_, (Nat.succ_pred_eq_of_pos (bytes_pos (by simp))).symm⟩
    have hrest : n + 1 - c.utf8Size = bytes s := by
      rw [bytes_cons] at hn
      omega
    rw [hn, List.cons_append, splitBytes?, hrest, ih, if_pos (by rw [bytes_cons] at hn; omega)]
    rfl

theorem eq_of_splitBytes? {n : Nat} {s t u : Text} (h : splitBytes? n s = some (t, u)) :
    s = t ++ u ∧ n = bytes t := by
  induction s generalizing n t with
  | nil =>
    cases n with
    | zero =>
      cases h
      exact ⟨rfl, rfl⟩
    | succ n => cases h
  | cons c s ih =>
    cases n with
    | zero =>
      cases h
      exact ⟨rfl, rfl⟩
    | succ n =>
      rw [splitBytes?] at h
      split at h
      · obtain ⟨p, hp, heq⟩ := Option.map_eq_some_iff.mp h
        cases heq
        obtain ⟨hs, hn⟩ := ih hp
        rw [bytes_cons, ← hn]
        exact ⟨by rw [hs, List.cons_append], by omega⟩
      · cases h

theorem splitBytes?_eq_some_iff {n : Nat} {s t u : Text} :
    splitBytes? n s = some (t, u) ↔ s = t ++ u ∧ n = bytes t := by
  constructor
  · exact eq_of_splitBytes?
  · rintro ⟨rfl, rfl⟩
    exact splitBytes?_bytes t u

theorem slice?_eq_some_iff {s t : Text} {e : Extent} :
    slice? s e = some t ↔ ∃ before after, s = before ++ t ++ after ∧ e = ⟨bytes before, bytes (before ++ t)⟩ := by
  obtain ⟨start, stop⟩ := e
  unfold slice?
  constructor
  · intro h
    split at h
    · rename_i hle
      obtain ⟨⟨before, rest⟩, hbefore, hrest⟩ := Option.bind_eq_some_iff.mp h
      obtain ⟨⟨t', after⟩, ht, rfl⟩ := Option.map_eq_some_iff.mp hrest
      obtain ⟨rfl, hstart⟩ := splitBytes?_eq_some_iff.mp hbefore
      obtain ⟨hs, hstop⟩ := splitBytes?_eq_some_iff.mp ht
      refine ⟨before, after, ?_, ?_⟩
      · rw [List.append_assoc]
        exact congrArg _ hs
      · rw [Extent.mk.injEq, bytes_append]
        dsimp only at hle hstart hstop ⊢
        omega
    · cases h
  · rintro ⟨before, after, rfl, he⟩
    obtain ⟨rfl, rfl⟩ := Extent.mk.inj he
    have hrest : bytes (before ++ t) - bytes before = bytes t := by
      rw [bytes_append, Nat.add_sub_cancel_left]
    simp only [List.append_assoc, splitBytes?_bytes, Option.bind_some, hrest, Option.map_some]
    exact if_pos (by rw [bytes_append]; omega)

end Text

namespace Piece

theorem exists_of_mem_place {offset : Nat} {ps : List Piece} {t : Token} (h : t ∈ place offset ps) :
    ∃ qs rs, ps = qs ++ t.piece :: rs ∧
      t.extent = ⟨offset + Text.bytes (source qs), offset + Text.bytes (source qs ++ t.text)⟩ := by
  induction ps generalizing offset with
  | nil => cases h
  | cons p ps ih =>
    rcases List.mem_cons.mp h with rfl | h
    · exact ⟨[], ps, rfl, rfl⟩
    · obtain ⟨qs, rs, rfl, hextent⟩ := ih h
      refine ⟨p :: qs, rs, rfl, ?_⟩
      simpa only [source_cons, Text.bytes_append, Nat.add_assoc] using hextent

theorem place_chain (offset : Nat) (ps : List Piece) :
    (place offset ps).IsChain (fun t u => u.extent.start = t.extent.stop) ∧
      ∀ t ∈ (place offset ps).head?, t.extent.start = offset := by
  induction ps generalizing offset with
  | nil => exact ⟨.nil, by simp⟩
  | cons p ps ih =>
    obtain ⟨hchain, hfirst⟩ := ih (offset + Text.bytes p.text)
    refine ⟨List.isChain_cons.mpr ⟨hfirst, hchain⟩, ?_⟩
    rintro t ⟨⟩
    rfl

end Piece

theorem Token.lastStop_eq {ts : List Token} {t : Token} (h : t ∈ ts.getLast?) :
    Token.lastStop ts = t.extent.stop := by
  rw [lastStop, Option.mem_def.mp h]
  rfl

/-- The tokens of a source are nonempty, follow each other without a gap from the first byte to the last,
and have the texts that stand there. -/
theorem tokenize_lossless {legacyIds : Bool} {source : Text} {ts : List Token}
    (h : tokenize legacyIds source = .ok ts) :
    (∀ t ∈ ts, t.text ≠ [] ∧ t.extent.start < t.extent.stop) ∧
      (∀ t ∈ ts.head?, t.extent.start = 0) ∧
      ts.IsChain (fun t u => u.extent.start = t.extent.stop) ∧
      (∀ t ∈ ts.getLast?, t.extent.stop = Text.bytes source) ∧
      (∀ t ∈ ts, Text.slice? source t.extent = some t.text) ∧
      Token.source ts = source := by
  have hsource := source_of_tokenize h
  have hlast := lastStop_of_tokenize h
  obtain ⟨ps, b, hps, rfl⟩ := (tokenize_eq_ok_iff legacyIds source ts).mp h
  obtain ⟨hchain, hfirst⟩ := Piece.place_chain 0 ps
  refine ⟨?_, hfirst, hchain, ?_, ?_, hsource⟩
  · intro t ht
    have hne : t.text ≠ [] := hps.text_ne_nil t.piece (Piece.piece_of_mem_place ht)
    have hpos := Text.bytes_pos hne
    obtain ⟨qs, rs, -, hextent⟩ := Piece.exists_of_mem_place ht
    refine ⟨hne, ?_⟩
    rw [hextent, Text.bytes_append]
    dsimp only
    omega
  · intro t ht
    rw [← hlast, Token.lastStop_eq ht]
  · intro t ht
    obtain ⟨qs, rs, hsplit, hextent⟩ := Piece.exists_of_mem_place ht
    refine Text.slice?_eq_some_iff.mpr ⟨Piece.source qs, Piece.source rs, ?_, ?_⟩
    · rw [hps.source_eq, hsplit]
      simp [Token.piece]
    · rw [hextent, Nat.zero_add, Nat.zero_add]

theorem tokenize_lossless_wide :
    let source := "\n== é€\n \t\n[k=\"ü 😀\"#\"ß[ñ]]".toList
    ∃ ts, tokenize true source = .ok ts ∧ ts.length = 20 ∧
      (∀ t ∈ ts, t.text ≠ [] ∧ t.extent.start < t.extent.stop) ∧
      (∀ t ∈ ts.getLast?, t.extent.stop = 34) ∧
      (∀ t ∈ ts, Text.slice? source t.extent = some t.text) ∧ Token.source ts = source := by
  intro source
  have hrun : (tokenize true source).toOption.any (fun ts => ts.length = 20) = true := by decide +kernel
  generalize htokens : tokenize true source = result at hrun ⊢
  cases result with
  | error e => cases hrun
  | ok ts =>
    obtain ⟨hpos, -, -, hlast, hslice, hsource⟩ := tokenize_lossless htokens
    exact ⟨ts, rfl, of_decide_eq_true hrun, hpos, hlast, hslice, hsource⟩

end AsciiDoc
