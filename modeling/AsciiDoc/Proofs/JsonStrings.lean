import AsciiDoc.Json.Skip
import AsciiDoc.Json.Value
import Mathlib.Data.List.Forall2

namespace AsciiDoc.Json

def Leaves (f : (s : Text) → Except Fault (Rest s)) (s rest : Text) : Prop :=
  (f s).map Subtype.val = .ok rest

def Finds {α : Type} (f : (s : Text) → Except Fault (α × Rest s)) (s : Text) (v : α) (rest : Text) : Prop :=
  (f s).map (fun p => (p.1, p.2.1)) = .ok (v, rest)

theorem leaves_iff {f : (s : Text) → Except Fault (Rest s)} {s rest : Text} :
    Leaves f s rest ↔ ∃ h, f s = .ok ⟨rest, h⟩ := by
  unfold Leaves
  constructor
  · intro h
    cases hf : f s with
    | error e =>
      rw [hf] at h
      cases h
    | ok r =>
      rw [hf] at h
      cases h
      exact ⟨r.2, rfl⟩
  · rintro ⟨h, hf⟩
    rw [hf]
    rfl

theorem finds_iff {α : Type} {f : (s : Text) → Except Fault (α × Rest s)} {s rest : Text} {v : α} :
    Finds f s v rest ↔ ∃ h, f s = .ok (v, ⟨rest, h⟩) := by
  unfold Finds
  constructor
  · intro h
    cases hf : f s with
    | error e =>
      rw [hf] at h
      cases h
    | ok p =>
      rw [hf] at h
      cases h
      exact ⟨p.2.2, rfl⟩
  · rintro ⟨h, hf⟩
    rw [hf]
    rfl

def IsHexDigit (v : Nat) (c : Char) : Prop := c = Nat.digitChar v ∨ c = (Nat.digitChar v).toUpper

inductive IsHex : Nat → Text → Prop
  | mk {n : Nat} {a b c d : Char} (hn : n < 0x10000) (ha : IsHexDigit (n / 0x1000) a)
      (hb : IsHexDigit (n / 0x100 % 16) b) (hc : IsHexDigit (n / 0x10 % 16) c) (hd : IsHexDigit (n % 16) d) :
      IsHex n [a, b, c, d]

def units (c : Char) : List Nat :=
  if c.toNat < 0x10000 then [c.toNat]
  else [0xD800 + (c.toNat - 0x10000) / 0x400, 0xDC00 + (c.toNat - 0x10000) % 0x400]

def shortEscapes : List (Char × Char) :=
  [('"', '"'), ('\\', '\\'), ('/', '/'), ('b', '\x08'), ('f', '\x0c'), ('n', '\n'), ('r', '\r'), ('t', '\t')]

def codeEscape (digits : Text) : Text := '\\' :: 'u' :: digits

inductive SpellsChar : Text → Char → Prop
  | plain {c : Char} (hc : 32 ≤ c.toNat) (hquote : c ≠ '"') (hback : c ≠ '\\') : SpellsChar [c] c
  | short {letter c : Char} (h : (letter, c) ∈ shortEscapes) : SpellsChar ['\\', letter] c
  | code {c : Char} {ds : List Text} (h : List.Forall₂ IsHex (units c) ds) : SpellsChar (ds.flatMap codeEscape) c

inductive Spells : Text → Text → Prop
  | nil : Spells [] []
  | cons {u s v : Text} {c : Char} (hc : SpellsChar u c) (hs : Spells s v) : Spells (u ++ s) (c :: v)

inductive StringBody : Text → Prop
  | nil : StringBody []
  | char {u s : Text} {c : Char} (hc : SpellsChar u c) (hs : StringBody s) : StringBody (u ++ s)
  | half {n : Nat} {ds s : Text} (hds : IsHex n ds) (hs : StringBody s) : StringBody (codeEscape ds ++ s)

section Reading

theorem hexValue?_digitChar :
    ∀ v < 16, hexValue? (Nat.digitChar v) = some v ∧ hexValue? (Nat.digitChar v).toUpper = some v := by decide

theorem hexValue?_eq {v : Nat} {c : Char} (h : IsHexDigit v c) (hv : v < 16) : hexValue? c = some v := by
  rcases h with rfl | rfl
  · exact (hexValue?_digitChar v hv).1
  · exact (hexValue?_digitChar v hv).2

theorem readHex_finds {n : Nat} {ds : Text} (h : IsHex n ds) (rest : Text) : Finds readHex (ds ++ rest) n rest := by
  cases h with
  | mk hn ha hb hc hd =>
    have hvalue : (n / 0x1000 * 16 + n / 0x100 % 16) * 256 + (n / 0x10 % 16 * 16 + n % 16) = n := by omega
    have ha := hexValue?_eq ha (by omega)
    have hb := hexValue?_eq hb (by omega)
    have hc := hexValue?_eq hc (by omega)
    have hd := hexValue?_eq hd (by omega)
    simp [Finds, readHex, fourHex?, ha, hb, hc, hd, hvalue]
    rfl

theorem shortEscape?_eq : ∀ p ∈ shortEscapes, p.1 ≠ 'u' ∧ shortEscape? p.1 = some p.2 := by decide

theorem units_cases (c : Char) :
    units c = [c.toNat] ∧ isTrailing c.toNat = false ∧ isLeading c.toNat = false ∨
      ∃ high low, units c = [high, low] ∧ isTrailing high = false ∧ isLeading high = true ∧
        isTrailing low = true ∧ 0x10000 + (high - 0xD800) * 0x400 + (low - 0xDC00) = c.toNat := by
  have hrange : c.toNat < 0xD800 ∨ 0xDFFF < c.toNat ∧ c.toNat < 0x110000 := c.valid
  simp only [isTrailing, isLeading, Bool.and_eq_false_iff, Bool.and_eq_true, decide_eq_false_iff_not,
    decide_eq_true_eq]
  unfold units
  split
  · exact Or.inl ⟨rfl, by omega, by omega⟩
  · exact Or.inr ⟨_, _, rfl, by omega, by omega, by omega, by omega⟩

theorem readTrailing_finds (high : Nat) {low : Nat} {ds : Text} (hds : IsHex low ds) (hlow : isTrailing low = true)
    (rest : Text) :
    Finds (readTrailing high) (codeEscape ds ++ rest)
      (Char.ofNat (0x10000 + (high - 0xD800) * 0x400 + (low - 0xDC00))) rest := by
  obtain ⟨hle, hread⟩ := finds_iff.mp (readHex_finds hds rest)
  simp [Finds, codeEscape, readTrailing, hread, hlow, Except.map, Rest.behind]

theorem readCodePoint_finds {c : Char} {ds : List Text} (h : List.Forall₂ IsHex (units c) ds) (rest : Text) :
    ∃ t, ds.flatMap codeEscape ++ rest = '\\' :: 'u' :: t ∧ Finds readCodePoint t c rest := by
  rcases units_cases c with ⟨hunits, htrailing, hleading⟩ | ⟨high, low, hunits, hhigh, hleading, hlow, hvalue⟩
  · rw [hunits] at h
    cases h with
    | @cons _ d _ ds hd h =>
    cases h
    obtain ⟨hle, hread⟩ := finds_iff.mp (readHex_finds hd rest)
    refine ⟨d ++ rest, by simp [codeEscape], ?_⟩
    simp [Finds, readCodePoint, hread, htrailing, hleading, Except.map]
  · rw [hunits] at h
    cases h with
    | @cons _ d _ ds hd h =>
    cases h with
    | @cons _ e _ ds he h =>
    cases h
    obtain ⟨hle, hread⟩ := finds_iff.mp (readHex_finds hd (codeEscape e ++ rest))
    obtain ⟨hle', hread'⟩ := finds_iff.mp (readTrailing_finds high he hlow rest)
    refine ⟨d ++ (codeEscape e ++ rest), by simp [codeEscape], ?_⟩
    rw [hvalue, Char.ofNat_toNat] at hread'
    simp [Finds, readCodePoint, hread, hhigh, hleading, hread', Except.map]
    rfl

theorem readEscape_cases {u : Text} {c : Char} (h : SpellsChar u c) (rest : Text) :
    u = [c] ∧ 32 ≤ c.toNat ∧ c ≠ '"' ∧ c ≠ '\\' ∨
      ∃ t, u ++ rest = '\\' :: t ∧ Finds readEscape t c rest := by
  cases h with
  | plain hc hquote hback => exact Or.inl ⟨rfl, hc, hquote, hback⟩
  | @short letter _ h =>
    obtain ⟨hu, hshort⟩ := shortEscape?_eq _ h
    refine Or.inr ⟨letter :: rest, rfl, ?_⟩
    simp only [Finds, readEscape, if_neg hu, hshort]
    rfl
  | code h =>
    obtain ⟨t, ht, hcode⟩ := readCodePoint_finds h rest
    obtain ⟨hle, hcode⟩ := finds_iff.mp hcode
    refine Or.inr ⟨'u' :: t, ht, ?_⟩
    simp only [Finds, readEscape, if_true, hcode]
    rfl

theorem readString_finds {s v : Text} (h : Spells s v) (rest : Text) : Finds readString (s ++ '"' :: rest) v rest := by
  induction h with
  | nil =>
    simp only [Finds, List.nil_append, readString, if_true]
    rfl
  | @cons u s v c hc hs ih =>
    obtain ⟨hle, ih⟩ := finds_iff.mp ih
    rw [List.append_assoc]
    rcases readEscape_cases hc (s ++ '"' :: rest) with ⟨rfl, hc, hquote, hback⟩ | ⟨t, ht, hescape⟩
    · rw [List.singleton_append, Finds, readString, if_neg hquote, if_neg hback, if_neg (by omega), ih]
      rfl
    · obtain ⟨hle', hescape⟩ := finds_iff.mp hescape
      rw [ht, Finds, readString, if_neg (by decide), if_pos rfl, hescape]
      simp only [ih]
      rfl

end Reading

section Skipping

variable {s rest : Text}

theorem skipString_plain {c : Char} (hc : 32 ≤ c.toNat) (hquote : c ≠ '"') (hback : c ≠ '\\')
    (h : Leaves skipString s rest) : Leaves skipString (c :: s) rest := by
  obtain ⟨hle, h⟩ := leaves_iff.mp h
  rw [Leaves, skipString, if_neg hquote, if_neg hback, if_neg (by omega), h]
  rfl

theorem skipString_short {letter c : Char} (hletter : (letter, c) ∈ shortEscapes) (h : Leaves skipString s rest) :
    Leaves skipString ('\\' :: letter :: s) rest := by
  obtain ⟨hle, h⟩ := leaves_iff.mp h
  obtain ⟨hu, hshort⟩ := shortEscape?_eq _ hletter
  have hescape : skipEscape (letter :: s) = .ok ((Rest.whole s).behind letter) := by
    simp [skipEscape, hu, hshort]
  rw [Leaves, skipString, if_neg (by decide), if_pos rfl, hescape]
  simp only [Rest.behind, Rest.whole, h]
  rfl

theorem skipString_code {n : Nat} {ds : Text} (hds : IsHex n ds) (h : Leaves skipString s rest) :
    Leaves skipString (codeEscape ds ++ s) rest := by
  obtain ⟨hle, h⟩ := leaves_iff.mp h
  obtain ⟨hle', hread⟩ := finds_iff.mp (readHex_finds hds s)
  have hescape : skipEscape ('u' :: (ds ++ s)) = .ok (Rest.behind 'u' ⟨s, hle'⟩) := by
    simp [skipEscape, hread, Except.map]
  simp only [codeEscape, List.cons_append]
  rw [Leaves, skipString, if_neg (by decide), if_pos rfl, hescape]
  simp only [Rest.behind, h]
  rfl

theorem skipString_codes {ns : List Nat} {ds : List Text} (hds : List.Forall₂ IsHex ns ds)
    (h : Leaves skipString s rest) : Leaves skipString (ds.flatMap codeEscape ++ s) rest := by
  induction hds with
  | nil => exact h
  | cons hd _ ih =>
    rw [List.flatMap_cons, List.append_assoc]
    exact skipString_code hd ih

theorem skipString_leaves (hs : StringBody s) (rest : Text) : Leaves skipString (s ++ '"' :: rest) rest := by
  induction hs with
  | nil =>
    rw [List.nil_append, Leaves, skipString, if_pos rfl]
    rfl
  | half hds _ ih =>
    rw [List.append_assoc]
    exact skipString_code hds ih
  | @char u s c hc _ ih =>
    rw [List.append_assoc]
    cases hc with
    | plain hc hquote hback => exact skipString_plain hc hquote hback ih
    | short hletter => exact skipString_short hletter ih
    | code hds => exact skipString_codes hds ih

end Skipping

section Rendering

theorem spellsChar_control {c : Char} (hc : c.toNat < 32) :
    SpellsChar ['\\', 'u', '0', '0', (c.toNat / 16).digitChar, (c.toNat % 16).digitChar] c := by
  have hunits : units c = [c.toNat] := if_pos (by omega)
  have hhex : IsHex c.toNat ['0', '0', (c.toNat / 16).digitChar, (c.toNat % 16).digitChar] := by
    refine .mk (by omega) ?_ ?_ ?_ (Or.inl rfl)
    · rw [show c.toNat / 0x1000 = 0 by omega]
      exact Or.inl rfl
    · rw [show c.toNat / 0x100 % 16 = 0 by omega]
      exact Or.inl rfl
    · rw [show c.toNat / 0x10 % 16 = c.toNat / 16 by omega]
      exact Or.inl rfl
  have hcode : List.Forall₂ IsHex (units c) [['0', '0', (c.toNat / 16).digitChar, (c.toNat % 16).digitChar]] := by
    rw [hunits]
    exact .cons hhex .nil
  exact .code hcode

theorem spellsChar_escape (c : Char) : SpellsChar (escape c) c := by
  have hchar {n : Nat} (hn : c.toNat = n) : c = Char.ofNat n := by rw [← hn, Char.ofNat_toNat]
  unfold escape
  split_ifs with hquote hback hnewline hreturn htab hb hf hcontrol
  · exact .short (by simp [hquote, shortEscapes])
  · exact .short (by simp [hback, shortEscapes])
  · exact .short (by simp [hnewline, shortEscapes])
  · exact .short (by simp [hreturn, shortEscapes])
  · exact .short (by simp [htab, shortEscapes])
  · rw [hchar hb]
    exact .short (by decide)
  · rw [hchar hf]
    exact .short (by decide)
  · exact spellsChar_control hcontrol
  · exact .plain (by omega) hquote hback

theorem spells_flatMap_escape (s : Text) : Spells (s.flatMap escape) s := by
  induction s with
  | nil => exact .nil
  | cons c s ih => exact .cons (spellsChar_escape c) ih

end Rendering

end AsciiDoc.Json
