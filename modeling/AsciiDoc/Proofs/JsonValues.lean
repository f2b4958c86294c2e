import AsciiDoc.Proofs.JsonStrings
import Mathlib.Data.List.TakeWhile

namespace AsciiDoc.Json

def Blanks (s : Text) : Prop := ∀ c ∈ s, c = ' ' ∨ c = '\n' ∨ c = '\t' ∨ c = '\r'

def Digits (s : Text) : Prop := s ≠ [] ∧ ∀ c ∈ s, c.isDigit = true

inductive Fraction : Text → Prop
  | none : Fraction []
  | digits {ds : Text} (hds : Digits ds) : Fraction ('.' :: ds)

inductive Exponent : Text → Prop
  | none : Exponent []
  | digits {e : Char} {sign ds : Text} (he : e = 'e' ∨ e = 'E') (hsign : sign = [] ∨ sign = ['+'] ∨ sign = ['-'])
      (hds : Digits ds) : Exponent (e :: (sign ++ ds))

inductive Unsigned : Text → Prop
  | mk {whole fraction exponent : Text} (hwhole : Digits whole) (hzero : whole.head? = some '0' → whole = ['0'])
      (hfraction : Fraction fraction) (hexponent : Exponent exponent) : Unsigned (whole ++ (fraction ++ exponent))

inductive Scalar : Text → Prop
  | null : Scalar ['n', 'u', 'l', 'l']
  | true : Scalar ['t', 'r', 'u', 'e']
  | false : Scalar ['f', 'a', 'l', 's', 'e']
  | positive {s : Text} (hs : Unsigned s) : Scalar s
  | negative {s : Text} (hs : Unsigned s) : Scalar ('-' :: s)
  | string {s : Text} (hs : StringBody s) : Scalar ('"' :: (s ++ ['"']))

def Frame.opening : Frame → Char
  | list => '['
  | object => '\x7b'

inductive Phrase where
  | value
  -- an element of a list or a member of an object, with the blanks around it
  | item (f : Frame)
  | items (f : Frame)
  deriving DecidableEq

inductive Written : Phrase → Text → Prop
  | scalar {s : Text} (hs : Scalar s) : Written .value s
  | empty (f : Frame) {a : Text} (ha : Blanks a) : Written .value (f.opening :: (a ++ [f.closing]))
  | nested (f : Frame) {s : Text} (hs : Written (.items f) s) : Written .value (f.opening :: (s ++ [f.closing]))
  | element {a s b : Text} (ha : Blanks a) (hs : Written .value s) (hb : Blanks b) :
      Written (.item .list) (a ++ (s ++ b))
  | member {a key b c s d : Text} (ha : Blanks a) (hkey : StringBody key) (hb : Blanks b) (hc : Blanks c)
      (hs : Written .value s) (hd : Blanks d) :
      Written (.item .object) (a ++ '"' :: (key ++ '"' :: (b ++ ':' :: (c ++ (s ++ d)))))
  | last {f : Frame} {s : Text} (hs : Written (.item f) s) : Written (.items f) s
  | more {f : Frame} {s t : Text} (hs : Written (.item f) s) (ht : Written (.items f) t) :
      Written (.items f) (s ++ ',' :: t)

def Ends (rest : Text) : Prop := ∀ c ∈ rest.head?, c ∈ [' ', '\n', '\t', '\r', ',', ']', '\x7d']

section Blanks

variable {a s : Text} {c : Char}

theorem isBlank_iff (c : Char) : isBlank c = true ↔ c = ' ' ∨ c = '\n' ∨ c = '\t' ∨ c = '\r' := by
  simp [isBlank, or_assoc]

theorem blanks_nil : Blanks [] := by simp [Blanks]

theorem Blanks.dropWhile (ha : Blanks a) (s : Text) : (a ++ s).dropWhile isBlank = s.dropWhile isBlank :=
  List.dropWhile_append_of_pos fun c hc => (isBlank_iff c).mpr (ha c hc)

theorem Blanks.dropWhile_cons (ha : Blanks a) (hc : isBlank c = false) (s : Text) :
    (a ++ c :: s).dropWhile isBlank = c :: s := by
  rw [ha.dropWhile, List.dropWhile_cons_of_neg (by simp [hc])]

theorem Blanks.ends (ha : Blanks a) (hs : Ends s) : Ends (a ++ s) := by
  cases a with
  | nil => exact hs
  | cons d a =>
    rintro c ⟨⟩
    have hd := ha d List.mem_cons_self
    rcases hd with rfl | rfl | rfl | rfl <;> simp

theorem skipBlanks_eq {r : Text} (h : s.dropWhile isBlank = c :: r) : ∃ hle, skipBlanks s = ⟨c :: r, hle⟩ :=
  ⟨h ▸ (List.dropWhile_sublist _).length_le, Subtype.ext h⟩

end Blanks

section Numbers

theorem isDigit_eq : isDigit = Char.isDigit := rfl

theorem ne_of_isDigit {c d : Char} (hc : c.isDigit = true) (hd : d.isDigit = false) : c ≠ d := by
  rintro rfl
  rw [hc] at hd
  cases hd

theorem isBlank_of_isDigit {c : Char} (hc : c.isDigit = true) : isBlank c = false := by
  rw [Bool.eq_false_iff, Ne, isBlank_iff]
  simp only [not_or]
  exact ⟨ne_of_isDigit hc (by decide), ne_of_isDigit hc (by decide), ne_of_isDigit hc (by decide),
    ne_of_isDigit hc (by decide)⟩

theorem takeWhile_digits {ds rest : Text} (hds : ∀ c ∈ ds, c.isDigit = true)
    (hrest : ∀ c ∈ rest.head?, c.isDigit = false) :
    (ds ++ rest).takeWhile isDigit = ds ∧ (ds ++ rest).dropWhile isDigit = rest := by
  have hstop : rest.takeWhile Char.isDigit = [] ∧ rest.dropWhile Char.isDigit = rest := by
    cases rest with
    | nil => exact ⟨rfl, rfl⟩
    | cons c rest => simp [hrest c rfl]
  rw [isDigit_eq, List.takeWhile_append_of_pos hds, List.dropWhile_append_of_pos hds, hstop.1, hstop.2,
    List.append_nil]
  exact ⟨rfl, rfl⟩

theorem Ends.not_isDigit {rest : Text} (h : Ends rest) : ∀ c ∈ rest.head?, c.isDigit = false := by
  intro c hc
  have hall : ∀ c ∈ [' ', '\n', '\t', '\r', ',', ']', '\x7d'], c.isDigit = false := by decide
  exact hall c (h c hc)

theorem Ends.cases {rest : Text} (h : Ends rest) :
    rest = [] ∨ ∃ c r, rest = c :: r ∧ c ≠ '.' ∧ c ≠ 'e' ∧ c ≠ 'E' := by
  cases rest with
  | nil => exact Or.inl rfl
  | cons c r =>
    have hall : ∀ c ∈ [' ', '\n', '\t', '\r', ',', ']', '\x7d'], c ≠ '.' ∧ c ≠ 'e' ∧ c ≠ 'E' := by decide
    exact Or.inr ⟨c, r, rfl, hall c (h c rfl)⟩

theorem Exponent.head {exponent rest : Text} (h : Exponent exponent) (hrest : Ends rest) :
    ∀ c ∈ (exponent ++ rest).head?, c.isDigit = false := by
  cases h with
  | none => exact hrest.not_isDigit
  | digits he =>
    rintro c ⟨⟩
    rcases he with rfl | rfl <;> decide

theorem Fraction.head {fraction exponent rest : Text} (h : Fraction fraction) (hexponent : Exponent exponent)
    (hrest : Ends rest) : ∀ c ∈ (fraction ++ exponent ++ rest).head?, c.isDigit = false := by
  cases h with
  | none => exact hexponent.head hrest
  | digits =>
    rintro c ⟨⟩
    decide

theorem map_step {s : Text} (r : Rest s) (x : Except Fault (Rest r.1)) :
    (x.map r.step).map Subtype.val = x.map Subtype.val := by
  cases x <;> rfl

theorem skipExponent_of_eq {s t : Text}
    (ht : (if s.head? = some '-' ∨ s.head? = some '+' then s.tail else s) = t) (hne : t.takeWhile isDigit ≠ []) :
    Leaves Number.skipExponent s (t.dropWhile isDigit) := by
  subst ht
  unfold Leaves Number.skipExponent
  rw [if_neg (by simpa using hne)]
  rfl

theorem skipExponent_leaves {sign ds rest : Text} (hsign : sign = [] ∨ sign = ['+'] ∨ sign = ['-']) (hds : Digits ds)
    (hrest : ∀ c ∈ rest.head?, c.isDigit = false) : Leaves Number.skipExponent (sign ++ ds ++ rest) rest := by
  obtain ⟨htake, hdrop⟩ := takeWhile_digits hds.2 hrest
  have hunsigned : (if (sign ++ ds ++ rest).head? = some '-' ∨ (sign ++ ds ++ rest).head? = some '+' then
      (sign ++ ds ++ rest).tail else sign ++ ds ++ rest) = ds ++ rest := by
    obtain ⟨d, ds', hcons⟩ := List.exists_cons_of_ne_nil hds.1
    have hd := hds.2 d (by simp [hcons])
    have hminus : d ≠ '-' := ne_of_isDigit hd (by decide)
    have hplus : d ≠ '+' := ne_of_isDigit hd (by decide)
    rcases hsign with rfl | rfl | rfl <;> simp [hcons, hminus, hplus]
  have hskip := skipExponent_of_eq hunsigned (by rw [htake]; exact hds.1)
  rwa [hdrop] at hskip

theorem skipFraction_leaves {ds exponent rest : Text} (hds : Digits ds) (hexponent : Exponent exponent)
    (hrest : Ends rest) : Leaves Number.skipFraction (ds ++ exponent ++ rest) rest := by
  rw [List.append_assoc]
  obtain ⟨htake, hdrop⟩ := takeWhile_digits hds.2 (hexponent.head hrest)
  have hne : ¬((ds ++ (exponent ++ rest)).takeWhile isDigit).isEmpty = true := by
    rw [htake]
    simpa using hds.1
  have hdrop : Rest.dropWhile isDigit (ds ++ (exponent ++ rest)) = ⟨exponent ++ rest, by simp⟩ := Subtype.ext hdrop
  unfold Leaves Number.skipFraction
  rw [if_neg hne, hdrop]
  cases hexponent with
  | none =>
    rcases hrest.cases with rfl | ⟨c, r, rfl, -, he, hE⟩
    · rfl
    · simp [he, hE]
      rfl
  | digits he hsign hds' =>
    have hskip := skipExponent_leaves hsign hds' hrest.not_isDigit
    rcases he with rfl | rfl
    · exact (map_step _ _).trans hskip
    · exact (map_step _ _).trans hskip

theorem skipNumber_leaves {s rest : Text} (hs : Unsigned s) (hrest : Ends rest) :
    Leaves Number.skip (s ++ rest) rest := by
  cases hs with
  | @mk whole fraction exponent hwhole hzero hfraction hexponent =>
  rw [List.append_assoc]
  obtain ⟨htake, hdrop⟩ := takeWhile_digits hwhole.2 (hfraction.head hexponent hrest)
  have hne : whole.isEmpty = false := by simpa using hwhole.1
  have hdrop : Rest.dropWhile isDigit (whole ++ (fraction ++ exponent ++ rest)) =
      ⟨fraction ++ exponent ++ rest, by simp⟩ := Subtype.ext hdrop
  have hlead : ¬(whole.head? = some '0' ∧ whole.length ≠ 1) := by
    rintro ⟨hhead, hlength⟩
    rw [hzero hhead] at hlength
    exact hlength rfl
  unfold Leaves Number.skip
  simp only [htake, hne, hlead, hdrop, Bool.false_eq_true, if_false]
  cases hfraction with
  | digits hds => exact (map_step _ _).trans (skipFraction_leaves hds hexponent hrest)
  | none =>
    cases hexponent with
    | none =>
      rcases hrest.cases with rfl | ⟨c, r, rfl, hdot, he, hE⟩
      · rfl
      · simp [hdot, he, hE]
        rfl
    | digits he hsign hds =>
      have hskip := skipExponent_leaves hsign hds hrest.not_isDigit
      rcases he with rfl | rfl
      · exact (map_step _ _).trans hskip
      · exact (map_step _ _).trans hskip

end Numbers

section Numerals

theorem le_ofDigitChars (ds : Text) (n : Nat) : n ≤ Nat.ofDigitChars 10 ds n := by
  induction ds generalizing n with
  | nil => exact le_rfl
  | cons c ds ih =>
    rw [Nat.ofDigitChars_cons]
    have := ih (10 * n + (c.toNat - '0'.toNat))
    omega

theorem absorb_eq (ds : Text) {limit n : Nat} (h : Nat.ofDigitChars 10 ds n ≤ limit) :
    Number.absorb limit n ds = (Nat.ofDigitChars 10 ds n, ds.length) := by
  induction ds generalizing n with
  | nil => rfl
  | cons c ds ih =>
    have hcons : Nat.ofDigitChars 10 (c :: ds) n = Nat.ofDigitChars 10 ds (n * 10 + digitValue c) := by
      rw [Nat.ofDigitChars_cons, Nat.mul_comm, digitValue]
    rw [hcons] at h ⊢
    rw [Number.absorb, if_pos ((le_ofDigitChars ds _).trans h), ih h, List.length_cons]

theorem eq_zero_of_head?_decimal {n : Nat} (h : (Text.decimal n).head? = some '0') : n = 0 := by
  induction n using Nat.strongRecOn with
  | ind n ih =>
    rw [Text.decimal] at h
    by_cases hn : n < 10
    · rw [Nat.toDigits_of_lt_base hn] at h
      exact Nat.digitChar_eq_zero.mp (Option.some.inj h)
    · rw [Nat.toDigits_of_base_le (by decide) (by omega), List.head?_append_of_ne_nil _ Nat.toDigits_ne_nil] at h
      have := ih (n / 10) (by omega) h
      omega

theorem digits_decimal (n : Nat) : Digits (Text.decimal n) :=
  ⟨Nat.toDigits_ne_nil, fun _ hc => Nat.isDigit_of_mem_toDigits (by decide) (by decide) hc⟩

theorem readNumber_finds {n : Nat} {rest : Text} (hn : n < UInt64.size) (hrest : Ends rest) :
    Finds (Number.read false) (Text.decimal n ++ rest) (.integer n) rest := by
  obtain ⟨htake, hdrop⟩ := takeWhile_digits (digits_decimal n).2 hrest.not_isDigit
  have hdrop : Rest.dropWhile isDigit (Text.decimal n ++ rest) = ⟨rest, by simp⟩ := Subtype.ext hdrop
  have hne : (Text.decimal n).isEmpty = false := by simpa using (digits_decimal n).1
  have hlead : ¬((Text.decimal n).head? = some '0' ∧ (Text.decimal n).length ≠ 1) := by
    rintro ⟨hhead, hlength⟩
    obtain rfl := eq_zero_of_head?_decimal hhead
    exact hlength rfl
  have habsorb : Number.absorb Number.maxUnsigned 0 (Text.decimal n) = (n, (Text.decimal n).length) := by
    have hvalue : Nat.ofDigitChars 10 (Text.decimal n) 0 = n := Nat.ofDigitChars_ten_toDigits
    rw [absorb_eq, hvalue]
    rw [hvalue]
    exact Nat.le_sub_one_of_lt hn
  unfold Finds Number.read
  simp only [htake, hne, hlead, hdrop, habsorb, Bool.false_eq_true, if_false, Int.sub_self]
  rcases hrest.cases with rfl | ⟨c, r, rfl, hdot, he, hE⟩
  · rfl
  · simp [hdot, he, hE]
    rfl

end Numerals

section Scalars

theorem readWord_leaves (word rest : Text) : Leaves (readWord word) (word ++ rest) rest := by
  induction word with
  | nil => rfl
  | cons w word ih =>
    obtain ⟨hle, ih⟩ := leaves_iff.mp ih
    rw [Leaves, List.cons_append, readWord, if_pos rfl, ih]
    rfl

theorem Unsigned.exists_digit {s : Text} (hs : Unsigned s) : ∃ d t, s = d :: t ∧ d.isDigit = true := by
  cases hs with
  | mk hwhole =>
    obtain ⟨d, ds, rfl⟩ := List.exists_cons_of_ne_nil hwhole.1
    exact ⟨d, _, rfl, hwhole.2 d List.mem_cons_self⟩

theorem skipPlain_of_scalar {c : Char} {s rest : Text} (hc : isDigit c = false)
    (h : Leaves (skipScalar c) s rest) : Leaves skipPlain (c :: s) rest := by
  obtain ⟨hle, h⟩ := leaves_iff.mp h
  rw [Leaves, skipPlain, hc, if_neg (by decide), h]
  rfl

theorem skipPlain_leaves {s rest : Text} (hs : Scalar s) (hrest : Ends rest) : Leaves skipPlain (s ++ rest) rest := by
  cases hs with
  | null => exact skipPlain_of_scalar (by decide) (readWord_leaves ['u', 'l', 'l'] rest)
  | true => exact skipPlain_of_scalar (by decide) (readWord_leaves ['r', 'u', 'e'] rest)
  | false => exact skipPlain_of_scalar (by decide) (readWord_leaves ['a', 'l', 's', 'e'] rest)
  | positive hs =>
    obtain ⟨d, t, rfl, hd⟩ := hs.exists_digit
    rw [Leaves, List.cons_append, skipPlain, isDigit_eq, if_pos hd]
    exact skipNumber_leaves hs hrest
  | negative hs => exact skipPlain_of_scalar (by decide) (skipNumber_leaves hs hrest)
  | string hs =>
    rw [List.cons_append, List.append_assoc]
    exact skipPlain_of_scalar (by decide) (skipString_leaves hs rest)

theorem exists_cons_of_scalar {s : Text} (hs : Scalar s) :
    ∃ c t, s = c :: t ∧ isBlank c = false ∧ c ∉ ['[', ']', '\x7b', '\x7d'] := by
  cases hs with
  | null | true | false | negative | string => exact ⟨_, _, rfl, by decide, by decide⟩
  | positive hs =>
    obtain ⟨d, t, rfl, hd⟩ := hs.exists_digit
    have hne {c : Char} (hc : c.isDigit = false) : d ≠ c := ne_of_isDigit hd hc
    refine ⟨d, t, rfl, isBlank_of_isDigit hd, ?_⟩
    simp only [List.mem_cons, List.not_mem_nil, or_false, not_or]
    exact ⟨hne (by decide), hne (by decide), hne (by decide), hne (by decide)⟩

end Scalars

section Skipping

variable {stack : List Frame} {s r rest : Text} {c : Char}

theorem skip_open (f : Frame) (hs : s.dropWhile isBlank = f.opening :: r)
    (h : Leaves (skip .first (f :: stack)) r rest) : Leaves (skip .value stack) s rest := by
  obtain ⟨hle, hblanks⟩ := skipBlanks_eq hs
  rw [Leaves, skip, if_neg (by simp), hblanks]
  cases f with
  | list => exact (map_step _ _).trans h
  | object => exact (map_step _ _).trans h

theorem skip_scalar (hs : s.dropWhile isBlank = c :: r) (hlist : c ≠ '[') (hobject : c ≠ '\x7b') {t : Text}
    (hplain : Leaves skipPlain (c :: r) t) (h : Leaves (skip .comma stack) t rest) :
    Leaves (skip .value stack) s rest := by
  obtain ⟨hle, hblanks⟩ := skipBlanks_eq hs
  obtain ⟨hle', hplain⟩ := leaves_iff.mp hplain
  rw [Leaves, skip, if_neg (by simp), hblanks]
  simp only [hlist, hobject, if_false, hplain]
  exact (map_step _ _).trans h

theorem skip_key (hs : s.dropWhile isBlank = '"' :: r) {t u : Text} (hkey : Leaves skipString r t)
    (hcolon : Leaves skipColon t u) (h : Leaves (skip .value stack) u rest) : Leaves (skip .key stack) s rest := by
  obtain ⟨hle, hblanks⟩ := skipBlanks_eq hs
  obtain ⟨hle', hkey⟩ := leaves_iff.mp hkey
  obtain ⟨hle'', hcolon⟩ := leaves_iff.mp hcolon
  rw [Leaves, skip, if_neg (by simp), hblanks]
  simp only [if_true, hkey, hcolon]
  exact (map_step _ _).trans h

theorem skip_close (f : Frame) {e : Expect} (he : e = .first ∨ e = .comma) (hs : s.dropWhile isBlank = f.closing :: r)
    (h : Leaves (skip .comma stack) r rest) : Leaves (skip e (f :: stack)) s rest := by
  obtain ⟨hle, hblanks⟩ := skipBlanks_eq hs
  rw [Leaves, skip, if_neg (by simp), hblanks]
  rcases he with rfl | rfl
  · simp only [if_true]
    exact (map_step _ _).trans h
  · simp only [if_true]
    exact (map_step _ _).trans h

theorem skip_first (f : Frame) (hs : s.dropWhile isBlank = c :: r) (hc : c ≠ f.closing)
    (h : Leaves (skip (.item f) (f :: stack)) (c :: r) rest) : Leaves (skip .first (f :: stack)) s rest := by
  obtain ⟨hle, hblanks⟩ := skipBlanks_eq hs
  rw [Leaves, skip, if_neg (by simp), hblanks]
  simp only [hc, if_false]
  exact (map_step _ _).trans h

theorem skip_comma (f : Frame) (hs : s.dropWhile isBlank = ',' :: r)
    (h : Leaves (skip (.item f) (f :: stack)) r rest) : Leaves (skip .comma (f :: stack)) s rest := by
  obtain ⟨hle, hblanks⟩ := skipBlanks_eq hs
  have hc : ',' ≠ f.closing := by cases f <;> decide
  rw [Leaves, skip, if_neg (by simp), hblanks]
  simp only [hc, if_true, if_false]
  exact (map_step _ _).trans h

theorem skip_done (s : Text) : Leaves (skip .comma []) s s := by
  rw [Leaves, skip, if_pos ⟨rfl, rfl⟩]
  rfl

theorem skipColon_leaves {a : Text} (ha : Blanks a) (rest : Text) : Leaves skipColon (a ++ ':' :: rest) rest := by
  obtain ⟨hle, hblanks⟩ := skipBlanks_eq (ha.dropWhile_cons (c := ':') (by decide) rest)
  rw [Leaves, skipColon, hblanks]
  rfl

end Skipping

theorem Written.exists_head {p : Phrase} {s : Text} (h : Written p s) :
    ∃ a c t, s = a ++ c :: t ∧ Blanks a ∧ isBlank c = false ∧ c ∉ [']', '\x7d'] ∧ (p = .value → a = []) := by
  induction h with
  | scalar hs =>
    obtain ⟨c, t, rfl, hblank, hc⟩ := exists_cons_of_scalar hs
    exact ⟨[], c, t, rfl, blanks_nil, hblank, by simp at hc ⊢; tauto, fun _ => rfl⟩
  | empty f => exact ⟨[], _, _, rfl, blanks_nil, by cases f <;> decide, by cases f <;> decide, fun _ => rfl⟩
  | nested f => exact ⟨[], _, _, rfl, blanks_nil, by cases f <;> decide, by cases f <;> decide, fun _ => rfl⟩
  | @element a _ b ha _ _ ih =>
    obtain ⟨a', c, t, rfl, -, hblank, hc, hnil⟩ := ih
    obtain rfl := hnil rfl
    exact ⟨a, c, t ++ b, rfl, ha, hblank, hc, by simp⟩
  | @member a _ _ _ _ _ ha => exact ⟨a, '"', _, rfl, ha, by decide, by decide, by simp⟩
  | last _ ih =>
    obtain ⟨a, c, t, rfl, ha, hblank, hc, -⟩ := ih
    exact ⟨a, c, t, rfl, ha, hblank, hc, by simp⟩
  | @more _ _ t' _ _ ih =>
    obtain ⟨a, c, t, rfl, ha, hblank, hc, -⟩ := ih
    exact ⟨a, c, t ++ ',' :: t', by simp, ha, hblank, hc, by simp⟩

/-- Skipping goes on behind the phrase `s`. The text read may have more blanks in front than the phrase, since they are
dropped before it is known what follows. -/
def Skips : Phrase → Text → Prop
  | .value, s => ∀ stack text rest r, text.dropWhile isBlank = s ++ rest → Ends rest →
      Leaves (skip .comma stack) rest r → Leaves (skip .value stack) text r
  | .item f, s => ∀ stack text rest r, text.dropWhile isBlank = (s ++ rest).dropWhile isBlank → Ends rest →
      (∀ b, Blanks b → Leaves (skip .comma (f :: stack)) (b ++ rest) r) → Leaves (skip (.item f) (f :: stack)) text r
  | .items f, s => ∀ stack text rest r, text.dropWhile isBlank = (s ++ f.closing :: rest).dropWhile isBlank →
      Leaves (skip .comma stack) rest r → Leaves (skip (.item f) (f :: stack)) text r

theorem Frame.isBlank_closing (f : Frame) : isBlank f.closing = false := by cases f <;> decide

theorem Frame.ends_closing (f : Frame) (rest : Text) : Ends (f.closing :: rest) := by
  rintro c ⟨⟩
  cases f <;> decide

theorem ends_comma (rest : Text) : Ends (',' :: rest) := by
  rintro c ⟨⟩
  decide

theorem Written.skips {p : Phrase} {s : Text} (h : Written p s) : Skips p s := by
  -- The induction is on the grammar. What is open around a phrase is arbitrary, and so is what follows it.
  induction h with
  | scalar hs =>
    intro stack text rest r htext hrest hcomma
    have hplain := skipPlain_leaves hs hrest
    obtain ⟨c, t, rfl, -, hc⟩ := exists_cons_of_scalar hs
    exact skip_scalar htext (fun h => hc (by simp [h])) (fun h => hc (by simp [h])) hplain hcomma
  | @empty f a ha =>
    intro stack text rest r htext _ hcomma
    rw [List.cons_append, List.append_assoc] at htext
    exact skip_open f htext (skip_close f (Or.inl rfl) (ha.dropWhile_cons f.isBlank_closing rest) hcomma)
  | @nested f s hs ih =>
    intro stack text rest r htext _ hcomma
    rw [List.cons_append, List.append_assoc] at htext
    obtain ⟨a, c, t, rfl, ha, hblank, hc, -⟩ := hs.exists_head
    have hdrop : (a ++ c :: t ++ f.closing :: rest).dropWhile isBlank = c :: (t ++ f.closing :: rest) := by
      rw [List.append_assoc]
      exact ha.dropWhile_cons hblank _
    have hne : c ≠ f.closing := by
      rintro rfl
      cases f <;> simp [Frame.closing] at hc
    refine skip_open f htext (skip_first f hdrop hne (ih stack _ rest r ?_ hcomma))
    exact (List.dropWhile_cons_of_neg (by simp [hblank])).trans hdrop.symm
  | @element a s b ha hs hb ih =>
    intro stack text rest r htext hrest hcomma
    obtain ⟨a', c, t, rfl, -, hblank, -, hnil⟩ := hs.exists_head
    obtain rfl := hnil rfl
    refine ih (.list :: stack) text (b ++ rest) r ?_ (hb.ends hrest) (hcomma b hb)
    simp only [htext, List.append_assoc, List.nil_append, List.cons_append, ha.dropWhile_cons hblank]
  | @member a key b c s d ha hkey hb hc hs hd ih =>
    intro stack text rest r htext hrest hcomma
    obtain ⟨a', e, t, rfl, -, hblank, -, hnil⟩ := hs.exists_head
    obtain rfl := hnil rfl
    simp only [List.append_assoc, List.nil_append, List.cons_append,
      ha.dropWhile_cons (show isBlank '"' = false by decide)] at htext
    refine skip_key htext (skipString_leaves hkey _) (skipColon_leaves hb _)
      (ih (.object :: stack) _ (d ++ rest) r ?_ (hd.ends hrest) (hcomma d hd))
    simp only [List.nil_append, List.cons_append, hc.dropWhile_cons hblank]
  | @last f s _ ih =>
    intro stack text rest r htext hcomma
    refine ih stack text (f.closing :: rest) r htext (f.ends_closing rest) fun b hb => ?_
    exact skip_close f (Or.inr rfl) (hb.dropWhile_cons f.isBlank_closing rest) hcomma
  | @more f s t _ _ ihs iht =>
    intro stack text rest r htext hcomma
    rw [List.append_assoc] at htext
    refine ihs stack text (',' :: t ++ f.closing :: rest) r htext (ends_comma _) fun b hb => ?_
    exact skip_comma f (hb.dropWhile_cons (by decide) _) (iht stack _ rest r rfl hcomma)

theorem skipValue_leaves {a s rest : Text} (ha : Blanks a) (hs : Written .value s) (hrest : Ends rest) :
    Leaves skipValue (a ++ (s ++ rest)) rest := by
  obtain ⟨b, c, t, rfl, -, hblank, -, hnil⟩ := hs.exists_head
  obtain rfl := hnil rfl
  exact hs.skips [] _ rest rest (ha.dropWhile_cons hblank _) hrest (skip_done rest)

end AsciiDoc.Json
