import AsciiDoc.Proofs.Position
import Mathlib.Data.List.Basic

namespace AsciiDoc

def Position.Before (p q : Position) : Prop := p.line < q.line ∨ p.line = q.line ∧ p.column < q.column

inductive Spot where
  | found (index : Nat)
  | missing (index : Nat)
  deriving DecidableEq, Repr

namespace Spot

def Fits (row : List Nat) (n : Nat) : Spot → Prop
  | found i => row[i]? = some n
  | missing i => i ≤ row.length ∧ (∀ m ∈ row.take i, m < n) ∧ ∀ m ∈ row.drop i, n < m

def line? : Spot → Option Nat
  | found i => some i
  | missing 0 => none
  | missing (i + 1) => some i

def position? (starts : List Nat) (n : Nat) (spot : Spot) : Option Position := do
  let line ← spot.line?
  let start ← starts[line]?
  if start ≤ n then some ⟨line, n - start⟩ else none

end Spot

namespace Text

def search (row : List Nat) (n lo hi : Nat) : Option Spot :=
  if lo < hi then
    match row[lo + (hi - lo) / 2]? with
    | none => none
    | some m =>
      if m = n then some (.found (lo + (hi - lo) / 2))
      else if m < n then search row n (lo + (hi - lo) / 2 + 1) hi
      else search row n lo (lo + (hi - lo) / 2)
  else some (.missing lo)
termination_by hi - lo

def lookup? (source : Text) (n : Nat) : Option Position :=
  (search (lineStarts source) n 0 (lineCount source)).bind (Spot.position? (lineStarts source) n)

def newlinesBelow (source : Text) (n : Nat) : Nat :=
  (List.range source.length).countP fun i => source[i]? = some '\n' ∧ bytes (source.take i) < n

def lineStart (source : Text) (k : Nat) : Nat := bytes (((source.splitOn '\n').take k).flatMap (· ++ ['\n']))

section Lines

theorem newlinesBelow_cons (c : Char) (s : Text) (n : Nat) :
    newlinesBelow (c :: s) n = (if c = '\n' ∧ 0 < n then 1 else 0) + newlinesBelow s (n - c.utf8Size) := by
  have hrest : (fun i => decide ((c :: s)[i]? = some '\n' ∧ bytes ((c :: s).take i) < n)) ∘ Nat.succ =
      fun i => decide (s[i]? = some '\n' ∧ bytes (s.take i) < n - c.utf8Size) := by
    funext i
    rw [Function.comp_apply, decide_eq_decide, List.getElem?_cons_succ, List.take_succ_cons, bytes_cons,
      Nat.lt_sub_iff_add_lt']
  rw [newlinesBelow, List.length_cons, List.range_succ_eq_map, List.countP_cons, List.countP_map, hrest, Nat.add_comm]
  simp [newlinesBelow]

theorem newlinesBelow_zero (s : Text) : newlinesBelow s 0 = 0 := by simp [newlinesBelow]

theorem newlinesBelow_mono (s : Text) {n m : Nat} (h : n ≤ m) : newlinesBelow s n ≤ newlinesBelow s m := by
  apply List.countP_mono_left
  intro i _ hi
  simp only [decide_eq_true_eq] at hi ⊢
  exact ⟨hi.1, hi.2.trans_le h⟩

theorem newlinesBelow_le_count (s : Text) (n : Nat) : newlinesBelow s n ≤ s.count '\n' := by
  induction s generalizing n with
  | nil => exact le_rfl
  | cons c s ih =>
    have hrest := ih (n - c.utf8Size)
    rw [newlinesBelow_cons, List.count_cons]
    by_cases hc : c = '\n'
    · simp only [hc, true_and, beq_self_eq_true, if_true] at hrest ⊢
      split <;> omega
    · simpa [hc] using hrest

theorem lineStart_zero (s : Text) : lineStart s 0 = 0 := by simp [lineStart]

theorem lineStart_newline (s : Text) (k : Nat) : lineStart ('\n' :: s) (k + 1) = 1 + lineStart s k := by
  rw [lineStart, List.splitOn_cons_eq_if_modifyHead, if_pos (by decide), List.take_succ_cons, List.flatMap_cons,
    bytes_append]
  rfl

theorem lineStart_cons {c : Char} (hc : c ≠ '\n') (s : Text) (k : Nat) :
    lineStart (c :: s) (k + 1) = c.utf8Size + lineStart s (k + 1) := by
  obtain ⟨l, ls, hlines⟩ := List.exists_cons_of_ne_nil (List.splitOn_ne_nil '\n' s)
  rw [lineStart, lineStart, List.splitOn_cons_eq_if_modifyHead, if_neg (by simpa using hc), hlines,
    List.modifyHead_cons, List.take_succ_cons, List.take_succ_cons, List.flatMap_cons, List.flatMap_cons,
    List.cons_append, List.cons_append, bytes_cons]

theorem lineStartsFrom_eq (offset : Nat) (s : Text) :
    lineStartsFrom offset s = (List.range (s.count '\n')).map fun k => offset + lineStart s (k + 1) := by
  induction s generalizing offset with
  | nil => rfl
  | cons c s ih =>
    by_cases hc : c = '\n'
    · subst hc
      have hsize : Char.utf8Size '\n' = 1 := rfl
      simp [lineStartsFrom, ih, List.range_succ_eq_map, lineStart_newline, lineStart_zero, hsize, Nat.add_assoc]
    · simp [lineStartsFrom, hc, ih, lineStart_cons hc, Nat.add_assoc]

theorem lineCount_eq (s : Text) : lineCount s = s.count '\n' + 1 := by
  rw [lineCount, lineStarts, List.length_cons, length_lineStartsFrom]

theorem lineStarts_eq (s : Text) : lineStarts s = (List.range (lineCount s)).map (lineStart s) := by
  simp [lineStarts, lineCount_eq, lineStartsFrom_eq, List.range_succ_eq_map, lineStart_zero]

theorem getElem?_lineStarts {s : Text} {k m : Nat} :
    (lineStarts s)[k]? = some m ↔ k ≤ s.count '\n' ∧ lineStart s k = m := by
  rw [lineStarts_eq, lineCount_eq, List.getElem?_map, Option.map_eq_some_iff]
  constructor
  · rintro ⟨j, hj, rfl⟩
    obtain ⟨hk, rfl⟩ := List.getElem?_eq_some_iff.mp hj
    rw [List.length_range] at hk
    rw [List.getElem_range]
    exact ⟨Nat.le_of_lt_succ hk, rfl⟩
  · rintro ⟨hk, rfl⟩
    exact ⟨k, List.getElem?_range (Nat.lt_succ_of_le hk), rfl⟩

theorem lineStart_le_iff {s : Text} {k : Nat} (hk : k ≤ s.count '\n') (n : Nat) :
    lineStart s k ≤ n ↔ k ≤ newlinesBelow s n := by
  induction s generalizing k n with
  | nil =>
    obtain rfl : k = 0 := Nat.le_zero.mp hk
    simp [lineStart_zero]
  | cons c s ih =>
    cases k with
    | zero => simp [lineStart_zero]
    | succ k =>
      rw [newlinesBelow_cons]
      by_cases hc : c = '\n'
      · subst hc
        have hsize : Char.utf8Size '\n' = 1 := rfl
        rw [List.count_cons_self, Nat.add_le_add_iff_right] at hk
        rw [lineStart_newline, hsize]
        cases n with
        | zero => simp [newlinesBelow_zero]
        | succ n =>
          have hrest := ih hk n
          simp only [true_and, Nat.succ_pos, if_true, Nat.add_sub_cancel]
          omega
      · rw [List.count_cons_of_ne hc] at hk
        have hrest := ih hk (n - c.utf8Size)
        rw [lineStart_cons hc, if_neg (fun h => hc h.1), Nat.zero_add, ← hrest]
        -- Below the end of the first character no line but the first one has begun.
        have hpos : 0 < lineStart s (k + 1) := by
          rw [Nat.pos_iff_ne_zero, Ne, ← Nat.le_zero, ih hk 0, newlinesBelow_zero]
          exact Nat.not_succ_le_zero k
        omega

end Lines

section Search

variable {row : List Nat} {n : Nat}

theorem lineStarts_increasing (s : Text) : (lineStarts s).Pairwise (· < ·) := by
  have hfrom : ∀ offset, (lineStartsFrom offset s).Pairwise (· < ·) := by
    induction s with
    | nil => exact fun _ => .nil
    | cons c s ih =>
      intro offset
      rw [lineStartsFrom]
      split
      · exact .cons (fun m hm => (lineStartsFrom_le hm).1) (ih _)
      · exact ih _
  exact .cons (fun m hm => (lineStartsFrom_le hm).1) (hfrom 0)

theorem take_succ_of_getElem? {i a : Nat} (h : row[i]? = some a) : row.take (i + 1) = row.take i ++ [a] := by
  rw [List.take_add_one, h, Option.toList_some]

theorem drop_of_getElem? {i a : Nat} (h : row[i]? = some a) : row.drop i = a :: row.drop (i + 1) := by
  obtain ⟨hi, rfl⟩ := List.getElem?_eq_some_iff.mp h
  exact List.drop_eq_getElem_cons hi

theorem around_of_getElem? (hrow : row.Pairwise (· < ·)) {i a : Nat} (h : row[i]? = some a) :
    (∀ m ∈ row.take i, m < a) ∧ ∀ m ∈ row.drop (i + 1), a < m := by
  rw [← List.take_append_drop i row, drop_of_getElem? h, List.pairwise_append, List.pairwise_cons] at hrow
  exact ⟨fun m hm => hrow.2.2 m hm a List.mem_cons_self, hrow.2.1.1⟩

theorem search_fits (hrow : row.Pairwise (· < ·)) {lo hi : Nat} (hlo : lo ≤ hi) (hhi : hi ≤ row.length)
    (hbelow : ∀ m ∈ row.take lo, m < n) (habove : ∀ m ∈ row.drop hi, n < m) :
    ∃ spot, search row n lo hi = some spot ∧ spot.Fits row n := by
  fun_induction search row n lo hi with
  | case1 lo hi hlt hnone =>
    rw [List.getElem?_eq_none_iff] at hnone
    omega
  | case2 lo hi hlt hfound => exact ⟨_, rfl, hfound⟩
  | case3 lo hi hlt m hm hne hless ih =>
    refine ih (by omega) hhi ?_ habove
    rw [take_succ_of_getElem? hm]
    have hbefore := (around_of_getElem? hrow hm).1
    exact List.forall_mem_append.mpr ⟨fun k hk => (hbefore k hk).trans hless, List.forall_mem_singleton.mpr hless⟩
  | case4 lo hi hlt m hm hne hless ih =>
    refine ih (by omega) (by omega) hbelow ?_
    rw [drop_of_getElem? hm]
    have hmore : n < m := by omega
    have hbehind := (around_of_getElem? hrow hm).2
    exact List.forall_mem_cons.mpr ⟨hmore, fun k hk => hmore.trans (hbehind k hk)⟩
  | case5 lo hi hlt =>
    obtain rfl : lo = hi := by omega
    exact ⟨_, rfl, hhi, hbelow, habove⟩

theorem takeWhile_eq_take {i : Nat} (hbelow : ∀ m ∈ row.take i, m ≤ n) (habove : ∀ m ∈ row.drop i, n < m) :
    row.takeWhile (· ≤ n) = row.take i := by
  have hdrop : (row.drop i).takeWhile (· ≤ n) = [] := by
    cases hrest : row.drop i with
    | nil => rfl
    | cons m ms =>
      have := habove m (by simp [hrest])
      exact List.takeWhile_cons_of_neg (by simpa using this)
  calc row.takeWhile (· ≤ n) = (row.take i ++ row.drop i).takeWhile (· ≤ n) := by rw [List.take_append_drop]
    _ = row.take i := by
      rw [List.takeWhile_append_of_pos (fun m hm => decide_eq_true (hbelow m hm)), hdrop, List.append_nil]

theorem locate_eq {source : Text} {k start : Nat} (hk : (lineStarts source)[k]? = some start) (hstart : start ≤ n)
    (habove : ∀ m ∈ (lineStarts source).drop (k + 1), n < m) : locate source n = ⟨k, n - start⟩ := by
  have htake := take_succ_of_getElem? hk
  have hbefore := (around_of_getElem? (lineStarts_increasing source) hk).1
  have hreached : (lineStarts source).takeWhile (· ≤ n) = (lineStarts source).take k ++ [start] := by
    rw [← htake]
    apply takeWhile_eq_take _ habove
    rw [htake]
    exact List.forall_mem_append.mpr
      ⟨fun m hm => ((hbefore m hm).trans_le hstart).le, List.forall_mem_singleton.mpr hstart⟩
  have hline : ((lineStarts source).take k ++ [start]).length - 1 = k := by
    have hlength := (List.getElem?_eq_some_iff.mp hk).1
    simp only [List.length_append, List.length_take, List.length_singleton]
    omega
  simp only [locate, hreached, hline, List.getLastD_concat]

end Search

end Text

namespace Spot

open Text

theorem Fits.position?_eq {source : Text} {n : Nat} {spot : Spot} (h : spot.Fits (lineStarts source) n) :
    spot.position? (lineStarts source) n = some (locate source n) := by
  cases spot with
  | found i =>
    have hi : (lineStarts source)[i]? = some n := h
    rw [locate_eq hi le_rfl (around_of_getElem? (lineStarts_increasing source) hi).2]
    simp [position?, line?, hi]
  | missing i =>
    obtain ⟨hi, hbelow, habove⟩ := h
    cases i with
    | zero =>
      -- The first line starts at zero, and no offset is below that.
      exact absurd (habove 0 List.mem_cons_self) (Nat.not_lt_zero n)
    | succ i =>
      obtain ⟨start, hstart⟩ : ∃ start, (lineStarts source)[i]? = some start := ⟨_, List.getElem?_eq_getElem hi⟩
      have hlt := hbelow start (by simp [take_succ_of_getElem? hstart])
      rw [locate_eq hstart hlt.le habove]
      simp [position?, line?, hstart, hlt.le]

end Spot

namespace Text

theorem lookup?_eq (source : Text) (n : Nat) : lookup? source n = some (locate source n) := by
  obtain ⟨spot, hsearch, hfits⟩ :=
    search_fits (n := n) (lineStarts_increasing source) (Nat.zero_le _) le_rfl (by simp) (by simp)
  rw [lookup?, lineCount, hsearch, Option.bind_some, hfits.position?_eq]

theorem locate_eq_newlinesBelow (source : Text) (n : Nat) :
    locate source n = ⟨newlinesBelow source n, n - lineStart source (newlinesBelow source n)⟩ := by
  have hle := newlinesBelow_le_count source n
  apply locate_eq (getElem?_lineStarts.mpr ⟨hle, rfl⟩) ((lineStart_le_iff hle n).mpr le_rfl)
  intro m hm
  obtain ⟨j, hj⟩ := List.mem_iff_getElem?.mp hm
  rw [List.getElem?_drop] at hj
  obtain ⟨hcount, rfl⟩ := getElem?_lineStarts.mp hj
  rw [← Nat.not_le, lineStart_le_iff hcount]
  omega

theorem before_locate (source : Text) {n m : Nat} (h : n < m) : (locate source n).Before (locate source m) := by
  have hstart := (lineStart_le_iff (newlinesBelow_le_count source n) n).mpr le_rfl
  rw [locate_eq_newlinesBelow, locate_eq_newlinesBelow]
  rcases Nat.lt_or_eq_of_le (newlinesBelow_mono source h.le) with hline | hline
  · exact Or.inl hline
  · exact Or.inr ⟨hline, by simp only [← hline]; omega⟩

/-- The position of any offset: its line counts the newlines below, and its column is the distance from the start of
that line. It is found by halving without an index out of range or a difference below zero, and by any other search
whose answer fits. A greater offset has a greater position. -/
theorem locate_exact (source : Text) (n : Nat) :
    (locate source n).line = newlinesBelow source n ∧
      lineStart source (locate source n).line ≤ n ∧
      (locate source n).column = n - lineStart source (locate source n).line ∧
      (locate source n).line < lineCount source ∧
      lookup? source n = some (locate source n) ∧
      (∀ spot : Spot, spot.Fits (lineStarts source) n →
        spot.position? (lineStarts source) n = some (locate source n)) ∧
      ∀ m, n < m → (locate source n).Before (locate source m) := by
  have hcount := newlinesBelow_le_count source n
  have hposition := locate_eq_newlinesBelow source n
  refine ⟨?_, ?_, ?_, ?_, lookup?_eq source n, fun spot hspot => hspot.position?_eq, fun m => before_locate source⟩
  · rw [hposition]
  · rw [hposition]
    exact (lineStart_le_iff hcount n).mpr le_rfl
  · rw [hposition]
  · rw [hposition, lineCount_eq]
    exact Nat.lt_succ_of_le hcount

theorem locate_exact_wide :
    let source := "é\n\nü".toList
    [1, 2, 3, 4, 5, 9].map (locate source) = [⟨0, 1⟩, ⟨0, 2⟩, ⟨1, 0⟩, ⟨2, 0⟩, ⟨2, 1⟩, ⟨2, 5⟩] ∧
      (Spot.missing 1).Fits (lineStarts source) 2 ∧
      (Spot.missing 1).position? (lineStarts source) 2 = some (locate source 2) ∧
      2 < 9 ∧ (locate source 2).Before (locate source 9) := by
  intro source
  have hfits : (Spot.missing 1).Fits (lineStarts source) 2 := ⟨by decide, by decide, by decide⟩
  obtain ⟨-, -, -, -, -, hspot, hbefore⟩ := locate_exact source 2
  exact ⟨by decide, hfits, hspot _ hfits, by decide, hbefore 9 (by decide)⟩

end Text

end AsciiDoc
