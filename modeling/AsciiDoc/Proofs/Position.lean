import AsciiDoc.Text.Position
import Mathlib.Data.List.DropRight

namespace AsciiDoc.Text

def lastLine (s : Text) : Text := s.rtakeWhile (· != '\n')

theorem lineStartsFrom_append (offset : Nat) (s t : Text) :
    lineStartsFrom offset (s ++ t) = lineStartsFrom offset s ++ lineStartsFrom (offset + bytes s) t := by
  induction s generalizing offset with
  | nil => rfl
  | cons c s ih =>
    simp only [List.cons_append, lineStartsFrom, ih, bytes_cons, Nat.add_assoc]
    split <;> rfl

theorem lineStartsFrom_concat (offset : Nat) (s : Text) (c : Char) :
    lineStartsFrom offset (s ++ [c]) =
      lineStartsFrom offset s ++ if c = '\n' then [offset + bytes (s ++ [c])] else [] := by
  rw [lineStartsFrom_append]
  by_cases hc : c = '\n' <;> simp [lineStartsFrom, hc, Nat.add_assoc]

theorem length_lineStartsFrom (offset : Nat) (s : Text) :
    (lineStartsFrom offset s).length = s.count '\n' := by
  induction s generalizing offset with
  | nil => rfl
  | cons c s ih => by_cases hc : c = '\n' <;> simp [lineStartsFrom, hc, ih]

theorem lineStartsFrom_le {offset n : Nat} {s : Text} (h : n ∈ lineStartsFrom offset s) :
    offset < n ∧ n ≤ offset + bytes s := by
  induction s generalizing offset with
  | nil => cases h
  | cons c s ih =>
    have hsize := Char.utf8Size_pos c
    rw [bytes_cons]
    by_cases hc : c = '\n'
    · rw [lineStartsFrom, if_pos hc, List.mem_cons] at h
      rcases h with rfl | h
      · omega
      · have := ih h
        omega
    · rw [lineStartsFrom, if_neg hc] at h
      have := ih h
      omega

theorem getLastD_lineStarts (s : Text) :
    (lineStarts s).getLastD 0 + bytes (lastLine s) = bytes s := by
  induction s using List.reverseRecOn with
  | nil => rfl
  | append_singleton s c ih =>
    have hstarts : lineStarts (s ++ [c]) =
        lineStarts s ++ if c = '\n' then [bytes (s ++ [c])] else [] := by
      rw [lineStarts, lineStartsFrom_concat, Nat.zero_add]
      rfl
    rw [hstarts, lastLine, List.rtakeWhile_concat]
    by_cases hc : c = '\n'
    · simp [hc]
    · simp only [hc, if_false, List.append_nil, bne_iff_ne, ne_eq, not_false_eq_true, if_true,
        bytes_append]
      rw [← Nat.add_assoc]
      exact congrArg (· + bytes [c]) ih

theorem locate_append (before after : Text) :
    locate (before ++ after) (bytes before) = ⟨before.count '\n', bytes (lastLine before)⟩ := by
  have hreached : (lineStarts (before ++ after)).takeWhile (· ≤ bytes before) = lineStarts before := by
    have hle : ∀ n ∈ lineStarts before, decide (n ≤ bytes before) = true := by
      intro n hn
      rw [lineStarts, List.mem_cons] at hn
      rcases hn with rfl | hn
      · simp
      · have := (lineStartsFrom_le hn).2
        simpa using this
    have hrest : (lineStartsFrom (bytes before) after).takeWhile (· ≤ bytes before) = [] := by
      cases hstarts : lineStartsFrom (bytes before) after with
      | nil => rfl
      | cons n ns =>
        have := (lineStartsFrom_le (hstarts ▸ List.mem_cons_self : n ∈ lineStartsFrom _ after)).1
        rw [List.takeWhile_cons_of_neg (by simpa using this)]
    have hstarts : lineStarts (before ++ after) =
        lineStarts before ++ lineStartsFrom (bytes before) after := by
      rw [lineStarts, lineStartsFrom_append, Nat.zero_add]
      rfl
    rw [hstarts, List.takeWhile_append_of_pos hle, hrest, List.append_nil]
  have hlast := getLastD_lineStarts before
  have hlength : (lineStarts before).length = before.count '\n' + 1 := by
    rw [lineStarts, List.length_cons, length_lineStartsFrom]
  simp only [locate, hreached, hlength, Nat.add_sub_cancel, Position.mk.injEq, true_and]
  omega

end AsciiDoc.Text
