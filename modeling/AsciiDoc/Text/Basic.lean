namespace AsciiDoc

abbrev Text := List Char

namespace Text

def bytes (s : Text) : Nat := s.foldr (fun c n => c.utf8Size + n) 0

def run (p : Char → Bool) (s : Text) : Nat := (s.takeWhile p).length

def unwords (words : List Text) : Text := [' '].intercalate words

def clip (n : Nat) (mark s : Text) : Text :=
  if n < s.length then s.take n ++ mark else s

def decimal (n : Nat) : Text := Nat.toDigits 10 n

def signedDecimal : Int → Text
  | .ofNat n => decimal n
  | .negSucc n => '-' :: decimal (n + 1)

@[simp] theorem bytes_nil : bytes [] = 0 := rfl

@[simp] theorem bytes_cons (c : Char) (s : Text) : bytes (c :: s) = c.utf8Size + bytes s := rfl

@[simp] theorem bytes_append (s t : Text) : bytes (s ++ t) = bytes s + bytes t := by
  induction s with
  | nil => exact (Nat.zero_add _).symm
  | cons c s ih => rw [List.cons_append, bytes_cons, bytes_cons, ih, Nat.add_assoc]

theorem length_le_bytes (s : Text) : s.length ≤ bytes s := by
  induction s with
  | nil => exact Nat.le_refl 0
  | cons c s ih =>
    have hc := Char.utf8Size_pos c
    rw [List.length_cons, bytes_cons]
    omega

theorem bytes_pos {s : Text} (h : s ≠ []) : 0 < bytes s :=
  Nat.lt_of_lt_of_le (List.length_pos_iff.mpr h) (length_le_bytes s)

end Text

end AsciiDoc
