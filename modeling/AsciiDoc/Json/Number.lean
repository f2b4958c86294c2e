import AsciiDoc.Json.Scalar

/-!
Numbers in JSON texts. A number without fraction and exponent is an integer if it fits 64 bits,
unsigned or, below zero, signed. All others are floating point: the digits that fit 64 bits are
scaled by a power of ten, and digits beyond them only count.
-/

namespace AsciiDoc.Json

inductive Number where
  | integer (n : Int)
  | floating (x : Float)

namespace Number

def found : Number → Found
  | integer n => .integer n
  | floating x => .floating (Decimal.ofFloat x)

def maxUnsigned : Nat := Nat.pow 2 64 - 1

def maxExponent : Nat := Nat.pow 2 31 - 1

def absorb (limit n : Nat) : Text → Nat × Nat
  | [] => (n, 0)
  | c :: s =>
    if n * 10 + digitValue c ≤ limit then
      let (m, used) := absorb limit (n * 10 + digitValue c) s
      (m, used + 1)
    else (n, 0)

def maxPower : Nat := 308

def power (e : Nat) : Float := Float.ofScientific 1 false e

def shrink (x : Float) (e : Nat) : Float :=
  if e ≤ maxPower then x / power e
  else if x == 0 then x
  else shrink (x / power maxPower) (e - maxPower)
termination_by e
decreasing_by
  simp only [maxPower] at *
  omega

def scale? (n : Nat) (e : Int) : Option Float :=
  let x := n.toUInt64.toFloat
  if e < 0 then some (shrink x e.natAbs)
  else if e.natAbs ≤ maxPower then
    let y := x * power e.natAbs
    if y.isInf then none else some y
  else if x == 0 then some x
  else none

def signed (isNegative : Bool) (x : Float) : Float := if isNegative then -x else x

structure Parts (s : Text) where
  isNegative : Bool
  digits : Nat
  exponent : Int
  rest : Rest s

def Parts.toFloat {s : Text} (p : Parts s) : Except Fault (Number × Rest s) :=
  match scale? p.digits p.exponent with
  | some x => .ok (floating (signed p.isNegative x), p.rest)
  | none => .error (.before .numberOutOfRange p.rest.1)

def Parts.readExponent {s : Text} (p : Parts s) : Except Fault (Number × Rest s) :=
  let isBelow := p.rest.1.head? = some '-'
  let hasSign := isBelow ∨ p.rest.1.head? = some '+'
  let t : Text := if hasSign then p.rest.1.tail else p.rest.1
  have ht : t.length ≤ s.length := by
    have := p.rest.2
    simp only [t]
    split
    · rw [List.length_tail]; omega
    · exact this
  let digits := t.takeWhile isDigit
  let rest : Rest s := Rest.step ⟨t, ht⟩ (Rest.dropWhile isDigit t)
  if digits.isEmpty then
    if t.isEmpty then .error (.before .endInValue []) else .error (.reading .invalidNumber t)
  else
    let (e, used) := absorb maxExponent 0 digits
    if used = digits.length then
      Parts.toFloat { p with
        exponent := if isBelow then p.exponent - e else p.exponent + e, rest := rest }
    else if p.digits ≠ 0 ∧ ¬ isBelow then
      .error (.before .numberOutOfRange (t.drop (used + 1)))
    else .ok (floating (signed p.isNegative 0), rest)

def Parts.readFraction {s : Text} (p : Parts s) : Except Fault (Number × Rest s) :=
  let t := p.rest.1
  let digits := t.takeWhile isDigit
  if digits.isEmpty then
    if t.isEmpty then .error (.before .endInValue []) else .error (.reading .invalidNumber t)
  else
    let (n, used) := absorb maxUnsigned p.digits digits
    let q : Parts s :=
      ⟨p.isNegative, n, p.exponent - used, p.rest.step (Rest.dropWhile isDigit t)⟩
    match q.rest with
    | ⟨'e' :: _, h⟩ | ⟨'E' :: _, h⟩ => Parts.readExponent { q with rest := .tail h }
    | _ => q.toFloat

def Parts.toNumber {s : Text} (p : Parts s) : Except Fault (Number × Rest s) :=
  if p.exponent ≠ 0 then p.toFloat
  else if p.isNegative then
    if p.digits = 0 ∨ Nat.pow 2 63 < p.digits then
      .ok (floating (-p.digits.toUInt64.toFloat), p.rest)
    else .ok (integer (-p.digits), p.rest)
  else .ok (integer p.digits, p.rest)

def read (isNegative : Bool) (s : Text) : Except Fault (Number × Rest s) :=
  let digits := s.takeWhile isDigit
  if digits.isEmpty then
    if s.isEmpty then .error (.before .endInValue []) else .error (.reading .invalidNumber s)
  else if digits.head? = some '0' ∧ digits.length ≠ 1 then .error (.reading .invalidNumber s.tail)
  else
    let (n, used) := absorb maxUnsigned 0 digits
    let p : Parts s := ⟨isNegative, n, digits.length - used, Rest.dropWhile isDigit s⟩
    match p.rest with
    | ⟨'.' :: _, h⟩ => Parts.readFraction { p with rest := .tail h }
    | ⟨'e' :: _, h⟩ | ⟨'E' :: _, h⟩ => Parts.readExponent { p with rest := .tail h }
    | _ => p.toNumber

def skipExponent (s : Text) : Except Fault (Rest s) :=
  let hasSign := s.head? = some '-' ∨ s.head? = some '+'
  let t : Text := if hasSign then s.tail else s
  have ht : t.length ≤ s.length := by
    simp only [t]
    split
    · rw [List.length_tail]; omega
    · exact Nat.le_refl _
  if (t.takeWhile isDigit).isEmpty then .error (.reading .invalidNumber t)
  else .ok (Rest.step ⟨t, ht⟩ (Rest.dropWhile isDigit t))

def skipFraction (s : Text) : Except Fault (Rest s) :=
  if (s.takeWhile isDigit).isEmpty then .error (.reading .invalidNumber s)
  else
    match Rest.dropWhile isDigit s with
    | ⟨'e' :: r, h⟩ | ⟨'E' :: r, h⟩ =>
      (skipExponent r).map (Rest.tail h).step
    | t => .ok t

def skip (s : Text) : Except Fault (Rest s) :=
  let digits := s.takeWhile isDigit
  if digits.isEmpty then .error (.reading .invalidNumber s)
  else if digits.head? = some '0' ∧ digits.length ≠ 1 then .error (.reading .invalidNumber s.tail)
  else
    match Rest.dropWhile isDigit s with
    | ⟨'.' :: r, h⟩ => (skipFraction r).map (Rest.tail h).step
    | ⟨'e' :: r, h⟩ | ⟨'E' :: r, h⟩ =>
      (skipExponent r).map (Rest.tail h).step
    | t => .ok t

end Number

end AsciiDoc.Json
