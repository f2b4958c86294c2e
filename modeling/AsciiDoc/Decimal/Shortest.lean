import AsciiDoc.Text.Basic

/-!
Shortest decimals. A positive number `m · 2 ^ q` stands for all reals that are nearer to it than to
its neighbours; it is written as the shortest decimal among those, and of several as the nearest.
All comparisons are exact, between natural numbers.
-/

namespace AsciiDoc.Decimal

structure Ratio where
  num : Nat
  den : Nat
  deriving DecidableEq, Repr

namespace Ratio

def scaled (n b : Nat) : Int → Ratio
  | .ofNat e => ⟨n * b.pow e, 1⟩
  | .negSucc e => ⟨n, b.pow (e + 1)⟩

def times (r s : Ratio) : Ratio := ⟨r.num * s.num, r.den * s.den⟩

def floor (r : Ratio) : Nat := r.num / r.den

def le (r s : Ratio) : Bool := r.num * s.den ≤ s.num * r.den

def lt (r s : Ratio) : Bool := !s.le r

def distance (r s : Ratio) : Ratio :=
  ⟨(r.num * s.den - s.num * r.den) + (s.num * r.den - r.num * s.den), r.den * s.den⟩

end Ratio

structure Interval where
  low : Ratio
  high : Ratio
  closed : Bool
  deriving DecidableEq, Repr

namespace Interval

/-- The reals that round to `m · 2 ^ q`. Its neighbours lie at a distance of `2 ^ q`, but the lower
one is nearer by half if the number is a power of two that is not the least. -/
def around (m : Nat) (q : Int) : Interval :=
  let low :=
    if m = Nat.pow 2 52 ∧ -1074 < q then Ratio.scaled (4 * m - 1) 2 (q - 2)
    else Ratio.scaled (2 * m - 1) 2 (q - 1)
  ⟨low, .scaled (2 * m + 1) 2 (q - 1), m % 2 = 0⟩

def contains (i : Interval) (r : Ratio) : Bool :=
  if i.closed then i.low.le r && r.le i.high else i.low.lt r && r.lt i.high

end Interval

def pointOf (v : Ratio) : Int :=
  (Text.decimal (v.times (.scaled 1 10 330)).floor).length - 330

def nearest? (v : Ratio) (i : Interval) (unit : Int) : Option Nat :=
  let below := (v.times (.scaled 1 10 (-unit))).floor
  let low := Ratio.scaled below 10 unit
  let high := Ratio.scaled (below + 1) 10 unit
  match i.contains low, i.contains high with
  | true, true =>
    let toLow := v.distance low
    let toHigh := v.distance high
    if toLow.lt toHigh || (toLow.le toHigh && below % 2 = 0) then some below else some (below + 1)
  | true, false => some below
  | false, true => some (below + 1)
  | false, false => none

/-- The shortest multiple of a power of ten in the interval around `v`, with the exponent; seventeen
digits are always enough. -/
def search (v : Ratio) (i : Interval) : Option (Nat × Int) :=
  (List.range 17).findSome? fun (k : Nat) =>
    let unit := pointOf v - (k + 1)
    (nearest? v i unit).map fun n => (n, unit)

def strip (digits : Text) : Text := (digits.reverse.dropWhile (· = '0')).reverse

def layout (digits : Text) (point : Int) : Text :=
  if digits.length ≤ point ∧ point ≤ 16 then
    digits ++ List.replicate (point - digits.length).toNat '0' ++ ['.', '0']
  else if 0 < point ∧ point ≤ 16 then
    digits.take point.toNat ++ '.' :: digits.drop point.toNat
  else if -5 < point ∧ point ≤ 0 then
    ['0', '.'] ++ List.replicate (-point).toNat '0' ++ digits
  else
    let sign := if point < 1 then '-' else '+'
    let exponent := 'e' :: sign :: Text.decimal (point - 1).natAbs
    if digits.length = 1 then digits ++ exponent
    else digits.take 1 ++ '.' :: digits.drop 1 ++ exponent

/-- The text of `m · 2 ^ q`, for at most 53 bits and exponents not below `-1074`. -/
def shortest (m : Nat) (q : Int) : Text :=
  match if m = 0 then none else search (.scaled m 2 q) (.around m q) with
  | none => ['0', '.', '0']
  | some (n, unit) =>
    let numeral := Text.decimal n
    layout (strip numeral) (numeral.length + unit)

def ofFloat (x : Float) : Text :=
  let bits := x.toBits.toNat
  let exponent : Nat := bits / Nat.pow 2 52 % Nat.pow 2 11
  let fraction : Nat := bits % Nat.pow 2 52
  let magnitude :=
    if exponent = 0 then shortest fraction (-1074)
    else shortest (fraction + Nat.pow 2 52) (exponent - 1075)
  if bits / Nat.pow 2 63 = 1 then '-' :: magnitude else magnitude

end AsciiDoc.Decimal
