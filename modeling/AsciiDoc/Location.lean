import AsciiDoc.Text.Basic

/-!
Places in a source. An `Extent` is a half-open range of byte offsets; a `Location` is what a
document keeps of it, in signed 64-bit numbers, with `-1` at both ends when it is not known.
-/

namespace AsciiDoc

structure Extent where
  start : Nat
  stop : Nat
  deriving DecidableEq, Repr

namespace Extent

def union (a b : Extent) : Extent := ⟨min a.start b.start, max a.stop b.stop⟩

def lastOffset : Nat := Nat.pow 2 64 - 1

end Extent

structure Location where
  start : Int
  stop : Int
  deriving DecidableEq, Repr

namespace Location

def unresolved : Location := ⟨-1, -1⟩

def ofExtent (e : Extent) : Location :=
  ⟨Int.bmod e.start (Nat.pow 2 64), Int.bmod e.stop (Nat.pow 2 64)⟩

def isResolved (l : Location) : Bool := 0 ≤ l.start && 0 ≤ l.stop

def extent? (l : Location) : Option Extent :=
  if l.isResolved then some ⟨l.start.toNat, l.stop.toNat⟩ else none

def union (a b : Location) : Location :=
  if a.isResolved then
    if b.isResolved then ⟨min a.start b.start, max a.stop b.stop⟩ else a
  else b

def render (l : Location) : Text :=
  Text.signedDecimal l.start ++ ['.', '.'] ++ Text.signedDecimal l.stop

end Location

end AsciiDoc
