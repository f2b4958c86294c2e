import AsciiDoc.Text.Basic

namespace AsciiDoc

structure Position where
  line : Nat
  column : Nat
  deriving DecidableEq, Repr

namespace Position

def render (p : Position) : String := toString p.line ++ ":" ++ toString p.column

end Position

namespace Text

def lineStartsFrom (offset : Nat) : Text → List Nat
  | [] => []
  | c :: s =>
    if c = '\n' then (offset + c.utf8Size) :: lineStartsFrom (offset + c.utf8Size) s
    else lineStartsFrom (offset + c.utf8Size) s

def lineStarts (source : Text) : List Nat := 0 :: lineStartsFrom 0 source

def lineCount (source : Text) : Nat := (lineStarts source).length

def locate (source : Text) (offset : Nat) : Position :=
  let reached := (lineStarts source).takeWhile (· ≤ offset)
  ⟨reached.length - 1, offset - reached.getLastD 0⟩

end Text

end AsciiDoc
