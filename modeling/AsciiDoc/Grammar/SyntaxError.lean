import AsciiDoc.Grammar.Parser
import AsciiDoc.Text.Position

namespace AsciiDoc

namespace Miss

def last? (ms : List Miss) : Option Miss :=
  ms.foldl (fun best m => if best.all fun b => b.index ≤ m.index then some m else best) none

def names (m : Miss) : List String :=
  m.expected.map fun x => (x.map Kind.name).getD "end of input"

end Miss

structure SyntaxError where
  offset : Nat
  position : Position
  expected : List String
  found : Option Token
  deriving DecidableEq, Repr

namespace SyntaxError

def message (e : SyntaxError) : String :=
  "Syntax error at " ++ e.position.render ++ " (offset " ++ toString e.offset ++
    "): expected one of [" ++ ", ".intercalate e.expected ++ "], found " ++
    (e.found.map Token.render).getD "end of input"

/-- What was looked for is sorted and named once; at the end of the input the offset is that of the end
of the last token. -/
def ofMisses (ts : List Token) (ms : List Miss) : SyntaxError :=
  let furthest := Miss.last? ms
  let found := ts[(furthest.map Miss.index).getD ts.length]?
  let offset := (found.map fun t => t.extent.start).getD (Token.lastStop ts)
  let names := (furthest.map Miss.names).getD []
  ⟨offset, Text.locate (Token.source ts) offset, names.mergeSort.eraseReps, found⟩

end SyntaxError

end AsciiDoc
