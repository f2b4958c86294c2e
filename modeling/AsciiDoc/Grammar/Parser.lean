import AsciiDoc.Token.Basic

/-!
Parsers of tokens. Alternatives are tried in order and the first that succeeds is taken; a repetition
takes all it can, and neither is tried another way when something fails later on. Along with its
result a parser reports the furthest test that failed, also inside what was given up.
-/

namespace AsciiDoc

/-- Tests that failed behind the first `index` tokens. Looked for was a kind or, with `none`, the end of
the input. -/
structure Miss where
  index : Nat
  expected : List (Option Kind)
  deriving DecidableEq, Repr

namespace Miss

def furthest (m n : Miss) : Miss :=
  if m.index < n.index then n
  else if n.index < m.index then m
  else ⟨m.index, m.expected ++ n.expected⟩

def furthestOf (m : Miss) : Option Miss → Miss
  | none => m
  | some n => m.furthest n

end Miss

inductive Outcome (α : Type) where
  | ok (value : α) (index : Nat) (rest : List Token) (miss : Option Miss)
  | fail (miss : Miss)
  deriving DecidableEq, Repr

def Parser (α : Type) : Type := Nat → List Token → Outcome α

namespace Parser

variable {α β : Type}

def token (k : Kind) : Parser Token
  | i, [] => .fail ⟨i, [some k]⟩
  | i, t :: ts => if t.kind = k then .ok t (i + 1) ts none else .fail ⟨i, [some k]⟩

def endOfInput : Parser Unit
  | i, [] => .ok () i [] none
  | i, _ :: _ => .fail ⟨i, [none]⟩

@[inline] def map (f : α → β) (p : Parser α) : Parser β := fun i ts =>
  match p i ts with
  | .ok a j us m => .ok (f a) j us m
  | .fail m => .fail m

@[inline] def andThen (p : Parser α) (q : Parser β) : Parser (α × β) := fun i ts =>
  match p i ts with
  | .ok a j us m =>
    match q j us with
    | .ok b k vs n => .ok (a, b) k vs (m.merge Miss.furthest n)
    | .fail n => .fail (n.furthestOf m)
  | .fail m => .fail m

@[inline] def orElse (p q : Parser α) : Parser α := fun i ts =>
  match p i ts with
  | .ok a j us m => .ok a j us m
  | .fail m =>
    match q i ts with
    | .ok a j us n => .ok a j us (some (m.furthestOf n))
    | .fail n => .fail (m.furthest n)

@[inline] def optional (p : Parser α) : Parser (Option α) := fun i ts =>
  match p i ts with
  | .ok a j us m => .ok (some a) j us m
  | .fail m => .ok none i ts (some m)

/-- Takes `p` until it fails. A round reads a token at least, so the tokens at hand bound the number of
rounds. -/
def rounds (p : Parser α) : List Token → Nat → List Token → Outcome (List α)
  | [], i, ts => p.optional.map Option.toList i ts
  | _ :: bound, i, ts =>
    (p.andThen (p.rounds bound)).optional.map
      (fun
        | none => []
        | some (a, as) => a :: as) i ts

def repeated (p : Parser α) : Parser (List α) := fun i ts => p.rounds ts i ts

def several (p : Parser α) : Parser (List α) :=
  (p.andThen p.repeated).map fun (a, as) => a :: as

def run (p : Parser α) (ts : List Token) : Except (List Miss) α :=
  match p 0 ts with
  | .ok a _ _ _ => .ok a
  | .fail m => .error [m]

end Parser

end AsciiDoc
