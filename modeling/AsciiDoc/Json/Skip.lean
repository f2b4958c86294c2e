import AsciiDoc.Json.Number

namespace AsciiDoc.Json

inductive Frame where
  | list
  | object
  deriving DecidableEq, Repr

namespace Frame

def closing : Frame → Char
  | list => ']'
  | object => '\x7d'

def endCause : Frame → Cause
  | list => .endInList
  | object => .endInObject

def itemCause : Frame → Cause
  | list => .expectedListEnd
  | object => .expectedObjectEnd

end Frame

inductive Expect where
  | value
  | key
  | first
  | comma
  deriving DecidableEq, Repr

namespace Expect

def item : Frame → Expect
  | .list => .value
  | .object => .key

/-- In this order one expectation can follow another before a character is read. -/
def rank : Expect → Nat
  | first => 2
  | value | key => 1
  | comma => 0

theorem rank_item (f : Frame) : (item f).rank = 1 := by cases f <;> rfl

def endCause : Expect → List Frame → Cause
  | value, _ | _, [] => .endInValue
  | key, _ => .endInObject
  | _, f :: _ => f.endCause

end Expect

def skipScalar (c : Char) (s : Text) : Except Fault (Rest s) :=
  if c = 'n' then readWord ['u', 'l', 'l'] s
  else if c = 't' then readWord ['r', 'u', 'e'] s
  else if c = 'f' then readWord ['a', 'l', 's', 'e'] s
  else if c = '-' then Number.skip s
  else if c = '"' then skipString s
  else .error (.reading .expectedValue (c :: s))

def skipPlain (s : Text) : Except Fault (Rest s) :=
  match s with
  | [] => .error (.reading .endInValue [])
  | c :: s => if isDigit c then Number.skip (c :: s) else (skipScalar c s).map (Rest.behind c)

def skipColon (s : Text) : Except Fault (Rest s) :=
  match skipBlanks s with
  | ⟨[], _⟩ => .error (.reading .endInObject [])
  | ⟨c :: r, h⟩ =>
    if c = ':' then .ok (.tail h) else .error (.reading .expectedColon (c :: r))

def skip (e : Expect) (stack : List Frame) (s : Text) : Except Fault (Rest s) :=
  if e = .comma ∧ stack = [] then .ok (.whole s)
  else
    match skipBlanks s with
    | ⟨[], _⟩ => .error (.reading (e.endCause stack) [])
    | ⟨c :: r, h⟩ =>
      let tail := Rest.tail h
      match e, stack with
      | .value, stack =>
        if c = '[' then (skip .first (.list :: stack) r).map tail.step
        else if c = '\x7b' then (skip .first (.object :: stack) r).map tail.step
        else
          match skipPlain (c :: r) with
          | .error f => .error f
          | .ok ⟨t, ht⟩ => (skip .comma stack t).map (Rest.step ⟨t, Nat.le_trans ht h⟩)
      | .key, stack =>
        if c = '"' then
          match skipString r with
          | .error f => .error f
          | .ok ⟨t, ht⟩ =>
            match skipColon t with
            | .error f => .error f
            | .ok ⟨u, hu⟩ =>
              (skip .value stack u).map (tail.step (Rest.step ⟨t, ht⟩ ⟨u, hu⟩)).step
        else .error (.reading .keyNotString (c :: r))
      | _, [] => .ok (.whole s)
      | .first, f :: outer =>
        if c = f.closing then (skip .comma outer r).map tail.step
        else (skip (.item f) (f :: outer) (c :: r)).map (Rest.step ⟨c :: r, h⟩)
      | .comma, f :: outer =>
        if c = f.closing then (skip .comma outer r).map tail.step
        else if c = ',' then (skip (.item f) (f :: outer) r).map tail.step
        else .error (.reading f.itemCause (c :: r))
termination_by 3 * s.length + e.rank
decreasing_by
  all_goals have hr : r.length + 1 ≤ s.length := h
  all_goals try rw [Expect.rank_item]
  all_goals simp only [List.length_cons, Expect.rank] at *
  all_goals omega

def skipValue (s : Text) : Except Fault (Rest s) := skip .value [] s

end AsciiDoc.Json
