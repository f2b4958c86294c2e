import AsciiDoc.Decimal.Shortest
import AsciiDoc.Json.Fault

namespace AsciiDoc.Json

abbrev Rest (s : Text) := { r : Text // r.length ≤ s.length }

namespace Rest

def step {s : Text} (r : Rest s) (t : Rest r.1) : Rest s := ⟨t.1, Nat.le_trans t.2 r.2⟩

def behind (c : Char) {s : Text} (r : Rest s) : Rest (c :: s) := ⟨r.1, Nat.le_succ_of_le r.2⟩

def tail {s r : Text} {c : Char} (h : (c :: r).length ≤ s.length) : Rest s := ⟨r, Nat.le_of_succ_le h⟩

def whole (s : Text) : Rest s := ⟨s, Nat.le_refl _⟩

def dropWhile (p : Char → Bool) (s : Text) : Rest s :=
  ⟨s.dropWhile p, (List.dropWhile_sublist p).length_le⟩

end Rest

def isBlank (c : Char) : Bool := c = ' ' || c = '\n' || c = '\t' || c = '\r'

def isDigit (c : Char) : Bool := '0' ≤ c && c ≤ '9'

def digitValue (c : Char) : Nat := c.toNat - '0'.toNat

def skipBlanks (s : Text) : Rest s := Rest.dropWhile isBlank s

def readWord : (word : List Char) → (s : Text) → Except Fault (Rest s)
  | [], s => .ok (.whole s)
  | _ :: _, [] => .error (.before .endInValue [])
  | w :: word, c :: s =>
    if c = w then (readWord word s).map (Rest.behind c)
    else .error (.reading .expectedIdent (c :: s))

def hexValue? (c : Char) : Option Nat :=
  if '0' ≤ c ∧ c ≤ '9' then some (c.toNat - '0'.toNat)
  else if 'a' ≤ c ∧ c ≤ 'f' then some (c.toNat - 'a'.toNat + 10)
  else if 'A' ≤ c ∧ c ≤ 'F' then some (c.toNat - 'A'.toNat + 10)
  else none

def fourHex? : (s : Text) → Option (Nat × Rest s)
  | a :: b :: c :: d :: s => do
    let high := (← hexValue? a) * 16 + (← hexValue? b)
    let low := (← hexValue? c) * 16 + (← hexValue? d)
    return (high * 256 + low, (Rest.whole s).behind d |>.behind c |>.behind b |>.behind a)
  | _ => none

/-- Reads four hexadecimal digits; the four bytes count as read even if they are none. -/
def readHex (s : Text) : Except Fault (Nat × Rest s) :=
  match fourHex? s with
  | some r => .ok r
  | none =>
    if Text.bytes s < 4 then .error ⟨.endInString, 0⟩
    else .error ⟨.invalidEscape, Text.bytes s - 4⟩

def isLeading (n : Nat) : Bool := 0xD800 ≤ n && n ≤ 0xDBFF

def isTrailing (n : Nat) : Bool := 0xDC00 ≤ n && n ≤ 0xDFFF

def readTrailing (n : Nat) : (s : Text) → Except Fault (Char × Rest s)
  | [] => .error (.before .endInString [])
  | '\\' :: [] => .error (.before .endInString [])
  | '\\' :: 'u' :: s =>
    match readHex s with
    | .error f => .error f
    | .ok (m, r) =>
      if isTrailing m then
        .ok (Char.ofNat (0x10000 + (n - 0xD800) * 0x400 + (m - 0xDC00)), (r.behind 'u').behind '\\')
      else .error (.before .loneSurrogate r.1)
  | '\\' :: s => .error (.reading .unfinishedSurrogate s)
  | s => .error (.reading .unfinishedSurrogate s)

def readCodePoint (s : Text) : Except Fault (Char × Rest s) :=
  match readHex s with
  | .error f => .error f
  | .ok (n, r) =>
    if isTrailing n then .error (.before .loneSurrogate r.1)
    else if isLeading n then (readTrailing n r.1).map fun p => (p.1, r.step p.2)
    else .ok (Char.ofNat n, r)

def shortEscape? (c : Char) : Option Char :=
  if c = '"' then some '"'
  else if c = '\\' then some '\\'
  else if c = '/' then some '/'
  else if c = 'b' then some (Char.ofNat 8)
  else if c = 'f' then some (Char.ofNat 12)
  else if c = 'n' then some '\n'
  else if c = 'r' then some '\r'
  else if c = 't' then some '\t'
  else none

def readEscape : (s : Text) → Except Fault (Char × Rest s)
  | [] => .error (.before .endInString [])
  | c :: s =>
    if c = 'u' then (readCodePoint s).map fun p => (p.1, p.2.behind c)
    else
      match shortEscape? c with
      | some d => .ok (d, (Rest.whole s).behind c)
      | none => .error (.reading .invalidEscape (c :: s))

def readString : (s : Text) → Except Fault (Text × Rest s)
  | [] => .error (.before .endInString [])
  | c :: s =>
    if c = '"' then .ok ([], (Rest.whole s).behind c)
    else if c = '\\' then
      match readEscape s with
      | .error f => .error f
      | .ok (d, ⟨t, h⟩) =>
        match readString t with
        | .error f => .error f
        | .ok (v, r) => .ok (d :: v, Rest.behind c (Rest.step ⟨t, h⟩ r))
    else if c.toNat < 32 then .error (.reading .controlCharacter (c :: s))
    else (readString s).map fun p => (c :: p.1, p.2.behind c)
termination_by s => s.length
decreasing_by
  all_goals simp only [List.length_cons]
  all_goals omega

def skipEscape : (s : Text) → Except Fault (Rest s)
  | [] => .error (.before .endInString [])
  | c :: s =>
    if c = 'u' then (readHex s).map fun p => p.2.behind c
    else if (shortEscape? c).isSome then .ok ((Rest.whole s).behind c)
    else .error (.reading .invalidEscape (c :: s))

def skipString : (s : Text) → Except Fault (Rest s)
  | [] => .error (.before .endInString [])
  | c :: s =>
    if c = '"' then .ok ((Rest.whole s).behind c)
    else if c = '\\' then
      match skipEscape s with
      | .error f => .error f
      | .ok ⟨t, h⟩ => (skipString t).map fun r => Rest.behind c (Rest.step ⟨t, h⟩ r)
    else if c.toNat < 32 then .error (.before .controlCharacter (c :: s))
    else (skipString s).map (Rest.behind c)
termination_by s => s.length
decreasing_by
  all_goals simp only [List.length_cons]
  all_goals omega

end AsciiDoc.Json
