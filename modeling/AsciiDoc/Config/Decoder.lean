import AsciiDoc.Config.Basic
import AsciiDoc.Json.Skip
import AsciiDoc.Text.Position

/-!
Reading a configuration from JSON: an object with a member for each setting that is not the default,
in any order and under either of its names, or a list of settings in their order. Members with other
keys are skipped. The first fault in reading order is reported with its line and column.
-/

namespace AsciiDoc

open Json

inductive Field where
  | literalIndent
  | alwaysQuote
  | idStyle
  | optionStyle
  | roleStyle
  | verbose
  | legacyIds
  deriving DecidableEq, Repr

namespace Field

def all : List Field :=
  [literalIndent, alwaysQuote, idStyle, optionStyle, roleStyle, verbose, legacyIds]

def name : Field → String
  | literalIndent => "literalParagraphIndent"
  | alwaysQuote => "alwaysQuoteAttributeValues"
  | idStyle => "idFormat"
  | optionStyle => "optionFormat"
  | roleStyle => "roleFormat"
  | verbose => "verbose"
  | legacyIds => "legacyIdBrackets"

def names : Field → List String
  | literalIndent => [literalIndent.name, "adocLiteralParagraphSpaces"]
  | alwaysQuote => [alwaysQuote.name, "adocAlwaysQuoteAttributeValues"]
  | idStyle => [idStyle.name, "adocIdFormat"]
  | optionStyle => [optionStyle.name, "adocOptionFormat"]
  | roleStyle => [roleStyle.name, "adocRoleFormat"]
  | verbose => [verbose.name, "adocVerbose"]
  | legacyIds => [legacyIds.name]

def ofKey? (key : Text) : Option Field := all.find? fun f => f.names.any fun s => s.toList = key

end Field

namespace Config

def mismatch (wanted : String) (c : Char) (s : Text) : Fault :=
  let word (found : Found) (letters : List Char) : Fault :=
    match readWord letters s with
    | .ok r => .before (.invalidType found wanted) r.1
    | .error f => f
  let number (r : Except Fault (Number × Text)) : Fault :=
    match r with
    | .ok (n, r) => .before (.invalidType n.found wanted) r
    | .error f => f
  if c = 'n' then word .null ['u', 'l', 'l']
  else if c = 't' then word (.boolean true) ['r', 'u', 'e']
  else if c = 'f' then word (.boolean false) ['a', 'l', 's', 'e']
  else if c = '-' then number ((Number.read true s).map fun p => (p.1, p.2.1))
  else if isDigit c then number ((Number.read false (c :: s)).map fun p => (p.1, p.2.1))
  else if c = '"' then
    match readString s with
    | .ok (v, r) => .before (.invalidType (.text v) wanted) r.1
    | .error f => f
  else if c = '[' then .before (.invalidType .sequence wanted) (c :: s)
  else if c = '\x7b' then .before (.invalidType .map wanted) (c :: s)
  else .reading .expectedValue (c :: s)

def toNatural {s : Text} (r : Number × Rest s) : Except Fault (Nat × Rest s) :=
  match r with
  | (.integer n, r) =>
    if n < 0 then .error (.before (.invalidValue (.integer n) "usize") r.1) else .ok (n.toNat, r)
  | (.floating x, r) => .error (.before (.invalidType (Number.floating x).found "usize") r.1)

def readNatural (s : Text) : Except Fault (Nat × Rest s) :=
  match skipBlanks s with
  | ⟨[], _⟩ => .error (.reading .endInValue [])
  | ⟨c :: r, h⟩ =>
    if c = '-' then do
      let (n, t) ← toNatural (← Number.read true r)
      return (n, (Rest.tail h).step t)
    else if isDigit c then do
      let (n, t) ← toNatural (← Number.read false (c :: r))
      return (n, Rest.step ⟨c :: r, h⟩ t)
    else .error (mismatch "usize" c r)

def readBool (s : Text) : Except Fault (Bool × Rest s) :=
  match skipBlanks s with
  | ⟨[], _⟩ => .error (.reading .endInValue [])
  | ⟨c :: r, h⟩ =>
    let tail := Rest.tail h
    if c = 't' then (readWord ['r', 'u', 'e'] r).map fun t => (true, tail.step t)
    else if c = 'f' then (readWord ['a', 'l', 's', 'e'] r).map fun t => (false, tail.step t)
    else .error (mismatch "a boolean" c r)

def readStyleName (s : Text) : Except Fault (Style × Rest s) := do
  let (name, r) ← readString s
  match Style.ofName? name with
  | some style => return (style, r)
  | none => throw (.before (.unknownName name [Style.shorthand.name, Style.formal.name]) r.1)

def readNull (s : Text) : Except Fault (Rest s) :=
  match skipBlanks s with
  | ⟨[], _⟩ => .error (.reading .endInValue [])
  | ⟨c :: r, h⟩ =>
    if c = 'n' then (readWord ['u', 'l', 'l'] r).map (Rest.tail h).step
    else .error (mismatch "unit" c r)

def readStyleEnd (s : Text) : Except Fault (Rest s) :=
  match skipBlanks s with
  | ⟨[], _⟩ => .error (.before .endInObject [])
  | ⟨c :: r, h⟩ =>
    if c = '\x7d' then .ok (.tail h) else .error (.before .expectedValue (c :: r))

/-- Reads a style that was given as an object, after the opening brace: its name is the key and the
value is null. An object without a key lacks a value. -/
def readStyleObject (s : Text) : Except Fault (Style × Rest s) :=
  match skipBlanks s with
  | ⟨[], _⟩ => .error (.reading .endInObject [])
  | ⟨c :: r, h⟩ =>
    if c = '"' then do
      let (style, t) ← readStyleName r
      let u ← skipColon t.1
      let v ← readNull u.1
      let w ← readStyleEnd v.1
      return (style, (Rest.tail h).step (t.step (u.step (v.step w))))
    else if c = '\x7d' then .error (.reading .expectedValue (c :: r))
    else .error (.reading .keyNotString (c :: r))

def readStyle (s : Text) : Except Fault (Style × Rest s) :=
  match skipBlanks s with
  | ⟨[], _⟩ => .error (.reading .endInValue [])
  | ⟨c :: r, h⟩ =>
    let tail := Rest.tail h
    if c = '"' then (readStyleName r).map fun p => (p.1, tail.step p.2)
    else if c = '\x7b' then (readStyleObject r).map fun p => (p.1, tail.step p.2)
    else .error (.reading .expectedValue (c :: r))

def readField (f : Field) (c : Config) (s : Text) : Except Fault (Config × Rest s) :=
  match f with
  | .literalIndent => (readNatural s).map fun p => ({ c with literalIndent := p.1 }, p.2)
  | .alwaysQuote => (readBool s).map fun p => ({ c with alwaysQuote := p.1 }, p.2)
  | .idStyle => (readStyle s).map fun p => ({ c with idStyle := p.1 }, p.2)
  | .optionStyle => (readStyle s).map fun p => ({ c with optionStyle := p.1 }, p.2)
  | .roleStyle => (readStyle s).map fun p => ({ c with roleStyle := p.1 }, p.2)
  | .verbose => (readBool s).map fun p => ({ c with verbose := p.1 }, p.2)
  | .legacyIds => (readBool s).map fun p => ({ c with legacyIds := p.1 }, p.2)

inductive KeyOrEnd (s : Text) where
  | closed (r : Rest s)
  | key (k : Text) (r : Text) (h : r.length < s.length)

def readKey {s : Text} (r : Text) (h : r.length < s.length) : Except Fault (KeyOrEnd s) :=
  (readString r).map fun p => .key p.1 p.2.1 (Nat.lt_of_le_of_lt p.2.2 h)

def readNextKey (isFirst : Bool) (s : Text) : Except Fault (KeyOrEnd s) :=
  match skipBlanks s with
  | ⟨[], _⟩ => .error (.reading .endInObject [])
  | ⟨c :: r, h⟩ =>
    if c = '\x7d' then .ok (.closed (.tail h))
    else if isFirst then
      if c = '"' then readKey r h else .error (.reading .keyNotString (c :: r))
    else if c = ',' then
      match skipBlanks r with
      | ⟨[], _⟩ => .error (.reading .endInValue [])
      | ⟨d :: t, ht⟩ =>
        if d = '"' then readKey t (Nat.lt_of_lt_of_le ht (Nat.le_of_succ_le h))
        else if d = '\x7d' then .error (.reading .trailingComma (d :: t))
        else .error (.reading .keyNotString (d :: t))
    else .error (.reading .expectedObjectEnd (c :: r))

/-- The fault of a key that comes again. Blanks behind it, and a closing brace, count as read. -/
def duplicate (f : Field) (s : Text) : Fault :=
  match (skipBlanks s).1 with
  | c :: r =>
    if c = '\x7d' then .before (.duplicateField f.name) r
    else .before (.duplicateField f.name) (c :: r)
  | [] => .before (.duplicateField f.name) []

def readMembers (seen : List Field) (isFirst : Bool) (c : Config) (s : Text) :
    Except Fault (Config × Rest s) :=
  match readNextKey isFirst s with
  | .error f => .error f
  | .ok (.closed r) => .ok (c, r)
  | .ok (.key k r h) =>
    match Field.ofKey? k with
    | none =>
      match skipColon r with
      | .error f => .error f
      | .ok ⟨t, ht⟩ =>
        match skipValue t with
        | .error f => .error f
        | .ok ⟨u, hu⟩ =>
          (readMembers seen false c u).map fun p =>
            (p.1, Rest.step ⟨u, Nat.le_trans hu (Nat.le_trans ht (Nat.le_of_lt h))⟩ p.2)
    | some field =>
      if field ∈ seen then .error (duplicate field r)
      else
        match skipColon r with
        | .error f => .error f
        | .ok ⟨t, ht⟩ =>
          match readField field c t with
          | .error f => .error f
          | .ok (c, ⟨u, hu⟩) =>
            (readMembers (field :: seen) false c u).map fun p =>
              (p.1, Rest.step ⟨u, Nat.le_trans hu (Nat.le_trans ht (Nat.le_of_lt h))⟩ p.2)
termination_by s.length
decreasing_by
  all_goals omega

def readListEnd (s : Text) : Except Fault (Rest s) :=
  match skipBlanks s with
  | ⟨[], _⟩ => .error (.reading .endInList [])
  | ⟨c :: r, h⟩ =>
    if c = ']' then .ok (.tail h)
    else if c = ',' then
      let t := (skipBlanks r).1
      if t.head? = some ']' then .error (.reading .trailingComma t)
      else .error (.reading .trailingCharacters t)
    else .error (.reading .trailingCharacters (c :: r))

def readNextItem (isFirst : Bool) (s : Text) : Except Fault (Option (Rest s)) :=
  match skipBlanks s with
  | ⟨[], _⟩ => .error (.reading .endInList [])
  | ⟨c :: r, h⟩ =>
    if c = ']' then .ok none
    else if isFirst then .ok (some ⟨c :: r, h⟩)
    else if c = ',' then
      match skipBlanks r with
      | ⟨[], _⟩ => .error (.reading .endInValue [])
      | ⟨d :: t, ht⟩ =>
        if d = ']' then .error (.reading .trailingComma (d :: t))
        else .ok (some ⟨d :: t, Nat.le_trans ht (Nat.le_of_succ_le h)⟩)
    else .error (.reading .expectedListEnd (c :: r))

def readItems (isFirst : Bool) (c : Config) :
    List Field → (s : Text) → Except Fault (Config × Rest s)
  | [], s => (readListEnd s).map fun r => (c, r)
  | f :: fields, s => do
    match ← readNextItem isFirst s with
    | none => return (c, ← readListEnd s)
    | some r =>
      let (c, t) ← readField f c r.1
      let (c, u) ← readItems false c fields t.1
      return (c, r.step (t.step u))

def readConfig (s : Text) : Except Fault (Config × Rest s) :=
  match skipBlanks s with
  | ⟨[], _⟩ => .error (.reading .endInValue [])
  | ⟨c :: r, h⟩ =>
    let tail := Rest.tail h
    if c = '[' then (readItems true {} Field.all r).map fun p => (p.1, tail.step p.2)
    else if c = '\x7b' then (readMembers [] true {} r).map fun p => (p.1, tail.step p.2)
    else .error (mismatch "struct Config" c r)

def readWhole (s : Text) : Except Fault Config := do
  let (c, r) ← readConfig s
  match (skipBlanks r.1).1 with
  | [] => return c
  | t => throw (.reading .trailingCharacters t)

end Config

structure ConfigError where
  cause : Cause
  line : Nat
  column : Nat
  deriving DecidableEq, Repr

namespace ConfigError

def message (e : ConfigError) : String :=
  "Failed to parse formatter configuration: " ++ e.cause.describe ++ " at line " ++
    toString e.line ++ " column " ++ toString e.column

def ofFault (s : Text) (f : Fault) : ConfigError :=
  let p := Text.locate s (Text.bytes s - f.left)
  ⟨f.cause, p.line + 1, p.column⟩

end ConfigError

def Config.decode (s : Text) : Except ConfigError Config :=
  (Config.readWhole s).mapError (ConfigError.ofFault s)

end AsciiDoc
