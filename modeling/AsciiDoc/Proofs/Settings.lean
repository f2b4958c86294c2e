import AsciiDoc.Config.Decoder
import AsciiDoc.Proofs.JsonValues
import Mathlib.Data.List.Induction

namespace AsciiDoc

open Json

inductive Domain where
  | natural
  | boolean
  | style

namespace Domain

@[reducible] def Value : Domain → Type
  | natural => Nat
  | boolean => Bool
  | style => Style

def Writes : (d : Domain) → d.Value → Text → Prop
  | natural, n, s => n < UInt64.size ∧ s = Text.decimal n
  | boolean, b, s => s = (if b then ['t', 'r', 'u', 'e'] else ['f', 'a', 'l', 's', 'e'])
  | style, x, s => ∃ name, Spells name x.name.toList ∧ s = '"' :: (name ++ ['"'])

def read : (d : Domain) → (s : Text) → Except Fault (d.Value × Rest s)
  | natural => Config.readNatural
  | boolean => Config.readBool
  | style => Config.readStyle

def toJson : (d : Domain) → d.Value → Json
  | natural, n => .nat n
  | boolean, b => .bool b
  | style, x => .text x.name.toList

end Domain

def Field.domain : Field → Domain
  | literalIndent => .natural
  | alwaysQuote | verbose | legacyIds => .boolean
  | idStyle | optionStyle | roleStyle => .style

structure Setting where
  field : Field
  value : field.domain.Value

namespace Config

def get (c : Config) : (f : Field) → f.domain.Value
  | .literalIndent => c.literalIndent
  | .alwaysQuote => c.alwaysQuote
  | .idStyle => c.idStyle
  | .optionStyle => c.optionStyle
  | .roleStyle => c.roleStyle
  | .verbose => c.verbose
  | .legacyIds => c.legacyIds

def set (c : Config) : (f : Field) → f.domain.Value → Config
  | .literalIndent, n => { c with literalIndent := n }
  | .alwaysQuote, b => { c with alwaysQuote := b }
  | .idStyle, x => { c with idStyle := x }
  | .optionStyle, x => { c with optionStyle := x }
  | .roleStyle, x => { c with roleStyle := x }
  | .verbose, b => { c with verbose := b }
  | .legacyIds, b => { c with legacyIds := b }

theorem get_set (c : Config) (f : Field) (v : f.domain.Value) : (c.set f v).get f = v := by
  cases f <;> rfl

theorem get_set_of_ne (c : Config) {f g : Field} (v : f.domain.Value) (h : f ≠ g) : (c.set f v).get g = c.get g := by
  cases f <;> cases g <;> first | rfl | exact absurd rfl h

theorem ext_get {c d : Config} (h : ∀ f, c.get f = d.get f) : c = d := by
  cases c
  cases d
  rw [mk.injEq]
  exact ⟨h .literalIndent, h .alwaysQuote, h .idStyle, h .optionStyle, h .roleStyle, h .verbose, h .legacyIds⟩

def gather (seen : List Field) (c : Config) : List Setting → Except Cause Config
  | [] => .ok c
  | x :: xs =>
    if x.field ∈ seen then .error (.duplicateField x.field.name)
    else gather (x.field :: seen) (c.set x.field x.value) xs

section Gathering

variable {seen : List Field} {c : Config} {xs : List Setting}

theorem not_seen {x : Setting} (hx : x.field ∉ xs.map Setting.field) (hseen : ∀ y ∈ x :: xs, y.field ∉ seen) :
    ∀ y ∈ xs, y.field ∉ x.field :: seen := by
  intro y hy hmem
  rcases List.mem_cons.mp hmem with heq | hmem
  · exact hx (heq ▸ List.mem_map_of_mem hy)
  · exact hseen y (List.mem_cons_of_mem x hy) hmem

theorem gather_ok (hxs : (xs.map Setting.field).Nodup) (hseen : ∀ x ∈ xs, x.field ∉ seen) :
    ∃ d, gather seen c xs = .ok d ∧ (∀ x ∈ xs, d.get x.field = x.value) ∧
      ∀ f ∉ xs.map Setting.field, d.get f = c.get f := by
  induction xs generalizing seen c with
  | nil => exact ⟨c, rfl, by simp, by simp⟩
  | cons x xs ih =>
    obtain ⟨hx, hxs⟩ := List.nodup_cons.mp hxs
    obtain ⟨d, hd, hmentioned, hother⟩ := ih (c := c.set x.field x.value) hxs (not_seen hx hseen)
    refine ⟨d, ?_, ?_, ?_⟩
    · rw [gather, if_neg (hseen x List.mem_cons_self), hd]
    · intro y hy
      rcases List.mem_cons.mp hy with rfl | hy
      · rw [hother _ hx, get_set]
      · exact hmentioned y hy
    · intro f hf
      rw [List.map_cons, List.mem_cons, not_or] at hf
      rw [hother f hf.2, get_set_of_ne c x.value (Ne.symm hf.1)]

theorem gather_error {before after : List Setting} {x : Setting} (hbefore : (before.map Setting.field).Nodup)
    (hseen : ∀ y ∈ before, y.field ∉ seen) (hx : x.field ∈ before.map Setting.field ∨ x.field ∈ seen) :
    gather seen c (before ++ x :: after) = .error (.duplicateField x.field.name) := by
  induction before generalizing seen c with
  | nil => exact if_pos (hx.resolve_left List.not_mem_nil)
  | cons y before ih =>
    obtain ⟨hy, hbefore⟩ := List.nodup_cons.mp hbefore
    rw [List.cons_append, gather, if_neg (hseen y List.mem_cons_self)]
    refine ih hbefore (not_seen hy hseen) ?_
    rw [List.map_cons, List.mem_cons] at hx
    rw [List.mem_cons]
    tauto

theorem exists_again (h : ¬(xs.map Setting.field).Nodup) :
    ∃ before x after, xs = before ++ x :: after ∧ (before.map Setting.field).Nodup ∧
      x.field ∈ before.map Setting.field := by
  induction xs using List.reverseRecOn with
  | nil => exact absurd List.nodup_nil h
  | append_singleton ys y ih =>
    by_cases hys : (ys.map Setting.field).Nodup
    · refine ⟨ys, y, [], rfl, hys, ?_⟩
      by_contra hy
      exact h (by simpa [List.nodup_append, hys] using hy)
    · obtain ⟨before, x, after, rfl, hbefore, hx⟩ := ih hys
      exact ⟨before, x, after ++ [y], by simp, hbefore, hx⟩

end Gathering

end Config

section Values

variable {a rest : Text}

theorem toNatural_integer {s : Text} (n : Nat) (r : Rest s) : Config.toNatural (.integer n, r) = .ok (n, r) := by
  rw [Config.toNatural, if_neg (by omega)]
  rfl

theorem readNatural_finds {n : Nat} (ha : Blanks a) (hn : n < UInt64.size) (hrest : Ends rest) :
    Finds Config.readNatural (a ++ (Text.decimal n ++ rest)) n rest := by
  have hnumber := readNumber_finds hn hrest
  obtain ⟨d, ds, hdigits⟩ := List.exists_cons_of_ne_nil (digits_decimal n).1
  have hd : d.isDigit = true := (digits_decimal n).2 d (by simp [hdigits])
  rw [hdigits] at hnumber ⊢
  obtain ⟨hle, hnumber⟩ := finds_iff.mp hnumber
  obtain ⟨hle', hblanks⟩ := skipBlanks_eq (ha.dropWhile_cons (isBlank_of_isDigit hd) (ds ++ rest))
  rw [List.cons_append, Finds, Config.readNatural, hblanks]
  simp only [ne_of_isDigit hd (show '-'.isDigit = false by decide), isDigit_eq, hd, if_true, if_false]
  simp only [← List.cons_append, hnumber]
  simp only [bind, Except.bind, toNatural_integer]
  rfl

theorem readBool_finds (b : Bool) (ha : Blanks a) (rest : Text) :
    Finds Config.readBool (a ++ ((if b then ['t', 'r', 'u', 'e'] else ['f', 'a', 'l', 's', 'e']) ++ rest)) b rest := by
  have hword {c : Char} (hc : isBlank c = false) (word : Text) :
      ∃ hle hle', skipBlanks (a ++ c :: (word ++ rest)) = ⟨c :: (word ++ rest), hle⟩ ∧
        readWord word (word ++ rest) = .ok ⟨rest, hle'⟩ := by
    obtain ⟨hle, hblanks⟩ := skipBlanks_eq (ha.dropWhile_cons hc (word ++ rest))
    obtain ⟨hle', hword⟩ := leaves_iff.mp (readWord_leaves word rest)
    exact ⟨hle, hle', hblanks, hword⟩
  cases b with
  | true =>
    obtain ⟨hle, hle', hblanks, hword⟩ := hword (show isBlank 't' = false by decide) ['r', 'u', 'e']
    change Finds _ (a ++ 't' :: (['r', 'u', 'e'] ++ rest)) _ _
    rw [Finds, Config.readBool, hblanks]
    simp only [if_true, hword]
    rfl
  | false =>
    obtain ⟨hle, hle', hblanks, hword⟩ := hword (show isBlank 'f' = false by decide) ['a', 'l', 's', 'e']
    change Finds _ (a ++ 'f' :: (['a', 'l', 's', 'e'] ++ rest)) _ _
    rw [Finds, Config.readBool, hblanks]
    simp only [if_true, hword]
    rfl

theorem Style.ofName?_name (x : Style) : ofName? x.name.toList = some x := by cases x <;> decide

theorem readStyle_finds {x : Style} {name : Text} (ha : Blanks a) (hname : Spells name x.name.toList) (rest : Text) :
    Finds Config.readStyle (a ++ ('"' :: (name ++ '"' :: rest))) x rest := by
  obtain ⟨hle, hblanks⟩ := skipBlanks_eq (ha.dropWhile_cons (show isBlank '"' = false by decide) (name ++ '"' :: rest))
  obtain ⟨hle', hstring⟩ := finds_iff.mp (readString_finds hname rest)
  have hread : Config.readStyleName (name ++ '"' :: rest) = .ok (x, ⟨rest, hle'⟩) := by
    rw [Config.readStyleName, hstring]
    simp only [bind, Except.bind, Style.ofName?_name]
    rfl
  rw [Finds, Config.readStyle, hblanks]
  simp only [if_true, hread]
  rfl

theorem Domain.read_finds {d : Domain} {v : d.Value} {s : Text} (hs : d.Writes v s) (ha : Blanks a)
    (hrest : Ends rest) : Finds d.read (a ++ (s ++ rest)) v rest := by
  cases d with
  | natural =>
    obtain ⟨hn, rfl⟩ := hs
    exact readNatural_finds ha hn hrest
  | boolean =>
    obtain rfl := hs
    exact readBool_finds v ha rest
  | style =>
    obtain ⟨name, hname, rfl⟩ := hs
    rw [List.cons_append, List.append_assoc]
    exact readStyle_finds ha hname rest

theorem Config.readField_eq (f : Field) (c : Config) (s : Text) :
    readField f c s = (f.domain.read s).map fun p => (c.set f p.1, p.2) := by
  cases f <;> rfl

theorem Config.readField_finds {f : Field} {v : f.domain.Value} {s : Text} (c : Config) (hs : f.domain.Writes v s)
    (ha : Blanks a) (hrest : Ends rest) : Finds (readField f c) (a ++ (s ++ rest)) (c.set f v) rest := by
  obtain ⟨hle, hread⟩ := finds_iff.mp (Domain.read_finds hs ha hrest)
  rw [Finds, readField_eq, hread]
  rfl

end Values

theorem Field.ofKey?_name {f : Field} {name : String} (h : name ∈ f.names) : ofKey? name.toList = some f := by
  have hnames : ∀ name ∈ f.names, ofKey? name.toList = some f := by cases f <;> decide
  exact hnames name h

theorem Field.ofKey?_other {k : Text} (h : ∀ f : Field, ∀ name ∈ f.names, name.toList ≠ k) : ofKey? k = none := by
  simpa [ofKey?, List.find?_eq_none] using fun f _ => h f

inductive Entry : List Setting → Text → Text → Prop
  | setting {x : Setting} {name : String} {value : Text} (hname : name ∈ x.field.names)
      (hvalue : x.field.domain.Writes x.value value) : Entry [x] name.toList value
  | other {k value : Text} (hk : ∀ f : Field, ∀ name ∈ f.names, name.toList ≠ k) (hvalue : Written .value value) :
      Entry [] k value

inductive Member : List Setting → Text → Prop
  | mk {xs : List Setting} {k key value a b c d : Text} (h : Entry xs k value) (hkey : Spells key k) (ha : Blanks a)
      (hb : Blanks b) (hc : Blanks c) (hd : Blanks d) :
      Member xs (a ++ '"' :: (key ++ '"' :: (b ++ ':' :: (c ++ (value ++ d)))))

inductive Members : List Setting → Text → Prop
  | last {xs : List Setting} {s : Text} (h : Member xs s) : Members xs s
  | more {xs ys : List Setting} {s t : Text} (h : Member xs s) (ht : Members ys t) : Members (xs ++ ys) (s ++ ',' :: t)

inductive Describes : Text → List Setting → Prop
  | empty {a b c : Text} (ha : Blanks a) (hb : Blanks b) (hc : Blanks c) :
      Describes (a ++ '\x7b' :: (b ++ '\x7d' :: c)) []
  | members {a s c : Text} {xs : List Setting} (ha : Blanks a) (hs : Members xs s) (hc : Blanks c) :
      Describes (a ++ '\x7b' :: (s ++ '\x7d' :: c)) xs

namespace Config

def lead (isFirst : Bool) : Text := if isFirst then [] else [',']

theorem readKey_eq {s key k : Text} (hkey : Spells key k) (rest : Text) (h : (key ++ '"' :: rest).length < s.length) :
    ∃ h', readKey (key ++ '"' :: rest) h = .ok (KeyOrEnd.key (s := s) k rest h') := by
  obtain ⟨hle, hstring⟩ := finds_iff.mp (readString_finds hkey rest)
  refine ⟨Nat.lt_of_le_of_lt hle h, ?_⟩
  rw [readKey, hstring]
  rfl

theorem readNextKey_key (isFirst : Bool) {a b key k : Text} (ha : Blanks a) (hb : Blanks b) (hkey : Spells key k)
    (rest : Text) :
    ∃ h, readNextKey isFirst (a ++ (lead isFirst ++ (b ++ '"' :: (key ++ '"' :: rest)))) = .ok (.key k rest h) := by
  have hquote : isBlank '"' = false := by decide
  cases isFirst with
  | true =>
    have hdrop : (a ++ (b ++ '"' :: (key ++ '"' :: rest))).dropWhile isBlank = '"' :: (key ++ '"' :: rest) := by
      rw [ha.dropWhile, hb.dropWhile_cons hquote]
    obtain ⟨hle, hblanks⟩ := skipBlanks_eq hdrop
    obtain ⟨h, hread⟩ := readKey_eq hkey rest hle
    refine ⟨h, ?_⟩
    change readNextKey true (a ++ (b ++ '"' :: (key ++ '"' :: rest))) = _
    rw [readNextKey, hblanks]
    exact hread
  | false =>
    obtain ⟨hle, hblanks⟩ := skipBlanks_eq
      (ha.dropWhile_cons (show isBlank ',' = false by decide) (b ++ '"' :: (key ++ '"' :: rest)))
    obtain ⟨hle', hblanks'⟩ := skipBlanks_eq (hb.dropWhile_cons hquote (key ++ '"' :: rest))
    obtain ⟨h, hread⟩ := readKey_eq hkey rest (Nat.lt_of_lt_of_le hle' (Nat.le_of_succ_le hle))
    refine ⟨h, ?_⟩
    change readNextKey false (a ++ ',' :: (b ++ '"' :: (key ++ '"' :: rest))) = _
    rw [readNextKey, hblanks]
    simp only [hblanks']
    exact hread

theorem readNextKey_end (isFirst : Bool) {a : Text} (ha : Blanks a) (rest : Text) :
    ∃ h, readNextKey isFirst (a ++ '\x7d' :: rest) = .ok (.closed ⟨rest, h⟩) := by
  obtain ⟨hle, hblanks⟩ := skipBlanks_eq (ha.dropWhile_cons (show isBlank '\x7d' = false by decide) rest)
  refine ⟨Nat.le_of_succ_le hle, ?_⟩
  rw [readNextKey, hblanks]
  rfl

def outcome {α : Type} (f : (s : Text) → Except Fault (α × Rest s)) (s : Text) : Except Cause (α × Text) :=
  ((f s).map fun p => (p.1, p.2.1)).mapError Fault.cause

section Members

variable {seen : List Field} {isFirst : Bool} {c : Config} {s k r t u : Text}

theorem outcome_step {s : Text} (r : Rest s) (f : (s : Text) → Except Fault (Config × Rest s)) :
    ((((f r.1).map fun p => (p.1, r.step p.2)).map fun p => (p.1, p.2.1)).mapError Fault.cause) = outcome f r.1 := by
  unfold outcome
  cases f r.1 <;> rfl

theorem readMembers_end {h : r.length ≤ s.length} (hend : readNextKey isFirst s = .ok (.closed ⟨r, h⟩)) :
    outcome (readMembers seen isFirst c) s = .ok (c, r) := by
  rw [outcome, readMembers, hend]
  rfl

theorem readMembers_other {h : r.length < s.length} (hkey : readNextKey isFirst s = .ok (.key k r h))
    (hk : Field.ofKey? k = none) (hcolon : Leaves skipColon r t) (hvalue : Leaves skipValue t u) :
    outcome (readMembers seen isFirst c) s = outcome (readMembers seen false c) u := by
  obtain ⟨hle, hcolon⟩ := leaves_iff.mp hcolon
  obtain ⟨hle', hvalue⟩ := leaves_iff.mp hvalue
  rw [outcome, readMembers, hkey]
  simp only [hk, hcolon, hvalue]
  exact outcome_step ⟨u, _⟩ _

theorem readMembers_setting {f : Field} {d : Config} {h : r.length < s.length}
    (hkey : readNextKey isFirst s = .ok (.key k r h)) (hk : Field.ofKey? k = some f) (hf : f ∉ seen)
    (hcolon : Leaves skipColon r t) (hvalue : Finds (readField f c) t d u) :
    outcome (readMembers seen isFirst c) s = outcome (readMembers (f :: seen) false d) u := by
  obtain ⟨hle, hcolon⟩ := leaves_iff.mp hcolon
  obtain ⟨hle', hvalue⟩ := finds_iff.mp hvalue
  rw [outcome, readMembers, hkey]
  simp only [hk, hf, hcolon, hvalue, if_false]
  exact outcome_step ⟨u, _⟩ _

theorem readMembers_again {f : Field} {h : r.length < s.length} (hkey : readNextKey isFirst s = .ok (.key k r h))
    (hk : Field.ofKey? k = some f) (hf : f ∈ seen) :
    outcome (readMembers seen isFirst c) s = .error (.duplicateField f.name) := by
  have hcause : (duplicate f r).cause = .duplicateField f.name := by
    unfold duplicate
    split
    · split <;> rfl
    · rfl
  rw [outcome, readMembers, hkey]
  simp only [hk, hf, if_true, ← hcause]
  rfl

end Members

theorem readMembers_member {xs ys : List Setting} {s a tail rest : Text} (h : Member xs s) (ha : Blanks a)
    (htail : Ends tail) (hrest : ∀ b seen c, Blanks b →
      outcome (readMembers seen false c) (b ++ tail) = (gather seen c ys).map fun c => (c, rest))
    (seen : List Field) (isFirst : Bool) (c : Config) :
    outcome (readMembers seen isFirst c) (a ++ (lead isFirst ++ (s ++ tail))) =
      (gather seen c (xs ++ ys)).map fun c => (c, rest) := by
  cases h with
  | @mk k key value a' b' c' d' h hkey ha' hb' hc' hd' =>
  simp only [List.append_assoc, List.cons_append]
  obtain ⟨_, hnext⟩ := readNextKey_key isFirst ha ha' hkey (b' ++ ':' :: (c' ++ (value ++ (d' ++ tail))))
  have hcolon := skipColon_leaves hb' (c' ++ (value ++ (d' ++ tail)))
  cases h with
  | other hk hvalue =>
    have hskip := skipValue_leaves hc' hvalue (hd'.ends htail)
    rw [readMembers_other hnext (Field.ofKey?_other hk) hcolon hskip, hrest d' seen c hd', List.nil_append]
  | @setting x name _ hname hvalue =>
    have hk := Field.ofKey?_name hname
    by_cases hx : x.field ∈ seen
    · -- A setting that comes again is refused by its key; neither its value nor what follows is read.
      rw [readMembers_again hnext hk hx, List.singleton_append, gather, if_pos hx]
      rfl
    · have hread := readField_finds c hvalue hc' (hd'.ends htail)
      rw [readMembers_setting hnext hk hx hcolon hread, hrest d' _ _ hd', List.singleton_append, gather, if_neg hx]

theorem readMembers_eq {xs : List Setting} {s a : Text} (h : Members xs s) (ha : Blanks a) (rest : Text)
    (seen : List Field) (isFirst : Bool) (c : Config) :
    outcome (readMembers seen isFirst c) (a ++ (lead isFirst ++ (s ++ '\x7d' :: rest))) =
      (gather seen c xs).map fun c => (c, rest) := by
  induction h generalizing a seen isFirst c with
  | @last xs s h =>
    have hrest (b : Text) (seen : List Field) (c : Config) (hb : Blanks b) :
        outcome (readMembers seen false c) (b ++ '\x7d' :: rest) = (gather seen c []).map fun c => (c, rest) := by
      obtain ⟨_, hend⟩ := readNextKey_end false hb rest
      exact readMembers_end hend
    have hends : Ends ('\x7d' :: rest) := Frame.object.ends_closing rest
    rw [readMembers_member h ha hends hrest, List.append_nil]
  | @more xs ys s t h ht ih =>
    rw [List.append_assoc]
    exact readMembers_member h ha (ends_comma _) (fun b seen c hb => ih hb seen false c) seen isFirst c

theorem outcome_readConfig {a : Text} (ha : Blanks a) (s : Text) :
    outcome readConfig (a ++ '\x7b' :: s) = outcome (readMembers [] true {}) s := by
  obtain ⟨hle, hblanks⟩ := skipBlanks_eq (ha.dropWhile_cons (show isBlank '\x7b' = false by decide) s)
  rw [outcome, readConfig, hblanks]
  exact outcome_step (.tail hle) _

theorem eq_ok_of_mapError {ε ε' α : Type} {f : ε → ε'} {x : Except ε α} {v : α} (h : x.mapError f = .ok v) :
    x = .ok v := by
  cases x with
  | ok w => exact congrArg Except.ok (Except.ok.inj h)
  | error e => cases h

theorem exists_of_mapError {ε ε' α : Type} {f : ε → ε'} {x : Except ε α} {e : ε'} (h : x.mapError f = .error e) :
    ∃ d, x = .error d ∧ f d = e := by
  cases x with
  | ok w => cases h
  | error d => exact ⟨d, rfl, Except.error.inj h⟩

theorem readWhole_eq {s rest : Text} {x : Except Cause Config} (hrest : Blanks rest)
    (h : outcome readConfig s = x.map fun c => (c, rest)) : (readWhole s).mapError Fault.cause = x := by
  cases x with
  | ok c =>
    obtain ⟨hle, hread⟩ := finds_iff.mp (eq_ok_of_mapError h)
    have hblanks : (skipBlanks rest).1 = [] := by
      have hdrop := hrest.dropWhile []
      rwa [List.append_nil] at hdrop
    simp only [readWhole, hread, bind, Except.bind, hblanks]
    rfl
  | error e =>
    obtain ⟨f, hmap, rfl⟩ := exists_of_mapError h
    cases hread : readConfig s with
    | ok p =>
      rw [hread] at hmap
      cases hmap
    | error g =>
      rw [hread] at hmap
      cases hmap
      simp only [readWhole, hread, bind, Except.bind]
      rfl

theorem decode_eq {s : Text} {xs : List Setting} (h : Describes s xs) :
    (decode s).mapError ConfigError.cause = gather [] {} xs := by
  have hcause (x : Except Fault Config) :
      (x.mapError (ConfigError.ofFault s)).mapError ConfigError.cause = x.mapError Fault.cause := by
    cases x <;> rfl
  rw [decode, hcause]
  cases h with
  | @empty a b c ha hb hc =>
    refine readWhole_eq hc ?_
    obtain ⟨_, hend⟩ := readNextKey_end true hb c
    rw [outcome_readConfig ha, readMembers_end hend]
    rfl
  | members ha hs hc =>
    refine readWhole_eq hc ?_
    rw [outcome_readConfig ha]
    exact readMembers_eq hs blanks_nil _ [] true {}

theorem toJson_eq (c : Config) : c.toJson = .object (Field.all.map fun f => (f.name, f.domain.toJson (c.get f))) := rfl

section Rendering

variable {c : Config}

theorem writes_render (hc : c.literalIndent < UInt64.size) (f : Field) :
    f.domain.Writes (c.get f) (f.domain.toJson (c.get f)).render := by
  have hbool (b : Bool) : Domain.boolean.Writes b (Json.bool b).render := by cases b <;> rfl
  have hstyle (x : Style) : Domain.style.Writes x (Json.text x.name.toList).render :=
    ⟨_, spells_flatMap_escape x.name.toList, rfl⟩
  cases f with
  | literalIndent => exact ⟨hc, rfl⟩
  | alwaysQuote => exact hbool c.alwaysQuote
  | verbose => exact hbool c.verbose
  | legacyIds => exact hbool c.legacyIds
  | idStyle => exact hstyle c.idStyle
  | optionStyle => exact hstyle c.optionStyle
  | roleStyle => exact hstyle c.roleStyle

theorem member_render (hc : c.literalIndent < UInt64.size) (f : Field) :
    Member [⟨f, c.get f⟩] (renderText f.name.toList ++ ':' :: (f.domain.toJson (c.get f)).render) := by
  have hname : f.name ∈ f.names := by cases f <;> exact List.mem_cons_self
  have hentry : Entry [⟨f, c.get f⟩] f.name.toList (f.domain.toJson (c.get f)).render :=
    .setting hname (writes_render hc f)
  have hkey := spells_flatMap_escape f.name.toList
  simpa [renderText] using Member.mk hentry hkey blanks_nil blanks_nil blanks_nil blanks_nil

theorem members_render (hc : c.literalIndent < UInt64.size) (f : Field) (fs : List Field) :
    Members ((f :: fs).map fun f => ⟨f, c.get f⟩)
      (renderText f.name.toList ++ ':' :: (f.domain.toJson (c.get f)).render ++
        renderMembers (fs.map fun f => (f.name, f.domain.toJson (c.get f)))) := by
  induction fs generalizing f with
  | nil => simpa [renderMembers] using Members.last (member_render hc f)
  | cons g fs ih => simpa [renderMembers] using Members.more (member_render hc f) (ih g)

theorem describes_render (hc : c.literalIndent < UInt64.size) :
    Describes c.toJson.render (Field.all.map fun f => ⟨f, c.get f⟩) := by
  have hmembers := members_render hc .literalIndent
    [.alwaysQuote, .idStyle, .optionStyle, .roleStyle, .verbose, .legacyIds]
  rw [toJson_eq]
  exact Describes.members blanks_nil hmembers blanks_nil

end Rendering

theorem decode_ok {s : Text} {xs : List Setting} (h : Describes s xs) (hxs : (xs.map Setting.field).Nodup) :
    ∃ c, decode s = .ok c ∧ (∀ x ∈ xs, c.get x.field = x.value) ∧
      ∀ f ∉ xs.map Setting.field, c.get f = ({} : Config).get f := by
  obtain ⟨c, hc, hmentioned, hother⟩ := @gather_ok [] {} xs hxs (by simp)
  exact ⟨c, eq_ok_of_mapError ((decode_eq h).trans hc), hmentioned, hother⟩

/-- Decoding an object of settings. The keys of other members are texts as well; half a pair of surrogates may stand
alone in a value that is passed over, but not in a key. -/
theorem decode_settings :
    (∀ s xs, Describes s xs → (xs.map Setting.field).Nodup →
      ∃ c, decode s = .ok c ∧ (∀ x ∈ xs, c.get x.field = x.value) ∧
        ∀ f ∉ xs.map Setting.field, c.get f = ({} : Config).get f) ∧
    (∀ s xs, Describes s xs → ¬(xs.map Setting.field).Nodup →
      ∃ before x after e, xs = before ++ x :: after ∧ (before.map Setting.field).Nodup ∧
        x.field ∈ before.map Setting.field ∧ decode s = .error e ∧ e.cause = .duplicateField x.field.name) ∧
    ∀ c : Config, c.literalIndent < UInt64.size → decode c.toJson.render = .ok c := by
  refine ⟨fun s xs h hxs => decode_ok h hxs, ?_, ?_⟩
  · intro s xs h hxs
    obtain ⟨before, x, after, rfl, hbefore, hx⟩ := exists_again hxs
    have hgather : gather [] {} (before ++ x :: after) = .error (.duplicateField x.field.name) :=
      gather_error hbefore (by simp) (Or.inl hx)
    obtain ⟨e, he, hcause⟩ := exists_of_mapError ((decode_eq h).trans hgather)
    exact ⟨before, x, after, e, rfl, hbefore, hx, he, hcause⟩
  · intro c hc
    have hfields : (Field.all.map fun f => (⟨f, c.get f⟩ : Setting)).map Setting.field = Field.all := rfl
    obtain ⟨d, hd, hmentioned, -⟩ := decode_ok (describes_render hc) (by rw [hfields]; decide)
    have heq : d = c := ext_get fun f => hmentioned ⟨f, c.get f⟩ (List.mem_map_of_mem (by cases f <;> decide))
    rw [hd, heq]

theorem decode_settings_mixed :
    (∃ c, decode "\x7b \"x\" : [\x7b\x7d],\"adocIdFormat\":\"f\\u006frmal\",\"verbose\" :true\x7d ".toList = .ok c ∧
      c.get .idStyle = Style.formal ∧ c.get .verbose = true ∧ c.get .literalIndent = (2 : Nat)) ∧
    (∃ e, decode "\x7b\"verbose\":true,\"adocVerbose\":false\x7d".toList = .error e ∧
      e.cause = .duplicateField "verbose") ∧
    decode ({ literalIndent := 0, roleStyle := .formal } : Config).toJson.render =
      .ok { literalIndent := 0, roleStyle := .formal } := by
  obtain ⟨hok, herror, hrender⟩ := decode_settings
  have hspace : Blanks [' '] := by simp [Blanks]
  have hplain (k : Text) (hk : k.flatMap escape = k) : Spells k k := by
    have hspells := spells_flatMap_escape k
    rwa [hk] at hspells
  have hformal : Spells "f\\u006frmal".toList Style.formal.name.toList := by
    have hdigits : List.Forall₂ IsHex (units 'o') [['0', '0', '6', 'f']] :=
      .cons (.mk (by decide) (.inl rfl) (.inl rfl) (.inl rfl) (.inl rfl)) .nil
    exact .cons (.plain (by decide) (by decide) (by decide)) (.cons (.code hdigits) (hplain ['r', 'm', 'a', 'l'] rfl))
  have hvalue := Written.nested .list (.last (.element blanks_nil (.empty .object blanks_nil) blanks_nil))
  have hx : ∀ f : Field, ∀ name ∈ f.names, name.toList ≠ ['x'] := by
    intro f
    cases f <;> decide
  have hother := Member.mk (.other hx hvalue) (hplain ['x'] rfl) hspace hspace hspace blanks_nil
  have hid : Member [⟨.idStyle, Style.formal⟩] _ :=
    .mk (.setting (.tail _ (.head _)) ⟨_, hformal, rfl⟩) (hplain "adocIdFormat".toList rfl) blanks_nil blanks_nil
      blanks_nil blanks_nil
  have hentry (b : Bool) {name : String} (hname : name ∈ Field.verbose.names) : Entry [⟨.verbose, b⟩] name.toList _ :=
    .setting hname rfl
  have hverbose {a : Text} (ha : Blanks a) :=
    Member.mk (hentry true (.head _)) (hplain "verbose".toList rfl) blanks_nil ha blanks_nil blanks_nil
  have hagain := Member.mk (hentry false (.tail _ (.head _))) (hplain "adocVerbose".toList rfl) blanks_nil blanks_nil
    blanks_nil blanks_nil
  refine ⟨?_, ?_, hrender _ (by decide)⟩
  · have hmembers := Members.more hother (.more hid (.last (hverbose hspace)))
    obtain ⟨c, hc, hmentioned, hrest⟩ := hok _ _ (.members blanks_nil hmembers hspace) (by decide)
    exact ⟨c, hc, hmentioned _ (.head _), hmentioned _ (.tail _ (.head _)), hrest .literalIndent (by decide)⟩
  · have hmembers := Members.more (hverbose blanks_nil) (.last hagain)
    obtain ⟨before, x, after, e, hxs, -, -, he, hcause⟩ :=
      herror _ _ (.members blanks_nil hmembers blanks_nil) (by decide)
    have hmem : x ∈ [⟨.verbose, true⟩, ⟨.verbose, false⟩] := by
      rw [show [_, _] = before ++ x :: after from hxs]
      simp
    have hx : x.field = .verbose := by
      rcases List.mem_pair.mp hmem with rfl | rfl <;> rfl
    rw [hx] at hcause
    exact ⟨e, he, hcause⟩

end Config

end AsciiDoc
