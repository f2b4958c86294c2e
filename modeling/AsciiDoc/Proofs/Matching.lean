import AsciiDoc.Proofs.LineReading

/-!
Two ways to say what the next token is. In the first, the kinds of a mode are tried in their order and the
first one that matches is taken; a match may depend on what stands before and behind it. In the second, each
mode has a table of patterns without such conditions, the longest match of the table counts, and the
conditions are looked at afterwards. Both lexers find the tokens and the errors that `tokenize` finds.
-/

namespace AsciiDoc

inductive Form where
  | one (c : Char)
  -- as many characters of a class as there are, one at least
  | run (p : Char → Bool)
  -- the same, just behind a newline
  | lineRun (p : Char → Bool)
  -- a newline with spaces and tabs, if a newline follows
  | emptyLine
  -- a quote, if another one follows on the line
  | quote

def Text.IsRun (p : Char → Bool) (w after : Text) : Prop :=
  w ≠ [] ∧ (∀ c ∈ w, p c = true) ∧ ∀ c ∈ after.head?, p c = false

namespace Form

def Takes (before w after : Text) : Form → Prop
  | one c => w = [c]
  | run p => Text.IsRun p w after
  | lineRun p => before.getLast? = some '\n' ∧ Text.IsRun p w after
  | emptyLine => ∃ blanks, w = '\n' :: blanks ∧ (∀ c ∈ blanks, Text.isIndent c = true) ∧ after.head? = some '\n'
  | quote => w = ['"'] ∧ ∃ line rest, after = line ++ '"' :: rest ∧ '\n' ∉ line

end Form

namespace Kind

def form : Kind → Form
  | headline => .lineRun (· = '=')
  | listStart | legacyIdStart => .one '['
  | space => .one ' '
  | emptyLine => .emptyLine
  | newline => .one '\n'
  | tab => .one '\t'
  | inlineText => .run fun c => !Text.isBlank c
  | listEnd | legacyIdEnd => .one ']'
  | comma => .one ','
  | stringStart => .quote
  | assignment => .one '='
  | optionMark => .one '%'
  | idMark => .one '#'
  | roleMark => .one '.'
  | listText => .run fun c => !Text.isBlank c && !Text.isDelimiter c
  | stringEnd => .one '"'
  | stringText => .run fun c => !Text.isBlank c && c != '"'

inductive FirstTakes (before : Text) : List Kind → Kind → Text → Text → Prop
  | here {k : Kind} {ks : List Kind} {w after : Text} (h : k.form.Takes before w after) :
      FirstTakes before (k :: ks) k w after
  | later {j k : Kind} {ks : List Kind} {w after : Text}
      (hj : ∀ v rest, v ++ rest = w ++ after → ¬j.form.Takes before v rest)
      (h : FirstTakes before ks k w after) : FirstTakes before (j :: ks) k w after

end Kind

def Mode.FirstTakes (m : Mode) (before : Text) (k : Kind) (w after : Text) : Prop :=
  Kind.FirstTakes before m.kinds k w after

namespace Lexer

open Lexeme

/-- The lexer that takes off the rest what `takes` says: behind `before`, the rest has the given tokens, or the
given error comes first. -/
inductive Lexes (takes : Mode → Text → Kind → Text → Text → Prop) (legacyIds : Bool) :
    ModeStack → Text → Text → Except LexError (List Token) → Prop
  | done (modes : ModeStack) (before : Text) : Lexes takes legacyIds modes before [] (.ok [])
  | stuck {modes : ModeStack} {before rest : Text} (hne : rest ≠ [])
      (hno : ∀ k w after, w ++ after = rest → ¬takes modes.current before k w after) :
      Lexes takes legacyIds modes before rest (.error ⟨Text.bytes before,
        Text.locate (before ++ rest) (Text.bytes before), .noMatch modes.current (rest.take snippetLength)⟩)
  | disabled {modes : ModeStack} {before w after : Text} (h : takes modes.current before .legacyIdStart w after)
      (hoff : legacyIds = false) :
      Lexes takes legacyIds modes before (w ++ after) (.error ⟨Text.bytes before,
        Text.locate (before ++ (w ++ after)) (Text.bytes before), .legacyIdDisabled⟩)
  | token {modes : ModeStack} {before w after : Text} {k : Kind} {r : Except LexError (List Token)}
      (h : takes modes.current before k w after) (hon : k = .legacyIdStart → legacyIds = true)
      (hr : Lexes takes legacyIds (modes.shift (shiftOf k)) (before ++ w) after r) :
      Lexes takes legacyIds modes before (w ++ after)
        (r.map (⟨k, w, ⟨Text.bytes before, Text.bytes (before ++ w)⟩⟩ :: ·))

structure Agrees (takes : Mode → Text → Kind → Text → Text → Prop) : Prop where
  ne_nil : ∀ m before k w after, takes m before k w after → w ≠ []
  next : ∀ m before c cs k w after, w ++ after = c :: cs → (takes m before k w after ↔
    ∃ l, next? m (before.getLast? = some '\n') c cs = some l ∧ k = l.kind ∧ w = c :: cs.take l.extra)

section Agrees

variable {takes : Mode → Text → Kind → Text → Text → Prop} {legacyIds : Bool} {modes : ModeStack}

theorem runFrom_of_none {b : Bool} {c : Char} {cs : Text} (h : next? modes.current b c cs = none) (offset : Nat) :
    runFrom legacyIds modes b offset (c :: cs) =
      ⟨[], some (offset, .noMatch modes.current ((c :: cs).take snippetLength))⟩ := by
  simp [runFrom, read, h]

theorem runFrom_of_disabled {b : Bool} {c : Char} {cs : Text} {l : Lexeme} (h : next? modes.current b c cs = some l)
    (hk : l.kind = .legacyIdStart) (hoff : legacyIds = false) (offset : Nat) :
    runFrom legacyIds modes b offset (c :: cs) = ⟨[], some (offset, .legacyIdDisabled)⟩ := by
  simp [runFrom, read, h, hk, hoff]

theorem tokens_runFrom {before : Text} {c : Char} {cs : Text} {l : Lexeme}
    (h : next? modes.current (before.getLast? = some '\n') c cs = some l)
    (hon : l.kind = .legacyIdStart → legacyIds = true) (source : Text) :
    (runFrom legacyIds modes (before.getLast? = some '\n') (Text.bytes before) (c :: cs)).tokens source =
      ((runFrom legacyIds (modes.shift (shiftOf l.kind)) ((before ++ c :: cs.take l.extra).getLast? = some '\n')
        (Text.bytes (before ++ c :: cs.take l.extra)) (cs.drop l.extra)).tokens source).map
          (⟨l.kind, c :: cs.take l.extra, ⟨Text.bytes before, Text.bytes (before ++ c :: cs.take l.extra)⟩⟩ :: ·) := by
  have hread : read legacyIds modes.current (before.getLast? = some '\n') c cs = .ok l := by
    apply read_eq_ok_iff.mpr
    refine ⟨h, fun hoff => ?_⟩
    rw [hon hoff.1] at hoff
    cases hoff.2
  have hshift := (next_of_eq h).shift_eq
  have htokens (x : Step) (r : Run) :
      Run.tokens source ⟨x :: r.steps, r.stop⟩ = (r.tokens source).map (x.token :: ·) := by
    unfold Run.tokens
    cases r.stop <;> rfl
  rw [runFrom, hread]
  simp only [htokens, hshift, List.getLast?_append_of_ne_nil _ (List.cons_ne_nil c _), Text.bytes_append]

theorem Agrees.lexes (h : Agrees takes) (legacyIds : Bool) (modes : ModeStack) (before rest : Text) :
    Lexes takes legacyIds modes before rest
      ((runFrom legacyIds modes (before.getLast? = some '\n') (Text.bytes before) rest).tokens (before ++ rest)) := by
  -- every token takes a character at least, so what is left gets shorter
  induction hn : rest.length using Nat.strongRecOn generalizing modes before rest with
  | ind n ih =>
    subst hn
    cases rest with
    | nil =>
      rw [runFrom]
      exact .done modes before
    | cons c cs =>
      cases hnext : next? modes.current (before.getLast? = some '\n') c cs with
      | none =>
        rw [runFrom_of_none hnext]
        apply Lexes.stuck (List.cons_ne_nil c cs)
        intro k w after hrest htakes
        obtain ⟨l, hl, -⟩ := (h.next _ _ _ _ _ _ _ hrest).mp htakes
        rw [hnext] at hl
        cases hl
      | some l =>
        have hsplit : (c :: cs.take l.extra) ++ cs.drop l.extra = c :: cs := by simp
        have htakes := (h.next _ _ _ _ _ _ _ hsplit).mpr ⟨l, hnext, rfl, rfl⟩
        by_cases hoff : l.kind = .legacyIdStart ∧ legacyIds = false
        · rw [runFrom_of_disabled hnext hoff.1 hoff.2]
          rw [hoff.1] at htakes
          have hlexes := Lexes.disabled htakes hoff.2
          rwa [hsplit] at hlexes
        · have hon : l.kind = .legacyIdStart → legacyIds = true := by simpa using hoff
          have hlength : (cs.drop l.extra).length < (c :: cs).length := by
            simp only [List.length_drop, List.length_cons]
            omega
          have hlexes := Lexes.token htakes hon (ih _ hlength _ _ _ rfl)
          rwa [List.append_assoc, hsplit, ← tokens_runFrom hnext hon] at hlexes

theorem Agrees.eq_of_lexes (h : Agrees takes) {before rest : Text} {r : Except LexError (List Token)}
    (hr : Lexes takes legacyIds modes before rest r) :
    r = (runFrom legacyIds modes (before.getLast? = some '\n') (Text.bytes before) rest).tokens (before ++ rest) := by
  induction hr with
  | done =>
    rw [runFrom]
    rfl
  | @stuck modes before rest hne hno =>
    obtain ⟨c, cs, rfl⟩ := List.exists_cons_of_ne_nil hne
    have hnext : next? modes.current (before.getLast? = some '\n') c cs = none := by
      rw [Option.eq_none_iff_forall_ne_some]
      intro l hl
      exact hno _ (c :: cs.take l.extra) (cs.drop l.extra) (by simp)
        ((h.next _ _ _ _ _ _ _ (by simp)).mpr ⟨l, hl, rfl, rfl⟩)
    rw [runFrom_of_none hnext]
    rfl
  | @disabled modes before w after htakes hoff =>
    obtain ⟨c, v, rfl⟩ := List.exists_cons_of_ne_nil (h.ne_nil _ _ _ _ _ htakes)
    obtain ⟨l, hl, hk, -⟩ := (h.next _ _ c (v ++ after) _ _ _ rfl).mp htakes
    rw [List.cons_append, runFrom_of_disabled hl hk.symm hoff]
    rfl
  | @token modes before w after k r htakes hon _ ih =>
    obtain ⟨c, v, rfl⟩ := List.exists_cons_of_ne_nil (h.ne_nil _ _ _ _ _ htakes)
    obtain ⟨l, hl, rfl, hw⟩ := (h.next _ _ c (v ++ after) _ _ _ rfl).mp htakes
    have hafter : after = (v ++ after).drop l.extra := by
      have hsplit : (c :: v) ++ after = (c :: (v ++ after).take l.extra) ++ (v ++ after).drop l.extra := by simp
      rw [← hw] at hsplit
      exact List.append_cancel_left hsplit
    rw [List.cons_append, tokens_runFrom hl hon, ← hw, ← hafter, ih, List.append_assoc]
    rfl

theorem Agrees.lexes_iff (h : Agrees takes) (source : Text) (r : Except LexError (List Token)) :
    Lexes takes legacyIds .start [] source r ↔ tokenize legacyIds source = r := by
  constructor
  · intro hr
    exact (h.eq_of_lexes hr).symm
  · rintro rfl
    exact h.lexes legacyIds .start [] source

end Agrees

end Lexer

open Lexeme Lexer

namespace Text

variable {c : Char} {cs w after : Text}

theorem isRun_iff {p : Char → Bool} (h : w ++ after = c :: cs) :
    IsRun p w after ↔ p c = true ∧ w = c :: cs.takeWhile p := by
  constructor
  · rintro ⟨hne, hchars, hstops⟩
    obtain ⟨d, v, rfl⟩ := List.exists_cons_of_ne_nil hne
    obtain ⟨rfl, rfl⟩ : d = c ∧ v ++ after = cs := List.cons.inj h
    obtain ⟨hd, hv⟩ := List.forall_mem_cons.mp hchars
    have hafter : after.takeWhile p = [] := by
      cases after with
      | nil => rfl
      | cons e after => simp [hstops e rfl]
    rw [List.takeWhile_append_of_pos hv, hafter, List.append_nil]
    exact ⟨hd, rfl⟩
  · rintro ⟨hc, rfl⟩
    obtain rfl : after = cs.dropWhile p := by
      apply (List.append_right_inj (cs.takeWhile p)).mp
      rw [List.takeWhile_append_dropWhile]
      exact (List.cons.inj h).2
    refine ⟨List.cons_ne_nil _ _, List.forall_mem_cons.mpr ⟨hc, fun d hd => List.mem_takeWhile_imp hd⟩, ?_⟩
    intro d hd
    have hstop := List.head?_dropWhile_not p cs
    rw [hd] at hstop
    exact hstop

theorem closesOnLine_iff (s : Text) :
    closesOnLine s = true ↔ ∃ line rest, s = line ++ '"' :: rest ∧ '\n' ∉ line := by
  rw [closesOnLine, List.contains_iff_mem]
  constructor
  · intro h
    obtain ⟨line, rest, hline⟩ := List.append_of_mem h
    refine ⟨line, rest ++ s.dropWhile (· != '\n'), ?_, ?_⟩
    · rw [← List.cons_append, ← List.append_assoc, ← hline, List.takeWhile_append_dropWhile]
    · intro hnewline
      have hmem : '\n' ∈ s.takeWhile (· != '\n') := by simp [hline, hnewline]
      simpa using List.mem_takeWhile_imp hmem
  · rintro ⟨line, rest, rfl, hline⟩
    have hplain : ∀ d ∈ line, (d != '\n') = true := by
      intro d hd
      simp only [bne_iff_ne]
      rintro rfl
      exact hline hd
    rw [List.takeWhile_append_of_pos hplain]
    simp

theorem dropWhile_isIndent_iff (h : '\n' :: w ++ after = c :: cs) :
    (∀ d ∈ w, isIndent d = true) ∧ after.head? = some '\n' ↔
      (cs.dropWhile isIndent).head? = some '\n' ∧ w = cs.takeWhile isIndent := by
  obtain ⟨rfl, rfl⟩ : '\n' = c ∧ w ++ after = cs := List.cons.inj h
  constructor
  · rintro ⟨hw, hafter⟩
    obtain ⟨rest, rfl⟩ := List.head?_eq_some_iff.mp hafter
    rw [List.dropWhile_append_of_pos hw, List.takeWhile_append_of_pos hw]
    simp [isIndent]
  · rintro ⟨hnewline, hw⟩
    have hafter : after = (w ++ after).dropWhile isIndent := by
      apply (List.append_right_inj w).mp
      nth_rewrite 2 [hw]
      rw [List.takeWhile_append_dropWhile]
    rw [← hafter] at hnewline
    refine ⟨fun d hd => ?_, hnewline⟩
    rw [hw] at hd
    exact List.mem_takeWhile_imp hd

end Text

namespace Form

def fits (lineStart : Bool) (c : Char) (cs : Text) : Form → Bool
  | one d => c = d
  | run p => p c
  | lineRun p => p c ∧ lineStart
  | emptyLine => c = '\n' ∧ (cs.dropWhile Text.isIndent).head? = some '\n'
  | quote => c = '"' ∧ closesOnLine cs

def extra (cs : Text) : Form → Nat
  | one _ | quote => 0
  | run p | lineRun p => Text.run p cs
  | emptyLine => Text.run Text.isIndent cs

theorem takes_iff (f : Form) {before w after : Text} {c : Char} {cs : Text} (h : w ++ after = c :: cs) :
    f.Takes before w after ↔
      f.fits (before.getLast? = some '\n') c cs = true ∧ w = c :: cs.take (f.extra cs) := by
  cases f with
  | one d =>
    simp only [Takes, fits, extra, List.take_zero, decide_eq_true_eq]
    constructor
    · rintro rfl
      obtain ⟨rfl, -⟩ := List.cons.inj h
      exact ⟨rfl, rfl⟩
    · rintro ⟨rfl, rfl⟩
      rfl
  | run p => rw [Takes, fits, extra, Text.isRun_iff h, take_run]
  | lineRun p =>
    simp only [Takes, fits, extra, Text.isRun_iff h, take_run, decide_eq_true_eq]
    rw [← and_assoc, and_comm (a := p c = true)]
  | emptyLine =>
    simp only [Takes, fits, extra, take_run, decide_eq_true_eq]
    constructor
    · rintro ⟨blanks, rfl, hblanks⟩
      obtain ⟨hnewline, hw⟩ := (Text.dropWhile_isIndent_iff h).mp hblanks
      obtain ⟨rfl, -⟩ := List.cons.inj h
      exact ⟨⟨rfl, hnewline⟩, by rw [hw]⟩
    · rintro ⟨⟨rfl, hnewline⟩, rfl⟩
      exact ⟨_, rfl, (Text.dropWhile_isIndent_iff h).mpr ⟨hnewline, rfl⟩⟩
  | quote =>
    simp only [Takes, fits, extra, List.take_zero, decide_eq_true_eq, ← Text.closesOnLine_iff]
    constructor
    · rintro ⟨rfl, hcloses⟩
      obtain ⟨rfl, rfl⟩ := List.cons.inj h
      exact ⟨⟨rfl, hcloses⟩, rfl⟩
    · rintro ⟨⟨rfl, hcloses⟩, rfl⟩
      obtain rfl : after = cs := (List.cons.inj h).2
      exact ⟨rfl, hcloses⟩

theorem Takes.ne_nil {f : Form} {before w after : Text} (h : f.Takes before w after) : w ≠ [] := by
  cases f with
  | one d => simp [show w = [d] from h]
  | run p => exact h.1
  | lineRun p => exact h.2.1
  | emptyLine =>
    obtain ⟨blanks, rfl, -⟩ := h
    exact List.cons_ne_nil _ _
  | quote => simp [h.1]

end Form

namespace Lexeme

def first? (lineStart : Bool) (c : Char) (cs : Text) (ks : List Kind) : Option Lexeme :=
  (ks.find? fun k => k.form.fits lineStart c cs).map fun k => ⟨k, k.form.extra cs, shiftOf k⟩

theorem first?_cons (lineStart : Bool) (c : Char) (cs : Text) (k : Kind) (ks : List Kind) :
    first? lineStart c cs (k :: ks) =
      if k.form.fits lineStart c cs then some ⟨k, k.form.extra cs, shiftOf k⟩ else first? lineStart c cs ks := by
  unfold first?
  rw [List.find?_cons]
  split <;> simp [*]

theorem firstTakes_iff {before w after : Text} {c : Char} {cs : Text} (ks : List Kind) (k : Kind)
    (h : w ++ after = c :: cs) : Kind.FirstTakes before ks k w after ↔
      ∃ l, first? (before.getLast? = some '\n') c cs ks = some l ∧ k = l.kind ∧ w = c :: cs.take l.extra := by
  induction ks with
  | nil =>
    constructor
    · rintro ⟨⟩
    · rintro ⟨l, ⟨⟩, -⟩
  | cons j ks ih =>
    rw [first?_cons]
    -- a kind that fits takes its own text from what is left, whatever `w` is
    split_ifs with hj
    · have hv : (c :: cs.take (j.form.extra cs)) ++ cs.drop (j.form.extra cs) = w ++ after := by simp [h]
      have htakes : j.form.Takes before (c :: cs.take (j.form.extra cs)) (cs.drop (j.form.extra cs)) :=
        (j.form.takes_iff (hv.trans h)).mpr ⟨hj, rfl⟩
      constructor
      · intro hw
        cases hw with
        | here hw => exact ⟨_, rfl, rfl, ((k.form.takes_iff h).mp hw).2⟩
        | later hnot _ => exact absurd htakes (hnot _ _ hv)
      · rintro ⟨l, hl, rfl, rfl⟩
        cases hl
        apply Kind.FirstTakes.here
        rwa [List.append_cancel_left hv] at htakes
    · have hnot (v rest : Text) (hv : v ++ rest = w ++ after) : ¬j.form.Takes before v rest := by
        rw [j.form.takes_iff (hv.trans h)]
        exact fun htakes => hj htakes.1
      rw [← ih]
      constructor
      · intro htakes
        cases htakes with
        | here htakes => exact absurd htakes (hnot w after rfl)
        | later _ htakes => exact htakes
      · exact .later hnot

theorem next?_eq_first? (m : Mode) (lineStart : Bool) (c : Char) (cs : Text) :
    next? m lineStart c cs = first? lineStart c cs m.kinds := by
  cases m with
  | root =>
    simp only [Mode.kinds, first?_cons, Kind.form, Form.fits, Form.extra, decide_eq_true_eq]
    by_cases hc : c = '\n'
    · subst hc
      by_cases hempty : (cs.dropWhile Text.isIndent).head? = some '\n'
      · simp [next?, inRoot, newline, hempty, running, shiftOf]
      · simp [next?, inRoot, newline, hempty, single, shiftOf]
    · simp only [hc, false_and, if_false]
      simp only [next?, inRoot, hc, if_false]
      rfl
  | attributeList =>
    simp only [Mode.kinds, first?_cons, Kind.form, Form.fits, Form.extra, decide_eq_true_eq]
    rfl
  | legacyId =>
    simp only [Mode.kinds, first?_cons, Kind.form, Form.fits, Form.extra, decide_eq_true_eq]
    rfl
  | string =>
    simp only [Mode.kinds, first?_cons, Kind.form, Form.fits, Form.extra, decide_eq_true_eq]
    by_cases hc : c = ' '
    · subst hc
      rfl
    · simp only [next?, inString, hc, if_false]
      rfl

def taken (c : Char) (cs : Text) (l : Lexeme) : Kind × Text := (l.kind, c :: cs.take l.extra)

section Taken

variable (c : Char) (cs : Text) (k : Kind)

@[simp]
theorem taken_single : taken c cs (single k) = (k, [c]) := rfl

@[simp]
theorem taken_opening (m : Mode) : taken c cs (opening k m) = (k, [c]) := rfl

@[simp]
theorem taken_closing : taken c cs (closing k) = (k, [c]) := rfl

@[simp]
theorem taken_running (p : Char → Bool) : taken c cs (running k p cs) = (k, c :: cs.takeWhile p) := by
  rw [taken, running, take_run]

end Taken

end Lexeme

theorem Kind.FirstTakes.ne_nil {before w after : Text} {ks : List Kind} {k : Kind}
    (h : Kind.FirstTakes before ks k w after) : w ≠ [] := by
  induction h with
  | here h => exact h.ne_nil
  | later _ _ ih => exact ih

theorem Mode.firstTakes_agrees : Agrees Mode.FirstTakes where
  ne_nil _ _ _ _ _ h := Kind.FirstTakes.ne_nil h
  next m before c cs k w after h := by
    rw [next?_eq_first?]
    exact firstTakes_iff m.kinds k h

structure Matcher where
  kind : Kind
  first : Char → Bool
  more : Char → Bool

namespace Matcher

def sole (k : Kind) (c : Char) : Matcher := ⟨k, (· = c), fun _ => false⟩

def Matches (p : Matcher) (w : Text) : Prop :=
  ∃ c s, w = c :: s ∧ p.first c = true ∧ ∀ d ∈ s, p.more d = true

def Longest (table : List Matcher) (k : Kind) (w after : Text) : Prop :=
  (∃ p ∈ table, p.kind = k ∧ p.Matches w) ∧
    ∀ p ∈ table, ∀ v rest, v ++ rest = w ++ after → p.Matches v → v.length ≤ w.length

end Matcher

namespace Mode

def table : Mode → List Matcher
  | root => [⟨.headline, (· = '='), (· = '=')⟩, .sole .listStart '[', .sole .space ' ', .sole .newline '\n',
      .sole .tab '\t', ⟨.inlineText, fun c => isWord c ∧ c ≠ '[' ∧ c ≠ '=', isWord⟩]
  | attributeList => [.sole .listEnd ']', .sole .legacyIdStart '[', .sole .comma ',', .sole .stringStart '"',
      .sole .assignment '=', .sole .optionMark '%', .sole .idMark '#', .sole .roleMark '.',
      ⟨.listText, fun c => isListText c ∧ c ≠ '"', isListText⟩]
  | legacyId => [.sole .legacyIdEnd ']', ⟨.listText, isListText, isListText⟩]
  | string => [.sole .stringEnd '"', .sole .space ' ', ⟨.stringText, isStringText, isStringText⟩]

end Mode

def Kind.settle (before : Text) (k : Kind) (w after : Text) : Kind × Text :=
  match k with
  | .headline => if before.getLast? = some '\n' then (k, w) else (.inlineText, (w ++ after).takeWhile isWord)
  | .newline =>
    if (after.dropWhile Text.isIndent).head? = some '\n' then (.emptyLine, w ++ after.takeWhile Text.isIndent)
    else (k, w)
  | .stringStart => if closesOnLine after then (k, w) else (.listText, w ++ after.takeWhile isListText)
  | _ => (k, w)

def Mode.TableTakes (m : Mode) (before : Text) (k : Kind) (w after : Text) : Prop :=
  ∃ j v rest, v ++ rest = w ++ after ∧ Matcher.Longest m.table j v rest ∧ j.settle before v rest = (k, w)

namespace Matcher

variable {table : List Matcher} {c : Char} {cs : Text}

theorem find?_first (hdisjoint : table.Pairwise fun p q => ∀ c, p.first c → ¬q.first c) {p : Matcher} (hp : p ∈ table)
    (hc : p.first c = true) : table.find? (·.first c) = some p := by
  induction hdisjoint with
  | nil => cases hp
  | @cons q table hq _ ih =>
    rcases List.mem_cons.mp hp with rfl | hp
    · exact List.find?_cons_of_pos hc
    · have hne : ¬q.first c = true := fun h => hq p hp c h hc
      simp [hne, ih hp]

theorem longest_iff (hdisjoint : table.Pairwise fun p q => ∀ c, p.first c → ¬q.first c)
    {k : Kind} {w after : Text} (h : w ++ after = c :: cs) :
    Longest table k w after ↔
      ∃ p, table.find? (·.first c) = some p ∧ k = p.kind ∧ w = c :: cs.takeWhile p.more := by
  constructor
  · rintro ⟨⟨p, hp, rfl, d, s, rfl, hd, hs⟩, hlongest⟩
    obtain ⟨rfl, rfl⟩ : d = c ∧ s ++ after = cs := List.cons.inj h
    refine ⟨p, find?_first hdisjoint hp hd, rfl, ?_⟩
    have hle : (d :: (s ++ after).takeWhile p.more).length ≤ (d :: s).length := by
      apply hlongest p hp _ ((s ++ after).dropWhile p.more)
      · simp
      · exact ⟨d, _, rfl, hd, fun e he => List.mem_takeWhile_imp he⟩
    rw [List.takeWhile_append_of_pos hs] at hle ⊢
    have hnil : after.takeWhile p.more = [] := by
      apply List.eq_nil_of_length_eq_zero
      simp only [List.length_cons, List.length_append] at hle
      omega
    rw [hnil, List.append_nil]
  · rintro ⟨p, hfind, rfl, rfl⟩
    have hc : p.first c = true := by simpa using List.find?_some hfind
    refine ⟨⟨p, List.mem_of_find?_eq_some hfind, rfl, c, _, rfl, hc, fun e he => List.mem_takeWhile_imp he⟩, ?_⟩
    rintro q hq v rest hv ⟨d, s, rfl, hd, hs⟩
    obtain ⟨rfl, rfl⟩ : d = c ∧ s ++ rest = cs := List.cons.inj (hv.trans h)
    obtain rfl : p = q := Option.some.inj (hfind.symm.trans (find?_first hdisjoint hq hd))
    simp [List.takeWhile_append_of_pos hs]

end Matcher

namespace Mode

theorem table_disjoint (m : Mode) : m.table.Pairwise fun p q => ∀ c, p.first c → ¬q.first c := by
  have hspace : Text.isBlank ' ' = true := by decide
  have hnewline : Text.isBlank '\n' = true := by decide
  have htab : Text.isBlank '\t' = true := by decide
  cases m <;>
    simp [table, Matcher.sole, isWord, isListText, isStringText, Text.isDelimiter, hspace, hnewline, htab]

def settled (m : Mode) (before : Text) (c : Char) (cs : Text) : Option (Kind × Text) :=
  (m.table.find? (·.first c)).map fun p =>
    p.kind.settle before (c :: cs.takeWhile p.more) (cs.dropWhile p.more)

section Settled

variable (before : Text) (c : Char) (cs : Text)

theorem while_none : cs.takeWhile (fun _ => false) = [] ∧ cs.dropWhile (fun _ => false) = cs := by
  cases cs <;> simp

theorem settled_root :
    (inRoot (before.getLast? = some '\n') c cs).map (taken c cs) = root.settled before c cs := by
  simp only [inRoot, settled, table, Matcher.sole, List.find?_cons]
  by_cases heq : c = '='
  · have hword : isWord '=' = true := by decide
    by_cases hline : before.getLast? = some '\n'
    · simp [heq, hline, Kind.settle]
    · simp [heq, hline, hword, Kind.settle]
  by_cases hbracket : c = '['
  · simp [hbracket, Kind.settle, while_none]
  by_cases hspace : c = ' '
  · simp [hspace, Kind.settle, while_none]
  by_cases hnewline : c = '\n'
  · by_cases hempty : (cs.dropWhile Text.isIndent).head? = some '\n'
    · simp [hnewline, newline, hempty, Kind.settle, while_none]
    · simp [hnewline, newline, hempty, Kind.settle, while_none]
  by_cases htab : c = '\t'
  · simp [htab, Kind.settle, while_none]
  by_cases hword : isWord c = true
  · simp [heq, hbracket, hspace, hnewline, htab, hword, Kind.settle]
  · simp [heq, hbracket, hspace, hnewline, htab, hword]

theorem settled_attributeList : (inList c cs).map (taken c cs) = attributeList.settled before c cs := by
  simp only [inList, settled, table, Matcher.sole, List.find?_cons]
  by_cases hend : c = ']'
  · simp [hend, Kind.settle, while_none]
  by_cases hbracket : c = '['
  · simp [hbracket, Kind.settle, while_none]
  by_cases hcomma : c = ','
  · simp [hcomma, Kind.settle, while_none]
  by_cases hquote : c = '"'
  · have htext : isListText '"' = true := by decide
    by_cases hcloses : closesOnLine cs = true
    · simp [hquote, hcloses, Kind.settle, while_none]
    · simp [hquote, hcloses, htext, Kind.settle, while_none]
  by_cases heq : c = '='
  · simp [heq, Kind.settle, while_none]
  by_cases hoption : c = '%'
  · simp [hoption, Kind.settle, while_none]
  by_cases hid : c = '#'
  · simp [hid, Kind.settle, while_none]
  by_cases hrole : c = '.'
  · simp [hrole, Kind.settle, while_none]
  by_cases htext : isListText c = true
  · simp [hend, hbracket, hcomma, hquote, heq, hoption, hid, hrole, htext, Kind.settle]
  · simp [hend, hbracket, hcomma, hquote, heq, hoption, hid, hrole, htext]

theorem settled_legacyId : (inLegacyId c cs).map (taken c cs) = legacyId.settled before c cs := by
  simp only [inLegacyId, settled, table, Matcher.sole, List.find?_cons]
  by_cases hc : c = ']'
  · simp [hc, Kind.settle, while_none]
  by_cases htext : isListText c = true
  · simp [hc, htext, Kind.settle]
  · simp [hc, htext]

theorem settled_string : (inString c cs).map (taken c cs) = string.settled before c cs := by
  simp only [inString, settled, table, Matcher.sole, List.find?_cons]
  by_cases hquote : c = '"'
  · simp [hquote, Kind.settle, while_none]
  by_cases hspace : c = ' '
  · simp [hspace, Kind.settle, while_none]
  by_cases htext : isStringText c = true
  · simp [hquote, hspace, htext, Kind.settle]
  · simp [hquote, hspace, htext]

theorem map_taken_next? (m : Mode) :
    (next? m (before.getLast? = some '\n') c cs).map (taken c cs) = m.settled before c cs := by
  cases m with
  | root => exact settled_root before c cs
  | attributeList => exact settled_attributeList before c cs
  | legacyId => exact settled_legacyId before c cs
  | string => exact settled_string before c cs

end Settled

theorem tableTakes_iff {m : Mode} {before w after : Text} {k : Kind} {c : Char} {cs : Text}
    (h : w ++ after = c :: cs) : m.TableTakes before k w after ↔ m.settled before c cs = some (k, w) := by
  rw [settled, Option.map_eq_some_iff]
  constructor
  · rintro ⟨j, v, rest, hv, hlongest, hsettle⟩
    obtain ⟨p, hp, rfl, rfl⟩ := (Matcher.longest_iff m.table_disjoint (hv.trans h)).mp hlongest
    obtain rfl : rest = cs.dropWhile p.more := by
      apply (List.append_right_inj (c :: cs.takeWhile p.more)).mp
      rw [hv, h, List.cons_append, List.takeWhile_append_dropWhile]
    exact ⟨p, hp, hsettle⟩
  · rintro ⟨p, hp, hsettle⟩
    have hv : (c :: cs.takeWhile p.more) ++ cs.dropWhile p.more = c :: cs := by simp
    exact ⟨_, _, _, hv.trans h.symm, (Matcher.longest_iff m.table_disjoint hv).mpr ⟨p, hp, rfl, rfl⟩, hsettle⟩

theorem tableTakes_iff_next {m : Mode} {before w after : Text} {k : Kind} {c : Char} {cs : Text}
    (h : w ++ after = c :: cs) : m.TableTakes before k w after ↔
      ∃ l, next? m (before.getLast? = some '\n') c cs = some l ∧ k = l.kind ∧ w = c :: cs.take l.extra := by
  rw [tableTakes_iff h, ← map_taken_next?, Option.map_eq_some_iff]
  simp only [taken, Prod.mk.injEq, eq_comm]

theorem tableTakes_agrees : Agrees TableTakes where
  ne_nil m before k w after h := by
    obtain ⟨j, v, rest, hv, ⟨⟨p, _, _, c, s, rfl, _⟩, _⟩, _⟩ := id h
    obtain ⟨l, -, -, rfl⟩ := (tableTakes_iff_next hv.symm).mp h
    exact List.cons_ne_nil _ _
  next _ _ _ _ _ _ _ h := tableTakes_iff_next h

end Mode

/-- Tokens and errors are those of ordered choice, and the longest match settled by its surroundings gives the
same ones. -/
theorem Lexer.tokenize_eq_first_match (legacyIds : Bool) (source : Text) (r : Except LexError (List Token)) :
    (tokenize legacyIds source = r ↔ Lexes Mode.FirstTakes legacyIds .start [] source r) ∧
      (Lexes Mode.TableTakes legacyIds .start [] source r ↔ Lexes Mode.FirstTakes legacyIds .start [] source r) := by
  rw [Mode.tableTakes_agrees.lexes_iff, Mode.firstTakes_agrees.lexes_iff]
  exact ⟨Iff.rfl, Iff.rfl⟩

end AsciiDoc
