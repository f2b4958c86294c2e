import AsciiDoc.Proofs.Lexemes
import AsciiDoc.Proofs.Rereading
import AsciiDoc.Proofs.SyntaxTrees

/-!
Texts are read line by line. No token looks beyond the end of its line, and none but the first of a line
has a newline in it, so a reading of lines is made of readings of the single lines. Where the grammar
accepts what is read, every line ends in the root mode, whatever it entered.
-/

namespace AsciiDoc

namespace Lexeme

def EndsLine (rest : Text) : Prop := ∀ c ∈ rest.head?, c = '\n'

theorem takeWhile_endsLine {p : Char → Bool} (hp : p '\n' = false) (s : Text) {rest : Text}
    (hrest : EndsLine rest) : (s ++ rest).takeWhile p = s.takeWhile p := by
  induction s with
  | nil =>
    cases rest with
    | nil => rfl
    | cons c rest =>
      obtain rfl := hrest c rfl
      simp [hp]
  | cons c s ih => rw [List.cons_append, List.takeWhile_cons, List.takeWhile_cons, ih]

theorem running_endsLine {p : Char → Bool} (hp : p '\n' = false) (k : Kind) (s : Text) {rest : Text}
    (hrest : EndsLine rest) : running k p (s ++ rest) = running k p s := by
  rw [running, running, Text.run, Text.run, takeWhile_endsLine hp s hrest]

theorem closesOnLine_endsLine (s : Text) {rest : Text} (hrest : EndsLine rest) :
    closesOnLine (s ++ rest) = closesOnLine s := by
  rw [closesOnLine, closesOnLine, takeWhile_endsLine (by decide) s hrest]

theorem next?_endsLine (mode : Mode) (lineStart : Bool) {c : Char} (hc : c ≠ '\n') (s : Text) {rest : Text}
    (hrest : EndsLine rest) : next? mode lineStart c (s ++ rest) = next? mode lineStart c s := by
  have hmarker := running_endsLine (p := (· = '=')) (by decide) .headline s hrest
  have hword := running_endsLine (p := isWord) (by decide) .inlineText s hrest
  have hlistText := running_endsLine (p := isListText) (by decide) .listText s hrest
  have hstringText := running_endsLine (p := isStringText) (by decide) .stringText s hrest
  cases mode with
  | root => simp only [next?, inRoot, hc, if_false, hmarker, hword]
  | attributeList => simp only [next?, inList, closesOnLine_endsLine s hrest, hlistText]
  | legacyId => simp only [next?, inLegacyId, hlistText]
  | string => simp only [next?, inString, hstringText]

theorem run_le (p : Char → Bool) (s : Text) : Text.run p s ≤ s.length :=
  (List.takeWhile_prefix p).length_le

inductive Next : Mode → Bool → Char → Text → Lexeme → Prop
  | marker {cs : Text} : Next .root true '=' cs (running .headline (· = '=') cs)
  | listStart {b : Bool} {cs : Text} : Next .root b '[' cs (opening .listStart .attributeList)
  | space {b : Bool} {cs : Text} : Next .root b ' ' cs (single .space)
  | emptyLine {b : Bool} {cs : Text} : Next .root b '\n' cs (running .emptyLine Text.isIndent cs)
  | newline {b : Bool} {cs : Text} : Next .root b '\n' cs (single .newline)
  | tab {b : Bool} {cs : Text} : Next .root b '\t' cs (single .tab)
  | word {b : Bool} {c : Char} {cs : Text} (hc : isWord c = true) (hbracket : c ≠ '[') :
      Next .root b c cs (running .inlineText isWord cs)
  | listEnd {b : Bool} {cs : Text} : Next .attributeList b ']' cs (closing .listEnd)
  | legacyIdStart {b : Bool} {cs : Text} : Next .attributeList b '[' cs (opening .legacyIdStart .legacyId)
  | comma {b : Bool} {cs : Text} : Next .attributeList b ',' cs (single .comma)
  | stringStart {b : Bool} {cs : Text} (hcloses : closesOnLine cs = true) :
      Next .attributeList b '"' cs (opening .stringStart .string)
  | assignment {b : Bool} {cs : Text} : Next .attributeList b '=' cs (single .assignment)
  | optionMark {b : Bool} {cs : Text} : Next .attributeList b '%' cs (single .optionMark)
  | idMark {b : Bool} {cs : Text} : Next .attributeList b '#' cs (single .idMark)
  | roleMark {b : Bool} {cs : Text} : Next .attributeList b '.' cs (single .roleMark)
  | listText {b : Bool} {c : Char} {cs : Text} (hc : isListText c = true) :
      Next .attributeList b c cs (running .listText isListText cs)
  | legacyIdEnd {b : Bool} {cs : Text} : Next .legacyId b ']' cs (closing .legacyIdEnd)
  | legacyText {b : Bool} {c : Char} {cs : Text} (hc : isListText c = true) :
      Next .legacyId b c cs (running .listText isListText cs)
  | stringEnd {b : Bool} {cs : Text} : Next .string b '"' cs (closing .stringEnd)
  | stringSpace {b : Bool} {cs : Text} : Next .string b ' ' cs (single .space)
  | stringText {b : Bool} {c : Char} {cs : Text} (hc : isStringText c = true) :
      Next .string b c cs (running .stringText isStringText cs)

section Next

variable {lineStart : Bool} {c : Char} {cs : Text} {l : Lexeme}

theorem eq_of_ite {p : Prop} [Decidable p] {k : Lexeme} {o : Option Lexeme}
    (h : (if p then some k else o) = some l) : p ∧ k = l ∨ ¬p ∧ o = some l := by
  split at h
  · exact .inl ⟨‹_›, Option.some.inj h⟩
  · exact .inr ⟨‹_›, h⟩

theorem next_inRoot (h : inRoot lineStart c cs = some l) : Next .root lineStart c cs l := by
  rcases eq_of_ite h with ⟨⟨rfl, rfl⟩, rfl⟩ | ⟨-, h⟩
  · exact .marker
  rcases eq_of_ite h with ⟨rfl, rfl⟩ | ⟨hbracket, h⟩
  · exact .listStart
  rcases eq_of_ite h with ⟨rfl, rfl⟩ | ⟨-, h⟩
  · exact .space
  rcases eq_of_ite h with ⟨rfl, rfl⟩ | ⟨-, h⟩
  · unfold newline
    split
    · exact .emptyLine
    · exact .newline
  rcases eq_of_ite h with ⟨rfl, rfl⟩ | ⟨-, h⟩
  · exact .tab
  rcases eq_of_ite h with ⟨hc, rfl⟩ | ⟨-, ⟨⟩⟩
  exact .word hc hbracket

theorem next_inList (h : inList c cs = some l) : Next .attributeList lineStart c cs l := by
  rcases eq_of_ite h with ⟨rfl, rfl⟩ | ⟨-, h⟩
  · exact .listEnd
  rcases eq_of_ite h with ⟨rfl, rfl⟩ | ⟨-, h⟩
  · exact .legacyIdStart
  rcases eq_of_ite h with ⟨rfl, rfl⟩ | ⟨-, h⟩
  · exact .comma
  rcases eq_of_ite h with ⟨⟨rfl, hcloses⟩, rfl⟩ | ⟨-, h⟩
  · exact .stringStart hcloses
  rcases eq_of_ite h with ⟨rfl, rfl⟩ | ⟨-, h⟩
  · exact .assignment
  rcases eq_of_ite h with ⟨rfl, rfl⟩ | ⟨-, h⟩
  · exact .optionMark
  rcases eq_of_ite h with ⟨rfl, rfl⟩ | ⟨-, h⟩
  · exact .idMark
  rcases eq_of_ite h with ⟨rfl, rfl⟩ | ⟨-, h⟩
  · exact .roleMark
  rcases eq_of_ite h with ⟨hc, rfl⟩ | ⟨-, ⟨⟩⟩
  exact .listText hc

theorem next_inLegacyId (h : inLegacyId c cs = some l) : Next .legacyId lineStart c cs l := by
  rcases eq_of_ite h with ⟨rfl, rfl⟩ | ⟨-, h⟩
  · exact .legacyIdEnd
  rcases eq_of_ite h with ⟨hc, rfl⟩ | ⟨-, ⟨⟩⟩
  exact .legacyText hc

theorem next_inString (h : inString c cs = some l) : Next .string lineStart c cs l := by
  rcases eq_of_ite h with ⟨rfl, rfl⟩ | ⟨-, h⟩
  · exact .stringEnd
  rcases eq_of_ite h with ⟨rfl, rfl⟩ | ⟨-, h⟩
  · exact .stringSpace
  rcases eq_of_ite h with ⟨hc, rfl⟩ | ⟨-, ⟨⟩⟩
  exact .stringText hc

theorem next_of_eq {mode : Mode} (h : next? mode lineStart c cs = some l) : Next mode lineStart c cs l := by
  cases mode with
  | root => exact next_inRoot h
  | attributeList => exact next_inList h
  | legacyId => exact next_inLegacyId h
  | string => exact next_inString h

end Next

def shiftOf : Kind → Shift
  | .listStart => .push .attributeList
  | .legacyIdStart => .push .legacyId
  | .stringStart => .push .string
  | .listEnd | .legacyIdEnd | .stringEnd => .pop
  | _ => .stay

namespace Next

variable {mode : Mode} {lineStart : Bool} {c : Char} {cs : Text} {l : Lexeme}

theorem extra_le (h : Next mode lineStart c cs l) : l.extra ≤ cs.length := by
  cases h with
  | marker | emptyLine | word | listText | legacyText | stringText => exact run_le _ _
  | _ => exact Nat.zero_le _

theorem shift_eq (h : Next mode lineStart c cs l) : l.shift = shiftOf l.kind := by
  cases h <;> rfl

theorem opens_eq (h : Next mode lineStart c cs l) : Row.opens l.kind = decide (c = '\n') := by
  have hclass {p : Char → Bool} (hp : p '\n' = false) (hc : p c = true) : decide (c = '\n') = false := by
    rw [decide_eq_false_iff_not]
    rintro rfl
    rw [hp] at hc
    cases hc
  cases h with
  | word hc | listText hc | legacyText hc | stringText hc => exact (hclass (by decide) hc).symm
  | _ => rfl

theorem listEnd_eq (h : Next mode lineStart c cs l) (hk : l.kind = .listEnd) : c = ']' ∧ l.extra = 0 := by
  cases h with
  | listEnd => exact ⟨rfl, rfl⟩
  | _ => cases hk

end Next

end Lexeme

namespace Lexer

open Lexeme

variable {legacyIds : Bool}

theorem read_eq_ok_iff {mode : Mode} {lineStart : Bool} {c : Char} {cs : Text} {l : Lexeme} :
    read legacyIds mode lineStart c cs = .ok l ↔
      next? mode lineStart c cs = some l ∧ ¬(l.kind = .legacyIdStart ∧ legacyIds = false) := by
  unfold read
  cases next? mode lineStart c cs with
  | none => simp
  | some k =>
    dsimp only
    split
    · rename_i hk
      simp only [reduceCtorEq, Option.some.injEq, false_iff]
      rintro ⟨rfl, hnot⟩
      exact hnot hk
    · rename_i hk
      simp only [Except.ok.injEq, Option.some.injEq]
      constructor
      · rintro rfl
        exact ⟨rfl, hk⟩
      · exact fun h => h.1

theorem read_endsLine {mode : Mode} {lineStart : Bool} {c : Char} (hc : c ≠ '\n') {s rest : Text}
    (hrest : EndsLine rest) {l : Lexeme} :
    read legacyIds mode lineStart c (s ++ rest) = .ok l ↔ read legacyIds mode lineStart c s = .ok l := by
  rw [read_eq_ok_iff, read_eq_ok_iff, next?_endsLine mode lineStart hc s hrest]

namespace Reads

variable {a b d : State} {s t rest : Text} {ps qs : List Piece}

theorem factor (h : Reads legacyIds a s ps b t) (hall : Reads legacyIds a s qs d []) :
    ∃ rs, qs = ps ++ rs ∧ Reads legacyIds b t rs d [] := by
  induction h generalizing qs with
  | done a s => exact ⟨qs, rfl, hall⟩
  | @step a b c cs t l ps hread _ ih =>
    cases hall with
    | @step _ _ _ _ _ k qs hread' hrest =>
      obtain rfl : l = k := Except.ok.inj (hread.symm.trans hread')
      obtain ⟨rs, rfl, hrs⟩ := ih hrest
      exact ⟨rs, rfl, hrs⟩

theorem extend (h : Reads legacyIds a s ps b t) (hs : '\n' ∉ s) (hrest : EndsLine rest) :
    Reads legacyIds a (s ++ rest) ps b (t ++ rest) := by
  induction h with
  | done a s => exact .done a _
  | @step a b c cs t l ps hread _ ih =>
    have hc := (List.ne_of_not_mem_cons hs).symm
    have hcs := List.not_mem_of_not_mem_cons hs
    have hextra := (next_of_eq (next_of_read hread)).extra_le
    have hdrop := ih fun h => hcs (List.mem_of_mem_drop h)
    rw [← List.drop_append_of_le_length hextra, ← List.take_append_of_le_length hextra] at hdrop
    have hstep := Reads.step ((read_endsLine hc hrest).mpr hread) hdrop
    rwa [List.take_append_of_le_length hextra] at hstep

theorem split (h : Reads legacyIds a (s ++ rest) ps b []) (hs : '\n' ∉ s) (hrest : EndsLine rest) :
    ∃ qs rs m, ps = qs ++ rs ∧ Reads legacyIds a s qs m [] ∧ Reads legacyIds m rest rs b [] := by
  -- The induction is on the length of the line, since a token can take many of its characters.
  induction hn : s.length using Nat.strongRecOn generalizing s a ps with
  | ind n ih =>
    subst hn
    cases s with
    | nil => exact ⟨[], ps, a, rfl, .done a [], h⟩
    | cons c cs =>
      have hc := (List.ne_of_not_mem_cons hs).symm
      have hcs := List.not_mem_of_not_mem_cons hs
      rw [List.cons_append] at h
      cases h with
      | @step _ _ _ _ _ l ps hread hstep =>
        have hread := (read_endsLine hc hrest).mp hread
        have hextra := (next_of_eq (next_of_read hread)).extra_le
        rw [List.drop_append_of_le_length hextra, List.take_append_of_le_length hextra] at hstep
        have hlength : (cs.drop l.extra).length < (c :: cs).length := by
          rw [List.length_drop, List.length_cons]
          omega
        obtain ⟨qs, rs, m, rfl, hline, hafter⟩ :=
          ih _ hlength hstep (fun h => hcs (List.mem_of_mem_drop h)) rfl
        rw [List.take_append_of_le_length hextra]
        exact ⟨_, rs, m, rfl, .step hread hline, hafter⟩

theorem opens_iff (h : Reads legacyIds a s ps b t) :
    ∀ p ∈ ps, Row.opens p.kind = true ↔ p.text.head? = some '\n' := by
  induction h with
  | done => simp
  | step hread _ ih =>
    refine List.forall_mem_cons.mpr ⟨?_, ih⟩
    rw [(next_of_eq (next_of_read hread)).opens_eq, decide_eq_true_iff, List.head?_cons, Option.some.injEq]

theorem inner (h : Reads legacyIds a s ps b t) (hs : '\n' ∉ s) : ∀ p ∈ ps, Row.opens p.kind = false := by
  intro p hp
  rw [Bool.eq_false_iff, ne_eq, h.opens_iff p hp]
  intro hhead
  apply hs
  rw [h.source_eq, List.mem_append, Piece.source, List.mem_flatMap]
  exact Or.inl ⟨p, hp, List.mem_of_mem_head? hhead⟩

end Reads

end Lexer

namespace Place

def modes : Place → List Mode
  | between | inText | lineStart | beforeText => []
  | item | keyOrValue | entryEnd | beforeEntry | beforeValue | afterMark => [.attributeList]
  | stringOpen | stringWord | stringGap => [.string, .attributeList]
  | legacyOpen | legacyText => [.legacyId, .attributeList]

theorem modes_next {p q : Place} {k : Kind} (h : p.next? k = some q) :
    (ModeStack.mk p.modes).shift (Lexeme.shiftOf k) = ⟨q.modes⟩ := by
  cases p <;> cases k <;> cases h <;> rfl

theorem next_lineStart {p : Place} {k : Kind} (h : p.next? k = some lineStart) : k = .newline := by
  cases p <;> cases k <;> cases h <;> rfl

theorem mem_closed_of_line {p q : Place} {ks : List Kind} (hne : ks ≠ []) (hks : ∀ k ∈ ks, Row.opens k = false)
    (h : p.walk ks = some q) (hq : q.isEnd = true) : q ∈ closed := by
  obtain ⟨init, k, rfl⟩ := (List.eq_nil_or_concat' ks).resolve_left hne
  rw [walk_append, Option.bind_eq_some_iff] at h
  obtain ⟨r, -, hlast⟩ := h
  rw [walk_cons, Option.bind_eq_some_iff] at hlast
  obtain ⟨s, hs, hq'⟩ := hlast
  cases hq'
  have hends : ∀ {q : Place}, q.isEnd = true → q ∈ closed ∨ q = lineStart := by
    intro q
    cases q <;> decide
  rcases hends hq with hmem | rfl
  · exact hmem
  · have hopens := hks k (by simp)
    rw [next_lineStart hs] at hopens
    cases hopens

theorem modes_closed : ∀ p ∈ closed, p.modes = [] := by decide

theorem modes_of_isEnd {p : Place} (h : p.isEnd = true) : p.modes = [] := by
  cases p <;> first | rfl | cases h

end Place

theorem Lexer.Reads.modes_eq {legacyIds : Bool} {a b : State} {s t : Text} {ps : List Piece}
    (h : Reads legacyIds a s ps b t) {p q : Place} (hp : a.modes = ⟨p.modes⟩)
    (hwalk : p.walk (ps.map Piece.kind) = some q) : b.modes = ⟨q.modes⟩ := by
  induction h generalizing p with
  | done =>
    cases hwalk
    exact hp
  | step hread _ ih =>
    rw [List.map_cons, Place.walk_cons] at hwalk
    obtain ⟨r, hr, hwalk⟩ := Option.bind_eq_some_iff.mp hwalk
    refine ih ?_ hwalk
    rw [State.after, (Lexeme.next_of_eq (next_of_read hread)).shift_eq, hp]
    exact Place.modes_next hr

namespace Text

def isBlankLine (l : Text) : Bool := l.all isIndent

def ofLines (ls : List Text) : Text := ls.flatMap fun l => '\n' :: l

theorem ofLines_cons (l : Text) (ls : List Text) : ofLines (l :: ls) = '\n' :: (l ++ ofLines ls) := rfl

theorem endsLine_ofLines (ls : List Text) : Lexeme.EndsLine (ofLines ls) := by
  cases ls with
  | nil => simp [ofLines, Lexeme.EndsLine]
  | cons l ls => simp [ofLines_cons, Lexeme.EndsLine]

theorem head?_inked {l : Text} (hl : isBlankLine l = false) (hline : '\n' ∉ l) (rest : Text) :
    ((l ++ rest).dropWhile isIndent).head? ≠ some '\n' := by
  have hne : l.dropWhile isIndent ≠ [] := by
    rw [ne_eq, List.dropWhile_eq_nil_iff, ← List.all_eq_true]
    exact Bool.eq_false_iff.mp hl
  obtain ⟨c, s, hs⟩ := List.exists_cons_of_ne_nil hne
  rw [List.dropWhile_append, hs]
  intro hc
  obtain rfl : c = '\n' := by simpa using hc
  apply hline
  exact (List.dropWhile_suffix isIndent).subset (hs ▸ List.mem_cons_self)

theorem last_inked {l : Text} {ls : List Text} (h : ∀ m ∈ (l :: ls).getLast?, isBlankLine m = false) :
    (isBlankLine l = true → (ofLines ls).head? = some '\n') ∧ ∀ m ∈ ls.getLast?, isBlankLine m = false := by
  cases ls with
  | nil =>
    refine ⟨?_, by simp⟩
    intro hblank
    rw [h l rfl] at hblank
    cases hblank
  | cons k ls =>
    refine ⟨fun _ => rfl, ?_⟩
    rwa [List.getLast?_cons_cons] at h

end Text

namespace Lexer

open Lexeme Piece

variable {legacyIds : Bool}

theorem reads_blankLine (legacyIds b : Bool) {l rest : Text} (hl : l.isBlankLine = true)
    (hrest : rest.head? = some '\n') :
    ∃ e, Reads legacyIds (.root b) ('\n' :: (l ++ rest)) [⟨.emptyLine, '\n' :: l⟩] (.root e) rest := by
  have hindent : ∀ c ∈ l, Text.isIndent c = true := List.all_eq_true.mp hl
  have hrun : Text.run Text.isIndent (l ++ rest) = l.length := by
    apply Text.run_append hindent
    rw [hrest]
    rintro c ⟨⟩
    decide
  have hread : read legacyIds .root b '\n' (l ++ rest) = .ok ⟨.emptyLine, l.length, .stay⟩ := by
    obtain ⟨t, rfl⟩ := List.head?_eq_some_iff.mp hrest
    have hdrop : (l ++ '\n' :: t).dropWhile Text.isIndent = '\n' :: t := by
      rw [List.dropWhile_append_of_pos hindent, List.dropWhile_cons_of_neg (by decide)]
    rw [read_eq_ok_iff]
    simp [next?, inRoot, Lexeme.newline, hdrop, running, hrun]
  have hstep := Reads.step (a := .root b) hread (.done _ _)
  rw [List.take_left, List.drop_left] at hstep
  exact ⟨_, hstep⟩

inductive ReadsLine (legacyIds : Bool) : Text → List Piece → Prop
  | blank {l : Text} (hl : l.isBlankLine = true) : ReadsLine legacyIds l [⟨.emptyLine, '\n' :: l⟩]
  | inked {l : Text} {body : List Piece} {b : State} {q : Place} (hl : l.isBlankLine = false)
      (hbody : Reads legacyIds (.root true) l body b [])
      (hwalk : Place.lineStart.walk (body.map Piece.kind) = some q) (hq : q ∈ Place.closed) :
      ReadsLine legacyIds l (newline :: body)

theorem Reads.eq_nil {a b : State} {ps : List Piece} (h : Reads legacyIds a [] ps b []) : ps = [] ∧ b = a := by
  cases h
  exact ⟨rfl, rfl⟩

theorem Reads.ne_nil {a b : State} {s : Text} {ps : List Piece} (h : Reads legacyIds a s ps b []) (hs : s ≠ []) :
    ps ≠ [] := by
  rintro rfl
  exact hs h.source_eq

theorem eq_root {a : State} (h : a.modes = ⟨[]⟩) : a = .root a.lineStart := by
  cases a
  cases h
  rfl

theorem Reads.opens_head {a b : State} {s : Text} {p : Piece} {ps : List Piece}
    (h : Reads legacyIds a s (p :: ps) b []) (hs : EndsLine s) : Row.opens p.kind = true := by
  have hne := h.text_ne_nil p List.mem_cons_self
  obtain ⟨c, t, ht⟩ := List.exists_cons_of_ne_nil hne
  rw [h.opens_iff p List.mem_cons_self, ht, List.head?_cons, hs c]
  rw [h.source_eq, Piece.source_cons, ht]
  rfl

theorem Reads.lines {ls : List Text} (hls : ∀ l ∈ ls, '\n' ∉ l) (hlast : ∀ l ∈ ls.getLast?, l.isBlankLine = false)
    {e : Bool} {b : State} {ps : List Piece} (h : Reads legacyIds (.root e) (Text.ofLines ls) ps b [])
    {p q : Place} (hwalk : p.walk (ps.map Piece.kind) = some q) (hq : q.isEnd = true) :
    ∃ pss, List.Forall₂ (ReadsLine legacyIds) ls pss ∧ ps = pss.flatten := by
  induction ls generalizing e ps p with
  | nil => exact ⟨[], .nil, h.eq_nil.1⟩
  | cons l ls ih =>
    obtain ⟨hl, hrest⟩ := List.forall_mem_cons.mp hls
    obtain ⟨hmore, hlast⟩ := Text.last_inked hlast
    rw [Text.ofLines_cons] at h
    cases hblank : l.isBlankLine with
    | true =>
      obtain ⟨f, hline⟩ := reads_blankLine legacyIds e hblank (hmore hblank)
      obtain ⟨rs, rfl, hrs⟩ := hline.factor h
      rw [List.map_append, Place.walk_append, Option.bind_eq_some_iff] at hwalk
      obtain ⟨r, -, hwalk⟩ := hwalk
      obtain ⟨pss, hpss, rfl⟩ := ih hrest hlast hrs hwalk
      exact ⟨_ :: pss, .cons (.blank hblank) hpss, rfl⟩
    | false =>
      have hline : Reads legacyIds (.root e) _ [newline] (.root true) (l ++ Text.ofLines ls) :=
        reads_newline (Text.head?_inked hblank hl _)
      obtain ⟨rs, rfl, hrs⟩ := hline.factor h
      obtain ⟨body, more, m, rfl, hbody, hafter⟩ := hrs.split hl (Text.endsLine_ofLines ls)
      rw [List.map_append, Place.walk_append, Option.bind_eq_some_iff] at hwalk
      obtain ⟨r, hr, hwalk⟩ := hwalk
      obtain rfl : r = .lineStart := by
        rw [List.map_singleton, Place.walk_cons, Option.bind_eq_some_iff] at hr
        obtain ⟨u, hu, hr⟩ := hr
        cases hr
        cases p <;> cases hu <;> rfl
      rw [List.map_append, Place.walk_append, Option.bind_eq_some_iff] at hwalk
      obtain ⟨s, hs, hwalk⟩ := hwalk
      -- The line ends the text, or the next token opens another one; either way its block is complete.
      have hclosed : s ∈ Place.closed := by
        cases more with
        | nil =>
          cases hwalk
          have hne : body.map Piece.kind ≠ [] := by
            rw [ne_eq, List.map_eq_nil_iff]
            apply hbody.ne_nil
            rintro rfl
            cases hblank
          apply Place.mem_closed_of_line hne _ hs hq
          intro k hk
          obtain ⟨t, ht, rfl⟩ := List.mem_map.mp hk
          exact hbody.inner hl t ht
        | cons t more =>
          rw [List.map_cons, Place.walk_cons, Option.bind_eq_some_iff] at hwalk
          obtain ⟨u, hu, -⟩ := hwalk
          exact Place.mem_closed_of_opens hu (hafter.opens_head (Text.endsLine_ofLines ls))
      have hmodes := hbody.modes_eq (p := .lineStart) rfl hs
      rw [Place.modes_closed s hclosed] at hmodes
      rw [eq_root hmodes] at hafter
      obtain ⟨pss, hpss, rfl⟩ := ih hrest hlast hafter hwalk
      exact ⟨_ :: pss, .cons (.inked hblank hbody hs hclosed) hpss, rfl⟩

theorem ReadsLine.reads {ls : List Text} (hls : ∀ l ∈ ls, '\n' ∉ l)
    (hlast : ∀ l ∈ ls.getLast?, l.isBlankLine = false) {pss : List (List Piece)}
    (h : List.Forall₂ (ReadsLine legacyIds) ls pss) (e : Bool) {p : Place} (hp : p ∈ Place.closed) :
    ∃ b, ∃ q ∈ Place.closed, Reads legacyIds (.root e) (Text.ofLines ls) pss.flatten b [] ∧
      p.walk (pss.flatten.map Piece.kind) = some q := by
  induction h generalizing e p with
  | nil => exact ⟨_, p, hp, .done _ _, rfl⟩
  | @cons l ps ls pss hline hlines ih =>
    obtain ⟨hl, hrest⟩ := List.forall_mem_cons.mp hls
    obtain ⟨hmore, hlast⟩ := Text.last_inked hlast
    have hnext : ∀ p ∈ Place.closed,
        p.next? .newline = some .lineStart ∧ p.next? .emptyLine = some .between := by
      decide
    cases hline with
    | blank hblank =>
      obtain ⟨f, hfirst⟩ := reads_blankLine legacyIds e hblank (hmore hblank)
      obtain ⟨b, q, hq, hreads, hwalk⟩ := ih hrest hlast f (p := .between) (by simp [Place.closed])
      refine ⟨b, q, hq, hfirst.trans hreads, ?_⟩
      rw [List.flatten_cons, List.singleton_append, List.map_cons, Place.walk_cons, (hnext p hp).2]
      exact hwalk
    | @inked body d r hblank hbody hwalk hr =>
      have hfirst : Reads legacyIds (.root e) _ [newline] (.root true) (l ++ Text.ofLines ls) :=
        reads_newline (Text.head?_inked hblank hl _)
      have hmodes := hbody.modes_eq (p := .lineStart) rfl hwalk
      rw [Place.modes_closed r hr] at hmodes
      have hextend := hbody.extend hl (Text.endsLine_ofLines ls)
      rw [eq_root hmodes] at hextend
      obtain ⟨b, q, hq, hreads, hwalk'⟩ := ih hrest hlast d.lineStart hr
      refine ⟨b, q, hq, hfirst.trans (hextend.trans hreads), ?_⟩
      rw [List.flatten_cons, List.cons_append, List.map_cons, Place.walk_cons, Piece.newline, (hnext p hp).1,
        List.map_append, Option.bind_some, Place.walk_append, hwalk]
      exact hwalk'

end Lexer

theorem parse_lines_iff {c : Config} {text : Text} {ls : List Text} (htext : normalize text = Text.ofLines ls)
    (hls : ∀ l ∈ ls, '\n' ∉ l) (hlast : ∀ l ∈ ls.getLast?, l.isBlankLine = false) {d : Document} :
    parse c text = .ok d ↔
      ∃ pss, List.Forall₂ (Lexer.ReadsLine c.legacyIds) ls pss ∧ d = .ofPieces pss.flatten := by
  rw [parse_eq_ok_iff, htext]
  constructor
  · rintro ⟨ps, b, hps, ⟨q, hwalk, hq⟩, rfl⟩
    obtain ⟨pss, hpss, rfl⟩ := hps.lines hls hlast hwalk hq
    exact ⟨pss, hpss, rfl⟩
  · rintro ⟨pss, hpss, rfl⟩
    obtain ⟨b, q, hq, hreads, hwalk⟩ :=
      Lexer.ReadsLine.reads hls hlast hpss false (p := .between) (by simp [Place.closed])
    exact ⟨_, b, hreads, ⟨q, hwalk, (Place.isEnd_closed q hq).1⟩, rfl⟩

end AsciiDoc
