import AsciiDoc.Proofs.ModeStacks
import AsciiDoc.Proofs.Position

namespace AsciiDoc

/-- A source cannot be read on in the mode at the character. A newline in a string is not among these
characters, because a string is begun only where it is closed on the line. -/
def Mode.Stops (c : Char) : Mode → Prop
  | root => Text.isBlank c = true ∧ c ∉ [' ', '\t', '\n']
  | attributeList => Text.isBlank c = true
  | legacyId => Text.isBlank c = true ∨ c ∈ [',', '=', '[', '.', '%', '#']
  | string => Text.isBlank c = true ∧ c ∉ [' ', '\n']

theorem Text.ne_of_isBlank {c d : Char} (hc : isBlank c = true) (hd : isBlank d = false) : c ≠ d := by
  rintro rfl
  rw [hc] at hd
  cases hd

namespace Lexeme

theorem ite_eq_none_iff {p : Prop} [Decidable p] {k : Lexeme} {o : Option Lexeme} :
    (if p then some k else o) = none ↔ ¬p ∧ o = none := by
  split <;> simp [*]

theorem not_isListText_iff (c : Char) :
    ¬isListText c = true ↔ Text.isBlank c = true ∨ Text.isDelimiter c = true := by
  cases hb : Text.isBlank c <;> cases hd : Text.isDelimiter c <;> simp [isListText, hb, hd]

theorem inRoot_eq_none_iff (lineStart : Bool) (c : Char) (cs : Text) :
    inRoot lineStart c cs = none ↔ Mode.root.Stops c := by
  simp only [inRoot, ite_eq_none_iff, and_true, Mode.Stops, List.mem_cons, List.not_mem_nil, or_false, not_or]
  constructor
  · rintro ⟨-, -, hspace, hnewline, htab, hword⟩
    exact ⟨by simpa [isWord] using hword, hspace, htab, hnewline⟩
  · rintro ⟨hblank, hspace, htab, hnewline⟩
    refine ⟨?_, Text.ne_of_isBlank hblank (by decide), hspace, hnewline, htab, by simp [isWord, hblank]⟩
    exact fun hmarker => Text.ne_of_isBlank hblank (by decide) hmarker.1

theorem inList_eq_none_iff (c : Char) (cs : Text) :
    inList c cs = none ↔ Mode.attributeList.Stops c := by
  simp only [inList, ite_eq_none_iff, not_isListText_iff, and_true, Mode.Stops]
  constructor
  · rintro ⟨hend, hstart, hcomma, -, hassign, hoption, hid, hrole, htext⟩
    simpa [Text.isDelimiter, hend, hstart, hcomma, hassign, hoption, hid, hrole] using htext
  · intro hblank
    have hne {d : Char} (hd : Text.isBlank d = false) : c ≠ d := Text.ne_of_isBlank hblank hd
    exact ⟨hne (by decide), hne (by decide), hne (by decide), fun hquote => hne (by decide) hquote.1,
      hne (by decide), hne (by decide), hne (by decide), hne (by decide), Or.inl hblank⟩

theorem inLegacyId_eq_none_iff (c : Char) (cs : Text) :
    inLegacyId c cs = none ↔ Mode.legacyId.Stops c := by
  simp only [inLegacyId, ite_eq_none_iff, not_isListText_iff, and_true, Mode.Stops]
  constructor
  · rintro ⟨hend, htext⟩
    simpa [Text.isDelimiter, hend, or_assoc] using htext
  · intro h
    have hend : c ≠ ']' := by
      rintro rfl
      revert h
      decide
    exact ⟨hend, by simpa [Text.isDelimiter, hend, or_assoc] using h⟩

theorem inString_eq_none_iff (c : Char) (cs : Text) :
    inString c cs = none ↔ Mode.string.Stops c ∨ c = '\n' := by
  simp only [inString, ite_eq_none_iff, and_true, Mode.Stops, List.mem_cons, List.not_mem_nil, or_false, not_or]
  constructor
  · rintro ⟨hend, hspace, htext⟩
    have hblank : Text.isBlank c = true := by simpa [isStringText, hend] using htext
    by_cases hnewline : c = '\n'
    · exact Or.inr hnewline
    · exact Or.inl ⟨hblank, hspace, hnewline⟩
  · rintro (⟨hblank, hspace, -⟩ | rfl)
    · exact ⟨Text.ne_of_isBlank hblank (by decide), hspace, by simp [isStringText, hblank]⟩
    · decide

theorem next?_eq_none_iff (mode : Mode) (lineStart : Bool) (c : Char) (cs : Text) :
    next? mode lineStart c cs = none ↔ mode.Stops c ∨ mode = .string ∧ c = '\n' := by
  cases mode with
  | root => simp [next?, inRoot_eq_none_iff]
  | attributeList => simp [next?, inList_eq_none_iff]
  | legacyId => simp [next?, inLegacyId_eq_none_iff]
  | string => simp [next?, inString_eq_none_iff]

theorem Next.legacyIdStart_eq {mode : Mode} {lineStart : Bool} {c : Char} {cs : Text} {l : Lexeme}
    (h : Next mode lineStart c cs l) (hk : l.kind = .legacyIdStart) : mode = .attributeList ∧ c = '[' := by
  cases h with
  | legacyIdStart => exact ⟨rfl, rfl⟩
  | _ => cases hk

end Lexeme

namespace Lexer

open Lexeme

def Refused (legacyIds : Bool) (mode : Mode) (c : Char) (after : Text) : LexCause → Prop
  | .noMatch m snippet => m = mode ∧ mode.Stops c ∧ snippet = (c :: after).take 12
  | .legacyIdDisabled => mode = .attributeList ∧ c = '[' ∧ legacyIds = false

variable {legacyIds : Bool}

theorem refused_of_read {m : ModeStack} {lineStart : Bool} {c : Char} {cs : Text} {cause : LexCause}
    (hm : m.Fits (c :: cs)) (h : read legacyIds m.current lineStart c cs = .error cause) :
    Refused legacyIds m.current c cs cause := by
  unfold read at h
  cases hnext : next? m.current lineStart c cs with
  | none =>
    simp only [hnext, Except.error.injEq] at h
    subst h
    refine ⟨rfl, ?_, rfl⟩
    -- A newline in a string would end the line before the quote that is ahead.
    rcases (next?_eq_none_iff _ _ _ _).mp hnext with hstops | ⟨hstring, rfl⟩
    · exact hstops
    · exact absurd (hm.closes hstring) (by simp [closesOnLine])
  | some l =>
    simp only [hnext] at h
    split at h
    · rename_i hoff
      cases h
      obtain ⟨hmode, hc⟩ := (next_of_eq hnext).legacyIdStart_eq hoff.1
      exact ⟨hmode, hc, hoff.2⟩
    · cases h

def Run.text (r : Run) : Text := Token.source (r.steps.map Step.token)

theorem Run.text_cons (x : Step) (xs : List Step) (stop : Option (Nat × LexCause)) :
    Run.text ⟨x :: xs, stop⟩ = x.token.text ++ Run.text ⟨xs, stop⟩ := rfl

theorem refused_of_runFrom {m : ModeStack} {lineStart : Bool} {offset o : Nat} {s : Text} {cause : LexCause}
    (hm : m.Fits s) (h : (runFrom legacyIds m lineStart offset s).stop = some (o, cause)) :
    ∃ c after, s = (runFrom legacyIds m lineStart offset s).text ++ c :: after ∧
      o = offset + Text.bytes (runFrom legacyIds m lineStart offset s).text ∧
      Refused legacyIds
        ((runFrom legacyIds m lineStart offset s).steps.foldl (fun m x => m.shift x.shift) m).current c after
        cause := by
  fun_induction runFrom legacyIds m lineStart offset s with
  | case1 => cases h
  | case2 m lineStart offset c cs cause' hread =>
    cases h
    exact ⟨c, cs, rfl, rfl, refused_of_read hm hread⟩
  | case3 m lineStart offset c cs l hread text stop rest ih =>
    obtain ⟨d, after, hs, ho, hrefused⟩ := ih (hm.shift (next_of_eq (next_of_read hread))) h
    rw [Run.text_cons]
    refine ⟨d, after, ?_, ?_, hrefused⟩
    · rw [List.append_assoc, ← hs, List.cons_append, List.take_append_drop]
    · rw [ho, Text.bytes_append, ← Nat.add_assoc]

theorem Run.tokens_eq_ok_iff {r : Run} {source : Text} {ts : List Token} :
    r.tokens source = .ok ts ↔ r.stop = none ∧ r.steps.map Step.token = ts := by
  unfold Run.tokens
  split <;> simp [*]

theorem Run.tokens_eq_error_iff {r : Run} {source : Text} {e : LexError} :
    r.tokens source = .error e ↔
      r.stop = some (e.offset, e.cause) ∧ e.position = Text.locate source e.offset := by
  obtain ⟨offset, position, cause⟩ := e
  unfold Run.tokens
  split
  · simp [*]
  · simp only [*, Except.error.injEq, LexError.mk.injEq, Option.some.injEq, Prod.mk.injEq]
    constructor
    · rintro ⟨rfl, rfl, rfl⟩
      exact ⟨⟨rfl, rfl⟩, rfl⟩
    · rintro ⟨⟨rfl, rfl⟩, rfl⟩
      exact ⟨rfl, rfl, rfl⟩

/-- A source that cannot be read to its end is read up to a character, where the error stands. The mode of the
run refuses this character, or it is a bracket that the settings forbid. -/
theorem lexError_exact {source : Text} {e : LexError} (h : tokenize legacyIds source = .error e) :
    ∃ before c after, source = before ++ c :: after ∧ before = (run legacyIds source).text ∧
      e.offset = Text.bytes before ∧ e.offset < Text.bytes source ∧
      e.position = ⟨before.count '\n', Text.bytes (Text.lastLine before)⟩ ∧
      Refused legacyIds (run legacyIds source).final.current c after e.cause := by
  obtain ⟨hstop, hposition⟩ := Run.tokens_eq_error_iff.mp h
  obtain ⟨c, after, hsource, hoffset, hrefused⟩ := refused_of_runFrom (fits_start source) hstop
  have hbefore : e.offset = Text.bytes (run legacyIds source).text := hoffset.trans (Nat.zero_add _)
  have hbytes : Text.bytes source = e.offset + (c.utf8Size + Text.bytes after) := by
    rw [hbefore, ← Text.bytes_cons, ← Text.bytes_append]
    exact congrArg Text.bytes hsource
  refine ⟨_, c, after, hsource, rfl, hbefore, ?_, ?_, hrefused⟩
  · have hsize := Char.utf8Size_pos c
    omega
  · rw [hposition, hbefore]
    nth_rewrite 1 [hsource]
    exact Text.locate_append _ _

theorem lexError_exact_string :
    let source := "é\n[k=\"ü\tabcdefghijklm\"]".toList
    let e : LexError := ⟨9, ⟨1, 6⟩, .noMatch .string "\tabcdefghijk".toList⟩
    tokenize true source = .error e ∧
      ∃ before c after, source = before ++ c :: after ∧ before = (run true source).text ∧
        9 = Text.bytes before ∧ 9 < Text.bytes source ∧
        ⟨1, 6⟩ = Position.mk (before.count '\n') (Text.bytes (Text.lastLine before)) ∧
        Refused true (run true source).final.current c after e.cause := by
  intro source e
  have herror : tokenize true source = .error e := by decide +kernel
  exact ⟨herror, lexError_exact herror⟩

end Lexer

end AsciiDoc
