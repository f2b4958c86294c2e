import AsciiDoc.Proofs.LexErrors

namespace AsciiDoc.Lexer

open Lexeme

def Step.opensLegacyId (x : Step) : Bool := x.token.kind = .legacyIdStart

def Run.beforeLegacyId (r : Run) : Run where
  steps := r.steps.takeWhile fun x => !x.opensLegacyId
  stop :=
    match r.steps.find? Step.opensLegacyId with
    | none => r.stop
    | some x => some (x.token.extent.start, .legacyIdDisabled)

namespace Run

theorem beforeLegacyId_cons_of_opens {x : Step} (hx : x.opensLegacyId = true) (xs : List Step)
    (stop : Option (Nat × LexCause)) :
    beforeLegacyId ⟨x :: xs, stop⟩ = ⟨[], some (x.token.extent.start, .legacyIdDisabled)⟩ := by
  simp [beforeLegacyId, hx]

theorem beforeLegacyId_cons_of_not_opens {x : Step} (hx : x.opensLegacyId = false) (r : Run) :
    beforeLegacyId ⟨x :: r.steps, r.stop⟩ = ⟨x :: r.beforeLegacyId.steps, r.beforeLegacyId.stop⟩ := by
  simp [beforeLegacyId, hx]

theorem beforeLegacyId_cases (r : Run) :
    (∀ x ∈ r.steps, x.opensLegacyId = false) ∧ r.beforeLegacyId = r ∨
      ∃ before x after, r.steps = before ++ x :: after ∧ (∀ y ∈ before, y.opensLegacyId = false) ∧
        x.opensLegacyId = true ∧ r.beforeLegacyId.stop = some (x.token.extent.start, .legacyIdDisabled) := by
  cases hfind : r.steps.find? Step.opensLegacyId with
  | none =>
    have hnone : ∀ x ∈ r.steps, x.opensLegacyId = false := by simpa using hfind
    refine Or.inl ⟨hnone, ?_⟩
    have htake : r.steps.takeWhile (fun x => !x.opensLegacyId) = r.steps :=
      List.takeWhile_eq_self_iff.mpr (by simpa using hnone)
    rw [beforeLegacyId, htake, hfind]
  | some x =>
    obtain ⟨hx, before, after, hsteps, hbefore⟩ := List.find?_eq_some_iff_append.mp hfind
    exact Or.inr ⟨before, x, after, hsteps, by simpa using hbefore, hx, by rw [beforeLegacyId, hfind]⟩

end Run

theorem read_false (mode : Mode) (lineStart : Bool) (c : Char) (cs : Text) :
    read false mode lineStart c cs =
      match read true mode lineStart c cs with
      | .error cause => .error cause
      | .ok l => if l.kind = .legacyIdStart then .error .legacyIdDisabled else .ok l := by
  unfold read
  cases next? mode lineStart c cs <;> simp

theorem runFrom_false (m : ModeStack) (lineStart : Bool) (offset : Nat) (s : Text) :
    runFrom false m lineStart offset s = (runFrom true m lineStart offset s).beforeLegacyId := by
  fun_induction runFrom true m lineStart offset s with
  | case1 =>
    rw [runFrom]
    rfl
  | case2 m lineStart offset c cs cause hread =>
    rw [runFrom, read_false, hread]
    rfl
  | case3 m lineStart offset c cs l hread text stop rest ih =>
    rw [runFrom, read_false, hread]
    by_cases hl : l.kind = .legacyIdStart
    · rw [Run.beforeLegacyId_cons_of_opens (by simp [Step.opensLegacyId, hl])]
      simp [hl]
    · rw [Run.beforeLegacyId_cons_of_not_opens (by simp [Step.opensLegacyId, hl]), ← ih]
      simp [hl, text, stop]

theorem start_lt_of_stop {legacyIds : Bool} {m : ModeStack} {lineStart : Bool} {offset o : Nat} {s : Text}
    {cause : LexCause} (h : (runFrom legacyIds m lineStart offset s).stop = some (o, cause)) :
    offset ≤ o ∧ ∀ x ∈ (runFrom legacyIds m lineStart offset s).steps, x.token.extent.start < o := by
  fun_induction runFrom legacyIds m lineStart offset s with
  | case1 => cases h
  | case2 =>
    cases h
    exact ⟨le_refl _, by simp⟩
  | case3 m lineStart offset c cs l hread text stop rest ih =>
    obtain ⟨hle, hsteps⟩ := ih h
    have hpos : 0 < Text.bytes text := Text.bytes_pos (List.cons_ne_nil _ _)
    have hlt : offset < o := by omega
    exact ⟨hlt.le, List.forall_mem_cons.mpr ⟨hlt, hsteps⟩⟩

theorem stop_ne_disabled (source : Text) (o : Nat) : (run true source).stop ≠ some (o, .legacyIdDisabled) := by
  intro h
  obtain ⟨c, after, -, -, -, -, hoff⟩ := refused_of_runFrom (fits_start source) h
  cases hoff

theorem tokenize_false_cases (source : Text) :
    (∀ x ∈ (run true source).steps, x.token.kind ≠ .legacyIdStart) ∧
        tokenize false source = tokenize true source ∨
      ∃ before x after, (run true source).steps = before ++ x :: after ∧
        (∀ y ∈ before, y.token.kind ≠ .legacyIdStart) ∧ x.token.kind = .legacyIdStart ∧
          tokenize false source = .error
            ⟨x.token.extent.start, Text.locate source x.token.extent.start, .legacyIdDisabled⟩ := by
  have hrun : run false source = (run true source).beforeLegacyId := runFrom_false _ _ _ source
  rcases (run true source).beforeLegacyId_cases with ⟨hnone, hsame⟩ | ⟨before, x, after, hsteps, hbefore, hx, hstop⟩
  · refine Or.inl ⟨fun x hx => of_decide_eq_false (hnone x hx), ?_⟩
    rw [tokenize, hrun, hsame, tokenize]
  · refine Or.inr ⟨before, x, after, hsteps, fun y hy => of_decide_eq_false (hbefore y hy), of_decide_eq_true hx, ?_⟩
    rw [tokenize, hrun, Run.tokens, hstop]

theorem tokenize_true_cases {source : Text} {before after : List Step} {x : Step}
    (h : (run true source).steps = before ++ x :: after) :
    tokenize true source = .ok (before.map Step.token ++ x.token :: after.map Step.token) ∨
      ∃ e, tokenize true source = .error e ∧ x.token.extent.start < e.offset := by
  cases hstop : (run true source).stop with
  | none => exact Or.inl (Run.tokens_eq_ok_iff.mpr ⟨hstop, by rw [h, List.map_append, List.map_cons]⟩)
  | some stop =>
    obtain ⟨o, cause⟩ := stop
    have hmem : x ∈ (run true source).steps := by simp [h]
    exact Or.inr ⟨⟨o, Text.locate source o, cause⟩, Run.tokens_eq_error_iff.mpr ⟨hstop, rfl⟩,
      (start_lt_of_stop hstop).2 x hmem⟩

/-- Without ids in brackets a source is read as with them up to the first bracket that would open one. The
tokens and errors are the same if there is no such bracket; else there is an error at the bracket, and any
error of the other reading comes later. -/
theorem legacyIds_off (source : Text) :
    (run false source).steps = (run true source).steps.takeWhile (fun x => x.token.kind ≠ .legacyIdStart) ∧
    (∀ ts, tokenize false source = .ok ts ↔
      tokenize true source = .ok ts ∧ ∀ t ∈ ts, t.kind ≠ .legacyIdStart) ∧
    (∀ e mode snippet, tokenize false source = .error e → e.cause = .noMatch mode snippet →
      tokenize true source = .error e) ∧
    ∀ e, tokenize false source = .error e → e.cause = .legacyIdDisabled →
      (∃ before t after, tokenize true source = .ok (before ++ t :: after) ∧
        (∀ u ∈ before, u.kind ≠ .legacyIdStart) ∧ t.kind = .legacyIdStart ∧ t.extent.start = e.offset) ∨
      ∃ e', tokenize true source = .error e' ∧ e.offset < e'.offset := by
  refine ⟨?_, ?_⟩
  · rw [run, runFrom_false]
    simp [Run.beforeLegacyId, Step.opensLegacyId, run]
  rcases tokenize_false_cases source with ⟨hnone, hsame⟩ | ⟨before, x, after, hsteps, hbefore, hx, hoff⟩
  · rw [hsame]
    refine ⟨?_, fun e mode snippet he _ => he, ?_⟩
    · intro ts
      refine ⟨fun hts => ⟨hts, ?_⟩, And.left⟩
      obtain ⟨-, rfl⟩ := Run.tokens_eq_ok_iff.mp hts
      simpa using hnone
    · intro e he hcause
      have hstop := (Run.tokens_eq_error_iff.mp he).1
      rw [hcause] at hstop
      exact absurd hstop (stop_ne_disabled source e.offset)
  · rw [hoff]
    refine ⟨?_, ?_, ?_⟩
    · intro ts
      constructor
      · rintro ⟨⟩
      · rintro ⟨hts, hkinds⟩
        obtain ⟨-, rfl⟩ := Run.tokens_eq_ok_iff.mp hts
        exact absurd hx (hkinds x.token (by simp [hsteps]))
    · rintro e mode snippet ⟨⟩ ⟨⟩
    · rintro e ⟨⟩ -
      rcases tokenize_true_cases hsteps with hts | hlater
      · refine Or.inl ⟨_, _, _, hts, ?_, hx, rfl⟩
        simpa using hbefore
      · exact Or.inr hlater

theorem legacyIds_off_bracket :
    let blank : LexError := ⟨2, ⟨0, 2⟩, .noMatch .attributeList " b[c]]".toList⟩
    let bracket : LexError := ⟨6, ⟨1, 3⟩, .legacyIdDisabled⟩
    tokenize false "[a b[c]]".toList = .error blank ∧ tokenize true "[a b[c]]".toList = .error blank ∧
      tokenize false "é\n[#x[a]]".toList = .error bracket ∧
        ∃ before t after, tokenize true "é\n[#x[a]]".toList = .ok (before ++ t :: after) ∧
          (∀ u ∈ before, u.kind ≠ .legacyIdStart) ∧ t.kind = .legacyIdStart ∧ t.extent.start = 6 := by
  intro blank bracket
  have hblank : tokenize false "[a b[c]]".toList = .error blank := by decide +kernel
  have hbracket : tokenize false "é\n[#x[a]]".toList = .error bracket := by decide +kernel
  refine ⟨hblank, (legacyIds_off _).2.2.1 _ _ _ hblank rfl, hbracket, ?_⟩
  rcases (legacyIds_off _).2.2.2 _ hbracket rfl with hread | ⟨e, he, -⟩
  · exact hread
  · have hread : (tokenize true "é\n[#x[a]]".toList).toOption.isSome = true := by decide +kernel
    rw [he] at hread
    cases hread

end AsciiDoc.Lexer
