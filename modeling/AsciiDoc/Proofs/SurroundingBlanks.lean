import AsciiDoc.Proofs.Normalization

namespace AsciiDoc

namespace Text

theorem trimEnd_append_blanks (t : Text) {s : Text} (hs : ∀ c ∈ s, isBlank c = true) :
    trimEnd (t ++ s) = trimEnd t := by
  induction s using List.reverseRecOn with
  | nil => rw [List.append_nil]
  | append_singleton s c ih =>
    obtain ⟨hs, hc⟩ := List.forall_mem_append.mp hs
    rw [← List.append_assoc, trimEnd_concat, if_pos (hc c List.mem_cons_self), ih hs]

theorem trimEnd_of_blanks {s : Text} (hs : ∀ c ∈ s, isBlank c = true) : trimEnd s = [] :=
  trimEnd_append_blanks [] hs

theorem dropBlankLinesFrom_line (whole : Text) {l : Text} (hl : ∀ c ∈ l, isIndent c = true) (t : Text) :
    dropBlankLinesFrom whole (l ++ '\n' :: t) = dropBlankLines t := by
  induction l with
  | nil => rw [List.nil_append, dropBlankLinesFrom, if_pos rfl, dropBlankLines]
  | cons c l ih =>
    obtain ⟨hc, hl⟩ := List.forall_mem_cons.mp hl
    have hnewline : c ≠ '\n' := by
      rintro rfl
      revert hc
      decide
    rw [List.cons_append, dropBlankLinesFrom, if_neg hnewline, if_pos hc, ih hl]

theorem dropBlankLines_lines {lines : List Text} (h : ∀ l ∈ lines, ∀ c ∈ l, isIndent c = true) (t : Text) :
    dropBlankLines (lines.flatMap (· ++ ['\n']) ++ t) = dropBlankLines t := by
  induction lines with
  | nil => rfl
  | cons l lines ih =>
    obtain ⟨hl, hlines⟩ := List.forall_mem_cons.mp h
    rw [List.flatMap_cons, List.append_assoc, List.append_assoc, List.singleton_append, dropBlankLines,
      dropBlankLinesFrom_line _ hl, ih hlines]

theorem dropBlankLinesFrom_suffix {whole s : Text} (h : s <:+ whole) : dropBlankLinesFrom whole s <:+ whole := by
  induction s generalizing whole with
  | nil => exact List.suffix_refl whole
  | cons c s ih =>
    have hs : s <:+ whole := (List.suffix_cons c s).trans h
    rw [dropBlankLinesFrom]
    split
    · exact (ih (List.suffix_refl s)).trans hs
    · split
      · exact ih hs
      · exact List.suffix_refl whole

theorem dropBlankLinesFrom_append (whole s : Text) {t : Text} (h : ∃ c ∈ t, isBlank c = false) :
    dropBlankLinesFrom (whole ++ s) (t ++ s) = dropBlankLinesFrom whole t ++ s := by
  induction t generalizing whole with
  | nil =>
    obtain ⟨c, hc, -⟩ := h
    cases hc
  | cons d t ih =>
    obtain ⟨c, hmem, hc⟩ := h
    have hrest (hd : isBlank d = true) : ∃ c ∈ t, isBlank c = false := by
      rcases List.mem_cons.mp hmem with rfl | hmem
      · rw [hd] at hc
        cases hc
      · exact ⟨c, hmem, hc⟩
    rw [List.cons_append, dropBlankLinesFrom, dropBlankLinesFrom]
    split
    · rename_i hnewline
      exact ih t (hrest (hnewline ▸ isBlank_newline))
    · split
      · rename_i hindent
        exact ih whole (hrest (isBlank_of_isIndent hindent))
      · rfl

end Text

theorem normalize_of_blanks {t : Text} (ht : ∀ c ∈ t, Text.isBlank c = true) : normalize t = ['\n'] := by
  have hlines : Text.dropBlankLines t <:+ t := Text.dropBlankLinesFrom_suffix (List.suffix_refl t)
  rw [normalize, Text.trimEnd_of_blanks fun c hc => ht c (hlines.subset hc)]

theorem normalize_lines {lines : List Text} (h : ∀ l ∈ lines, ∀ c ∈ l, Text.isIndent c = true) (t : Text) :
    normalize (lines.flatMap (· ++ ['\n']) ++ t) = normalize t := by
  rw [normalize, Text.dropBlankLines_lines h, normalize]

theorem normalize_append_blanks (t : Text) {s : Text} (hs : ∀ c ∈ s, Text.isBlank c = true) :
    normalize (t ++ s) = normalize t := by
  by_cases ht : ∀ c ∈ t, Text.isBlank c = true
  · -- A last line without its newline may be dropped on one side only, but then nothing is left on either.
    rw [normalize_of_blanks ht, normalize_of_blanks (List.forall_mem_append.mpr ⟨ht, hs⟩)]
  · have hink : ∃ c ∈ t, Text.isBlank c = false := by simpa using ht
    have hlines : Text.dropBlankLines (t ++ s) = Text.dropBlankLines t ++ s :=
      Text.dropBlankLinesFrom_append t s hink
    rw [normalize, hlines, Text.trimEnd_append_blanks _ hs, normalize]

theorem normalize_normalize (t : Text) : normalize (normalize t) = normalize t := by
  obtain ⟨piece, hpiece, hfirst⟩ := normalize_eq_cons t
  have hempty : ∀ l ∈ [([] : Text)], ∀ c ∈ l, Text.isIndent c = true := by simp
  have hline : normalize ('\n' :: piece) = normalize piece := normalize_lines hempty piece
  have htrim : Text.trimEnd piece = piece := by
    obtain rfl : Text.trimEnd (Text.dropBlankLines t) = piece := (List.cons.inj hpiece).2
    simp only [Text.trimEnd_eq_rdropWhile, List.rdropWhile_idempotent]
  rw [hpiece, hline, normalize, Text.dropBlankLines, Text.dropBlankLinesFrom_eq piece hfirst, htrim]

theorem exists_of_normalize_eq {t piece : Text} (h : normalize t = '\n' :: piece) :
    ∃ before after, t = before ++ piece ++ after := by
  obtain rfl : Text.trimEnd (Text.dropBlankLines t) = piece := (List.cons.inj h).2
  obtain ⟨before, hbefore⟩ : Text.dropBlankLines t <:+ t := Text.dropBlankLinesFrom_suffix (List.suffix_refl t)
  obtain ⟨after, hafter⟩ : Text.trimEnd (Text.dropBlankLines t) <+: Text.dropBlankLines t := by
    rw [Text.trimEnd_eq_rdropWhile]
    exact List.rdropWhile_prefix _ _
  exact ⟨before, after, by rw [List.append_assoc, hafter, hbefore]⟩

theorem exists_on_first_line {piece : Text} (hfirst : (piece.dropWhile Text.isIndent).head? ≠ some '\n')
    (hend : piece.EndsInk) : ∃ c ∈ piece.takeWhile (· ≠ '\n'), Text.isIndent c = false := by
  obtain ⟨last, hlast, hink⟩ := hend
  have hne : piece.dropWhile Text.isIndent ≠ [] := by
    intro hnil
    have hindent := List.dropWhile_eq_nil_iff.mp hnil last (List.mem_of_getLast? hlast)
    rw [Text.isBlank_of_isIndent hindent] at hink
    cases hink
  obtain ⟨c, rest, hrest⟩ := List.exists_cons_of_ne_nil hne
  have hc : Text.isIndent c = false := by
    have hnot := List.head?_dropWhile_not Text.isIndent piece
    rwa [hrest] at hnot
  have hnewline : c ≠ '\n' := by
    rintro rfl
    rw [hrest] at hfirst
    exact hfirst rfl
  have hindent : ∀ d ∈ piece.takeWhile Text.isIndent, decide (d ≠ '\n') = true := by
    intro d hd
    rw [decide_eq_true_iff]
    rintro rfl
    exact absurd (List.mem_takeWhile_imp hd) (by decide)
  refine ⟨c, ?_, hc⟩
  rw [← List.takeWhile_append_dropWhile (p := Text.isIndent) (l := piece), hrest,
    List.takeWhile_append_of_pos hindent, List.takeWhile_cons_of_pos (by simpa using hnewline)]
  simp

/-- Blank lines before a text and blanks behind it change neither what is read nor what it is read as. What is
read is read as itself: it is a newline, or a newline and a part of the text that begins with a line that is not
only spaces and tabs, and ends with a character that is not blank. -/
theorem blanks_around {lines : List Text} (hlines : ∀ l ∈ lines, ∀ c ∈ l, c = ' ' ∨ c = '\t') (t : Text)
    {s : Text} (hs : ∀ c ∈ s, Text.isBlank c = true) :
    normalize (lines.flatMap (· ++ ['\n']) ++ t ++ s) = normalize t ∧
      (∀ c : Config, parse c (lines.flatMap (· ++ ['\n']) ++ t ++ s) = parse c t) ∧
      normalize (normalize t) = normalize t ∧
      (normalize t = ['\n'] ∨ ∃ before piece after, normalize t = '\n' :: piece ∧ t = before ++ piece ++ after ∧
        (∃ c ∈ piece.takeWhile (· ≠ '\n'), c ≠ ' ' ∧ c ≠ '\t') ∧
          ∃ c, piece.getLast? = some c ∧ Text.isBlank c = false) := by
  have hindent : ∀ l ∈ lines, ∀ c ∈ l, Text.isIndent c = true := by simpa [Text.isIndent] using hlines
  have hread : normalize (lines.flatMap (· ++ ['\n']) ++ t ++ s) = normalize t := by
    rw [normalize_append_blanks _ hs, normalize_lines hindent]
  refine ⟨hread, fun c => by rw [parse, hread, parse], normalize_normalize t, ?_⟩
  obtain ⟨piece, hpiece, hfirst⟩ := normalize_eq_cons t
  obtain ⟨before, after, ht⟩ := exists_of_normalize_eq hpiece
  rcases normalize_ends t with hnewline | hend
  · exact Or.inl hnewline
  by_cases hne : piece = []
  · exact Or.inl (by rw [hpiece, hne])
  · have hend : Text.EndsInk piece := by
      obtain ⟨c, hc, hink⟩ := hend
      rw [hpiece, List.getLast?_cons_of_ne_nil hne] at hc
      exact ⟨c, hc, hink⟩
    obtain ⟨c, hc, hnot⟩ := exists_on_first_line hfirst hend
    exact Or.inr ⟨before, piece, after, hpiece, ht, ⟨c, hc, by simpa [Text.isIndent] using hnot⟩, hend⟩

theorem blanks_around_last_line :
    let lines := [" \t".toList, []]
    normalize (lines.flatMap (· ++ ['\n']) ++ "\n  ".toList ++ "\t\n ".toList) = ['\n'] ∧
      normalize (lines.flatMap (· ++ ['\n']) ++ " \u00a0\n a ".toList ++ "\u2003\n".toList) =
        "\n \u00a0\n a".toList ∧
      parse {} (lines.flatMap (· ++ ['\n']) ++ " é ".toList ++ "\u2003\n".toList) = parse {} " é ".toList := by
  intro lines
  have hlines : ∀ l ∈ lines, ∀ c ∈ l, c = ' ' ∨ c = '\t' := by decide
  have htail : ∀ c ∈ "\u2003\n".toList, Text.isBlank c = true := by decide
  refine ⟨(blanks_around hlines _ (by decide)).1.trans (by decide), ?_, (blanks_around hlines _ htail).2.1 {}⟩
  exact (blanks_around hlines _ htail).1.trans (by decide)

end AsciiDoc
