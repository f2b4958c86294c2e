import AsciiDoc.Proofs.LineBlocks

namespace AsciiDoc

open LineClass

def Block.lineClass : Block → LineClass
  | headline _ => .headline
  | paragraph _ => .prose
  | emptyLine _ => .blank
  | attributes _ => .attributes

namespace Stands

variable {c : Config} {run : List Text} {b b' : Block}

theorem of_eq (h : Stands c run b) : ∀ l ∈ run, of l = b.lineClass := by
  cases h with
  | paragraph hrun => exact hrun
  | emptyLine hl => exact List.forall_mem_singleton.mpr hl
  | headline hl => exact List.forall_mem_singleton.mpr hl
  | attributes hl => exact List.forall_mem_singleton.mpr hl

theorem bare_eq (h : Stands c run b) (h' : Stands c run b') (hne : run ≠ []) : b.bare = b'.bare := by
  obtain ⟨l, hl⟩ := List.exists_mem_of_ne_nil run hne
  have hclass : b.lineClass = b'.lineClass := (h.of_eq l hl).symm.trans (h'.of_eq l hl)
  cases h with
  | emptyLine _ =>
    cases h' with
    | emptyLine _ => rfl
    | _ => cases hclass
  | headline _ hlevel hwords =>
    cases h' with
    | headline _ hlevel' hwords' =>
      simp only [Block.bare, Line.bare, hwords, hwords', hlevel, hlevel']
    | _ => cases hclass
  | attributes _ hparse hd hb =>
    cases h' with
    | attributes _ hparse' hd' hb' =>
      cases hparse.symm.trans hparse'
      cases hd.symm.trans hd'
      simp only [Block.bare, hb, hb']
    | _ => cases hclass
  | paragraph _ hlines hliteral =>
    cases h' with
    | paragraph _ hlines' hliteral' =>
      have hbare (ls : List Line) : ls.map Line.bare = (ls.map Line.words).map (⟨·, .unresolved⟩) := by
        rw [List.map_map]
        rfl
      simp only [Block.bare, Paragraph.bare, hbare, hlines, hlines', hliteral, hliteral']
    | _ => cases hclass

theorem flatMap_print_eq {runs : List (List Text)} {bs bs' : List Block} (h : List.Forall₂ (Stands c) runs bs)
    (h' : List.Forall₂ (Stands c) runs bs') (hne : [] ∉ runs) :
    bs.flatMap (Block.print c) = bs'.flatMap (Block.print c) := by
  induction h generalizing bs' with
  | nil =>
    cases h'
    rfl
  | @cons _ b _ _ hb _ ih =>
    cases h' with
    | @cons _ b' _ _ hb' hbs' =>
      obtain ⟨hrun, hne⟩ := not_or.mp (mt List.mem_cons.mpr hne)
      rw [List.flatMap_cons, List.flatMap_cons, ih hbs' hne, ← b.print_bare, ← b'.print_bare,
        hb.bare_eq hb' (Ne.symm hrun)]

theorem print_eq_cons (h : Stands c run b) (hne : run ≠ []) : ∃ s, b.print c = '\n' :: s := by
  cases h with
  | @paragraph _ p _ hlines _ =>
    obtain ⟨l, run, rfl⟩ := List.exists_cons_of_ne_nil hne
    obtain ⟨line, lines, hp, -⟩ := List.map_eq_cons_iff.mp hlines
    rw [Block.print, Paragraph.print, hp, List.flatMap_cons]
    exact ⟨_, rfl⟩
  | emptyLine _ => exact ⟨_, rfl⟩
  | headline _ _ _ => exact ⟨_, rfl⟩
  | attributes _ _ _ _ => exact ⟨_, rfl⟩

end Stands

theorem LineClass.nil_notMem_runs (ls : List Text) : [] ∉ runs ls := List.nil_notMem_splitBy _ _

theorem LineClass.runs_append_blank (ls ms : List Text) : runs (ls ++ [] :: ms) = runs ls ++ [[]] :: runs ms := by
  have happ : runs (ls ++ [] :: ms) = runs ls ++ runs ([] :: ms) := by
    apply List.splitBy_append
    rintro l - m ⟨⟩
    exact Bool.and_false _
  have hblank : of [] ≠ .prose := by decide
  rw [happ, runs_cons_apart fun _ _ h => absurd h hblank]

structure Text.Trimmed (s : Text) (ls : List Text) : Prop where
  trimmed : normalize s = '\n' :: s
  ne_nil : s ≠ []
  ofLines : '\n' :: s = ofLines ls
  lines : ∀ l ∈ ls, '\n' ∉ l

namespace Text

variable {s t : Text}

theorem exists_ofLines (s : Text) : ∃ l ls, '\n' :: s = ofLines (l :: ls) ∧ ∀ m ∈ l :: ls, '\n' ∉ m := by
  induction s with
  | nil => exact ⟨[], [], rfl, by simp⟩
  | cons c s ih =>
    obtain ⟨l, ls, hs, hls⟩ := ih
    by_cases hc : c = '\n'
    · refine ⟨[], l :: ls, ?_, List.forall_mem_cons.mpr ⟨by simp, hls⟩⟩
      rw [hc, hs]
      rfl
    · obtain ⟨hl, hls⟩ := List.forall_mem_cons.mp hls
      refine ⟨c :: l, ls, ?_, List.forall_mem_cons.mpr ⟨?_, hls⟩⟩
      · rw [ofLines_cons] at hs ⊢
        rw [(List.cons.inj hs).2]
        rfl
      · simpa [Ne.symm hc] using hl

theorem normalize_eq_iff (hne : s ≠ []) :
    normalize s = '\n' :: s ↔ (s.dropWhile isIndent).head? ≠ some '\n' ∧ s.EndsInk := by
  constructor
  · intro h
    obtain ⟨t, ht, hhead⟩ := normalize_eq_cons s
    obtain ⟨-, rfl⟩ := List.cons.inj (h.symm.trans ht)
    obtain ⟨c, hc, hink⟩ := (normalize_ends s).resolve_left (by simpa [h] using hne)
    rw [h, List.getLast?_cons_of_ne_nil hne] at hc
    exact ⟨hhead, c, hc, hink⟩
  · rintro ⟨hhead, c, hc, hink⟩
    have htrim : trimEnd (s ++ []) = s := trimEnd_append hc hink (by simp)
    rw [List.append_nil] at htrim
    rw [normalize, dropBlankLines, dropBlankLinesFrom_eq s hhead, htrim]

theorem exists_trimmed (hne : s ≠ []) (h : normalize s = '\n' :: s) : ∃ ls, s.Trimmed ls := by
  obtain ⟨l, ls, hs, hls⟩ := exists_ofLines s
  exact ⟨l :: ls, h, hne, hs, hls⟩

namespace Trimmed

variable {c : Config} {ls ms : List Text}

theorem append (hs : s.Trimmed ls) (ht : t.Trimmed ms) :
    (s ++ ['\n', '\n'] ++ t).Trimmed (ls ++ [] :: ms) where
  trimmed := by
    obtain ⟨hhead, c, hc, hink⟩ := (normalize_eq_iff hs.ne_nil).mp hs.trimmed
    obtain ⟨-, hend⟩ := (normalize_eq_iff ht.ne_nil).mp ht.trimmed
    refine (normalize_eq_iff (by simp)).mpr ⟨?_, hend.append_left _⟩
    have hinked : s.dropWhile isIndent ≠ [] := by
      intro hall
      have hblank := isBlank_of_isIndent (List.dropWhile_eq_nil_iff.mp hall c (List.mem_of_getLast? hc))
      rw [hink] at hblank
      cases hblank
    rwa [List.append_assoc, List.dropWhile_append, if_neg (by simpa using hinked),
      List.head?_append_of_ne_nil _ hinked]
  ne_nil := by simp
  ofLines := by
    have hlines : Text.ofLines (ls ++ [] :: ms) = Text.ofLines ls ++ '\n' :: Text.ofLines ms := List.flatMap_append
    rw [hlines, ← hs.ofLines, ← ht.ofLines]
    simp
  lines := List.forall_mem_append.mpr ⟨hs.lines, List.forall_mem_cons.mpr ⟨by simp, ht.lines⟩⟩

theorem normalize_ne (h : s.Trimmed ls) : normalize s ≠ ['\n'] := by
  simpa [h.trimmed] using h.ne_nil

theorem exists_parse_iff (h : s.Trimmed ls) : (∃ d, parse c s = .ok d) ↔ ∀ l ∈ ls, Fine c l :=
  exists_parse_iff_fine (h.trimmed.trans h.ofLines) h.lines h.normalize_ne

theorem stands (h : s.Trimmed ls) {d : Document} (hd : parse c s = .ok d) :
    List.Forall₂ (Stands c) (runs ls) d.blocks :=
  stands_of_parse (h.trimmed.trans h.ofLines) h.lines h.normalize_ne hd

theorem exists_print (h : s.Trimmed ls) {d : Document} (hd : parse c s = .ok d) :
    ∃ body, d.blocks.flatMap (Block.print c) = '\n' :: body ∧ d.print c = body ++ ['\n'] := by
  have hstands := h.stands hd
  obtain ⟨l, ls, rfl⟩ : ∃ l ls', ls = l :: ls' := by
    apply List.exists_cons_of_ne_nil
    rintro rfl
    cases h.ofLines
  obtain ⟨run, rest, hruns⟩ := exists_runs_cons l ls
  rw [hruns] at hstands
  obtain ⟨b, bs, hb, -, hblocks⟩ := List.forall₂_cons_left_iff.mp hstands
  have hfirst : b.isEmptyLine = false := by
    apply d.head?_core
    rw [Document.core_of_parse hd, hblocks]
    rfl
  obtain ⟨body, hbody⟩ := hb.print_eq_cons (List.cons_ne_nil l run)
  refine ⟨body ++ bs.flatMap (Block.print c), ?_, ?_⟩
  · rw [hblocks, List.flatMap_cons, hbody]
    rfl
  · rw [Document.print, hblocks, List.dropWhile_cons_of_neg (by simp [hfirst]), List.flatMap_cons, hbody]
    rfl

theorem exists_parse_append (hs : s.Trimmed ls) (ht : t.Trimmed ms) :
    (∃ d, parse c (s ++ ['\n', '\n'] ++ t) = .ok d) ↔ (∃ d, parse c s = .ok d) ∧ ∃ d, parse c t = .ok d := by
  have hblank : Fine c [] := trivial
  rw [(hs.append ht).exists_parse_iff, hs.exists_parse_iff, ht.exists_parse_iff, List.forall_mem_append,
    List.forall_mem_cons, and_iff_right hblank]

theorem print_append (hs : s.Trimmed ls) (ht : t.Trimmed ms) {d e f : Document} (hd : parse c s = .ok d)
    (he : parse c t = .ok e) (hf : parse c (s ++ ['\n', '\n'] ++ t) = .ok f) :
    f.print c = d.print c ++ ['\n'] ++ e.print c := by
  have hstands := (hs.append ht).stands hf
  rw [runs_append_blank] at hstands
  -- The blocks of both texts, with an empty line between, are blocks of the same runs.
  have hboth : List.Forall₂ (Stands c) (runs ls ++ [[]] :: runs ms)
      (d.blocks ++ .emptyLine .unresolved :: e.blocks) :=
    List.rel_append (hs.stands hd) (.cons (.emptyLine rfl) (ht.stands he))
  have hprint : f.blocks.flatMap (Block.print c) =
      d.blocks.flatMap (Block.print c) ++ '\n' :: e.blocks.flatMap (Block.print c) := by
    rw [Stands.flatMap_print_eq hstands hboth (runs_append_blank ls ms ▸ nil_notMem_runs _), List.flatMap_append]
    rfl
  obtain ⟨x, hx, hd⟩ := hs.exists_print hd
  obtain ⟨y, hy, he⟩ := ht.exists_print he
  obtain ⟨z, hz, hf⟩ := (hs.append ht).exists_print hf
  rw [hx, hy, hz] at hprint
  rw [hd, he, hf, (List.cons.inj hprint).2]
  simp

end Trimmed

end Text

theorem format_eq_ok_iff {c : Config} {text x : Text} :
    format c text = .ok x ↔ ∃ d, parse c text = .ok d ∧ d.print c = x := by
  rw [format]
  cases parse c text with
  | error e => simp [Except.map]
  | ok d => simp [Except.map]

theorem format_eq_error_iff {c : Config} {text : Text} :
    (∃ e, format c text = .error e) ↔ ¬∃ d, parse c text = .ok d := by
  rw [format]
  cases parse c text with
  | error e => simp [Except.map]
  | ok d => simp [Except.map]

/-- Two texts with a blank line between them are formatted as each of them alone, and if one of them
cannot be formatted then neither can the two together. -/
theorem format_separated {c : Config} {s t : Text} (hs : s ≠ []) (ht : t ≠ []) (htrim : normalize s = '\n' :: s)
    (htrim' : normalize t = '\n' :: t) :
    (∀ x y, format c s = .ok x → format c t = .ok y →
        format c (s ++ ['\n', '\n'] ++ t) = .ok (x ++ ['\n'] ++ y)) ∧
      ((∃ e, format c s = .error e) ∨ (∃ e, format c t = .error e) →
        ∃ e, format c (s ++ ['\n', '\n'] ++ t) = .error e) := by
  obtain ⟨ls, hls⟩ := Text.exists_trimmed hs htrim
  obtain ⟨ms, hms⟩ := Text.exists_trimmed ht htrim'
  constructor
  · intro x y hx hy
    obtain ⟨d, hd, rfl⟩ := format_eq_ok_iff.mp hx
    obtain ⟨e, he, rfl⟩ := format_eq_ok_iff.mp hy
    obtain ⟨f, hf⟩ := (hls.exists_parse_append hms).mpr ⟨⟨d, hd⟩, e, he⟩
    exact format_eq_ok_iff.mpr ⟨f, hf, hls.print_append hms hd he hf⟩
  · rw [format_eq_error_iff, format_eq_error_iff, format_eq_error_iff, hls.exists_parse_append hms]
    exact not_and_or.mpr

theorem format_separated_mixed :
    let s := "= T\n[k=\"v, w\"#i]\n x\n[[j]]\n =y".toList
    let t := "[[i]]\n \t\n\n  = z  w\nv\"".toList
    let opened := "[k=\"v".toList
    let closed := "w\"]".toList
    normalize s = '\n' :: s ∧ normalize t = '\n' :: t ∧ format {} (s ++ ['\n', '\n'] ++ t) =
        .ok ("= T\n[k=\"v, w\"#i]\n  x\n[#j]\n  =y\n".toList ++ ['\n'] ++ "[#i]\n\n\n  = z w\n  v\"\n".toList) ∧
      format {} closed = .ok "w\"]\n".toList ∧
      (∃ e, format {} (opened ++ ['\n', '\n'] ++ closed) = .error e) ∧
      ∃ e, format {} (closed ++ ['\n', '\n'] ++ opened) = .error e := by
  intro s t opened closed
  have hopened : ∃ e, format {} opened = .error e := by
    rw [format_eq_error_iff]
    rintro ⟨d, hd⟩
    have hnone : (parse {} opened).toOption.isSome = false := by decide +kernel
    rw [hd] at hnone
    cases hnone
  have hs : s ≠ [] ∧ normalize s = '\n' :: s := by decide +kernel
  have ht : t ≠ [] ∧ normalize t = '\n' :: t := by decide +kernel
  have ho : opened ≠ [] ∧ normalize opened = '\n' :: opened := by decide +kernel
  have hc : closed ≠ [] ∧ normalize closed = '\n' :: closed := by decide +kernel
  refine ⟨hs.2, ht.2, ?_, by decide +kernel, ?_, ?_⟩
  · exact (format_separated hs.1 ht.1 hs.2 ht.2).1 _ _ (by decide +kernel) (by decide +kernel)
  · exact (format_separated ho.1 hc.1 ho.2 hc.2).2 (.inl hopened)
  · exact (format_separated hc.1 ho.1 hc.2 ho.2).2 (.inr hopened)

end AsciiDoc
