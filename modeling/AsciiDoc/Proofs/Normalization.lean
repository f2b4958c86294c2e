import AsciiDoc.Format
import AsciiDoc.Proofs.Rereading

namespace AsciiDoc

namespace Text

theorem trimEnd_concat (s : Text) (c : Char) :
    trimEnd (s ++ [c]) = if isBlank c then trimEnd s else s ++ [c] := by
  induction s with
  | nil => rfl
  | cons d s ih =>
    rw [List.cons_append, trimEnd, ih]
    cases hc : isBlank c with
    | true => rfl
    | false =>
      obtain ⟨e, t, ht⟩ := List.exists_cons_of_ne_nil (List.append_ne_nil_of_right_ne_nil s (List.cons_ne_nil c []))
      simp only [Bool.false_eq_true, if_false, ht]

theorem trimEnd_eq_rdropWhile (s : Text) : trimEnd s = s.rdropWhile isBlank := by
  induction s using List.reverseRecOn with
  | nil => rfl
  | append_singleton s c ih => rw [trimEnd_concat, List.rdropWhile_concat, ih]

theorem trimEnd_append {s t : Text} {c : Char} (hs : s.getLast? = some c) (hc : isBlank c = false)
    (ht : ∀ d ∈ t, isBlank d = true) : trimEnd (s ++ t) = s := by
  obtain ⟨r, rfl⟩ := List.getLast?_eq_some_iff.mp hs
  induction t using List.reverseRecOn with
  | nil => rw [List.append_nil, trimEnd_concat, hc, if_neg (by decide)]
  | append_singleton t d ih =>
    obtain ⟨ht, hd⟩ := List.forall_mem_append.mp ht
    rw [← List.append_assoc, trimEnd_concat, hd d List.mem_cons_self, if_pos rfl, ih ht]

theorem dropBlankLinesFrom_eq (whole : Text) {s : Text} (h : (s.dropWhile isIndent).head? ≠ some '\n') :
    dropBlankLinesFrom whole s = whole := by
  induction s with
  | nil => rfl
  | cons c s ih =>
    by_cases hc : isIndent c = true
    · have hnewline : c ≠ '\n' := by
        rintro rfl
        revert hc
        decide
      rw [List.dropWhile_cons_of_pos hc] at h
      rw [dropBlankLinesFrom, if_neg hnewline, if_pos hc, ih h]
    · rw [List.dropWhile_cons_of_neg hc, List.head?_cons, Ne, Option.some.injEq] at h
      rw [dropBlankLinesFrom, if_neg h, if_neg hc]

theorem dropBlankLinesFrom_indent (whole : Text) {indent s : Text} {c : Char}
    (hindent : ∀ d ∈ indent, isIndent d = true) (hc : isBlank c = false) :
    dropBlankLinesFrom whole (indent ++ c :: s) = whole := by
  apply dropBlankLinesFrom_eq
  have hnot : ¬isIndent c = true := by
    intro h
    rw [isBlank_of_isIndent h] at hc
    cases hc
  rw [List.dropWhile_append_of_pos hindent, List.dropWhile_cons_of_neg hnot, List.head?_cons, Ne, Option.some.injEq]
  exact (Lexer.ne_of_not_blank hc).2.1

theorem head?_dropBlankLinesFrom (indent : Text) {whole s : Text} (hindent : ∀ d ∈ indent, isIndent d = true)
    (hwhole : whole = indent ++ s) :
    ((dropBlankLinesFrom whole s).dropWhile isIndent).head? ≠ some '\n' := by
  -- The invariant is that `indent` has been read of the line that `whole` begins with.
  induction s generalizing whole indent with
  | nil =>
    rw [dropBlankLinesFrom, hwhole, List.append_nil]
    have hall : indent.dropWhile isIndent = [] := List.dropWhile_eq_nil_iff.mpr hindent
    simp [hall]
  | cons c s ih =>
    rw [dropBlankLinesFrom]
    split
    · exact ih [] (by simp) rfl
    · rename_i hnewline
      split
      · rename_i hc
        have hmore : ∀ d ∈ indent ++ [c], isIndent d = true :=
          List.forall_mem_append.mpr ⟨hindent, List.forall_mem_singleton.mpr hc⟩
        exact ih _ hmore (by simp [hwhole])
      · rename_i hc
        rw [hwhole, List.dropWhile_append_of_pos hindent, List.dropWhile_cons_of_neg hc]
        simpa using hnewline

theorem head?_dropWhile_prefix {s t : Text} (h : s <+: t)
    (ht : (t.dropWhile isIndent).head? ≠ some '\n') : (s.dropWhile isIndent).head? ≠ some '\n' := by
  obtain ⟨u, rfl⟩ := h
  intro hs
  apply ht
  obtain ⟨r, hr⟩ := List.head?_eq_some_iff.mp hs
  rw [List.dropWhile_append, hr]
  rfl

end Text

theorem normalize_append {indent s t : Text} {c d : Char} (hindent : ∀ e ∈ indent, Text.isIndent e = true)
    (hc : Text.isBlank c = false) (hlast : (indent ++ c :: s).getLast? = some d) (hd : Text.isBlank d = false)
    (ht : ∀ e ∈ t, Text.isBlank e = true) : normalize (indent ++ c :: s ++ t) = '\n' :: (indent ++ c :: s) := by
  have hlines : Text.dropBlankLines (indent ++ c :: s ++ t) = indent ++ c :: s ++ t := by
    rw [Text.dropBlankLines]
    nth_rewrite 2 [List.append_assoc]
    exact Text.dropBlankLinesFrom_indent _ hindent hc
  rw [normalize, hlines, Text.trimEnd_append hlast hd ht]

def Text.EndsInk (s : Text) : Prop := ∃ c, s.getLast? = some c ∧ Text.isBlank c = false

theorem normalize_eq_cons (text : Text) :
    ∃ s, normalize text = '\n' :: s ∧ (s.dropWhile Text.isIndent).head? ≠ some '\n' := by
  refine ⟨_, rfl, ?_⟩
  rw [Text.trimEnd_eq_rdropWhile]
  apply Text.head?_dropWhile_prefix (List.rdropWhile_prefix _ _)
  exact Text.head?_dropBlankLinesFrom [] (by simp) rfl

theorem normalize_ends (text : Text) : normalize text = ['\n'] ∨ (normalize text).EndsInk := by
  rw [normalize, Text.trimEnd_eq_rdropWhile]
  by_cases h : (Text.dropBlankLines text).rdropWhile Text.isBlank = []
  · exact Or.inl (congrArg ('\n' :: ·) h)
  · refine Or.inr ⟨_, ?_, Bool.eq_false_iff.mpr (List.rdropWhile_last_not Text.isBlank _ h)⟩
    rw [List.getLast?_cons_of_ne_nil h, List.getLast?_eq_some_getLast h]

namespace Text.EndsInk

theorem append_left {t : Text} (h : t.EndsInk) (s : Text) : (s ++ t).EndsInk := by
  obtain ⟨c, ht, hc⟩ := h
  refine ⟨c, ?_, hc⟩
  rw [List.getLast?_append, ht]
  rfl

theorem of_word {w : Text} (hw : w ≠ []) (hchars : ∀ c ∈ w, isBlank c = false) : w.EndsInk :=
  ⟨w.getLast hw, List.getLast?_eq_some_getLast hw, hchars _ (List.getLast_mem hw)⟩

theorem flatMap {α : Type} {f : α → Text} {xs : List α} (hne : xs ≠ []) (h : ∀ x ∈ xs.getLast?, (f x).EndsInk) :
    Text.EndsInk (xs.flatMap f) := by
  obtain ⟨init, x, rfl⟩ := (List.eq_nil_or_concat' xs).resolve_left hne
  rw [List.flatMap_append, List.flatMap_singleton]
  exact (h x List.getLast?_concat).append_left _

end Text.EndsInk

theorem Line.endsInk {l : Line} (h : l.Inked) : l.joined.EndsInk := by
  obtain ⟨hne, hwords⟩ := h
  obtain ⟨w, ws, hl⟩ := List.exists_cons_of_ne_nil hne
  have hword {v : Text} (hv : v ∈ w :: ws) : v.EndsInk := by
    obtain ⟨hne, hchars⟩ := hwords v (hl ▸ hv)
    exact .of_word hne hchars
  rw [joined, hl, Text.unwords, Text.intercalate_cons]
  cases ws with
  | nil => simpa using hword List.mem_cons_self
  | cons v vs =>
    apply Text.EndsInk.append_left
    apply Text.EndsInk.flatMap (List.cons_ne_nil v vs)
    intro u hu
    exact (hword (List.mem_cons_of_mem w (List.mem_of_getLast? hu))).append_left [' ']

namespace Block

theorem endsInk {b : Block} (h : b.Inked) (hempty : b.isEmptyLine = false) (c : Config) :
    (b.print c).EndsInk := by
  cases b with
  | headline head =>
    have htitle : Text.EndsInk (' ' :: head.title.joined) := (Line.endsInk h).append_left [' ']
    exact htitle.append_left _
  | paragraph p =>
    apply Text.EndsInk.flatMap h.1
    intro l hl
    exact (Line.endsInk (h.2 l (List.mem_of_getLast? hl))).append_left _
  | emptyLine l => cases hempty
  | attributes b =>
    have hclose : Text.EndsInk [']'] := ⟨']', rfl, by decide⟩
    exact hclose.append_left ('\n' :: _)

theorem print_eq_cons {b : Block} (h : b.Inked) (hempty : b.isEmptyLine = false) (c : Config) :
    ∃ indent ch s, b.print c = '\n' :: (indent ++ ch :: s) ∧ (∀ d ∈ indent, Text.isIndent d = true) ∧
      Text.isBlank ch = false := by
  cases b with
  | headline head =>
    rw [print, Headline.marker]
    cases Headline.signs head.level with
    | zero =>
      obtain ⟨ch, hhead, hblank⟩ := Lexer.head?_joined h
      obtain ⟨s, hs⟩ := List.head?_eq_some_iff.mp hhead
      exact ⟨[' '], ch, s, by rw [hs]; rfl, by decide, hblank⟩
    | succ n => exact ⟨[], '=', _, rfl, by simp, by decide⟩
  | paragraph p =>
    obtain ⟨l, ls, hl⟩ := List.exists_cons_of_ne_nil h.1
    obtain ⟨ch, hhead, hblank⟩ := Lexer.head?_joined (h.2 l (by simp [hl]))
    obtain ⟨s, hs⟩ := List.head?_eq_some_iff.mp hhead
    obtain ⟨n, hn⟩ := p.exists_indent c l.joined
    refine ⟨p.indent c l.joined, ch, s ++ ls.flatMap fun l => '\n' :: p.indent c l.joined ++ l.joined, ?_, ?_,
      hblank⟩
    · rw [print, Paragraph.print, hl, List.flatMap_cons]
      nth_rewrite 2 [hs]
      simp
    · rw [hn]
      intro d hd
      rw [(List.mem_replicate.mp hd).2]
      decide
  | emptyLine l => cases hempty
  | attributes b => exact ⟨[], '[', _, rfl, by simp, by decide⟩

end Block

namespace Document

theorem dropWhile_eq_core_append (d : Document) :
    ∃ tail, d.blocks.dropWhile Block.isEmptyLine = d.core ++ tail ∧ ∀ b ∈ tail, b.isEmptyLine = true := by
  refine ⟨(d.blocks.dropWhile Block.isEmptyLine).rtakeWhile Block.isEmptyLine, ?_, ?_⟩
  · exact List.rdropWhile_append_rtakeWhile.symm
  · intro b hb
    exact List.mem_rtakeWhile_imp hb

theorem getLast?_core (d : Document) : ∀ b ∈ d.core.getLast?, b.isEmptyLine = false := by
  intro b hb
  have hne : d.core ≠ [] := by
    intro h
    rw [h] at hb
    cases hb
  have hlast := List.rdropWhile_last_not Block.isEmptyLine _ hne
  rw [List.getLast?_eq_some_getLast hne] at hb
  cases hb
  exact Bool.eq_false_iff.mpr hlast

theorem head?_core (d : Document) : ∀ b ∈ d.core.head?, b.isEmptyLine = false := by
  intro b hb
  obtain ⟨tail, htail, -⟩ := d.dropWhile_eq_core_append
  obtain ⟨rest, hrest⟩ := List.head?_eq_some_iff.mp hb
  have hfirst := List.head?_dropWhile_not Block.isEmptyLine d.blocks
  rw [htail, hrest] at hfirst
  exact hfirst

theorem core_subset (d : Document) : ∀ b ∈ d.core, b ∈ d.blocks := by
  intro b hb
  exact (List.dropWhile_suffix _).subset ((List.rdropWhile_prefix _ _).subset hb)

theorem print_eq (d : Document) (c : Config) : ∃ t : Text,
    d.print c = Text.dropNewline (d.core.flatMap (Block.print c) ++ t) ++ ['\n'] ∧
      (∀ ch ∈ t, Text.isBlank ch = true) ∧ (d.core = [] → t = []) := by
  obtain ⟨tail, htail, hempty⟩ := d.dropWhile_eq_core_append
  refine ⟨tail.flatMap (Block.print c), ?_, ?_, ?_⟩
  · rw [print, htail, List.flatMap_append]
  · intro ch hch
    obtain ⟨b, hb, hch⟩ := List.mem_flatMap.mp hch
    have hempty := hempty b hb
    cases b <;> cases hempty
    rw [List.mem_singleton.mp hch]
    decide
  · intro hcore
    cases tail with
    | nil => rfl
    | cons b tail =>
      have hfirst := List.head?_dropWhile_not Block.isEmptyLine d.blocks
      rw [htail, hcore] at hfirst
      exact absurd (hempty b List.mem_cons_self) (Bool.eq_false_iff.mp hfirst)

theorem endsInk_core {d : Document} (h : ∀ b ∈ d.blocks, b.Lexical) (hcore : d.core ≠ []) (c : Config) :
    Text.EndsInk (d.core.flatMap (Block.print c)) := by
  apply Text.EndsInk.flatMap hcore
  intro b hb
  exact b.endsInk (h b (d.core_subset b (List.mem_of_getLast? hb))).inked (d.getLast?_core b hb) c

theorem normalize_print {d : Document} (h : ∀ b ∈ d.blocks, b.Lexical) (hcore : d.core ≠ []) (c : Config) :
    normalize (d.print c) = d.core.flatMap (Block.print c) := by
  obtain ⟨b, bs, hbs⟩ := List.exists_cons_of_ne_nil hcore
  have hb : b.Lexical := h b (d.core_subset b (by simp [hbs]))
  obtain ⟨indent, ch, s, hprint, hindent, hch⟩ := b.print_eq_cons hb.inked (d.head?_core b (by simp [hbs])) c
  have htext : d.core.flatMap (Block.print c) =
      '\n' :: (indent ++ ch :: (s ++ bs.flatMap (Block.print c))) := by
    rw [hbs, List.flatMap_cons, hprint]
    simp
  obtain ⟨t, hd, ht, -⟩ := d.print_eq c
  obtain ⟨e, he, hblank⟩ := endsInk_core h hcore c
  have hlast : (indent ++ ch :: (s ++ bs.flatMap (Block.print c))).getLast? = some e := by
    rw [htext, List.getLast?_cons_of_ne_nil (by simp)] at he
    exact he
  have hblanks : ∀ x ∈ t ++ ['\n'], Text.isBlank x = true :=
    List.forall_mem_append.mpr ⟨ht, List.forall_mem_singleton.mpr (by decide)⟩
  rw [hd, htext, List.cons_append, Text.dropNewline, List.append_assoc _ t]
  exact normalize_append hindent hch hlast hblank hblanks

theorem normalize_print_of_blank {d : Document} (hcore : d.core = []) (c : Config) :
    normalize (d.print c) = ['\n'] := by
  obtain ⟨t, hd, -, ht⟩ := d.print_eq c
  rw [hd, ht hcore, hcore, List.flatMap_nil]
  decide

end Document

end AsciiDoc
