import AsciiDoc.Proofs.Separation

namespace AsciiDoc

open LineClass

namespace Text

def ink (s : Text) : Text := s.filter fun c => !isBlank c

structure Rewritten (l m : Text) : Prop where
  ink : l.head? ≠ some '[' → m.ink = l.ink
  list : l.head? = some '[' → m.head? = some '[' ∧ m.getLast? = some ']'

theorem ink_append (s t : Text) : (s ++ t).ink = s.ink ++ t.ink := List.filter_append s t

theorem ink_eq_nil {s : Text} (h : ∀ c ∈ s, isBlank c = true) : s.ink = [] := by
  rw [ink, List.filter_eq_nil_iff]
  intro c hc
  simp [h c hc]

theorem ink_unwords (ws : List Text) : (unwords ws).ink = ws.flatMap ink := by
  have hspace : ink [' '] = [] := by decide
  cases ws with
  | nil => rfl
  | cons w ws =>
    rw [unwords, intercalate_cons, ink_append, List.flatMap_cons]
    congr 1
    rw [ink, List.filter_flatMap]
    apply List.flatMap_congr
    intro v _
    rw [← ink, ink_append, hspace, List.nil_append]

theorem ink_words (s : Text) : (unwords s.words).ink = s.ink := by
  have hempty (ws : List Text) : (ws.filter fun w => !w.isEmpty).flatMap ink = ws.flatMap ink := by
    induction ws with
    | nil => rfl
    | cons w ws ih =>
      cases w with
      | nil => exact ih
      | cons c w => rw [List.filter_cons_of_pos rfl, List.flatMap_cons, ih, List.flatMap_cons]
  rw [ink_unwords, words, hempty, ← ink_unwords, unwords, List.intercalate_splitOn]

theorem splitOn_ofLines {s : Text} {ls : List Text} (h : '\n' :: s = ofLines ls) (hls : ∀ l ∈ ls, '\n' ∉ l) :
    s.splitOn '\n' = ls := by
  cases ls with
  | nil => cases h
  | cons l ls =>
    obtain rfl : s = ['\n'].intercalate (l :: ls) := by
      rw [intercalate_cons]
      exact (List.cons.inj h).2
    exact List.splitOn_intercalate '\n' hls (List.cons_ne_nil l ls)

theorem count_ofLines {ls : List Text} (hls : ∀ l ∈ ls, '\n' ∉ l) : (ofLines ls).count '\n' = ls.length := by
  induction ls with
  | nil => rfl
  | cons l ls ih =>
    obtain ⟨hl, hls⟩ := List.forall_mem_cons.mp hls
    rw [ofLines_cons, List.count_cons_self, List.count_append, List.count_eq_zero_of_not_mem hl, ih hls,
      List.length_cons]
    omega

end Text

theorem Line.newline_notMem_joined {l : Line} (h : l.WellFormed) : '\n' ∉ l.joined := by
  apply Text.notMem_intercalate (by decide)
  intro w hw hnewline
  have hblank := (h.2 w hw).2.1 '\n' hnewline
  rw [Text.isBlank_newline] at hblank
  cases hblank

namespace AttributeList

theorem newline_notMem_printEntry {a : Attribute} (h : a.Lexical) (c : Config) : '\n' ∉ a.printEntry c := by
  have hvalue : '\n' ∉ a.value.print c := by
    have hjoined : '\n' ∉ Text.unwords a.value.values := by
      apply Text.notMem_intercalate (by decide)
      intro s hs hnewline
      exact absurd rfl (Lexer.ne_of_not_blank ((h.2 s hs).2.1 '\n' hnewline)).2.1
    unfold AttributeValue.print
    split
    · simpa using hjoined
    · exact hjoined
  unfold Attribute.printEntry
  split
  · rename_i key hkey
    have hkey : '\n' ∉ key := by
      intro hnewline
      exact absurd rfl (Lexer.ne_of_not_blank ((h.1 key hkey).2 '\n' hnewline).1).2.1
    simpa using ⟨hkey, hvalue⟩
  · exact hvalue

theorem newline_notMem_print {l : AttributeList} (h : ∀ a ∈ l.attributes, a.Lexical) (c : Config) :
    '\n' ∉ l.print c := by
  have hentries : '\n' ∉ [','].intercalate ((l.entries c).map (Attribute.printEntry c)) := by
    apply Text.notMem_intercalate (by decide)
    intro s hs
    obtain ⟨a, ha, rfl⟩ := List.mem_map.mp hs
    exact newline_notMem_printEntry (h a (List.mem_of_mem_filter ha)) c
  have hmarked (m : Mark) : '\n' ∉ l.printMarked c m := by
    intro hnewline
    obtain ⟨s, hs, hnewline⟩ := List.mem_flatMap.mp hnewline
    rcases List.mem_cons.mp hnewline with heq | hnewline
    · cases m <;> cases heq
    · have hblank := ((chars_of_mem_marked hs).2 '\n' hnewline).1
      exact absurd rfl (Lexer.ne_of_not_blank hblank).2.1
  simpa [print] using ⟨hentries, hmarked .id, hmarked .role, hmarked .option⟩

theorem getLast?_print (l : AttributeList) (c : Config) : (l.print c).getLast? = some ']' := by
  rw [print, List.getLast?_concat]

theorem endsInk_print (l : AttributeList) (c : Config) : (l.print c).EndsInk := ⟨']', l.getLast?_print c, rfl⟩

end AttributeList

namespace Block

def printedLines (c : Config) : Block → List Text
  | headline h => [h.marker ++ ' ' :: h.title.joined]
  | paragraph p => p.lines.map fun l => p.indent c l.joined ++ l.joined
  | emptyLine _ => [[]]
  | attributes b => [b.list.print c]

theorem print_eq_ofLines (c : Config) (b : Block) : b.print c = Text.ofLines (b.printedLines c) := by
  cases b with
  | headline h => simp [print, printedLines, Text.ofLines]
  | paragraph p => rw [print, Paragraph.print, printedLines, Text.ofLines, List.flatMap_map]; rfl
  | emptyLine l => rfl
  | attributes b => simp [print, printedLines, Text.ofLines]

theorem newline_notMem_printedLines {b : Block} (h : b.Lexical) (c : Config) :
    ∀ m ∈ b.printedLines c, '\n' ∉ m := by
  cases b with
  | headline head =>
    rw [printedLines, List.forall_mem_singleton]
    have htitle := Line.newline_notMem_joined h
    simpa [Headline.marker] using htitle
  | paragraph p =>
    rw [printedLines, List.forall_mem_map]
    intro l hl
    obtain ⟨n, hn⟩ := p.exists_indent c l.joined
    have hline := Line.newline_notMem_joined (h.2.1 l hl)
    simpa [hn] using hline
  | emptyLine l => simp [printedLines]
  | attributes b => exact List.forall_mem_singleton.mpr (AttributeList.newline_notMem_print h c)

theorem printedLines_ne_nil {b : Block} (h : b.Lexical) (c : Config) : b.printedLines c ≠ [] := by
  cases b with
  | paragraph p =>
    rw [printedLines, Ne, List.map_eq_nil_iff]
    exact h.1
  | _ => exact List.cons_ne_nil _ _

theorem endsInk_printedLines {b : Block} (h : b.Lexical) (hempty : b.isEmptyLine = false) (c : Config) :
    ∀ m ∈ b.printedLines c, m.EndsInk := by
  cases b with
  | headline head =>
    rw [printedLines, List.forall_mem_singleton]
    exact ((Line.endsInk (Line.WellFormed.inked h)).append_left [' ']).append_left _
  | paragraph p =>
    rw [printedLines, List.forall_mem_map]
    intro l hl
    exact (Line.endsInk (h.2.1 l hl).inked).append_left _
  | emptyLine l => cases hempty
  | attributes b => exact List.forall_mem_singleton.mpr (b.list.endsInk_print c)

end Block

namespace LineClass

variable {l : Text}

theorem head?_of_ne_attributes (h : of l ≠ .attributes) : l.head? ≠ some '[' := by
  intro hhead
  obtain ⟨cs, rfl⟩ := List.head?_eq_some_iff.mp hhead
  exact h rfl

theorem ink_of_blank (h : of l = .blank) : l.ink = [] := by
  apply Text.ink_eq_nil
  intro ch hch
  exact Text.isBlank_of_isIndent (List.all_eq_true.mp (of_eq_blank h) ch hch)

end LineClass

namespace Stands

variable {c : Config} {run : List Text} {b : Block}

theorem rewritten_of_ink {l m : Text} (hl : of l ≠ .attributes) (hink : m.ink = l.ink) : l.Rewritten m :=
  ⟨fun _ => hink, fun hhead => absurd hhead (head?_of_ne_attributes hl)⟩

theorem rewritten_headline {l : Text} {h : Headline} (hl : of l = .headline)
    (hlevel : h.level = Headline.levelOf l.marker.length) (hwords : h.title.words = l.afterMarker.words) :
    l.Rewritten (h.marker ++ ' ' :: h.title.joined) := by
  have hmarker : h.marker = l.marker := by
    have hpos : 0 < l.marker.length := by
      obtain ⟨cs, rfl⟩ := List.head?_eq_some_iff.mp (of_eq_headline hl)
      simp [Text.marker]
    rw [Headline.marker, hlevel, Headline.signs_levelOf hpos, eq_comm, List.eq_replicate_iff]
    refine ⟨rfl, fun ch hch => ?_⟩
    simpa using List.mem_takeWhile_imp hch
  have hspace : Text.ink (' ' :: h.title.joined) = h.title.joined.ink := rfl
  apply rewritten_of_ink (by rw [hl]; decide)
  rw [Text.ink_append, hspace, Line.joined, hwords, Text.ink_words, hmarker, ← Text.ink_append,
    Text.marker_append]

theorem rewritten_prose {l indent : Text} {line : Line} (hl : of l = .prose)
    (hindent : ∀ ch ∈ indent, Text.isBlank ch = true) (hwords : line.words = l.words) :
    l.Rewritten (indent ++ line.joined) := by
  apply rewritten_of_ink (by rw [hl]; decide)
  rw [Text.ink_append, Text.ink_eq_nil hindent, Line.joined, hwords, Text.ink_words, List.nil_append]

theorem rewritten_paragraph {p : Paragraph} (hrun : ∀ l ∈ run, of l = .prose)
    (hlines : p.lines.map Line.words = run.map Text.words) :
    List.Forall₂ Text.Rewritten run (p.lines.map fun l => p.indent c l.joined ++ l.joined) := by
  have hindent (l : Line) : ∀ ch ∈ p.indent c l.joined, Text.isBlank ch = true := by
    obtain ⟨n, hn⟩ := p.exists_indent c l.joined
    intro ch hch
    rw [hn] at hch
    rw [(List.mem_replicate.mp hch).2]
    decide
  rw [← List.forall₂_eq_eq_eq, List.forall₂_map_left_iff, List.forall₂_map_right_iff] at hlines
  generalize p.lines = lines at hlines
  induction hlines with
  | nil => exact .nil
  | cons hwords _ ih =>
    obtain ⟨hl, hrest⟩ := List.forall_mem_cons.mp hrun
    exact .cons (rewritten_prose hl (hindent _) hwords) (ih hrest)

theorem rewritten (h : Stands c run b) : List.Forall₂ Text.Rewritten run (b.printedLines c) := by
  cases h with
  | emptyLine hl =>
    exact .cons (rewritten_of_ink (by rw [hl]; decide) (ink_of_blank hl).symm) .nil
  | headline hl hlevel hwords => exact .cons (rewritten_headline hl hlevel hwords) .nil
  | @attributes l b _ _ hl =>
    refine .cons ⟨fun hhead => absurd (of_eq_attributes hl) hhead, fun _ => ?_⟩ .nil
    exact ⟨rfl, b.list.getLast?_print c⟩
  | paragraph hrun hlines => exact rewritten_paragraph hrun hlines

end Stands

namespace Document

def printedLines (c : Config) (d : Document) : List Text := d.blocks.flatMap (Block.printedLines c)

theorem ofLines_printedLines (c : Config) (d : Document) :
    d.blocks.flatMap (Block.print c) = Text.ofLines (d.printedLines c) := by
  rw [Text.ofLines, printedLines, List.flatMap_assoc]
  apply List.flatMap_congr
  intro b _
  exact b.print_eq_ofLines c

theorem newline_notMem_printedLines {d : Document} (h : ∀ b ∈ d.blocks, b.Lexical) (c : Config) :
    ∀ m ∈ d.printedLines c, '\n' ∉ m := by
  intro m hm
  obtain ⟨b, hb, hm⟩ := List.mem_flatMap.mp hm
  exact Block.newline_notMem_printedLines (h b hb) c m hm

theorem trimmed_printedLines {d : Document} (h : ∀ b ∈ d.blocks, b.Lexical) (c : Config) :
    ∀ m ∈ d.printedLines c, ∀ ch ∈ m.getLast?, Text.isBlank ch = false := by
  intro m hm ch hch
  obtain ⟨b, hb, hm⟩ := List.mem_flatMap.mp hm
  cases hempty : b.isEmptyLine with
  | true =>
    cases b <;> cases hempty
    rw [List.mem_singleton.mp hm] at hch
    cases hch
  | false =>
    obtain ⟨e, he, hink⟩ := Block.endsInk_printedLines (h b hb) hempty c m hm
    cases he.symm.trans hch
    exact hink

end Document

namespace Document

variable {c : Config} {text : Text} {d : Document}

theorem endsInk_of_parse (h : parse c text = .ok d) :
    (∀ m ∈ (d.printedLines c).head?, m.EndsInk) ∧ ∀ m ∈ (d.printedLines c).getLast?, m.EndsInk := by
  obtain ⟨hlexical, -⟩ := lexical_of_parse h
  have hcore := core_of_parse h
  constructor
  · intro m hm
    cases hblocks : d.blocks with
    | nil => simp [printedLines, hblocks] at hm
    | cons b bs =>
      have hb := hlexical b (by simp [hblocks])
      have hempty := d.head?_core b (by simp [hcore, hblocks])
      rw [printedLines, hblocks, List.flatMap_cons,
        List.head?_append_of_ne_nil _ (b.printedLines_ne_nil hb c)] at hm
      exact b.endsInk_printedLines hb hempty c m (List.mem_of_mem_head? hm)
  · intro m hm
    rcases List.eq_nil_or_concat' d.blocks with hblocks | ⟨bs, b, hblocks⟩
    · simp [printedLines, hblocks] at hm
    · have hb := hlexical b (by simp [hblocks])
      have hempty := d.getLast?_core b (by simp [hcore, hblocks])
      rw [printedLines, hblocks, List.flatMap_append, List.flatMap_singleton,
        List.getLast?_append_of_ne_nil _ (b.printedLines_ne_nil hb c)] at hm
      exact b.endsInk_printedLines hb hempty c m (List.mem_of_getLast? hm)

end Document

namespace Text

variable {c : Config} {s : Text} {ls : List Text}

theorem ofLines_ends {body : Text} (h : '\n' :: body = ofLines ls) (hls : ∀ l ∈ ls, '\n' ∉ l)
    (hfirst : ∀ l ∈ ls.head?, l.EndsInk) (hlast : ∀ l ∈ ls.getLast?, l.EndsInk) :
    (body ++ ['\n']).head? ≠ some '\n' ∧ ¬['\n', '\n'] <:+ body ++ ['\n'] := by
  cases ls with
  | nil => cases h
  | cons l ls =>
    obtain ⟨ch, hch, hink⟩ := hfirst l rfl
    have hne : l ≠ [] := by
      rintro rfl
      cases hch
    have hbody : body = l ++ ofLines ls := (List.cons.inj h).2
    constructor
    · intro hhead
      rw [hbody, List.append_assoc, List.head?_append_of_ne_nil l hne] at hhead
      exact hls l List.mem_cons_self (List.mem_of_mem_head? hhead)
    · intro hsuffix
      obtain ⟨t, ht, hsuffix⟩ := (List.suffix_concat_iff.mp hsuffix).resolve_left (by simp)
      have ht : ['\n'] ++ ['\n'] = t ++ ['\n'] := ht
      obtain rfl := List.append_cancel_right ht
      have hend : (ofLines (l :: ls)).EndsInk := by
        apply EndsInk.flatMap (List.cons_ne_nil l ls)
        intro m hm
        exact (hlast m hm).append_left ['\n']
      obtain ⟨e, he, hink⟩ := hend
      obtain ⟨init, rfl⟩ := hsuffix
      rw [← h, ← List.cons_append, List.getLast?_concat] at he
      cases he
      cases hink

theorem exists_trimmed_of_normalize {text : Text} (h : normalize text ≠ ['\n']) :
    ∃ (s : Text) (ls : List Text), s.Trimmed ls ∧ normalize text = '\n' :: s := by
  obtain ⟨s, hs, hhead⟩ := normalize_eq_cons text
  have hne : s ≠ [] := by
    rintro rfl
    exact h hs
  obtain ⟨ch, hch, hink⟩ := (normalize_ends text).resolve_left h
  rw [hs, List.getLast?_cons_of_ne_nil hne] at hch
  obtain ⟨ls, hls⟩ := exists_trimmed hne ((normalize_eq_iff hne).mpr ⟨hhead, ch, hch, hink⟩)
  exact ⟨s, ls, hls, hs⟩

namespace Trimmed

theorem rewritten (h : s.Trimmed ls) {d : Document} (hd : parse c s = .ok d) :
    List.Forall₂ Text.Rewritten ls (d.printedLines c) := by
  have hruns := (h.stands hd).imp fun _ _ hb => hb.rewritten
  have hlines := List.rel_flatten (List.forall₂_map_right_iff.mpr hruns)
  rwa [runs, List.flatten_splitBy] at hlines

theorem cons_print (h : s.Trimmed ls) {d : Document} (hd : parse c s = .ok d) :
    '\n' :: d.print c = Text.ofLines (d.printedLines c ++ [[]]) := by
  obtain ⟨body, hbody, hprint⟩ := h.exists_print hd
  rw [d.ofLines_printedLines] at hbody
  rw [hprint, Text.ofLines, List.flatMap_append, ← Text.ofLines, hbody]
  rfl

end Trimmed

theorem rewritten_nil : Rewritten [] [] := by
  constructor
  · intro _
    rfl
  · intro hhead
    cases hhead

end Text

theorem Document.print_of_newline {c : Config} {text : Text} {d : Document} (h : parse c text = .ok d)
    (hnewline : normalize text = ['\n']) : d.print c = ['\n'] := by
  obtain ⟨ps, b, hreads, -, rfl⟩ := (parse_eq_ok_iff c text d).mp h
  rw [Document.print, Document.ofPieces_newline (hnewline ▸ hreads)]
  rfl

/-- Formatting keeps the lines of a text: there are as many as before, those with attribute lists have
attribute lists, and the others differ in blanks only. No line ends in a blank, and no empty line is left at
the ends. -/
theorem format_keeps_lines {c : Config} {text out : Text} (h : format c text = .ok out) :
    out.count '\n' = (normalize text).count '\n' ∧
      (∃ ls ms, (normalize text).splitOn '\n' = [] :: ls ∧ out.splitOn '\n' = ms ++ [[]] ∧
        List.Forall₂ Text.Rewritten ls ms) ∧
      (∀ m ∈ out.splitOn '\n', ∀ ch ∈ m.getLast?, Text.isBlank ch = false) ∧
      (out ≠ ['\n'] → out.head? ≠ some '\n' ∧ ¬['\n', '\n'] <:+ out) := by
  obtain ⟨d, hd, rfl⟩ := format_eq_ok_iff.mp h
  by_cases hnewline : normalize text = ['\n']
  · have hsplit : ['\n'].splitOn '\n' = [[], []] := by decide
    rw [Document.print_of_newline hd hnewline, hnewline, hsplit]
    exact ⟨rfl, ⟨[[]], [[]], rfl, rfl, .cons Text.rewritten_nil .nil⟩, by simp, fun hne => absurd rfl hne⟩
  · obtain ⟨s, ls, hs, htext⟩ := Text.exists_trimmed_of_normalize hnewline
    have hparse : parse c s = .ok d := by
      rw [← hd, parse, parse, hs.trimmed, htext]
    obtain ⟨hlexical, -⟩ := Document.lexical_of_parse hd
    have hlines := Document.newline_notMem_printedLines hlexical c
    have hmore : ∀ m ∈ d.printedLines c ++ [[]], '\n' ∉ m := List.forall_mem_append.mpr ⟨hlines, by simp⟩
    have hout := hs.cons_print hparse
    have hsplit := Text.splitOn_ofLines hout hmore
    have hrewritten := hs.rewritten hparse
    refine ⟨?_, ⟨ls, d.printedLines c, ?_, hsplit, hrewritten⟩, ?_, fun _ => ?_⟩
    · have hcount := Text.count_ofLines hmore
      rw [← hout, List.count_cons_self, List.length_append, List.length_singleton] at hcount
      rw [htext, hs.ofLines, Text.count_ofLines hs.lines, hrewritten.length_eq]
      omega
    · apply Text.splitOn_ofLines
      · rw [htext, hs.ofLines]
        rfl
      · exact List.forall_mem_cons.mpr ⟨by simp, hs.lines⟩
    · rw [hsplit]
      exact List.forall_mem_append.mpr ⟨Document.trimmed_printedLines hlexical c, by simp⟩
    · obtain ⟨hfirst, hlast⟩ := Document.endsInk_of_parse hd
      obtain ⟨body, hbody, hprint⟩ := hs.exists_print hparse
      rw [d.ofLines_printedLines] at hbody
      rw [hprint]
      exact Text.ofLines_ends hbody.symm hlines hfirst hlast

theorem format_keeps_lines_mixed :
    let text := "\n \n==  Tí  tle \n \t\n[k=v.r#i]\n =two  words\nlines\u00A0\n".toList
    let out := "== Tí tle\n\n[k=v#i.r]\n  =two words\n  lines\n".toList
    format {} text = .ok out ∧ out.count '\n' = (normalize text).count '\n' ∧
      (∃ ls ms, (normalize text).splitOn '\n' = [] :: ls ∧ out.splitOn '\n' = ms ++ [[]] ∧
        List.Forall₂ Text.Rewritten ls ms) ∧
      (∀ m ∈ out.splitOn '\n', ∀ ch ∈ m.getLast?, Text.isBlank ch = false) ∧
      out.head? ≠ some '\n' ∧ ¬['\n', '\n'] <:+ out := by
  intro text out
  have hformat : format {} text = .ok out := by decide +kernel
  obtain ⟨hcount, hlines, hblanks, hends⟩ := format_keeps_lines hformat
  exact ⟨hformat, hcount, hlines, hblanks, hends (by decide)⟩

end AsciiDoc
