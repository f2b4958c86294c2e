import AsciiDoc.Proofs.LineClasses
import AsciiDoc.Proofs.ParsedDocuments
import Mathlib.Data.List.SplitBy

namespace AsciiDoc

open Lexer LineClass Piece

def LineClass.runs (ls : List Text) : List (List Text) :=
  ls.splitBy fun l m => of l = prose && of m = prose

inductive Stands (c : Config) : List Text → Block → Prop
  | emptyLine {l : Text} {location : Location} (hl : of l = .blank) : Stands c [l] (.emptyLine location)
  | headline {l : Text} {h : Headline} (hl : of l = .headline)
      (hlevel : h.level = Headline.levelOf l.marker.length) (hwords : h.title.words = l.afterMarker.words) :
      Stands c [l] (.headline h)
  | attributes {l : Text} {b b' : AttributeBlock} {d : Document} (hl : of l = .attributes)
      (hparse : parse c l = .ok d) (hd : d.blocks = [.attributes b']) (hb : b.list.bare = b'.list.bare) :
      Stands c [l] (.attributes b)
  | paragraph {run : List Text} {p : Paragraph} (hrun : ∀ l ∈ run, of l = .prose)
      (hlines : p.lines.map Line.words = run.map Text.words)
      (hliteral : p.isLiteral = run.any fun l => l.head? = some ' ') : Stands c run (.paragraph p)

namespace Row

variable {legacyIds : Bool} {l : Text} {r : Row}

def Shows (legacyIds : Bool) (l : Text) (r : Row) : Prop :=
  ∃ ps offset, ReadsLine legacyIds l ps ∧ r.tokens = place offset ps

theorem split_readsLine {ps : List Piece} (hline : '\n' ∉ l) (h : ReadsLine legacyIds l ps) (offset : Nat)
    (ts : List Token) (hts : (split ts).1 = []) :
    ∃ r, split (place offset ps ++ ts) = ([], r :: (split ts).2) ∧ r.tokens = place offset ps := by
  obtain ⟨q, body, rfl, hq, hbody⟩ : ∃ q body, ps = q :: body ∧ opens q.kind = true ∧ ∀ p ∈ body, p.Inner := by
    cases h with
    | blank => exact ⟨_, [], rfl, rfl, by simp⟩
    | inked _ hbody => exact ⟨newline, _, rfl, rfl, hbody.inner hline⟩
  exact ⟨_, split_place hq hbody offset hts, rfl⟩

theorem split_readsLines {ls : List Text} {pss : List (List Piece)} (hls : ∀ l ∈ ls, '\n' ∉ l)
    (h : List.Forall₂ (ReadsLine legacyIds) ls pss) (offset : Nat) :
    ∃ rows, split (place offset pss.flatten) = ([], rows) ∧ List.Forall₂ (Shows legacyIds) ls rows := by
  induction h generalizing offset with
  | nil => exact ⟨[], rfl, .nil⟩
  | @cons l ps ls pss hl _ ih =>
    obtain ⟨hline, hrest⟩ := List.forall_mem_cons.mp hls
    obtain ⟨rows, hsplit, hrows⟩ := ih hrest (offset + Text.bytes (source ps))
    obtain ⟨r, hfirst, hr⟩ := split_readsLine hline hl offset _ (congrArg Prod.fst hsplit)
    refine ⟨r :: rows, ?_, .cons ⟨ps, offset, hl, hr⟩ hrows⟩
    rw [List.flatten_cons, place_append, hfirst, hsplit]

structure ShowsProse (l : Text) (r : Row) : Prop where
  part : Part.ofRow r = .paragraph [r]
  words : (line r.body).words = l.words
  indent : (!(r.body.takeWhile isSpace).isEmpty) = decide (l.head? = some ' ')

theorem Shows.prose (h : r.Shows legacyIds l) (hl : of l = .prose) (hline : '\n' ∉ l) : r.ShowsProse l := by
  obtain ⟨opening, tail⟩ := r
  obtain ⟨ps, offset, hps, htokens⟩ := h
  obtain ⟨body, rfl, htext⟩ := (ReadsLine.prose_iff hl).mp hps
  obtain ⟨-, -, hpieces, hwords⟩ := htext.spec hline
  obtain ⟨e, hreads, -⟩ := htext
  obtain ⟨rfl, rfl⟩ := List.cons.inj htokens
  cases body with
  | nil =>
    obtain rfl : l = [] := hreads.source_eq
    cases hl
  | cons p body =>
    refine ⟨?_, (words_line _ _).trans hwords, ?_⟩
    · exact Part.ofRow_paragraph rfl (hpieces p List.mem_cons_self).symm _
    · have hspace := hreads.head_space
      by_cases hk : p.kind = .space
      · simp [place, isSpace, hk, hspace.mp hk]
      · simp [place, isSpace, hk, mt hspace.mpr hk]

theorem prose_lines {run : List Text} {rows : List Row} (h : List.Forall₂ ShowsProse run rows) :
    (rows.map fun r => (line r.body).words) = run.map Text.words ∧
      (rows.any fun r => !(r.body.takeWhile isSpace).isEmpty) = run.any fun l => l.head? = some ' ' := by
  induction h with
  | nil => exact ⟨rfl, rfl⟩
  | cons hr _ ih =>
    rw [List.map_cons, List.map_cons, List.any_cons, List.any_cons, ih.1, ih.2, hr.words, hr.indent]
    exact ⟨rfl, rfl⟩

theorem Shows.blank {c : Config} (h : r.Shows c.legacyIds l) (hl : of l = .blank) :
    ∃ t, Part.ofRow r = .emptyLine t := by
  obtain ⟨opening, tail⟩ := r
  obtain ⟨ps, offset, hps, htokens⟩ := h
  rw [hps.eq_blank hl] at htokens
  obtain ⟨rfl, -⟩ := List.cons.inj htokens
  exact ⟨_, Part.ofRow_emptyLine rfl tail⟩

theorem Shows.headline {c : Config} (h : r.Shows c.legacyIds l) (hl : of l = .headline) (hline : '\n' ∉ l) :
    ∃ opening marker rest, Part.ofRow r = .headline opening marker rest ∧ marker.text = l.marker ∧
      (line rest).words = l.afterMarker.words := by
  obtain ⟨opening, tail⟩ := r
  obtain ⟨ps, offset, hps, htokens⟩ := h
  obtain ⟨body, rfl, htext⟩ := (ReadsLine.headline_iff hl).mp hps
  have hrest : '\n' ∉ l.afterMarker := fun h => hline ((List.dropWhile_suffix _).subset h)
  obtain ⟨-, -, -, hwords⟩ := htext.spec hrest
  obtain ⟨rfl, rfl⟩ := List.cons.inj htokens
  exact ⟨_, _, _, Part.ofRow_headline rfl rfl _, rfl, (words_line _ _).trans hwords⟩

theorem ofRow_readsLine {ps : List Piece} {offset : Nat} (hl : of l = .attributes) (hline : '\n' ∉ l)
    (hps : ReadsLine legacyIds l ps) (htokens : r.tokens = place offset ps) :
    ∃ opening list, Part.ofRow r = .attributes opening list ∧ (Part.attributes opening list).Valid ∧
      list.map Token.bare = (place 0 ps.tail).map Token.bare := by
  obtain ⟨opening, tail⟩ := r
  obtain ⟨body, e, rfl, -, htail⟩ := hps.attributes hl hline
  obtain ⟨rfl, rfl⟩ := List.cons.inj htokens
  exact ⟨_, _, Part.ofRow_attributes rfl rfl _, ⟨rfl, _, _, rfl, rfl, htail _⟩,
    map_bare_place (⟨.listStart, ['[']⟩ :: body) _ 0⟩

theorem Shows.attributes {c : Config} (h : r.Shows c.legacyIds l) (hl : of l = .attributes) (hline : '\n' ∉ l) :
    ∃ b, (Part.ofRow r).block? = some (.attributes b) ∧ Stands c [l] (.attributes b) := by
  obtain ⟨ps, offset, hps, htokens⟩ := h
  have hparse := (parse_attributes_iff c hl hline (hps.endsInk hl hline)).mpr ⟨ps, hps, rfl⟩
  -- Parsed alone, the line makes one row of the same pieces, at the start of the source.
  obtain ⟨alone, hsplit, halone⟩ := split_readsLine hline hps 0 [] rfl
  obtain ⟨opening, list, hpart, hvalid, hbare⟩ := ofRow_readsLine hl hline hps htokens
  obtain ⟨opening', list', hpart', hvalid', hbare'⟩ := ofRow_readsLine hl hline hps halone
  have hblocks : (Document.ofPieces ps).blocks = (Part.attributes opening' list').block?.toList := by
    rw [List.append_nil] at hsplit
    rw [Document.ofPieces, hsplit, Part.ofRows_cons, hpart']
    rfl
  have hsame := Part.bare_attributes hvalid hvalid' (hbare.trans hbare'.symm)
  simp only [Part.block?, Option.map_some, Block.bare, Option.some.injEq, Block.attributes.injEq,
    AttributeBlock.mk.injEq, and_true] at hsame
  rw [hpart]
  exact ⟨_, rfl, .attributes hl hparse hblocks hsame⟩

theorem Shows.stands {c : Config} (h : r.Shows c.legacyIds l) (hl : of l ≠ .prose) (hline : '\n' ∉ l) :
    (Part.ofRow r).isParagraph = false ∧ ∃ b, (Part.ofRow r).block? = some b ∧ Stands c [l] b := by
  cases hclass : of l with
  | blank =>
    obtain ⟨t, ht⟩ := h.blank hclass
    rw [ht]
    exact ⟨rfl, _, rfl, .emptyLine hclass⟩
  | headline =>
    obtain ⟨opening, marker, rest, hr, hmarker, hwords⟩ := h.headline hclass hline
    rw [hr]
    exact ⟨rfl, _, rfl, .headline hclass (by rw [hmarker]) hwords⟩
  | attributes =>
    obtain ⟨b, hb, hstands⟩ := h.attributes hclass hline
    exact ⟨Part.isParagraph_eq hb, _, hb, hstands⟩
  | prose => exact absurd hclass hl

end Row

namespace LineClass

variable {l m : Text} {ls run : List Text} {rest : List (List Text)}

theorem runs_cons_apart (h : ∀ m ∈ ls.head?, of l = prose → of m ≠ prose) : runs (l :: ls) = [l] :: runs ls := by
  apply List.splitBy_append (l := [l])
  rintro x ⟨⟩ y hy
  rw [Bool.and_eq_false_iff, decide_eq_false_iff_not, decide_eq_false_iff_not, ← imp_iff_not_or]
  exact h y hy

theorem exists_runs_cons (m : Text) (ls : List Text) : ∃ run rest, runs (m :: ls) = (m :: run) :: rest := by
  have hflat := List.flatten_splitBy (fun l m => of l = prose && of m = prose) (m :: ls)
  have hne := List.nil_notMem_splitBy (fun l m => of l = prose && of m = prose) (m :: ls)
  rw [runs]
  generalize (m :: ls).splitBy _ = runs at hflat hne
  match runs, hflat, hne with
  | (k :: run) :: rest, hflat, _ =>
    obtain ⟨rfl, -⟩ := List.cons.inj hflat
    exact ⟨run, rest, rfl⟩
  | [] :: rest, _, hne => exact absurd List.mem_cons_self hne

theorem runs_cons_join (hl : of l = prose) (hm : of m = prose) (h : runs (m :: ls) = run :: rest) :
    runs (l :: m :: ls) = (l :: run) :: rest := by
  obtain ⟨hflat, hne, hchain, hapart⟩ := List.splitBy_eq_iff.mp h
  obtain ⟨hrun, hrest⟩ := List.forall_mem_cons.mp hchain
  obtain ⟨k, run, rfl⟩ := List.exists_cons_of_ne_nil (l := run) fun h => hne (by simp [h])
  obtain ⟨rfl, rfl⟩ : m = k ∧ ls = run ++ rest.flatten := by simpa using hflat
  apply List.splitBy_eq_iff.mpr
  refine ⟨by simp, ?_, List.forall_mem_cons.mpr ⟨?_, hrest⟩, ?_⟩
  · simpa using hne
  · exact List.isChain_cons_cons.mpr ⟨by simp [hl, hm], hrun⟩
  · rw [List.isChain_cons] at hapart ⊢
    refine ⟨?_, hapart.2⟩
    intro next hnext
    obtain ⟨ha, hb, hfalse⟩ := hapart.1 next hnext
    exact ⟨List.cons_ne_nil _ _, hb, by rwa [List.getLast_cons (List.cons_ne_nil _ _)]⟩

end LineClass

namespace Part

variable {c : Config}

inductive Shows (c : Config) : List Text → Part → Prop
  | single {l : Text} {r : Row} (hl : of l ≠ .prose) (hline : '\n' ∉ l) (h : r.Shows c.legacyIds l) :
      Shows c [l] (ofRow r)
  | prose {run : List Text} {rows : List Row} (hne : run ≠ []) (hrun : ∀ l ∈ run, of l = .prose)
      (h : List.Forall₂ Row.ShowsProse run rows) : Shows c run (paragraph rows)

theorem Shows.stands {run : List Text} {x : Part} (h : Shows c run x) :
    ∃ b, x.block? = some b ∧ Stands c run b := by
  cases h with
  | single hl hline h => exact (h.stands hl hline).2
  | prose hne hrun h =>
    obtain ⟨hwords, hany⟩ := Row.prose_lines h
    exact ⟨_, rfl, .paragraph hrun (List.map_map.trans hwords) hany⟩

theorem ofRows_shows {ls : List Text} {rows : List Row} (hls : ∀ l ∈ ls, '\n' ∉ l)
    (h : List.Forall₂ (Row.Shows c.legacyIds) ls rows) : List.Forall₂ (Shows c) (runs ls) (ofRows rows) := by
  induction h with
  | nil => exact .nil
  | @cons l r ls rows hr hrows ih =>
    obtain ⟨hline, hrest⟩ := List.forall_mem_cons.mp hls
    have hparts := ih hrest
    rw [ofRows_cons]
    by_cases hl : of l = .prose
    · have hprose := hr.prose hl hline
      have hone : Shows c [l] (paragraph [r]) := .prose (by simp) (by simpa using hl) (.cons hprose .nil)
      rw [hprose.part]
      cases hrows with
      | nil => exact .cons hone .nil
      | @cons m r' ls rows _ _ =>
        obtain ⟨run, rest, hruns⟩ := exists_runs_cons m ls
        rw [hruns] at hparts
        generalize ofRows (r' :: rows) = parts at hparts
        cases hparts with
        | @cons _ x _ parts hx hparts =>
          -- The run in front of the rest goes on with this line only if it is prose too.
          cases hx with
          | @single _ r' hm hline' h =>
            rw [runs_cons_apart (by simpa using fun _ => hm), hruns,
              join_apart _ (by simpa using (h.stands hm hline').1)]
            exact .cons hone (.cons (.single hm hline' h) hparts)
          | @prose _ more hne hrun hmore =>
            rw [runs_cons_join hl (hrun m List.mem_cons_self) hruns]
            refine .cons (.prose (List.cons_ne_nil _ _) ?_ (.cons hprose hmore)) hparts
            exact List.forall_mem_cons.mpr ⟨hl, hrun⟩
    · rw [runs_cons_apart fun m _ h => absurd h hl, join_of_not_paragraph (hr.stands hl hline).1]
      exact .cons (.single hl hline hr) hparts

end Part

theorem forall₂_filterMap {α β γ : Type} {R : α → γ → Prop} {f : β → Option γ} {xs : List α} {ys : List β}
    (h : List.Forall₂ (fun x y => ∃ z, f y = some z ∧ R x z) xs ys) : List.Forall₂ R xs (ys.filterMap f) := by
  induction h with
  | nil => exact .nil
  | cons hy _ ih =>
    obtain ⟨z, hz, hR⟩ := hy
    rw [List.filterMap_cons_some hz]
    exact .cons hR ih

theorem exists_forall₂ {α β : Type} {R : α → β → Prop} {xs : List α} :
    (∃ ys, List.Forall₂ R xs ys) ↔ ∀ x ∈ xs, ∃ y, R x y := by
  induction xs with
  | nil => simp
  | cons x xs ih =>
    rw [List.forall_mem_cons, ← ih]
    constructor
    · rintro ⟨_, h⟩
      obtain ⟨y, ys, hy, hys, -⟩ := List.forall₂_cons_left_iff.mp h
      exact ⟨⟨y, hy⟩, ys, hys⟩
    · rintro ⟨⟨y, hy⟩, ys, hys⟩
      exact ⟨y :: ys, .cons hy hys⟩

theorem inked_of_normalize {text : Text} {ls : List Text} (htext : normalize text = Text.ofLines ls)
    (hne : normalize text ≠ ['\n']) : ∀ l ∈ ls.getLast?, l.isBlankLine = false := by
  intro l hl
  obtain ⟨init, rfl⟩ := List.getLast?_eq_some_iff.mp hl
  obtain ⟨ch, hch, hink⟩ := (normalize_ends text).resolve_left hne
  rw [Bool.eq_false_iff]
  intro hblank
  have hall : ∀ d ∈ '\n' :: l, Text.isBlank d = true := by
    refine List.forall_mem_cons.mpr ⟨Text.isBlank_newline, ?_⟩
    intro d hd
    exact Text.isBlank_of_isIndent (List.all_eq_true.mp hblank d hd)
  rw [htext, Text.ofLines, List.flatMap_append, List.flatMap_singleton,
    List.getLast?_append_of_ne_nil _ (List.cons_ne_nil _ _)] at hch
  rw [hall ch (List.mem_of_getLast? hch)] at hink
  cases hink

theorem stands_of_parse {c : Config} {text : Text} {ls : List Text} (htext : normalize text = Text.ofLines ls)
    (hls : ∀ l ∈ ls, '\n' ∉ l) (hne : normalize text ≠ ['\n']) {d : Document} (h : parse c text = .ok d) :
    List.Forall₂ (Stands c) (runs ls) d.blocks := by
  obtain ⟨pss, hpss, rfl⟩ := (parse_lines_iff htext hls (inked_of_normalize htext hne)).mp h
  obtain ⟨rows, hsplit, hrows⟩ := Row.split_readsLines hls hpss 0
  rw [Document.ofPieces, hsplit]
  apply forall₂_filterMap
  exact (Part.ofRows_shows hls hrows).imp fun _ _ hx => hx.stands

theorem exists_parse_iff_fine {c : Config} {text : Text} {ls : List Text}
    (htext : normalize text = Text.ofLines ls) (hls : ∀ l ∈ ls, '\n' ∉ l) (hne : normalize text ≠ ['\n']) :
    (∃ d, parse c text = .ok d) ↔ ∀ l ∈ ls, Fine c l := by
  have hlines : (∃ d, parse c text = .ok d) ↔ ∃ pss, List.Forall₂ (ReadsLine c.legacyIds) ls pss := by
    constructor
    · rintro ⟨d, hd⟩
      obtain ⟨pss, hpss, -⟩ := (parse_lines_iff htext hls (inked_of_normalize htext hne)).mp hd
      exact ⟨pss, hpss⟩
    · rintro ⟨pss, hpss⟩
      exact ⟨_, (parse_lines_iff htext hls (inked_of_normalize htext hne)).mpr ⟨pss, hpss, rfl⟩⟩
  rw [hlines, exists_forall₂]
  exact forall₂_congr fun l hl => exists_readsLine_iff c (hls l hl)

end AsciiDoc
