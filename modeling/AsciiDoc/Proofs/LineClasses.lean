import AsciiDoc.Proofs.Normalization
import AsciiDoc.Proofs.Reassembly
import AsciiDoc.Proofs.Relocation
import AsciiDoc.Proofs.TextLines

namespace AsciiDoc

open Lexer Piece

inductive LineClass where
  | blank
  | headline
  | attributes
  | prose
  deriving DecidableEq, Repr

namespace LineClass

def of (l : Text) : LineClass :=
  if l.isBlankLine then blank
  else if l.head? = some '=' then headline
  else if l.head? = some '[' then attributes
  else prose

variable {l : Text}

theorem of_eq_blank (h : of l = blank) : l.isBlankLine = true := by
  unfold of at h
  split_ifs at h with hblank
  exact hblank

theorem of_ne_blank (h : of l ≠ blank) : l.isBlankLine = false := by
  unfold of at h
  split_ifs at h with hblank
  · exact absurd rfl h
  all_goals simpa using hblank

theorem of_eq_headline (h : of l = headline) : l.head? = some '=' := by
  unfold of at h
  split_ifs at h with hblank hhead
  exact hhead

theorem of_eq_attributes (h : of l = attributes) : l.head? = some '[' := by
  unfold of at h
  split_ifs at h with hblank hhead hlist
  exact hlist

theorem of_eq_prose (h : of l = prose) : l.head? ≠ some '=' ∧ l.head? ≠ some '[' := by
  unfold of at h
  split_ifs at h with hblank hhead hlist
  exact ⟨hhead, hlist⟩

end LineClass

open LineClass

namespace Text

def marker (l : Text) : Text := l.takeWhile (· = '=')

def afterMarker (l : Text) : Text := l.dropWhile (· = '=')

theorem marker_append (l : Text) : l.marker ++ l.afterMarker = l := List.takeWhile_append_dropWhile

theorem afterMarker_eq {l : Text} (h : l.head? ≠ some '=') : l.afterMarker = l := by
  cases l with
  | nil => rfl
  | cons c cs => exact List.dropWhile_cons_of_neg (by simpa using h)

end Text

def Fine (c : Config) (l : Text) : Prop :=
  match LineClass.of l with
  | .blank => True
  | .attributes => l.EndsInk ∧ ∃ d, parse c l = .ok d
  | .headline | .prose =>
    (∀ ch ∈ l, Text.isBlank ch = true → ch = ' ') ∧ l.afterMarker.words ≠ [] ∧
      ∀ w ∈ l.afterMarker.words, w.head? ≠ some '['

namespace Lexer

variable {legacyIds : Bool} {l : Text} {ps : List Piece}

theorem ReadsLine.eq_blank (hl : of l = .blank) (h : ReadsLine legacyIds l ps) : ps = [⟨.emptyLine, '\n' :: l⟩] := by
  cases h with
  | blank => rfl
  | inked hinked =>
    rw [of_eq_blank hl] at hinked
    cases hinked

theorem ReadsLine.exists_body (hl : of l ≠ .blank) (h : ReadsLine legacyIds l ps) :
    ∃ body e, ∃ q ∈ Place.closed, ps = newline :: body ∧ Reads legacyIds (.root true) l body e [] ∧
      Place.lineStart.walk (body.map Piece.kind) = some q := by
  cases h with
  | blank hblank =>
    rw [of_ne_blank hl] at hblank
    cases hblank
  | inked _ hbody hwalk hq => exact ⟨_, _, _, hq, rfl, hbody, hwalk⟩

theorem Reads.head_kind {b : Bool} {e : State} {p : Piece} (h : Reads legacyIds (.root b) l (p :: ps) e []) :
    (p.kind = .headline → l.head? = some '=') ∧ (p.kind = .listStart → l.head? = some '[') := by
  cases h with
  | @step _ _ c cs _ k _ hread _ =>
    cases Lexeme.next_inRoot (next_of_read hread) with
    | marker => exact ⟨fun _ => rfl, nofun⟩
    | listStart => exact ⟨nofun, fun _ => rfl⟩
    | _ => exact ⟨nofun, nofun⟩

theorem Reads.head_space {b : Bool} {e : State} {p : Piece} (h : Reads legacyIds (.root b) l (p :: ps) e []) :
    p.kind = .space ↔ l.head? = some ' ' := by
  cases h with
  | @step _ _ c cs _ k _ hread _ =>
    have hnext : Lexeme.inRoot b c cs = some k := next_of_read hread
    rw [List.head?_cons, Option.some.injEq]
    constructor
    · intro hk
      exact (Lexeme.inRoot_space hnext hk).1
    · rintro rfl
      simp only [Lexeme.inRoot] at hnext
      cases hnext
      rfl

theorem ReadsLine.prose_iff (hl : of l = .prose) :
    ReadsLine legacyIds l ps ↔ ∃ body, ps = newline :: body ∧ ReadsText legacyIds true l body := by
  have hinked := of_ne_blank (l := l) (by rw [hl]; decide)
  obtain ⟨hmarker, hbracket⟩ := of_eq_prose hl
  have hwalk {body : List Piece} {e : State} (h : Reads legacyIds (.root true) l body e []) :
      Place.lineStart.walk (body.map Piece.kind) = Place.beforeText.walk (body.map Piece.kind) := by
    cases body with
    | nil =>
      obtain rfl : l = [] := h.source_eq
      cases hinked
    | cons p body => exact Place.walk_lineStart_eq (mt h.head_kind.1 hmarker) (mt h.head_kind.2 hbracket)
  constructor
  · intro h
    obtain ⟨body, e, q, hq, rfl, hbody, hline⟩ := h.exists_body (by rw [hl]; decide)
    rw [hwalk hbody] at hline
    exact ⟨body, rfl, e, hbody, q, hq, hline⟩
  · rintro ⟨body, rfl, e, hbody, q, hq, htext⟩
    rw [← hwalk hbody] at htext
    exact .inked hinked hbody htext hq

theorem reads_lineMarker (legacyIds : Bool) (hl : l.head? = some '=') :
    Reads legacyIds (.root true) l [⟨.headline, l.marker⟩] (.root false) l.afterMarker := by
  obtain ⟨cs, rfl⟩ := List.head?_eq_some_iff.mp hl
  have hmarker : Text.marker ('=' :: cs) = List.replicate ((cs.takeWhile (· = '=')).length + 1) '=' := by
    rw [Text.marker, List.takeWhile_cons_of_pos (by decide), List.replicate_succ]
    congr 1
    rw [List.eq_replicate_iff]
    refine ⟨rfl, ?_⟩
    intro c hc
    simpa using List.mem_takeWhile_imp hc
  have hrest : (Text.afterMarker ('=' :: cs)).head? ≠ some '=' := by
    intro hc
    have hnot := List.head?_dropWhile_not (· = '=') ('=' :: cs)
    rw [show ('=' :: cs).dropWhile (· = '=') = Text.afterMarker ('=' :: cs) from rfl, hc] at hnot
    cases hnot
  have hreads : Reads legacyIds (.root true) _ _ (.root false) _ :=
    reads_marker (cs.takeWhile (· = '=')).length hrest
  rwa [← hmarker, Text.marker_append] at hreads

theorem ReadsLine.headline_iff (hl : of l = .headline) : ReadsLine legacyIds l ps ↔
    ∃ body, ps = newline :: ⟨.headline, l.marker⟩ :: body ∧ ReadsText legacyIds false l.afterMarker body := by
  have hmarker := reads_lineMarker legacyIds (of_eq_headline hl)
  constructor
  · intro h
    obtain ⟨body, e, q, hq, rfl, hbody, hline⟩ := h.exists_body (by rw [hl]; decide)
    obtain ⟨rest, rfl, hrest⟩ := hmarker.factor hbody
    exact ⟨rest, rfl, e, hrest, q, hq, hline⟩
  · rintro ⟨body, rfl, e, hbody, q, hq, htext⟩
    exact .inked (of_ne_blank (by rw [hl]; decide)) (hmarker.trans hbody) htext hq

theorem Reads.text_listEnd {a e : State} {s t : Text} (h : Reads legacyIds a s ps e t) :
    ∀ p ∈ ps, p.kind = .listEnd → p.text = [']'] := by
  induction h with
  | done => simp
  | @step a b c cs s k ps hread _ ih =>
    refine List.forall_mem_cons.mpr ⟨?_, ih⟩
    intro hk
    obtain ⟨rfl, hextra⟩ := (Lexeme.next_of_eq (next_of_read hread)).listEnd_eq hk
    rw [hextra]
    rfl

end Lexer

theorem Item.ListTail.exists_listEnd {ts : List Token} (h : ListTail ts) :
    ∃ init t, ts = init ++ [t] ∧ t.kind = .listEnd := by
  induction h with
  | @close t h => exact ⟨[], t, rfl, h⟩
  | @comma t ts _ _ ih =>
    obtain ⟨init, u, rfl, hu⟩ := ih
    exact ⟨t :: init, u, rfl, hu⟩
  | @legacyId a b c ts _ _ ih =>
    obtain ⟨init, u, rfl, hu⟩ := ih
    exact ⟨a :: b :: c :: init, u, rfl, hu⟩
  | @pair m a b ts _ _ _ ih =>
    obtain ⟨init, u, rfl, hu⟩ := ih
    exact ⟨a :: b :: init, u, rfl, hu⟩
  | @keyed k a v ts _ _ _ _ ih =>
    obtain ⟨init, u, rfl, hu⟩ := ih
    exact ⟨k :: a :: (v ++ init), u, by simp, hu⟩
  | @value v ts _ _ _ ih =>
    obtain ⟨init, u, rfl, hu⟩ := ih
    exact ⟨v ++ init, u, by simp, hu⟩

namespace Lexer

variable {legacyIds : Bool} {l : Text} {ps : List Piece}

theorem ReadsLine.attributes (hl : of l = .attributes) (hline : '\n' ∉ l) (h : ReadsLine legacyIds l ps) :
    ∃ body e, ps = newline :: ⟨.listStart, ['[']⟩ :: body ∧
      Reads legacyIds (.root true) l (⟨.listStart, ['[']⟩ :: body) e [] ∧
      ∀ offset, Item.ListTail (place offset body) := by
  obtain ⟨cs, rfl⟩ := List.head?_eq_some_iff.mp (of_eq_attributes hl)
  obtain ⟨all, e, q, hq, rfl, hreads, hwalk⟩ := h.exists_body (by rw [hl]; decide)
  obtain ⟨body, rfl, hbody⟩ := reads_listStart.factor hreads
  refine ⟨body, e, rfl, hreads, ?_⟩
  intro offset
  change Place.item.walk (body.map Piece.kind) = some q at hwalk
  rw [← map_kind_place offset] at hwalk
  apply Place.listTail_of_walk (by simp [Place.itemEnds]) hwalk (Place.isEnd_closed q hq).1
    (Place.head_ne_assignment rfl hwalk)
  intro t ht
  exact hbody.inner (List.not_mem_of_not_mem_cons hline) t.piece (piece_of_mem_place ht)

theorem ReadsLine.endsInk (hl : of l = .attributes) (hline : '\n' ∉ l) (h : ReadsLine legacyIds l ps) :
    l.EndsInk := by
  obtain ⟨body, e, rfl, hreads, htail⟩ := h.attributes hl hline
  obtain ⟨init, t, hbody, ht⟩ := (htail 0).exists_listEnd
  have hpieces := congrArg (List.map Token.piece) hbody
  rw [map_piece_place, List.map_append, List.map_singleton] at hpieces
  have htext := hreads.text_listEnd t.piece (by simp [hpieces]) ht
  refine ⟨']', ?_, by decide⟩
  rw [hreads.source_eq, List.append_nil, hpieces, source_cons, source_append, source_cons, htext,
    ← List.append_assoc]
  exact List.getLast?_concat

end Lexer

theorem normalize_attributes {l : Text} (hl : of l = .attributes) (hink : l.EndsInk) :
    normalize l = Text.ofLines [l] := by
  obtain ⟨cs, rfl⟩ := List.head?_eq_some_iff.mp (of_eq_attributes hl)
  obtain ⟨d, hlast, hd⟩ := hink
  have hnormal : normalize ([] ++ '[' :: cs ++ []) = '\n' :: ([] ++ '[' :: cs) :=
    normalize_append (by simp) (by decide) hlast hd (by simp)
  simpa [Text.ofLines] using hnormal

theorem parse_attributes_iff (c : Config) {l : Text} (hl : of l = .attributes) (hline : '\n' ∉ l)
    (hink : l.EndsInk) {d : Document} :
    parse c l = .ok d ↔ ∃ ps, ReadsLine c.legacyIds l ps ∧ d = .ofPieces ps := by
  rw [parse_lines_iff (normalize_attributes hl hink) (by simpa using hline)
    (by simpa using of_ne_blank (by rw [hl]; decide))]
  constructor
  · rintro ⟨pss, hpss, rfl⟩
    cases hpss with
    | cons hps hnil =>
      cases hnil
      exact ⟨_, hps, by simp⟩
  · rintro ⟨ps, hps, rfl⟩
    exact ⟨[ps], .cons hps .nil, by simp⟩

theorem Text.isPlain_afterMarker (l : Text) : l.afterMarker.IsPlain ↔
    (∀ ch ∈ l, Text.isBlank ch = true → ch = ' ') ∧ ∀ w ∈ l.afterMarker.words, w.head? ≠ some '[' := by
  have hmarker : ∀ ch ∈ l.marker, Text.isBlank ch = true → ch = ' ' := by
    intro ch hch hblank
    obtain rfl : ch = '=' := by simpa using List.mem_takeWhile_imp hch
    cases hblank
  rw [Text.IsPlain, ← l.marker_append, List.forall_mem_append, Text.marker_append]
  exact and_congr_left' ⟨fun h => ⟨hmarker, h⟩, fun h => h.2⟩

theorem exists_readsLine_iff (c : Config) {l : Text} (hline : '\n' ∉ l) :
    (∃ ps, ReadsLine c.legacyIds l ps) ↔ Fine c l := by
  unfold Fine
  split
  · rename_i hl
    simpa using ⟨_, ReadsLine.blank (of_eq_blank hl)⟩
  · rename_i hl
    constructor
    · rintro ⟨ps, hps⟩
      have hink := hps.endsInk hl hline
      exact ⟨hink, _, (parse_attributes_iff c hl hline hink).mpr ⟨ps, hps, rfl⟩⟩
    · rintro ⟨hink, d, hd⟩
      obtain ⟨ps, hps, -⟩ := (parse_attributes_iff c hl hline hink).mp hd
      exact ⟨ps, hps⟩
  · rename_i hl
    rw [and_left_comm, ← Text.isPlain_afterMarker]
    have hrest : '\n' ∉ l.afterMarker := fun h => hline ((List.dropWhile_suffix _).subset h)
    constructor
    · rintro ⟨ps, hps⟩
      obtain ⟨body, -, htext⟩ := (ReadsLine.headline_iff hl).mp hps
      obtain ⟨hplain, hne, -⟩ := htext.spec hrest
      exact ⟨hne, hplain⟩
    · rintro ⟨hne, hplain⟩
      obtain ⟨body, hbody⟩ := exists_readsText c.legacyIds hplain hne hrest (b := false) nofun
      exact ⟨_, (ReadsLine.headline_iff hl).mpr ⟨body, rfl, hbody⟩⟩
  · rename_i hl
    obtain ⟨hmarker, -⟩ := of_eq_prose hl
    rw [and_left_comm, ← Text.isPlain_afterMarker, Text.afterMarker_eq hmarker]
    constructor
    · rintro ⟨ps, hps⟩
      obtain ⟨body, -, htext⟩ := (ReadsLine.prose_iff hl).mp hps
      obtain ⟨hplain, hne, -⟩ := htext.spec hline
      exact ⟨hne, hplain⟩
    · rintro ⟨hne, hplain⟩
      obtain ⟨body, hbody⟩ := exists_readsText c.legacyIds hplain hne hline fun _ => hmarker
      exact ⟨_, (ReadsLine.prose_iff hl).mpr ⟨body, rfl, hbody⟩⟩

end AsciiDoc
