import AsciiDoc.Proofs.LineReading
import AsciiDoc.Proofs.Reparsing

namespace AsciiDoc

namespace Text

def words (s : Text) : List Text := (s.splitOn ' ').filter fun w => !w.isEmpty

theorem words_nil : words [] = [] := rfl

theorem words_append (s t : Text) : words (s ++ ' ' :: t) = words s ++ words t := by
  rw [words, List.splitOn_eq_splitOnP, List.splitOnP_append_cons s t (by decide), List.filter_append]
  rfl

theorem words_space (s : Text) : words (' ' :: s) = words s := words_append [] s

theorem words_word {w : Text} (hw : w ≠ []) (hspace : ' ' ∉ w) : words w = [w] := by
  rw [words, List.splitOn_eq_singleton hspace]
  simp [hw]

theorem words_word_append {w s : Text} (hw : w ≠ []) (hspace : ' ' ∉ w) (hs : ∀ c ∈ s.head?, c = ' ') :
    words (w ++ s) = w :: words s := by
  cases s with
  | nil => rw [List.append_nil, words_word hw hspace, words_nil]
  | cons c s =>
    obtain rfl := hs c rfl
    rw [words_append, words_word hw hspace, words_space]
    rfl

def IsPlain (s : Text) : Prop :=
  (∀ c ∈ s, isBlank c = true → c = ' ') ∧ ∀ w ∈ words s, w.head? ≠ some '['

end Text

namespace Lexeme

theorem inRoot_space {lineStart : Bool} {c : Char} {cs : Text} {l : Lexeme}
    (h : inRoot lineStart c cs = some l) (hk : l.kind = .space) : c = ' ' ∧ l.extra = 0 := by
  cases next_inRoot h with
  | space => exact ⟨rfl, rfl⟩
  | _ => cases hk

theorem inRoot_inlineText {lineStart : Bool} {c : Char} {cs : Text} {l : Lexeme}
    (h : inRoot lineStart c cs = some l) (hk : l.kind = .inlineText) :
    Text.isBlank c = false ∧ c ≠ '[' ∧ l.extra = Text.run isWord cs := by
  cases next_inRoot h with
  | word hc hbracket => exact ⟨by simpa [isWord] using hc, hbracket, rfl⟩
  | _ => cases hk

theorem drop_run (p : Char → Bool) (s : Text) : s.drop (Text.run p s) = s.dropWhile p := by
  have hsplit : (s.takeWhile p ++ s.dropWhile p).drop (Text.run p s) = s.dropWhile p := List.drop_left
  rwa [List.takeWhile_append_dropWhile] at hsplit

end Lexeme

namespace Text

open Lexeme

variable {w s : Text}

theorem words_eq_cons (hw : w ≠ []) (hchars : ∀ c ∈ w, isBlank c = false)
    (hs : ∀ c ∈ s.head?, isBlank c = true) (hblank : ∀ c ∈ s, isBlank c = true → c = ' ') :
    words (w ++ s) = w :: words s := by
  apply words_word_append hw
  · intro h
    exact (Lexer.ne_of_not_blank (hchars ' ' h)).1 rfl
  · intro c hc
    exact hblank c (List.mem_of_mem_head? hc) (hs c hc)

theorem IsPlain.word_append (hw : w ≠ []) (hchars : ∀ c ∈ w, isBlank c = false)
    (hbracket : w.head? ≠ some '[') (hs : ∀ c ∈ s.head?, isBlank c = true) (h : s.IsPlain) :
    (w ++ s).IsPlain := by
  obtain ⟨hblank, hwords⟩ := h
  constructor
  · intro c hc hc'
    rcases List.mem_append.mp hc with hc | hc
    · rw [hchars c hc] at hc'
      cases hc'
    · exact hblank c hc hc'
  · rw [words_eq_cons hw hchars hs hblank]
    exact List.forall_mem_cons.mpr ⟨hbracket, hwords⟩

theorem IsPlain.of_word_append (hw : w ≠ []) (hchars : ∀ c ∈ w, isBlank c = false)
    (hs : ∀ c ∈ s.head?, isBlank c = true) (h : (w ++ s).IsPlain) : w.head? ≠ some '[' ∧ s.IsPlain := by
  obtain ⟨hblank, hwords⟩ := h
  have hblank : ∀ c ∈ s, isBlank c = true → c = ' ' := fun c hc => hblank c (List.mem_append_right w hc)
  rw [words_eq_cons hw hchars hs hblank] at hwords
  obtain ⟨hbracket, hwords⟩ := List.forall_mem_cons.mp hwords
  exact ⟨hbracket, hblank, hwords⟩

theorem isPlain_space : IsPlain (' ' :: s) ↔ s.IsPlain := by
  rw [IsPlain, words_space, List.forall_mem_cons]
  simp [IsPlain]

theorem word_append_rest (c : Char) (s : Text) : (c :: s.takeWhile isWord) ++ s.dropWhile isWord = c :: s := by
  rw [List.cons_append, List.takeWhile_append_dropWhile]

theorem chars_word {c : Char} (hc : isBlank c = false) (s : Text) :
    ∀ d ∈ c :: s.takeWhile isWord, isBlank d = false := by
  refine List.forall_mem_cons.mpr ⟨hc, ?_⟩
  intro d hd
  simpa [isWord] using List.mem_takeWhile_imp hd

theorem head?_dropWhile_isWord : ∀ c ∈ (s.dropWhile isWord).head?, isBlank c = true := by
  intro c hc
  have hnot := List.head?_dropWhile_not isWord s
  rw [Option.mem_def.mp hc] at hnot
  simpa [isWord] using hnot

end Text

namespace Piece

def IsText (p : Piece) : Prop := p.kind = .inlineText ∨ p.kind = .space

end Piece

namespace Lexer

open Lexeme Piece Text

variable {legacyIds : Bool}

theorem Reads.plain {a b : State} {s : Text} {ps : List Piece} (h : Reads legacyIds a s ps b [])
    (ha : a.modes = ⟨[]⟩) (hps : ∀ p ∈ ps, p.IsText) : s.IsPlain ∧ texts .inlineText ps = s.words := by
  generalize ht : ([] : Text) = t at h
  induction h with
  | done a s =>
    subst ht
    exact ⟨by simp [IsPlain, words_nil], rfl⟩
  | @step a b c cs t l ps hread _ ih =>
    obtain ⟨hl, hps⟩ := List.forall_mem_cons.mp hps
    have hmodes : (a.after l.shift (c :: cs.take l.extra)).modes = ⟨[]⟩ := by
      rw [State.after, ha, (next_of_eq (next_of_read hread)).shift_eq]
      rcases hl with hk | hk <;> rw [show l.kind = _ from hk] <;> rfl
    obtain ⟨hplain, htexts⟩ := ih hmodes hps ht
    have hnext : inRoot a.lineStart c cs = some l := by
      have hnext := next_of_read hread
      rwa [ha] at hnext
    rcases hl with hk | hk
    · obtain ⟨hc, hbracket, hextra⟩ := inRoot_inlineText hnext hk
      have hchars := chars_word hc cs
      rw [hextra, drop_run] at hplain htexts
      rw [hextra, take_run, ← word_append_rest c cs]
      refine ⟨hplain.word_append (List.cons_ne_nil _ _) hchars (by simpa using hbracket)
        head?_dropWhile_isWord, ?_⟩
      rw [words_eq_cons (List.cons_ne_nil _ _) hchars head?_dropWhile_isWord hplain.1, ← htexts, texts,
        List.filter_cons_of_pos (by simpa using hk), List.map_cons]
      rfl
    · obtain ⟨rfl, hextra⟩ := inRoot_space hnext hk
      rw [hextra] at hplain htexts
      rw [isPlain_space, words_space, texts_cons_of_ne (by simp [show l.kind = _ from hk])]
      exact ⟨hplain, htexts⟩

theorem reads_plain (legacyIds : Bool) {s : Text} (h : s.IsPlain) {b : Bool}
    (hmarker : b = true → s.head? ≠ some '=') :
    ∃ ps e, Reads legacyIds (.root b) s ps (.root e) [] ∧ ∀ p ∈ ps, p.IsText := by
  induction hn : s.length using Nat.strongRecOn generalizing s b with
  | ind n ih =>
    subst hn
    cases s with
    | nil => exact ⟨[], b, .done _ _, by simp⟩
    | cons c s =>
      by_cases hc : c = ' '
      · subst hc
        obtain ⟨ps, e, hps, htext⟩ := ih s.length (by simp) (isPlain_space.mp h) (b := false) (by simp) rfl
        exact ⟨_, e, reads_space.trans hps, List.forall_mem_append.mpr ⟨by simp [IsText, space], htext⟩⟩
      · have hblank : isBlank c = false := by
          rw [Bool.eq_false_iff]
          intro hblank
          exact hc (h.1 c List.mem_cons_self hblank)
        have hchars := chars_word hblank s
        have hlength : (s.dropWhile isWord).length < (c :: s).length := by
          have := (List.dropWhile_suffix (l := s) isWord).length_le
          rw [List.length_cons]
          omega
        rw [← word_append_rest c s] at h
        obtain ⟨hbracket, hrest⟩ := h.of_word_append (List.cons_ne_nil _ _) hchars head?_dropWhile_isWord
        obtain ⟨ps, e, hps, htext⟩ := ih _ hlength hrest (b := false) (by simp) rfl
        have hword : Reads legacyIds (.root b) _ _ (.root false) (s.dropWhile isWord) :=
          reads_word (List.cons_ne_nil _ _) hchars hbracket (by simpa using hmarker) head?_dropWhile_isWord
        rw [← word_append_rest c s]
        exact ⟨_, e, hword.trans hps, List.forall_mem_append.mpr ⟨by simp [IsText], htext⟩⟩

end Lexer

namespace Place

variable {ks : List Kind}

theorem walk_inText_iff (hks : ∀ k ∈ ks, Row.opens k = false) :
    (∃ q ∈ closed, inText.walk ks = some q) ↔ ∀ k ∈ ks, k = .inlineText ∨ k = .space := by
  have hnext : ∀ k ∈ Kind.all, Row.opens k = false →
      inText.next? k = if k = .inlineText ∨ k = .space then some inText else none := by
    decide
  induction ks with
  | nil => simp [closed]
  | cons k ks ih =>
    obtain ⟨hk, hks⟩ := List.forall_mem_cons.mp hks
    rw [walk_cons, hnext k (Kind.mem_all k) hk, List.forall_mem_cons]
    by_cases htext : k = .inlineText ∨ k = .space
    · simpa [htext] using ih hks
    · simp [htext]

theorem walk_beforeText_iff (hks : ∀ k ∈ ks, Row.opens k = false) :
    (∃ q ∈ closed, beforeText.walk ks = some q) ↔
      (∀ k ∈ ks, k = .inlineText ∨ k = .space) ∧ .inlineText ∈ ks := by
  have hnext : ∀ k ∈ Kind.all, k ≠ .inlineText → k ≠ .space → beforeText.next? k = none := by decide
  induction ks with
  | nil => simp [closed]
  | cons k ks ih =>
    obtain ⟨-, hrest⟩ := List.forall_mem_cons.mp hks
    rw [walk_cons]
    by_cases hword : k = .inlineText
    · subst hword
      have hrest := walk_inText_iff hrest
      simpa [next?] using hrest
    by_cases hspace : k = .space
    · subst hspace
      simpa [next?] using ih hrest
    · simp [hnext k (Kind.mem_all k) hword hspace, hword, hspace]

theorem walk_lineStart_eq {k : Kind} (hhead : k ≠ .headline) (hlist : k ≠ .listStart) :
    lineStart.walk (k :: ks) = beforeText.walk (k :: ks) := by
  have hnext : ∀ k ∈ Kind.all, k ≠ .headline → k ≠ .listStart → lineStart.next? k = beforeText.next? k := by
    decide
  rw [walk_cons, walk_cons, hnext k (Kind.mem_all k) hhead hlist]

end Place

namespace Lexer

open Lexeme Piece Text

variable {legacyIds b : Bool} {s : Text} {ps : List Piece}

def ReadsText (legacyIds b : Bool) (s : Text) (ps : List Piece) : Prop :=
  ∃ e, Reads legacyIds (.root b) s ps e [] ∧ ∃ q ∈ Place.closed, Place.beforeText.walk (ps.map Piece.kind) = some q

theorem Reads.text_iff {e : State} (h : Reads legacyIds (.root b) s ps e []) (hs : '\n' ∉ s) :
    (∃ q ∈ Place.closed, Place.beforeText.walk (ps.map Piece.kind) = some q) ↔
      (∀ p ∈ ps, p.IsText) ∧ texts .inlineText ps ≠ [] := by
  have hinner : ∀ k ∈ ps.map Piece.kind, Row.opens k = false := List.forall_mem_map.mpr (h.inner hs)
  have hwords : .inlineText ∈ ps.map Piece.kind ↔ texts .inlineText ps ≠ [] := by
    rw [texts, ne_eq, List.map_eq_nil_iff, List.filter_eq_nil_iff, List.mem_map]
    simp
  rw [Place.walk_beforeText_iff hinner, hwords, List.forall_mem_map]
  rfl

theorem ReadsText.spec (h : ReadsText legacyIds b s ps) (hs : '\n' ∉ s) :
    s.IsPlain ∧ s.words ≠ [] ∧ (∀ p ∈ ps, p.IsText) ∧ texts .inlineText ps = s.words := by
  obtain ⟨e, hreads, hwalk⟩ := h
  obtain ⟨htext, hne⟩ := (hreads.text_iff hs).mp hwalk
  obtain ⟨hplain, hwords⟩ := hreads.plain rfl htext
  exact ⟨hplain, hwords ▸ hne, htext, hwords⟩

theorem exists_readsText (legacyIds : Bool) (hplain : s.IsPlain) (hne : s.words ≠ []) (hs : '\n' ∉ s)
    (hmarker : b = true → s.head? ≠ some '=') : ∃ ps, ReadsText legacyIds b s ps := by
  obtain ⟨ps, e, hps, htext⟩ := reads_plain legacyIds hplain hmarker
  obtain ⟨-, hwords⟩ := hps.plain rfl htext
  exact ⟨ps, _, hps, (hps.text_iff hs).mpr ⟨htext, hwords ▸ hne⟩⟩

end Lexer

end AsciiDoc
