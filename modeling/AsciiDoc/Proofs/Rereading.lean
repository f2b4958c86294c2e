import AsciiDoc.Proofs.Canonical
import AsciiDoc.Proofs.Printing

namespace AsciiDoc

namespace Text

theorem run_append {p : Char → Bool} {w s : Text} (hw : ∀ c ∈ w, p c = true)
    (hs : ∀ c ∈ s.head?, p c = false) : run p (w ++ s) = w.length := by
  have hstop : s.takeWhile p = [] := by
    cases s with
    | nil => rfl
    | cons c s => exact List.takeWhile_cons_of_neg (by simp [hs c rfl])
  rw [run, List.takeWhile_append_of_pos hw, hstop, List.append_nil]

end Text

namespace Piece

/-- No quote in the piece is taken for one that opens or closes a string, with `rest` behind it. -/
def Safe (p : Piece) (rest : Text) : Prop :=
  (p.kind = .stringText → '"' ∉ p.text) ∧
    (p.kind = .listText → p.text.head? = some '"' → Lexeme.closesOnLine (p.text.tail ++ rest) = false)

def QuoteSafe (s : Text) : List Piece → Prop
  | [] => True
  | p :: ps => p.Safe (source ps ++ s) ∧ QuoteSafe s ps

theorem quoteSafe_append {s : Text} {ps qs : List Piece} :
    QuoteSafe s (ps ++ qs) ↔ QuoteSafe (source qs ++ s) ps ∧ QuoteSafe s qs := by
  induction ps with
  | nil => simp [QuoteSafe]
  | cons p ps ih => rw [List.cons_append, QuoteSafe, QuoteSafe, ih, source_append, List.append_assoc, and_assoc]

theorem quoteSafe_of_words (s : Text) {ps : List Piece} (h : ∀ p ∈ ps, p.isListWord = true → '"' ∉ p.text) :
    QuoteSafe s ps := by
  induction ps with
  | nil => trivial
  | cons p ps ih =>
    obtain ⟨hp, hps⟩ := List.forall_mem_cons.mp h
    refine ⟨⟨fun hk => hp (by simp [isListWord, hk]), fun hk hhead => ?_⟩, ih hps⟩
    exact absurd (List.mem_of_mem_head? hhead) (hp (by simp [isListWord, hk]))

theorem quoteSafe_of_mem {s : Text} {ps : List Piece} (h : QuoteSafe s ps) :
    ∀ p ∈ ps, p.kind = .stringText → '"' ∉ p.text := by
  induction ps with
  | nil => simp
  | cons p ps ih => exact List.forall_mem_cons.mpr ⟨h.1.1, ih h.2⟩

end Piece

open Piece

namespace AttributeList

theorem chars_of_mem_marked {l : AttributeList} {c : Config} {m : Mark} {t : Text} (ht : t ∈ l.marked c m) :
    t ≠ [] ∧ ∀ ch ∈ t, Text.isBlank ch = false ∧ ch ≠ '"' ∧ Text.isDelimiter ch = false := by
  obtain ⟨a, ha, ht⟩ := List.mem_flatMap.mp ht
  have hshort : a.shorthand? c = some m := by simpa using List.of_mem_filter ha
  have hfits := ((a.shorthand?_eq_some_iff c m).mp hshort).2.2
  rw [AttributeValue.fitsShorthand, List.all_eq_true] at hfits
  simpa [and_assoc] using hfits t ht

theorem quoteSafe_pieces {l : AttributeList} (h : ∀ a ∈ l.attributes, a.QuoteFree) (c : Config) (s : Text) :
    QuoteSafe s (l.pieces c) := by
  apply quoteSafe_of_words
  intro p hp hword
  obtain ⟨a, ha, hkey | hvalue⟩ := (mem_pieces hp).2 hword
  · exact (h a ha).1 _ hkey
  · exact (h a ha).2 _ hvalue

end AttributeList

namespace Lexer

open Piece

variable {legacyIds : Bool}

theorem Reads.single {a b : State} {k : Kind} {c : Char} {s : Text} {shift : Shift}
    (h : Lexeme.next? a.modes.current a.lineStart c s = some ⟨k, 0, shift⟩) (hk : k ≠ .legacyIdStart)
    (hb : a.after shift [c] = b) : Reads legacyIds a (c :: s) [⟨k, [c]⟩] b s := by
  have hread : read legacyIds a.modes.current a.lineStart c s = .ok ⟨k, 0, shift⟩ := by
    simp [read, h, hk]
  subst hb
  exact Reads.step hread (.done _ _)

theorem Reads.running {a : State} {k : Kind} {p : Char → Bool} {w s : Text} (hw : w ≠ [])
    (h : ∀ c cs, w = c :: cs →
      Lexeme.next? a.modes.current a.lineStart c (cs ++ s) = some (.running k p (cs ++ s)))
    (hk : k ≠ .legacyIdStart) (hp : ∀ c ∈ w, p c = true) (hs : ∀ c ∈ s.head?, p c = false) :
    Reads legacyIds a (w ++ s) [⟨k, w⟩] (a.after .stay w) s := by
  obtain ⟨c, cs, rfl⟩ := List.exists_cons_of_ne_nil hw
  have hrun : Text.run p (cs ++ s) = cs.length :=
    Text.run_append (fun d hd => hp d (List.mem_cons_of_mem c hd)) hs
  have hread : read legacyIds a.modes.current a.lineStart c (cs ++ s) = .ok ⟨k, cs.length, .stay⟩ := by
    simp [read, h c cs rfl, Lexeme.running, hk, hrun]
  have hstep := Reads.step hread (.done _ _)
  simp only [List.take_left, List.drop_left] at hstep
  exact hstep

theorem State.after_stay (a : State) {w : Text} (hw : ∀ c ∈ w, Text.isBlank c = false) :
    a.after .stay w = ⟨a.modes, false⟩ := by
  have hlast : w.getLast? ≠ some '\n' := by
    intro h
    have hblank := hw '\n' (List.mem_of_getLast? h)
    rw [Text.isBlank_newline] at hblank
    cases hblank
  simp [State.after, ModeStack.shift, hlast]

theorem ne_of_not_blank {c : Char} (h : Text.isBlank c = false) : c ≠ ' ' ∧ c ≠ '\n' ∧ c ≠ '\t' := by
  refine ⟨?_, ?_, ?_⟩ <;> (rintro rfl; revert h; decide)

theorem ne_of_not_delimiter {c : Char} (h : Text.isDelimiter c = false) :
    c ≠ ',' ∧ c ≠ '=' ∧ c ≠ '[' ∧ c ≠ ']' ∧ c ≠ '.' ∧ c ≠ '%' ∧ c ≠ '#' := by
  simpa only [Text.isDelimiter, Bool.or_eq_false_iff, decide_eq_false_iff_not, and_assoc] using h

section Root

variable {b : Bool} {s : Text}

theorem reads_word {w : Text} (hw : w ≠ []) (hchars : ∀ c ∈ w, Text.isBlank c = false)
    (hbracket : w.head? ≠ some '[') (hmarker : b = true → w.head? ≠ some '=')
    (hs : ∀ c ∈ s.head?, Text.isBlank c = true) :
    Reads legacyIds (.root b) (w ++ s) [⟨.inlineText, w⟩] (.root false) s := by
  have hafter : (State.root b).after .stay w = .root false := State.after_stay _ hchars
  rw [← hafter]
  apply Reads.running (p := Lexeme.isWord) hw
  · intro c cs hcs
    have hc : Text.isBlank c = false := hchars c (by simp [hcs])
    have hbracket : c ≠ '[' := by simpa [hcs] using hbracket
    have hmarker : ¬(c = '=' ∧ b = true) := by
      rintro ⟨rfl, hb⟩
      exact hmarker hb (by simp [hcs])
    obtain ⟨hspace, hnewline, htab⟩ := ne_of_not_blank hc
    change Lexeme.inRoot b c (cs ++ s) = _
    simp [Lexeme.inRoot, Lexeme.isWord, hc, hbracket, hmarker, hspace, hnewline, htab]
  · decide
  · intro c hc
    simp [Lexeme.isWord, hchars c hc]
  · intro c hc
    simp [Lexeme.isWord, hs c hc]

theorem reads_space : Reads legacyIds (.root b) (' ' :: s) [space] (.root false) s := by
  have hnext : Lexeme.inRoot b ' ' s = some (.single .space) := by simp [Lexeme.inRoot]
  exact Reads.single hnext (by decide) rfl

theorem reads_newline (h : (s.dropWhile Text.isIndent).head? ≠ some '\n') :
    Reads legacyIds (.root b) ('\n' :: s) [newline] (.root true) s := by
  have hnext : Lexeme.inRoot b '\n' s = some (.single .newline) := by
    simp [Lexeme.inRoot, Lexeme.newline, h]
  exact Reads.single hnext (by decide) rfl

theorem reads_emptyLine (h : s.head? = some '\n') :
    Reads legacyIds (.root b) ('\n' :: s) [⟨.emptyLine, ['\n']⟩] (.root true) s := by
  obtain ⟨t, rfl⟩ := List.head?_eq_some_iff.mp h
  have hindent : ¬Text.isIndent '\n' = true := by decide
  have hnext : Lexeme.inRoot b '\n' ('\n' :: t) = some (.single .emptyLine) := by
    simp [Lexeme.inRoot, Lexeme.newline, Lexeme.running, Lexeme.single, Text.run, hindent]
  exact Reads.single hnext (by decide) rfl

theorem reads_marker (n : Nat) (hs : s.head? ≠ some '=') :
    Reads legacyIds (.root true) (List.replicate (n + 1) '=' ++ s)
      [⟨.headline, List.replicate (n + 1) '='⟩] (.root false) s := by
  have hchars (c : Char) (hc : c ∈ List.replicate (n + 1) '=') : c = '=' := (List.mem_replicate.mp hc).2
  have hafter : (State.root true).after .stay (List.replicate (n + 1) '=') = .root false := by
    apply State.after_stay
    intro c hc
    rw [hchars c hc]
    decide
  rw [← hafter]
  apply Reads.running (p := (· = '=')) (by simp)
  · intro c cs hcs
    obtain rfl : c = '=' := hchars c (by simp [hcs])
    rfl
  · decide
  · intro c hc
    simp [hchars c hc]
  · intro c hc
    have hne : c ≠ '=' := by
      rintro rfl
      exact hs hc
    simp [hne]

theorem reads_listStart : Reads legacyIds (.root b) ('[' :: s) [⟨.listStart, ['[']⟩] .list s := by
  have hnext : Lexeme.inRoot b '[' s = some (.opening .listStart .attributeList) := by
    simp [Lexeme.inRoot]
  exact Reads.single hnext (by decide) rfl

end Root

section List

variable {s : Text}

theorem reads_comma : Reads legacyIds .list (',' :: s) [comma] .list s := by
  have hnext : Lexeme.inList ',' s = some (.single .comma) := by simp [Lexeme.inList]
  exact Reads.single hnext (by decide) rfl

theorem reads_assignment : Reads legacyIds .list ('=' :: s) [⟨.assignment, ['=']⟩] .list s := by
  have hnext : Lexeme.inList '=' s = some (.single .assignment) := by simp [Lexeme.inList]
  exact Reads.single hnext (by decide) rfl

theorem reads_mark (m : Mark) : Reads legacyIds .list (m.symbol :: s) [⟨m.kind, [m.symbol]⟩] .list s := by
  have hnext : Lexeme.inList m.symbol s = some (.single m.kind) := by
    cases m <;> simp [Lexeme.inList, Mark.symbol, Mark.kind]
  cases m <;> exact Reads.single hnext (by decide) rfl

theorem reads_listEnd : Reads legacyIds .list (']' :: s) [⟨.listEnd, [']']⟩] (.root false) s := by
  have hnext : Lexeme.inList ']' s = some (.closing .listEnd) := by simp [Lexeme.inList]
  exact Reads.single hnext (by decide) rfl

theorem reads_listText {w : Text} (hw : w ≠ [])
    (hchars : ∀ c ∈ w, Text.isBlank c = false ∧ Text.isDelimiter c = false)
    (hquote : w.head? = some '"' → Lexeme.closesOnLine (w.tail ++ s) = false)
    (hs : ∀ c ∈ s.head?, Lexeme.isListText c = false) :
    Reads legacyIds .list (w ++ s) [⟨.listText, w⟩] .list s := by
  have hafter : State.list.after .stay w = .list := State.after_stay _ fun c hc => (hchars c hc).1
  have hclass (c : Char) (hc : c ∈ w) : Lexeme.isListText c = true := by
    simp [Lexeme.isListText, hchars c hc]
  nth_rewrite 2 [← hafter]
  apply Reads.running (p := Lexeme.isListText) hw _ (by decide) hclass hs
  rintro c cs rfl
  have hne := ne_of_not_delimiter (hchars c List.mem_cons_self).2
  have hopen : ¬(c = '"' ∧ Lexeme.closesOnLine (cs ++ s) = true) := by
    rintro ⟨rfl, hcloses⟩
    exact Bool.eq_false_iff.mp (hquote rfl) hcloses
  change Lexeme.inList c (cs ++ s) = _
  simp [Lexeme.inList, hclass c List.mem_cons_self, hopen, hne]

theorem reads_stringStart (h : Lexeme.closesOnLine s = true) :
    Reads legacyIds .list ('"' :: s) [⟨.stringStart, ['"']⟩] .string s := by
  have hnext : Lexeme.inList '"' s = some (.opening .stringStart .string) := by simp [Lexeme.inList, h]
  exact Reads.single hnext (by decide) rfl

theorem reads_stringSpace : Reads legacyIds .string (' ' :: s) [space] .string s := by
  have hnext : Lexeme.inString ' ' s = some (.single .space) := by simp [Lexeme.inString]
  exact Reads.single hnext (by decide) rfl

theorem reads_stringEnd : Reads legacyIds .string ('"' :: s) [⟨.stringEnd, ['"']⟩] .list s := by
  have hnext : Lexeme.inString '"' s = some (.closing .stringEnd) := by simp [Lexeme.inString]
  exact Reads.single hnext (by decide) rfl

theorem reads_stringText {w : Text} (hw : w ≠ []) (hchars : ∀ c ∈ w, Text.isBlank c = false ∧ c ≠ '"')
    (hs : ∀ c ∈ s.head?, Lexeme.isStringText c = false) :
    Reads legacyIds .string (w ++ s) [⟨.stringText, w⟩] .string s := by
  have hafter : State.string.after .stay w = .string := State.after_stay _ fun c hc => (hchars c hc).1
  have hclass (c : Char) (hc : c ∈ w) : Lexeme.isStringText c = true := by
    simp [Lexeme.isStringText, hchars c hc]
  nth_rewrite 2 [← hafter]
  apply Reads.running (p := Lexeme.isStringText) hw _ (by decide) hclass hs
  intro c cs hcs
  obtain ⟨hblank, hquote⟩ := hchars c (by simp [hcs])
  have hspace := (ne_of_not_blank hblank).1
  change Lexeme.inString c (cs ++ s) = _
  simp [Lexeme.inString, hclass c (by simp [hcs]), hquote, hspace]

end List

section Separate

variable {a b : State} {sep : Piece} {E : Text → Prop} {S : Text → List Piece → Prop} {pss : List (List Piece)}

theorem Reads.separated (hS : ∀ s ps qs, S s (ps ++ qs) → S (source qs ++ s) ps ∧ S s qs)
    (hsep : ∀ s, E (sep.text ++ s) ∧ Reads legacyIds b (sep.text ++ s) [sep] b s)
    (h : ∀ ps ∈ pss, ∀ s, E s → S s ps → Reads legacyIds b (source ps ++ s) ps b s) {s : Text} (hs : E s)
    (hsafe : S s (pss.flatMap fun ps => sep :: ps)) :
    E (source (pss.flatMap fun ps => sep :: ps) ++ s) ∧
      Reads legacyIds b (source (pss.flatMap fun ps => sep :: ps) ++ s)
        (pss.flatMap fun ps => sep :: ps) b s := by
  -- Groups of pieces, each behind a separator. `E` is what may follow a group, so it has to hold of
  -- every text that begins with the separator; `S` is what a group needs of all that follows.
  induction pss with
  | nil => exact ⟨hs, .done b s⟩
  | cons ps pss ih =>
    obtain ⟨hps, hrest⟩ := List.forall_mem_cons.mp h
    rw [List.flatMap_cons] at hsafe
    obtain ⟨hgroup, hothers⟩ := hS _ _ _ hsafe
    obtain ⟨-, hfirst⟩ := hS _ [sep] ps hgroup
    obtain ⟨hend, htail⟩ := ih hrest hothers
    rw [List.flatMap_cons, List.cons_append, source_cons, source_append, List.append_assoc, List.append_assoc]
    obtain ⟨hstart, hone⟩ := hsep (source ps ++ (source (pss.flatMap fun ps => sep :: ps) ++ s))
    exact ⟨hstart, hone.trans ((hps _ hend hfirst).trans htail)⟩

theorem Reads.separate {ps : List Piece} (hS : ∀ s ps qs, S s (ps ++ qs) → S (source qs ++ s) ps ∧ S s qs)
    (hsep : ∀ s, E (sep.text ++ s) ∧ Reads legacyIds b (sep.text ++ s) [sep] b s)
    (hfirst : ∀ s, E s → S s ps → Reads legacyIds a (source ps ++ s) ps b s)
    (h : ∀ qs ∈ pss, ∀ s, E s → S s qs → Reads legacyIds b (source qs ++ s) qs b s) {s : Text} (hs : E s)
    (hsafe : S s (separate sep (ps :: pss))) :
    Reads legacyIds a (source (separate sep (ps :: pss)) ++ s) (separate sep (ps :: pss)) b s := by
  obtain ⟨hps, hpss⟩ := hS _ _ _ hsafe
  obtain ⟨hend, hrest⟩ := Reads.separated hS hsep h hs hpss
  rw [Piece.separate, source_append, List.append_assoc]
  exact (hfirst _ hend hps).trans hrest

theorem Reads.phrase {k : Kind} {w : Text} {ws : List Text}
    (hsep : ∀ s, E (' ' :: s) ∧ Reads legacyIds b (' ' :: s) [space] b s)
    (hfirst : ∀ s, E s → Reads legacyIds a (w ++ s) [⟨k, w⟩] b s)
    (h : ∀ v ∈ ws, ∀ s, E s → Reads legacyIds b (v ++ s) [⟨k, v⟩] b s) {s : Text} (hs : E s) :
    Reads legacyIds a (source (phrase k (w :: ws)) ++ s) (phrase k (w :: ws)) b s := by
  -- A phrase is read word by word; only its first word can stand at the start of a line.
  rw [Piece.phrase, List.map_cons]
  apply Reads.separate (S := fun _ _ => True) (fun _ _ _ _ => ⟨trivial, trivial⟩) hsep _ _ hs trivial
  · intro t ht _
    rw [source_cons, source_nil, List.append_nil]
    exact hfirst t ht
  · intro qs hqs t ht _
    obtain ⟨v, hv, rfl⟩ := List.mem_map.mp hqs
    rw [source_cons, source_nil, List.append_nil]
    exact h v hv t ht

end Separate

theorem reads_line {l : Line} (h : l.WellFormed) {b : Bool} (hmarker : b = true → l.joined.head? ≠ some '=')
    {s : Text} (hs : ∀ c ∈ s.head?, Text.isBlank c = true) :
    Reads legacyIds (.root b) (source (phrase .inlineText l.words) ++ s) (phrase .inlineText l.words)
      (.root false) s := by
  obtain ⟨hne, hwords⟩ := h
  obtain ⟨w, ws, hl⟩ := List.exists_cons_of_ne_nil hne
  rw [Line.joined, hl] at hmarker
  rw [hl] at hwords ⊢
  obtain ⟨⟨hw, hchars, hbracket⟩, hws⟩ := List.forall_mem_cons.mp hwords
  have hhead : (Text.unwords (w :: ws)).head? = w.head? := by
    rw [Text.unwords, Text.intercalate_cons, List.head?_append_of_ne_nil w hw]
  apply Reads.phrase (E := fun t => ∀ c ∈ t.head?, Text.isBlank c = true) _ _ _ hs
  · intro t
    exact ⟨by rintro _ ⟨⟩; decide, reads_space⟩
  · intro t ht
    exact reads_word hw hchars hbracket (fun hb => hhead ▸ hmarker hb) ht
  · intro v hv t ht
    obtain ⟨hv, hchars, hbracket⟩ := hws v hv
    exact reads_word hv hchars hbracket (by simp) ht

def EndsListText (s : Text) : Prop := ∀ c ∈ s.head?, Lexeme.isListText c = false

theorem closesOnLine_append {t : Text} (ht : ∀ c ∈ t, c ≠ '\n') (s : Text) :
    Lexeme.closesOnLine (t ++ '"' :: s) = true := by
  have htake : (t ++ '"' :: s).takeWhile (· != '\n') = t ++ ('"' :: s).takeWhile (· != '\n') := by
    apply List.takeWhile_append_of_pos
    intro c hc
    simpa using ht c hc
  rw [Lexeme.closesOnLine, htake, List.takeWhile_cons_of_pos (by decide)]
  simp

theorem mem_unwords {ss : List Text} {c : Char} (h : c ∈ Text.unwords ss) : c = ' ' ∨ ∃ s ∈ ss, c ∈ s :=
  (Text.mem_intercalate h).imp_left List.mem_singleton.mp

theorem reads_strings {ss : List Text}
    (h : ∀ t ∈ ss, t ≠ [] ∧ ∀ c ∈ t, Text.isBlank c = false ∧ c ≠ '"') (s : Text) :
    Reads legacyIds .string (source (phrase .stringText ss) ++ '"' :: s) (phrase .stringText ss) .string
      ('"' :: s) := by
  cases ss with
  | nil => exact .done _ _
  | cons w ws =>
    obtain ⟨⟨hw, hchars⟩, hws⟩ := List.forall_mem_cons.mp h
    apply Reads.phrase (E := fun t => ∀ c ∈ t.head?, Lexeme.isStringText c = false)
    · intro t
      exact ⟨by rintro _ ⟨⟩; decide, reads_stringSpace⟩
    · intro t ht
      exact reads_stringText hw hchars ht
    · intro v hv t ht
      exact reads_stringText (hws v hv).1 (hws v hv).2 ht
    · rintro _ ⟨⟩
      decide

theorem reads_value {v : AttributeValue} (h : ∀ t ∈ v.values, t.IsValue) (c : Config) {s : Text}
    (hs : EndsListText s) (hsafe : QuoteSafe s (v.pieces c)) :
    Reads legacyIds .list (source (v.pieces c) ++ s) (v.pieces c) .list s := by
  cases hquotes : v.needsQuotes c with
  | true =>
    have hline : ∀ ch ∈ source (phrase .stringText v.values), ch ≠ '\n' := by
      intro ch hch
      rw [source_phrase] at hch
      rcases mem_unwords hch with rfl | ⟨t, ht, hch⟩
      · decide
      · exact (ne_of_not_blank ((h t ht).2.1 ch hch)).2.1
    simp only [AttributeValue.pieces, hquotes, if_true, List.cons_append] at hsafe
    have hvalues : ∀ t ∈ v.values, t ≠ [] ∧ ∀ ch ∈ t, Text.isBlank ch = false ∧ ch ≠ '"' := by
      intro t ht
      obtain ⟨hne, hchars, -⟩ := h t ht
      refine ⟨hne, fun ch hch => ⟨hchars ch hch, ?_⟩⟩
      rintro rfl
      exact quoteSafe_of_mem (quoteSafe_append.mp hsafe.2).1 _ (mem_phrase_of_mem ht) rfl hch
    simp only [AttributeValue.pieces, hquotes, if_true, source_cons, source_append, source_nil,
      List.append_nil, List.cons_append, List.append_assoc, List.nil_append]
    exact (reads_stringStart (closesOnLine_append hline s)).trans
      ((reads_strings hvalues s).trans reads_stringEnd)
  | false =>
    obtain ⟨t, ht, hplain⟩ := AttributeValue.eq_singleton_of_not_needsQuotes hquotes
    obtain ⟨hne, hchars, hdelimiters⟩ := h t (by simp [ht])
    simp only [AttributeValue.pieces, hquotes, Bool.false_eq_true, if_false, ht, List.map_singleton,
      source_cons, source_nil, List.append_nil] at hsafe ⊢
    apply reads_listText hne _ (hsafe.1.2 rfl) hs
    intro ch hch
    refine ⟨hchars ch hch, ?_⟩
    rcases hplain with hplain | hplain
    · exact hdelimiters (List.contains_iff_mem.mp hplain) ch hch
    · simpa using List.any_eq_false.mp hplain ch hch

theorem reads_entry {a : Attribute} (h : a.Lexical) (c : Config) {s : Text} (hs : EndsListText s)
    (hsafe : QuoteSafe s (a.pieces c)) :
    Reads legacyIds .list (source (a.pieces c) ++ s) (a.pieces c) .list s := by
  obtain ⟨_ | key, value, location⟩ := a
  · exact reads_value h.2 c hs hsafe
  · obtain ⟨hne, hchars⟩ := h.1 key rfl
    have hkey : EndsListText ('=' :: (source (value.pieces c) ++ s)) := by
      rintro _ ⟨⟩
      decide
    obtain ⟨hfirst, -, hvalue⟩ := hsafe
    rw [Attribute.pieces, source_cons, source_cons, List.append_assoc, List.append_assoc]
    exact (reads_listText hne hchars (hfirst.2 rfl) hkey).trans
      (reads_assignment.trans (reads_value h.2 c hs hvalue))

theorem reads_shorts (m : Mark) {ss : List Text}
    (h : ∀ t ∈ ss, t ≠ [] ∧ ∀ c ∈ t, Text.isBlank c = false ∧ c ≠ '"' ∧ Text.isDelimiter c = false)
    {s : Text} (hs : EndsListText s) : EndsListText (source (ss.flatMap (short m)) ++ s) ∧
      Reads legacyIds .list (source (ss.flatMap (short m)) ++ s) (ss.flatMap (short m)) .list s := by
  have hgroups : ss.flatMap (short m) =
      (ss.map fun t => [⟨.listText, t⟩]).flatMap fun ps => ⟨m.kind, [m.symbol]⟩ :: ps := by
    rw [List.flatMap_map]
    rfl
  rw [hgroups]
  apply Reads.separated (S := fun _ _ => True) (fun _ _ _ _ => ⟨trivial, trivial⟩) _ _ hs trivial
  · intro t
    refine ⟨?_, reads_mark m⟩
    rintro _ ⟨⟩
    cases m <;> decide
  · intro ps hps t ht _
    obtain ⟨v, hv, rfl⟩ := List.mem_map.mp hps
    obtain ⟨hne, hchars⟩ := h v hv
    rw [source_cons, source_nil, List.append_nil]
    apply reads_listText hne (fun c hc => ⟨(hchars c hc).1, (hchars c hc).2.2⟩) _ ht
    intro hhead
    exact absurd rfl (hchars '"' (List.mem_of_mem_head? hhead)).2.1

theorem reads_entries {as : List Attribute} (h : ∀ a ∈ as, a.Lexical) (c : Config) {s : Text}
    (hs : EndsListText s) (hsafe : QuoteSafe s (separate comma (as.map (Attribute.pieces c)))) :
    Reads legacyIds .list (source (separate comma (as.map (Attribute.pieces c))) ++ s)
      (separate comma (as.map (Attribute.pieces c))) .list s := by
  cases as with
  | nil => exact .done _ _
  | cons a as =>
    obtain ⟨ha, has⟩ := List.forall_mem_cons.mp h
    rw [List.map_cons] at hsafe ⊢
    apply Reads.separate (fun _ _ _ => quoteSafe_append.mp) _ _ _ hs hsafe
    · intro t
      exact ⟨by rintro _ ⟨⟩; decide, reads_comma⟩
    · intro t ht hsafe
      exact reads_entry ha c ht hsafe
    · intro qs hqs t ht hsafe
      obtain ⟨e, he, rfl⟩ := List.mem_map.mp hqs
      exact reads_entry (has e he) c ht hsafe

theorem reads_list {l : AttributeList} (h : ∀ a ∈ l.attributes, a.Lexical) (c : Config) (b : Bool) {s : Text}
    (hsafe : QuoteSafe s (l.pieces c)) :
    Reads legacyIds (.root b) (source (l.pieces c) ++ s) (l.pieces c) (.root false) s := by
  have hclose : EndsListText (']' :: s) := by
    rintro _ ⟨⟩
    decide
  have hshorts (m : Mark) {t : Text} (ht : EndsListText t) :
      EndsListText (source ((l.marked c m).flatMap (short m)) ++ t) ∧
        Reads legacyIds .list (source ((l.marked c m).flatMap (short m)) ++ t)
          ((l.marked c m).flatMap (short m)) .list t :=
    reads_shorts m (fun _ => AttributeList.chars_of_mem_marked) ht
  obtain ⟨hoption, hoptions⟩ := hshorts .option hclose
  obtain ⟨hrole, hroles⟩ := hshorts .role hoption
  obtain ⟨hid, hids⟩ := hshorts .id hrole
  have hentries : ∀ a ∈ l.entries c, a.Lexical := fun a ha => h a (List.mem_of_mem_filter ha)
  simp only [AttributeList.pieces, List.append_assoc, List.cons_append] at hsafe
  obtain ⟨-, hsafe⟩ := hsafe
  obtain ⟨hsafe, -⟩ := quoteSafe_append.mp hsafe
  simp only [source_append, source_cons, source_nil, List.append_nil, List.append_assoc, List.cons_append,
    List.nil_append] at hsafe
  simp only [AttributeList.pieces, source_append, source_cons, source_nil, List.append_nil,
    List.append_assoc, List.cons_append, List.nil_append]
  exact reads_listStart.trans
    ((reads_entries hentries c hid hsafe).trans (hids.trans (hroles.trans (hoptions.trans reads_listEnd))))

theorem head_dropWhile_indent (indent : Text) {s : Text} {c : Char}
    (hindent : ∀ d ∈ indent, Text.isIndent d = true) (hs : s.head? = some c) (hc : Text.isBlank c = false) :
    ((indent ++ s).dropWhile Text.isIndent).head? ≠ some '\n' := by
  obtain ⟨t, rfl⟩ := List.head?_eq_some_iff.mp hs
  have hnot : ¬Text.isIndent c = true := by
    intro h
    rw [Text.isBlank_of_isIndent h] at hc
    cases hc
  rw [List.dropWhile_append_of_pos hindent, List.dropWhile_cons_of_neg hnot]
  simpa using (ne_of_not_blank hc).2.1

theorem reads_indent {n : Nat} {b : Bool} (s : Text) :
    Reads legacyIds (.root b) (List.replicate n ' ' ++ s)
      ((List.replicate n ' ').map fun ch => ⟨.space, [ch]⟩) (.root (b && n == 0)) s := by
  induction n generalizing b with
  | zero => cases b <;> exact .done _ _
  | succ n ih =>
    rw [List.replicate_succ, List.map_cons]
    simpa [space] using reads_space.trans (ih (b := false))

theorem head?_joined {l : Line} (h : l.Inked) : ∃ c, l.joined.head? = some c ∧ Text.isBlank c = false := by
  obtain ⟨hne, hwords⟩ := h
  obtain ⟨w, ws, hl⟩ := List.exists_cons_of_ne_nil hne
  obtain ⟨hw, hchars⟩ := hwords w (by simp [hl])
  obtain ⟨c, cs, rfl⟩ := List.exists_cons_of_ne_nil hw
  refine ⟨c, ?_, hchars c List.mem_cons_self⟩
  rw [Line.joined, hl, Text.unwords, Text.intercalate_cons]
  rfl

end Lexer

namespace Paragraph

theorem exists_indent (c : Config) (p : Paragraph) (line : Text) :
    ∃ n, p.indent c line = List.replicate n ' ' := by
  unfold indent
  split
  · split
    · exact ⟨1, rfl⟩
    · exact ⟨c.literalIndent, rfl⟩
  · exact ⟨0, rfl⟩

theorem indent_eq_nil_iff (c : Config) (p : Paragraph) (line : Text) : p.indent c line = [] ↔
    (p.isLiteral && (decide (0 < c.literalIndent) || decide (line.head? = some '='))) = false := by
  unfold indent
  by_cases hzero : c.literalIndent = 0
  · by_cases hhead : line.head? = some '='
    · cases p.isLiteral <;> simp [hzero, hhead]
    · simp [hzero, hhead]
  · have hpos : 0 < c.literalIndent := Nat.pos_of_ne_zero hzero
    cases p.isLiteral <;> simp [hzero, hpos]

theorem head?_of_indent_eq_nil {p : Paragraph} (h : p.WellFormed) {l : Line} (hl : l ∈ p.lines) {c : Config}
    (hindent : p.indent c l.joined = []) : l.joined.head? ≠ some '=' := by
  rw [indent_eq_nil_iff] at hindent
  intro hhead
  -- A line that begins with `=` is indented, so it cannot be taken for a headline.
  cases hliteral : p.isLiteral with
  | false => exact h.2.2 hliteral l hl hhead
  | true => simp [hliteral, hhead] at hindent

end Paragraph

namespace Lexer

open Piece

variable {legacyIds : Bool}

theorem reads_paragraphLine {p : Paragraph} (h : p.WellFormed) {l : Line} (hl : l ∈ p.lines) (c : Config)
    (b : Bool) {s : Text} (hs : ∀ ch ∈ s.head?, ch = '\n') :
    Reads legacyIds (.root b) (source (p.linePieces c l) ++ s) (p.linePieces c l) (.root false) s := by
  have hline := h.2.1 l hl
  obtain ⟨ch, hhead, hblank⟩ := head?_joined hline.inked
  have hs : ∀ ch ∈ s.head?, Text.isBlank ch = true := by
    intro d hd
    rw [hs d hd]
    decide
  have hmarker := Paragraph.head?_of_indent_eq_nil h hl (c := c)
  obtain ⟨n, hn⟩ := p.exists_indent c l.joined
  rw [Paragraph.linePieces, hn]
  rw [hn] at hmarker
  have hsource : source (((List.replicate n ' ').map fun ch => (⟨.space, [ch]⟩ : Piece))) =
      List.replicate n ' ' := by
    rw [source, List.flatMap_map, List.flatMap_singleton']
  have hrest : ((List.replicate n ' ' ++ (source (phrase .inlineText l.words) ++ s)).dropWhile
      Text.isIndent).head? ≠ some '\n' := by
    apply head_dropWhile_indent (c := ch) _ _ _ hblank
    · intro d hd
      rw [(List.mem_replicate.mp hd).2]
      decide
    · rw [source_phrase, List.head?_append, show (Text.unwords l.words).head? = some ch from hhead]
      rfl
  have hwords : Reads legacyIds (.root (true && n == 0)) (source (phrase .inlineText l.words) ++ s)
      (phrase .inlineText l.words) (.root false) s := by
    apply reads_line hline _ hs
    intro hn
    apply hmarker
    have hn : n = 0 := by simpa using hn
    rw [hn]
    rfl
  rw [List.cons_append, source_cons, source_append, hsource, List.append_assoc, List.append_assoc]
  exact (reads_newline hrest).trans ((reads_indent _).trans hwords)

theorem reads_paragraph {p : Paragraph} (h : p.WellFormed) (c : Config) (b : Bool) {s : Text}
    (hs : ∀ ch ∈ s.head?, ch = '\n') {lines : List Line} (hlines : ∀ l ∈ lines, l ∈ p.lines) :
    ∃ b', Reads legacyIds (.root b) (source (lines.flatMap (p.linePieces c)) ++ s)
      (lines.flatMap (p.linePieces c)) (.root b') s := by
  induction lines generalizing b with
  | nil => exact ⟨b, .done _ _⟩
  | cons l lines ih =>
    obtain ⟨hl, hrest⟩ := List.forall_mem_cons.mp hlines
    obtain ⟨b', htail⟩ := ih false hrest
    refine ⟨b', ?_⟩
    rw [List.flatMap_cons, source_append, List.append_assoc]
    refine (reads_paragraphLine h hl c b ?_).trans htail
    intro ch hch
    cases lines with
    | nil => exact hs ch hch
    | cons l' lines =>
      cases hch
      rfl

theorem reads_headline {h : Headline} (hline : h.title.WellFormed) (hlevel : h.level ≠ Extent.lastOffset)
    (c : Config) (b : Bool) {s : Text} (hs : ∀ ch ∈ s.head?, ch = '\n') :
    Reads legacyIds (.root b) (source ((Block.headline h).pieces c) ++ s) ((Block.headline h).pieces c)
      (.root false) s := by
  have hblank : ∀ ch ∈ s.head?, Text.isBlank ch = true := by
    intro d hd
    rw [hs d hd]
    decide
  obtain ⟨n, hn⟩ := Nat.exists_eq_add_of_lt (Headline.signs_pos hlevel)
  have hmarker : h.marker = List.replicate (n + 1) '=' := by rw [Headline.marker, hn, Nat.zero_add]
  have hnewline : ((h.marker ++ (' ' :: source (phrase .inlineText h.title.words) ++ s)).dropWhile
      Text.isIndent).head? ≠ some '\n' := by
    rw [hmarker]
    exact head_dropWhile_indent [] (by simp) rfl (by decide : Text.isBlank '=' = false)
  rw [Block.pieces, source_cons, source_cons, source_cons, List.append_assoc, List.append_assoc]
  rw [hmarker] at hnewline ⊢
  exact (reads_newline hnewline).trans
    ((reads_marker n (by simp)).trans (reads_space.trans (reads_line hline (by simp) hblank)))

theorem reads_attributes {l : AttributeList} (h : ∀ a ∈ l.attributes, a.Lexical) (c : Config) (b : Bool)
    {s : Text} (hsafe : QuoteSafe s (l.pieces c)) :
    Reads legacyIds (.root b) (source (newline :: l.pieces c) ++ s) (newline :: l.pieces c) (.root false) s := by
  have hnewline : ((source (l.pieces c) ++ s).dropWhile Text.isIndent).head? ≠ some '\n' :=
    head_dropWhile_indent [] (by simp) rfl (by decide : Text.isBlank '[' = false)
  exact (reads_newline hnewline).trans (reads_list h c true hsafe)

theorem reads_block {block : Block} (h : block.WellFormed) (hmarked : block.Marked) (c : Config) (b : Bool) {s : Text}
    (hs : ∀ ch ∈ s.head?, ch = '\n') (hempty : block.isEmptyLine = true → s ≠ []) :
    ∃ b', Reads legacyIds (.root b) (source (block.pieces c) ++ s) (block.pieces c) (.root b') s := by
  cases block with
  | headline head => exact ⟨false, reads_headline h hmarked c b hs⟩
  | paragraph p => exact reads_paragraph h c b hs fun _ hl => hl
  | emptyLine l =>
    obtain ⟨ch, t, rfl⟩ := List.exists_cons_of_ne_nil (hempty rfl)
    obtain rfl : ch = '\n' := hs ch rfl
    exact ⟨true, reads_emptyLine rfl⟩
  | attributes block =>
    have hsafe := AttributeList.quoteSafe_pieces (fun a ha => (h a ha).quoteFree) c s
    exact ⟨false, reads_attributes (fun a ha => (h a ha).lexical) c b hsafe⟩

theorem head?_source_block {block : Block} (h : block.WellFormed) (c : Config) (s : Text) :
    (source (block.pieces c) ++ s).head? = some '\n' := by
  cases block with
  | paragraph p =>
    obtain ⟨l, lines, hl⟩ := List.exists_cons_of_ne_nil h.1
    rw [Block.pieces, hl]
    rfl
  | headline head => rfl
  | emptyLine l => rfl
  | attributes block => rfl

theorem reads_blocks {bs : List Block} (h : ∀ b ∈ bs, b.WellFormed) (hmarked : ∀ b ∈ bs, b.Marked)
    (hlast : ∀ b ∈ bs.getLast?, b.isEmptyLine = false) (c : Config) (b : Bool) :
    ∃ b', Reads legacyIds (.root b) (source (bs.flatMap (Block.pieces c))) (bs.flatMap (Block.pieces c))
      (.root b') [] := by
  -- Blocks are read back one by one. An empty line needs the newline of the block behind it, so it
  -- must not come last.
  induction bs generalizing b with
  | nil => exact ⟨b, .done _ _⟩
  | cons block bs ih =>
    obtain ⟨hblock, hbs⟩ := List.forall_mem_cons.mp h
    obtain ⟨hlevel, hlevels⟩ := List.forall_mem_cons.mp hmarked
    have hrest : (∀ ch ∈ (source (bs.flatMap (Block.pieces c))).head?, ch = '\n') ∧
        (block.isEmptyLine = true → source (bs.flatMap (Block.pieces c)) ≠ []) := by
      cases bs with
      | nil =>
        refine ⟨by simp, ?_⟩
        intro hempty
        rw [hlast block rfl] at hempty
        cases hempty
      | cons next bs =>
        have hhead := head?_source_block (hbs next List.mem_cons_self) c (source (bs.flatMap (Block.pieces c)))
        rw [List.flatMap_cons, source_append]
        refine ⟨?_, ?_⟩
        · intro ch hch
          rw [hhead] at hch
          exact (Option.some.inj hch).symm
        · intro _ hnil
          rw [hnil] at hhead
          cases hhead
    obtain ⟨b', hone⟩ : ∃ b', Reads legacyIds _ _ _ (.root b') _ := reads_block hblock hlevel c b hrest.1 hrest.2
    obtain ⟨b'', htail⟩ := ih hbs hlevels (fun d hd => hlast d (List.mem_getLast?_cons hd)) b'
    refine ⟨b'', ?_⟩
    rw [List.flatMap_cons, source_append]
    exact hone.trans htail

end Lexer

end AsciiDoc
