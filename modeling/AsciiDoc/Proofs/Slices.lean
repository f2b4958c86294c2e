import AsciiDoc.Proofs.SyntaxTrees
import AsciiDoc.Proofs.Losslessness
import AsciiDoc.Proofs.Matching
import AsciiDoc.Proofs.Merging
import AsciiDoc.Proofs.Nesting

namespace AsciiDoc

def Text.at? (s : Text) (l : Location) : Option Text := l.extent?.bind s.slice?

theorem Text.at?_eq {s before t after : Text} (h : s = before ++ t ++ after) {a b : Nat} (ha : a = bytes before)
    (hb : b = a + bytes t) : s.at? ⟨a, b⟩ = some t := by
  have hextent : (⟨a, b⟩ : Location).extent? = some ⟨a, b⟩ := by simp [Location.extent?, Location.isResolved]
  rw [Text.at?, hextent, Option.bind_some, slice?_eq_some_iff]
  exact ⟨before, after, h, by rw [bytes_append, hb, ha]⟩

namespace Form

def Spells (w : Text) : Form → Prop
  | one c => w = [c]
  | run p | lineRun p => w ≠ [] ∧ ∀ c ∈ w, p c = true
  | emptyLine => ∃ blanks, w = '\n' :: blanks ∧ ∀ c ∈ blanks, Text.isIndent c = true
  | quote => w = ['"']

theorem Takes.spells {f : Form} {before w after : Text} (h : f.Takes before w after) : f.Spells w := by
  cases f with
  | one c => exact h
  | run p => exact ⟨h.1, h.2.1⟩
  | lineRun p => exact ⟨h.2.1, h.2.2.1⟩
  | emptyLine =>
    obtain ⟨blanks, hw, hblanks, -⟩ := h
    exact ⟨blanks, hw, hblanks⟩
  | quote => exact h.1

end Form

theorem Kind.FirstTakes.takes {before w after : Text} {ks : List Kind} {k : Kind}
    (h : Kind.FirstTakes before ks k w after) : k.form.Takes before w after := by
  induction h with
  | here h => exact h
  | later _ _ ih => exact ih

theorem Lexeme.takes_of_next {m : Mode} {lineStart : Bool} {c : Char} {cs : Text} {l : Lexeme}
    (h : next? m lineStart c cs = some l) :
    ∃ before, l.kind.form.Takes before (c :: cs.take l.extra) (cs.drop l.extra) := by
  obtain ⟨before, rfl⟩ : ∃ before : Text, decide (before.getLast? = some '\n') = lineStart := by
    cases lineStart with
    | false => exact ⟨[], rfl⟩
    | true => exact ⟨['\n'], rfl⟩
  have hsplit : (c :: cs.take l.extra) ++ cs.drop l.extra = c :: cs := by simp
  have htakes := (Mode.firstTakes_agrees.next m before c cs _ _ _ hsplit).mpr ⟨l, h, rfl, rfl⟩
  exact ⟨before, htakes.takes⟩

namespace Lexer

variable {legacyIds : Bool} {a b : State} {s t : Text} {ps : List Piece}

theorem Reads.spelled (h : Reads legacyIds a s ps b t) : ∀ p ∈ ps, p.kind.form.Spells p.text := by
  induction h with
  | done => simp
  | step hread _ ih =>
    obtain ⟨before, htakes⟩ := Lexeme.takes_of_next (next_of_read hread)
    exact List.forall_mem_cons.mpr ⟨htakes.spells, ih⟩

theorem Reads.words_apart (h : Reads legacyIds a s ps b t) :
    ps.IsChain fun p q => p.kind = .inlineText → q.kind ≠ .inlineText := by
  induction h with
  | done => exact .nil
  | @step a b c cs s l ps hread hrest ih =>
    refine List.isChain_cons.mpr ⟨?_, ih⟩
    intro q hq hword hnext
    obtain ⟨before, htakes⟩ := Lexeme.takes_of_next (next_of_read hread)
    rw [show l.kind = .inlineText from hword] at htakes
    obtain ⟨rest, rfl⟩ := List.head?_eq_some_iff.mp hq
    have hspelled := hrest.spelled q List.mem_cons_self
    rw [hnext] at hspelled
    obtain ⟨d, w, hw⟩ := List.exists_cons_of_ne_nil hspelled.1
    -- the word would have gone on with the first character of the next one
    have hhead : (cs.drop l.extra).head? = some d := by
      rw [hrest.source_eq, Piece.source_cons, hw]
      rfl
    have hstop := htakes.2.2 d hhead
    rw [hspelled.2 d (by rw [hw]; exact List.mem_cons_self)] at hstop
    cases hstop

end Lexer

theorem Piece.eq_place_of_append {offset : Nat} {ps : List Piece} {ts us : List Token}
    (h : place offset ps = ts ++ us) : ts = place offset (ts.map Token.piece) ∧
      us = place (offset + Text.bytes (Token.source ts)) (us.map Token.piece) := by
  induction ts generalizing offset ps with
  | nil =>
    refine ⟨rfl, ?_⟩
    rw [List.nil_append] at h
    rw [← h, map_piece_place]
    rfl
  | cons t ts ih =>
    cases ps with
    | nil => cases h
    | cons p ps =>
      obtain ⟨rfl, hrest⟩ := List.cons.inj h
      obtain ⟨hts, hus⟩ := ih hrest
      constructor
      · rw [List.map_cons, place]
        exact congrArg _ hts
      · have hsource : Token.source (⟨p.kind, p.text, ⟨offset, offset + Text.bytes p.text⟩⟩ :: ts) =
            p.text ++ Token.source ts := rfl
        rwa [hsource, Text.bytes_append, ← Nat.add_assoc]

theorem Piece.at_location {s before after : Text} {ps : List Piece} (h : s = before ++ source ps ++ after)
    (hs : Text.bytes s < Nat.pow 2 63) (hne : ps ≠ []) (hps : ∀ p ∈ ps, p.text ≠ []) :
    s.at? (Token.location (place (Text.bytes before) ps)) = some (source ps) := by
  have hplace : place (Text.bytes before) ps ≠ [] := by
    obtain ⟨p, qs, rfl⟩ := List.exists_cons_of_ne_nil hne
    exact List.cons_ne_nil _ _
  have hstop : Text.bytes before + Text.bytes (source ps) < Nat.pow 2 63 := by
    rw [h, Text.bytes_append, Text.bytes_append] at hs
    omega
  rw [Token.location_eq (Tiles.place hps _) hplace hstop]
  exact Text.at?_eq h rfl rfl

namespace Token

structure Taken (s : Text) (ts : List Token) : Prop where
  stands : ∀ us, us <:+: ts → us ≠ [] → s.at? (location us) = some (source us)
  spelled : ∀ t ∈ ts, t.kind.form.Spells t.text
  apart : ts.IsChain fun t u => t.kind = .inlineText → u.kind ≠ .inlineText
  short : ∀ t ∈ ts, t.text.length < Nat.pow 2 63

theorem Taken.part {s : Text} {ts us : List Token} (h : Taken s ts) (hus : us <:+: ts) : Taken s us where
  stands vs hvs := h.stands vs (hvs.trans hus)
  spelled t ht := h.spelled t (hus.subset ht)
  apart := List.IsChain.infix h.apart hus
  short t ht := h.short t (hus.subset ht)

theorem Taken.at_location {s : Text} {ts : List Token} (h : Taken s ts) (hts : ts ≠ []) :
    s.at? (location ts) = some (source ts) := h.stands ts List.infix_rfl hts

theorem taken_place {legacyIds : Bool} {b : Lexer.State} {s : Text} {ps : List Piece}
    (h : Lexer.Reads legacyIds (.root false) s ps b []) (hs : Text.bytes s < Nat.pow 2 63) :
    Taken s (Piece.place 0 ps) := by
  constructor
  · rintro us ⟨before, after, hsplit⟩ hne
    rw [List.append_assoc] at hsplit
    obtain ⟨-, hrest⟩ := Piece.eq_place_of_append hsplit.symm
    obtain ⟨hus, -⟩ := Piece.eq_place_of_append hrest.symm
    have hps : ps = before.map piece ++ us.map piece ++ after.map piece := by
      rw [← Piece.map_piece_place 0 ps, ← hsplit, List.map_append, List.map_append, List.append_assoc]
    have hsource : s = Piece.source (before.map piece) ++ Piece.source (us.map piece) ++
        Piece.source (after.map piece) := by
      rw [h.source_eq, hps, Piece.source_append, Piece.source_append, List.append_nil]
    have hbefore : source before = Piece.source (before.map piece) := (List.flatMap_map piece Piece.text before).symm
    rw [hus, Nat.zero_add, Piece.source_place, hbefore]
    apply Piece.at_location hsource hs (by simpa using hne)
    intro p hp
    apply h.text_ne_nil
    simp only [hps, List.mem_append]
    exact Or.inl (Or.inr hp)
  · intro t ht
    exact h.spelled t.piece (Piece.piece_of_mem_place ht)
  · have happart := h.words_apart
    rw [← Piece.map_piece_place 0 ps, List.isChain_map] at happart
    exact happart
  · intro t ht
    have hbytes : Text.bytes t.text ≤ Text.bytes s := by
      obtain ⟨before, after, hsplit⟩ := List.append_of_mem (Piece.piece_of_mem_place ht)
      rw [h.source_eq, hsplit, Piece.source_append, Piece.source_cons]
      simp only [Text.bytes_append]
      change Text.bytes t.piece.text ≤ _
      omega
    exact (t.text.length_le_bytes.trans hbytes).trans_lt hs

end Token

inductive Text.Spaced : List Text → Text → Prop
  | last (w : Text) (n : Nat) : Spaced [w] (w ++ List.replicate n ' ')
  | cons (w : Text) (n : Nat) {ws : List Text} {s : Text} (h : Spaced ws s) :
      Spaced (w :: ws) (w ++ List.replicate (n + 1) ' ' ++ s)

def Line.Stands (s : Text) (l : Line) : Prop := ∃ t, s.at? l.location = some t ∧ Text.Spaced l.words t

def Block.Stands (s : Text) : Block → Prop
  | headline h => h.title.Stands s ∧ ∃ n t, s.at? h.title.location = some t ∧
      s.at? h.location = some ('\n' :: List.replicate (h.level + 1) '=' ++ List.replicate n ' ' ++ t)
  | paragraph p => ∀ l ∈ p.lines, l.Stands s
  | emptyLine l => ∃ blanks, s.at? l = some ('\n' :: blanks) ∧ ∀ c ∈ blanks, Text.isIndent c = true
  | attributes _ => True

namespace Token.Taken

variable {s : Text} {t : Token} {ts : List Token}

theorem text_eq (h : Taken s ts) (ht : t ∈ ts) {k : Kind} (hk : t.kind = k) {c : Char} (hc : k.form = .one c) :
    t.text = [c] := by
  have hspelled := h.spelled t ht
  rwa [hk, hc] at hspelled

theorem source_spaces (h : Taken s ts) (hts : ∀ t ∈ ts, t.kind = .space) :
    source ts = List.replicate ts.length ' ' := by
  induction ts with
  | nil => rfl
  | cons t ts ih =>
    obtain ⟨ht, hrest⟩ := List.forall_mem_cons.mp hts
    have htail := ih (h.part (List.suffix_cons t ts).isInfix) hrest
    rw [source] at htail ⊢
    rw [List.flatMap_cons, h.text_eq List.mem_cons_self ht rfl, htail]
    rfl

theorem spaced (h : Taken s ts) (hts : ∀ t ∈ ts, t.kind = .inlineText ∨ t.kind = .space) :
    ∃ n u, source ts = List.replicate n ' ' ++ u ∧
      (texts .inlineText ts = [] ∧ u = [] ∨ Text.Spaced (texts .inlineText ts) u) ∧
      (n = 0 ↔ ∀ t ∈ ts.head?, t.kind = .inlineText) := by
  -- from the last token to the first, so spaces may stand in front of what is left
  induction ts with
  | nil => exact ⟨0, [], rfl, Or.inl ⟨rfl, rfl⟩, by simp⟩
  | cons t ts ih =>
    obtain ⟨ht, hrest⟩ := List.forall_mem_cons.mp hts
    obtain ⟨n, u, hsource, hwords, hhead⟩ := ih (h.part (List.suffix_cons t ts).isInfix) hrest
    have hcons : source (t :: ts) = t.text ++ (List.replicate n ' ' ++ u) := congrArg _ hsource
    rcases ht with ht | ht
    · have htexts : texts .inlineText (t :: ts) = t.text :: texts .inlineText ts := by simp [texts, ht]
      refine ⟨0, t.text ++ (List.replicate n ' ' ++ u), hcons, Or.inr ?_, by simpa using ht⟩
      rw [htexts]
      rcases hwords with ⟨hnone, rfl⟩ | hspaced
      · rw [hnone, List.append_nil]
        exact .last t.text n
      · obtain ⟨k, rfl⟩ : ∃ k, n = k + 1 := by
          apply Nat.exists_eq_add_one_of_ne_zero
          intro hn
          cases ts with
          | nil => cases hspaced
          | cons v ts =>
            have hv : v.kind ≠ .inlineText := (List.isChain_cons_cons.mp h.apart).1 ht
            exact hv (hhead.mp hn v rfl)
        rw [← List.append_assoc]
        exact .cons t.text k hspaced
    · have htexts : texts .inlineText (t :: ts) = texts .inlineText ts := by simp [texts, ht]
      refine ⟨n + 1, u, ?_, by rwa [htexts], by simp [ht]⟩
      rw [hcons, h.text_eq List.mem_cons_self ht rfl]
      rfl

theorem at_line (h : Taken s ts) (hline : Row.IsLine ts) :
    s.at? (Row.line ts).location = some (source (ts.dropWhile Row.isSpace)) := by
  obtain ⟨w, rest, hdrop, -⟩ := hline
  apply h.stands _ (List.dropWhile_suffix _).isInfix
  rw [hdrop]
  exact List.cons_ne_nil w rest

theorem line_stands (h : Taken s ts) (hline : Row.IsLine ts) : (Row.line ts).Stands s := by
  have hlocation := h.at_line hline
  have htaken := h.part (List.dropWhile_suffix Row.isSpace).isInfix
  obtain ⟨w, rest, hdrop, hw, hrest⟩ := hline
  rw [hdrop] at hlocation htaken
  obtain ⟨n, u, hsource, hwords, hhead⟩ := htaken.spaced (List.forall_mem_cons.mpr ⟨Or.inl hw, hrest⟩)
  have hn : n = 0 := hhead.mpr (by simpa using hw)
  have htexts : texts .inlineText (w :: rest) ≠ [] := by simp [texts, hw]
  rw [hsource, hn, List.replicate_zero, List.nil_append] at hlocation
  refine ⟨u, hlocation, ?_⟩
  rw [Row.line, hdrop]
  exact hwords.resolve_left fun hnone => htexts hnone.1

theorem marker_eq (h : Taken s ts) (ht : t ∈ ts) (hk : t.kind = .headline) :
    t.text = List.replicate (Headline.levelOf t.text.length + 1) '=' := by
  have hspelled := h.spelled t ht
  rw [hk] at hspelled
  obtain ⟨hne, hchars⟩ := hspelled
  have hpos := List.length_pos_of_ne_nil hne
  have hlevel : Headline.levelOf t.text.length = t.text.length - 1 := by
    have hshort := h.short t ht
    simp only [Nat.pow_eq] at hshort
    exact if_pos (by simp only [Nat.pow_eq]; omega)
  refine List.eq_replicate_iff.mpr ⟨by omega, fun c hc => ?_⟩
  simpa using hchars c hc

end Token.Taken

namespace Part

open Token

theorem stands_headline {s : Text} {opening marker : Token} {rest : List Token}
    (hvalid : (headline opening marker rest).Valid) (h : Taken s (opening :: marker :: rest)) :
    Block.Stands s (.headline ⟨Headline.levelOf marker.text.length, Row.line rest,
      Token.location (opening :: marker :: rest)⟩) := by
  obtain ⟨ho, hm, hline⟩ := hvalid
  have hrest : Taken s rest := h.part ⟨[opening, marker], [], by simp⟩
  have hspaces : source (rest.takeWhile Row.isSpace) =
      List.replicate (rest.takeWhile Row.isSpace).length ' ' := by
    apply (hrest.part (List.takeWhile_prefix _).isInfix).source_spaces
    intro t ht
    simpa [Row.isSpace] using List.mem_takeWhile_imp ht
  refine ⟨hrest.line_stands hline, (rest.takeWhile Row.isSpace).length, _, hrest.at_line hline, ?_⟩
  have hsource : source (opening :: marker :: rest) = opening.text ++ (marker.text ++
      (source (rest.takeWhile Row.isSpace) ++ source (rest.dropWhile Row.isSpace))) := by
    rw [source, source, source, ← List.flatMap_append, List.takeWhile_append_dropWhile]
    rfl
  have hopening : opening.text = ['\n'] := h.text_eq List.mem_cons_self ho rfl
  have hmarker := h.marker_eq (List.mem_cons_of_mem _ List.mem_cons_self) hm
  rw [h.at_location (List.cons_ne_nil _ _), hsource, hopening, hspaces, ← hmarker]
  simp

theorem stands_block {s : Text} {p : Part} (hvalid : p.Valid) (h : Taken s p.tokens) {b : Block}
    (hb : p.block? = some b) : b.Stands s := by
  cases p with
  | newline t => cases hb
  | emptyLine t =>
    cases hb
    have hspelled := h.spelled t List.mem_cons_self
    rw [show t.kind = .emptyLine from hvalid] at hspelled
    obtain ⟨blanks, htext, hblanks⟩ := hspelled
    refine ⟨blanks, ?_, hblanks⟩
    rw [← htext]
    simpa [source, tokens] using h.at_location (List.cons_ne_nil _ _)
  | headline opening marker rest =>
    cases hb
    exact stands_headline hvalid h
  | attributes opening list =>
    cases hb
    exact trivial
  | paragraph rows =>
    cases hb
    intro l hl
    obtain ⟨r, hr, rfl⟩ := List.mem_map.mp hl
    have hbody : r.body <:+: r.tokens := (List.suffix_cons _ _).isInfix
    have hrow : r.tokens <:+: rows.flatMap Row.tokens := List.infix_of_mem_flatten (List.mem_map_of_mem hr)
    exact (h.part (hbody.trans hrow)).line_stands (hvalid.2 r hr).2

end Part

namespace Attribute

def StandsAsEntry (s : Text) (a : Attribute) : Prop :=
  ∃ t, s.at? a.value.location = some t ∧ s.at? a.location = some (a.key.elim t fun k => k ++ '=' :: t) ∧
    (a.value.values = [t] ∨ t = '"' :: Text.unwords a.value.values ++ ['"'])

def StandsAsShorthand (s : Text) (m : Mark) (a : Attribute) : Prop :=
  (∃ vs, vs ≠ [] ∧ vs <+: a.value.values ∧ s.at? a.location = some (vs.flatMap (m.symbol :: ·))) ∨
    m = .id ∧ ∃ v, a.value.values.head? = some v ∧ s.at? a.location = some ('[' :: v ++ [']'])

end Attribute

namespace Place

open Token

def joined : Place → List Text → Text
  -- behind a word, a space comes before the next one
  | stringWord, vs => vs.flatMap ([' '] ++ ·)
  | _, vs => Text.unwords vs

theorem source_words {p q : Place} {ws : List Token} {b : Token} (hp : p ∈ [stringOpen, stringWord, stringGap])
    (hws : ∀ w ∈ ws, w.kind = .stringText ∨ w.kind = .space ∧ w.text = [' ']) (hb : b.kind = .stringEnd)
    (h : p.walk ((ws ++ [b]).map Token.kind) = some q) :
    source ws = p.joined (texts .stringText ws) ∧ (p = stringGap → texts .stringText ws ≠ []) := by
  simp only [List.mem_cons, List.not_mem_nil, or_false] at hp
  induction ws generalizing p with
  | nil =>
    obtain ⟨r, hr, -⟩ := walk_cons_eq_some h
    rw [hb] at hr
    rcases hp with rfl | rfl | rfl
    · exact ⟨rfl, by simp⟩
    · exact ⟨rfl, by simp⟩
    · cases hr
  | cons w ws ih =>
    obtain ⟨r, hr, hwalk⟩ := walk_cons_eq_some h
    obtain ⟨hw, hws⟩ := List.forall_mem_cons.mp hws
    rcases hw with hk | ⟨hk, htext⟩
    · have htexts : texts .stringText (w :: ws) = w.text :: texts .stringText ws := by simp [texts, hk]
      have hunwords (hnext : stringWord.walk ((ws ++ [b]).map Token.kind) = some q) :
          source (w :: ws) = Text.unwords (texts .stringText (w :: ws)) := by
        rw [htexts, Text.unwords, Text.intercalate_cons]
        exact congrArg (w.text ++ ·) (ih hws hnext (by simp)).1
      rw [hk] at hr
      rcases hp with rfl | rfl | rfl
      · cases hr
        exact ⟨hunwords hwalk, by simp⟩
      · cases hr
      · cases hr
        exact ⟨hunwords hwalk, by simp [htexts]⟩
    · have htexts : texts .stringText (w :: ws) = texts .stringText ws := by simp [texts, hk]
      rw [hk] at hr
      rcases hp with rfl | rfl | rfl
      · cases hr
      · cases hr
        obtain ⟨hsource, hne⟩ := ih hws hwalk (by simp)
        obtain ⟨v, vs, hvs⟩ := List.exists_cons_of_ne_nil (hne rfl)
        refine ⟨?_, by simp⟩
        have hcons : source (w :: ws) = w.text ++ source ws := rfl
        rw [hcons, hsource, htexts, htext, hvs]
        change [' '] ++ [' '].intercalate (v :: vs) = (v :: vs).flatMap _
        rw [Text.intercalate_cons, List.flatMap_cons, List.append_assoc]
      · cases hr

end Place

namespace Item

open Token Place

theorem source_value {s : Text} {value : List Token} (hvalue : ValidValue value) (h : Taken s value) {p q : Place}
    (hp : p ∈ beforeValue :: beforeEntry :: itemEnds) (hwalk : p.walk (value.map Token.kind) = some q) :
    Token.values value = [source value] ∨ source value = '"' :: Text.unwords (Token.values value) ++ ['"'] := by
  rcases hvalue with ⟨t, rfl, ht⟩ | ⟨a, words, b, rfl, ha, hb, hwords⟩
  · exact Or.inl (by simp [Token.values, texts, source, ht])
  · have hnext : ∀ p ∈ beforeValue :: beforeEntry :: itemEnds, ∀ r ∈ p.next? .stringStart, r = stringOpen := by
      decide
    obtain ⟨r, hr, hwalk⟩ := walk_cons_eq_some hwalk
    rw [ha] at hr
    obtain rfl := hnext p hp r hr
    have hopening : a.text = ['"'] := by
      have hspelled := h.spelled a List.mem_cons_self
      rwa [ha] at hspelled
    have hclosing : b.text = ['"'] := h.text_eq (by simp) hb rfl
    have hspelled : ∀ w ∈ words, w.kind = .stringText ∨ w.kind = .space ∧ w.text = [' '] := by
      intro w hw
      exact (hwords w hw).imp_right fun hk => ⟨hk, h.text_eq (by simp [hw]) hk rfl⟩
    obtain ⟨hsource, -⟩ := source_words (by simp) hspelled hb hwalk
    have hvalues : Token.values (a :: words ++ [b]) = texts .stringText words := by
      simp [Token.values, texts, ha, hb]
    have hall : source (a :: words ++ [b]) = a.text ++ (source words ++ b.text) := by simp [source]
    rw [hvalues, hall, hopening, hsource, hclosing]
    exact Or.inr rfl

theorem exists_walk {items : List Item} (hitems : ∀ i ∈ items, i.Valid) {p q : Place}
    (hp : p ∈ beforeEntry :: itemEnds) (h : p.walk ((items.flatMap tokens).map Token.kind) = some q) :
    ∀ i ∈ items, ∃ r ∈ beforeEntry :: itemEnds, ∃ t, r.walk (i.tokens.map Token.kind) = some t := by
  induction items generalizing p with
  | nil => simp
  | cons i items ih =>
    obtain ⟨hi, hrest⟩ := List.forall_mem_cons.mp hitems
    rw [List.flatMap_cons, List.map_append, walk_append] at h
    obtain ⟨r, hr, hwalk⟩ := Option.bind_eq_some_iff.mp h
    refine List.forall_mem_cons.mpr ⟨⟨p, hp, r, hr⟩, ?_⟩
    rcases walk_tokens hi hp hr with ⟨-, -, rfl⟩ | ⟨-, -, rfl⟩ | ⟨-, -, rfl⟩ | ⟨-, hends⟩
    · cases items with
      | nil => simp
      | cons j items =>
        rw [List.flatMap_cons, (hrest j List.mem_cons_self).walk_between] at hwalk
        cases hwalk
    · exact ih hrest (by simp) hwalk
    · exact ih hrest (by simp [itemEnds]) hwalk
    · exact ih hrest (mem_itemEnds hends) hwalk

theorem stands_entry {s : Text} {key : Option (Token × Token)} {value : List Token} (hi : (entry key value).Valid)
    (h : Taken s (entry key value).tokens) {p q : Place} (hp : p ∈ beforeEntry :: itemEnds)
    (hwalk : p.walk ((entry key value).tokens.map Token.kind) = some q) :
    Attribute.StandsAsEntry s ⟨key.map fun p => p.1.text, ⟨Token.values value, Token.location value⟩,
      Token.location (entry key value).tokens⟩ := by
  obtain ⟨r, hr, hvalue⟩ := walk_entry hi hp hwalk
  obtain ⟨ts, hts⟩ := exists_tokens_entry key value
  have htaken : Taken s value := h.part ⟨ts, [], by simp [hts]⟩
  refine ⟨source value, htaken.at_location hi.2.ne_nil, ?_, source_value hi.2 htaken hr hvalue⟩
  rw [h.at_location hi.tokens_ne_nil]
  cases key with
  | none => rfl
  | some k =>
    have hassignment : k.2.text = ['='] := h.text_eq (by simp [tokens]) (hi.1 k rfl).2 rfl
    have hsource : source (entry (some k) value).tokens = k.1.text ++ (k.2.text ++ source value) := rfl
    rw [hsource, hassignment]
    rfl

theorem stands_shorthand {s : Text} {i : Item} (hi : i.Valid) (h : Taken s i.tokens) {m : Mark}
    (hm : i.mark? = some m) : Attribute.StandsAsShorthand s m
      ⟨some m.key, ⟨texts .listText i.tokens, Token.textLocation i.tokens⟩, Token.location i.tokens⟩ := by
  have hlocation := h.at_location hi.tokens_ne_nil
  cases i with
  | punctuation t => cases hm
  | entry key value => cases hm
  | legacyId a b c =>
    cases hm
    obtain ⟨ha, hb, hc⟩ := hi
    refine Or.inr ⟨rfl, b.text, by simp [tokens, texts, ha, hb], ?_⟩
    have hopening : a.text = ['['] := h.text_eq (by simp [tokens]) ha rfl
    have hclosing : c.text = [']'] := h.text_eq (by simp [tokens]) hc rfl
    rw [hlocation]
    simp [source, tokens, hopening, hclosing]
  | marked pairs =>
    obtain ⟨hne, l, hl⟩ := hi
    obtain rfl : l = m := Option.some.inj ((mark?_marked hne hl).symm.trans hm)
    refine Or.inl ⟨pairs.map fun p => p.2.text, by simpa using hne, ?_, ?_⟩
    · rw [texts_marked hl]
    · rw [hlocation, source, tokens, List.flatMap_assoc, List.flatMap_map]
      apply congrArg some
      apply List.flatMap_congr
      intro p hp
      have hform : l.kind.form = .one l.symbol := by cases l <;> rfl
      have hmark := h.text_eq (mem_tokens_marked.mpr ⟨p, hp, Or.inl rfl⟩) (hl p hp).1 hform
      simp [hmark]

end Item

namespace Gathered

open Token

def Stands (s : Text) (g : Gathered) : Prop :=
  match g.mark with
  | none => g.built.StandsAsEntry s
  | some m => g.built.StandsAsShorthand s m

theorem Stands.extend {s : Text} {g : Gathered} {m : Mark} (hm : g.mark = some m) (h : g.Stands s)
    (vs : List Text) : (g.extend vs).Stands s := by
  have hextended : (g.extend vs).mark = some m := hm
  rw [Stands, hm] at h
  rw [Stands, hextended]
  -- the new values stand elsewhere; the location still shows the first of all
  rcases h with ⟨ws, hne, hprefix, hat⟩ | ⟨rfl, v, hv, hat⟩
  · exact Or.inl ⟨ws, hne, hprefix.trans (List.prefix_append _ _), hat⟩
  · refine Or.inr ⟨rfl, v, ?_, hat⟩
    change (g.built.value.values ++ vs).head? = some v
    rw [List.head?_append, hv]
    rfl

theorem stands_gather {s : Text} {i : Item} (hi : i.Valid) (h : Taken s i.tokens)
    (hwalk : ∃ p ∈ Place.beforeEntry :: Place.itemEnds, ∃ q, p.walk (i.tokens.map Token.kind) = some q)
    {gs : List Gathered} (hgs : ∀ g ∈ gs, g.Stands s) : ∀ g ∈ i.gather gs, g.Stands s := by
  rcases Item.exists_mark? hi with ⟨t, rfl⟩ | ⟨key, value, rfl⟩ | ⟨m, hm, hgather⟩
  · exact hgs
  · obtain ⟨p, hp, q, hq⟩ := hwalk
    exact List.forall_mem_append.mpr ⟨hgs, List.forall_mem_singleton.mpr (Item.stands_entry hi h hp hq)⟩
  · rw [hgather, shorthand]
    split
    · intro g hg
      obtain ⟨f, hf, rfl⟩ := List.mem_map.mp hg
      split
      · exact (hgs f hf).extend ‹_› _
      · exact hgs f hf
    · exact List.forall_mem_append.mpr ⟨hgs, List.forall_mem_singleton.mpr (Item.stands_shorthand hi h hm)⟩

theorem stands_foldl {s : Text} {items : List Item} (hitems : ∀ i ∈ items, i.Valid)
    (h : Taken s (items.flatMap Item.tokens))
    (hwalk : ∀ i ∈ items, ∃ p ∈ Place.beforeEntry :: Place.itemEnds, ∃ q,
      p.walk (i.tokens.map Token.kind) = some q)
    {gs : List Gathered} (hgs : ∀ g ∈ gs, g.Stands s) : ∀ g ∈ items.foldl Item.gather gs, g.Stands s := by
  induction items generalizing gs with
  | nil => exact hgs
  | cons i items ih =>
    obtain ⟨hi, hrest⟩ := List.forall_mem_cons.mp hitems
    obtain ⟨hstep, hsteps⟩ := List.forall_mem_cons.mp hwalk
    rw [List.flatMap_cons] at h
    apply ih hrest (h.part (List.suffix_append _ _).isInfix) hsteps
    exact stands_gather hi (h.part (List.prefix_append _ _).isInfix) hstep hgs

end Gathered

def AttributeBlock.StandsFrom (s : Text) (n : Node) (b : AttributeBlock) : Prop :=
  ∃ (m : Node) (gs : List Gathered), n.child .attributeList = .ok m ∧
    m.orderedNodes.foldlM (Gathered.addItem m.rule) [] = .ok gs ∧
    b.list.attributes = gs.map Gathered.built ∧ ∀ g ∈ gs, g.Stands s

theorem Place.walk_part {p q : Place} {ts us : List Token} (h : p.walk (ts.map Token.kind) = some q)
    (hus : us <:+: ts) : ∃ r t : Place, r.walk (us.map Token.kind) = some t := by
  obtain ⟨before, after, rfl⟩ := hus
  rw [List.map_append, List.map_append, walk_append] at h
  obtain ⟨t, hfirst, -⟩ := Option.bind_eq_some_iff.mp h
  rw [walk_append] at hfirst
  obtain ⟨r, -, hus⟩ := Option.bind_eq_some_iff.mp hfirst
  exact ⟨r, t, hus⟩

theorem Part.standsFrom_attributes {s : Text} {opening : Token} {list : List Token} {a b : Nat} {p q : Place}
    (hvalid : (attributes opening list).Valid) (h : Token.Taken s (attributes opening list).tokens)
    (htiles : Tiles a b ((attributes opening list).tokens.map .token))
    (hwalk : p.walk ((attributes opening list).tokens.map Token.kind) = some q) {n : Node}
    (hn : (attributes opening list).child = .node n) {block : AttributeBlock}
    (hblock : (attributes opening list).block? = some (.attributes block)) : block.StandsFrom s n := by
  have hchildren := orderedChildren_attributes hvalid htiles
  obtain ⟨hitems, -⟩ := items_attributes hvalid
  obtain ⟨t, ts, rfl, ht, htail, hwalk⟩ := walk_attributes hvalid hwalk
  rw [← htail.flatMap_tokens] at hwalk
  cases hn
  cases hblock
  refine ⟨_, _, rfl, ?_, rfl, ?_⟩
  · rw [Node.orderedNodes, hchildren, Item.foldlM_addItem _ hitems]
  · rw [Item.ofTokens_punctuation (Or.inl ht)]
    have hts : Token.Taken s ((Item.ofTokens ts).flatMap Item.tokens) := by
      rw [htail.flatMap_tokens]
      exact h.part (List.suffix_append [opening, t] ts).isInfix
    have hwalks := Item.exists_walk htail.valid (by simp [Place.itemEnds]) hwalk
    have hnone : ∀ g ∈ ([] : List Gathered), g.Stands s := by simp
    exact Gathered.stands_foldl htail.valid hts hwalks hnone

/-- At every location in a document the source holds what is said there: words with spaces between them, the
marker of a headline in front of its title, blank lines, entries with key and value, marks and their values. -/
theorem Document.locations_point {c : Config} {text : Text} {d : Document} (h : parse c text = .ok d)
    (hbytes : Text.bytes (normalize text) < Nat.pow 2 63) :
    (∀ b ∈ d.blocks, b.Stands (normalize text)) ∧
      ∃ ts n, tokenize c.legacyIds (normalize text) = .ok ts ∧ Node.parse ts = .ok n ∧ n.toDocument = .ok d ∧
        List.Forall₂ (AttributeBlock.StandsFrom (normalize text)) (n.nodes .attributeBlock) d.attributeBlocks := by
  obtain ⟨ps, b, hps, haccepts, rfl⟩ := (parse_eq_ok_iff c text d).mp h
  have htokens := (tokenize_eq_ok_iff c.legacyIds (normalize text) _).mpr ⟨ps, b, hps, rfl⟩
  have htaken := Token.taken_place hps hbytes
  have htiles := Tiles.place hps.text_ne_nil 0
  rw [← Piece.map_kind_place 0] at haccepts
  obtain ⟨hvalid, hparts, -⟩ := Part.ofRows_split haccepts
  have hinside {p : Part} (hp : p ∈ Part.ofRows (Row.split (Piece.place 0 ps)).2) :
      p.tokens <:+: Piece.place 0 ps := by
    rw [← hparts]
    exact List.infix_of_mem_flatten (List.mem_map_of_mem hp)
  constructor
  · intro block hblock
    obtain ⟨p, hp, hb⟩ := List.mem_filterMap.mp hblock
    exact Part.stands_block (hvalid p hp) (htaken.part (hinside hp)) hb
  · refine ⟨_, _, htokens, Node.parse_eq_ok_iff.mpr ⟨haccepts, rfl⟩, Node.toDocument_ofTokens haccepts htiles, ?_⟩
    obtain ⟨q, hwalk, -⟩ := haccepts
    apply Part.forall₂_attributeBlocks
    intro opening list hmem n block hn hblock
    obtain ⟨x, y, hpart⟩ := htiles.part (hinside hmem)
    obtain ⟨r, t, hr⟩ := Place.walk_part hwalk (hinside hmem)
    exact Part.standsFrom_attributes (hvalid _ hmem) (htaken.part (hinside hmem)) hpart hr hn hblock

theorem Document.locations_point_wide :
    let text := "= Tí  tle \n \t\n[[top]k=\"v w\",x%o.b.c#e]\n  two  é\nlines".toList
    ∃ d, parse {} text = .ok d ∧ Text.bytes (normalize text) < Nat.pow 2 63 ∧
      (d.attributeBlocks.flatMap fun b => b.list.attributes.map fun a => (normalize text).at? a.location) =
        ["[top]", "k=\"v w\"", "x", "%o", ".b.c"].map (some ·.toList) ∧
      (∀ b ∈ d.blocks, b.Stands (normalize text)) ∧
      ∃ ts n, tokenize true (normalize text) = .ok ts ∧ Node.parse ts = .ok n ∧ n.toDocument = .ok d ∧
        List.Forall₂ (AttributeBlock.StandsFrom (normalize text)) (n.nodes .attributeBlock) d.attributeBlocks := by
  intro text
  have hparse : (parse {} text).toOption.any (fun d =>
      (d.attributeBlocks.flatMap fun b => b.list.attributes.map fun a => (normalize text).at? a.location) =
        ["[top]", "k=\"v w\"", "x", "%o", ".b.c"].map (some ·.toList)) = true := by
    decide +kernel
  have hbytes : Text.bytes (normalize text) = 56 := by decide +kernel
  have hsmall : Text.bytes (normalize text) < Nat.pow 2 63 := by
    rw [hbytes]
    decide
  obtain ⟨d, htext, hattributes⟩ := exists_ok_of_any hparse
  exact ⟨d, htext, hsmall, of_decide_eq_true hattributes, locations_point htext hsmall⟩

end AsciiDoc
