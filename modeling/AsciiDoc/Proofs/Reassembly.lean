import AsciiDoc.Proofs.Reparsing

namespace AsciiDoc

open Piece

namespace Piece

def Inner (p : Piece) : Prop := Row.opens p.kind = false

theorem inner_separate {sep : Piece} (hsep : sep.Inner) {pss : List (List Piece)}
    (h : ∀ ps ∈ pss, ∀ p ∈ ps, p.Inner) : ∀ p ∈ separate sep pss, p.Inner := by
  cases pss with
  | nil => simp [separate]
  | cons ps pss =>
    obtain ⟨hps, hpss⟩ := List.forall_mem_cons.mp h
    refine List.forall_mem_append.mpr ⟨hps, ?_⟩
    intro p hp
    obtain ⟨qs, hqs, hp⟩ := List.mem_flatMap.mp hp
    rcases List.mem_cons.mp hp with rfl | hp
    · exact hsep
    · exact hpss qs hqs p hp

theorem inner_phrase {k : Kind} (hk : Row.opens k = false) (ss : List Text) : ∀ p ∈ phrase k ss, p.Inner := by
  intro p hp
  rcases kind_of_mem_phrase hp with h | h
  · rw [Inner, h, hk]
  · rw [Inner, h]
    rfl

theorem inner_value (c : Config) (v : AttributeValue) : ∀ p ∈ v.pieces c, p.Inner := by
  unfold AttributeValue.pieces
  split
  · refine List.forall_mem_append.mpr ⟨List.forall_mem_cons.mpr ⟨rfl, inner_phrase rfl _⟩, ?_⟩
    exact List.forall_mem_singleton.mpr rfl
  · intro p hp
    obtain ⟨s, -, rfl⟩ := List.mem_map.mp hp
    rfl

theorem inner_entry (c : Config) (a : Attribute) : ∀ p ∈ a.pieces c, p.Inner := by
  obtain ⟨_ | key, value, location⟩ := a
  · exact inner_value c value
  · exact List.forall_mem_cons.mpr ⟨rfl, List.forall_mem_cons.mpr ⟨rfl, inner_value c value⟩⟩

theorem inner_shorts (m : Mark) (ss : List Text) : ∀ p ∈ ss.flatMap (short m), p.Inner := by
  intro p hp
  obtain ⟨s, -, hp⟩ := List.mem_flatMap.mp hp
  rcases List.mem_pair.mp hp with rfl | rfl
  · cases m <;> rfl
  · rfl

theorem inner_list (c : Config) (l : AttributeList) : ∀ p ∈ l.pieces c, p.Inner := by
  have hentries : ∀ p ∈ separate comma ((l.entries c).map (Attribute.pieces c)), p.Inner := by
    apply inner_separate (show comma.Inner from rfl)
    intro ps hps
    obtain ⟨a, -, rfl⟩ := List.mem_map.mp hps
    exact inner_entry c a
  have hshorts (m : Mark) := inner_shorts m (l.marked c m)
  simp only [AttributeList.pieces, List.forall_mem_append, List.cons_append, List.forall_mem_cons]
  exact ⟨rfl, ⟨⟨⟨hentries, hshorts .id⟩, hshorts .role⟩, hshorts .option⟩, rfl, by simp⟩

end Piece

namespace Row

theorem split_place {q : Piece} {body : List Piece} (hq : opens q.kind = true) (hbody : ∀ p ∈ body, p.Inner)
    (offset : Nat) {ts : List Token} (hts : (split ts).1 = []) :
    split (place offset (q :: body) ++ ts) =
      ([], ⟨⟨q.kind, q.text, ⟨offset, offset + Text.bytes q.text⟩⟩,
        place (offset + Text.bytes q.text) body⟩ :: (split ts).2) := by
  have hinner : ∀ t ∈ place (offset + Text.bytes q.text) body, opens t.kind = false := by
    intro t ht
    exact hbody t.piece (piece_of_mem_place ht)
  rw [place, List.cons_append, split_cons_of_opens hq, split_append hinner, hts, List.append_nil]

theorem words_line (offset : Nat) (ps : List Piece) :
    (line (place offset ps)).words = texts .inlineText ps := by
  have hspaces : Token.texts .inlineText ((place offset ps).takeWhile isSpace) = [] := by
    rw [Token.texts, List.map_eq_nil_iff, List.filter_eq_nil_iff]
    intro t ht
    have hspace : t.kind = .space := by simpa [isSpace] using List.mem_takeWhile_imp ht
    simp [hspace]
  have hsplit : Token.texts .inlineText (place offset ps) =
      Token.texts .inlineText ((place offset ps).takeWhile isSpace) ++
        Token.texts .inlineText ((place offset ps).dropWhile isSpace) := by
    conv_lhs => rw [← List.takeWhile_append_dropWhile (p := isSpace) (l := place offset ps), Token.texts,
      List.filter_append, List.map_append]
    rfl
  rw [← texts_place .inlineText offset, hsplit, hspaces]
  rfl

end Row

namespace Part

theorem ofRow_headline {opening marker : Token} (ho : opening.kind = .newline) (hm : marker.kind = .headline)
    (rest : List Token) : ofRow ⟨opening, marker :: rest⟩ = headline opening marker rest := by
  simp [ofRow, ho, hm]

theorem ofRow_attributes {opening t : Token} (ho : opening.kind = .newline) (ht : t.kind = .listStart)
    (ts : List Token) : ofRow ⟨opening, t :: ts⟩ = attributes opening (t :: ts) := by
  simp [ofRow, ho, ht]

theorem ofRow_paragraph {opening t : Token} (ho : opening.kind = .newline)
    (ht : t.kind = .space ∨ t.kind = .inlineText) (ts : List Token) :
    ofRow ⟨opening, t :: ts⟩ = paragraph [⟨opening, t :: ts⟩] := by
  rcases ht with ht | ht <;> simp [ofRow, ho, ht]

theorem ofRow_emptyLine {opening : Token} (ho : opening.kind = .emptyLine) (body : List Token) :
    ofRow ⟨opening, body⟩ = emptyLine opening := by
  simp [ofRow, ho]

theorem foldr_join_paragraph {rows : List Row} (hne : rows ≠ []) (h : ∀ r ∈ rows, ofRow r = paragraph [r])
    {parts : List Part} (hparts : ∀ q ∈ parts.head?, q.isParagraph = false) :
    rows.foldr (fun r => join (ofRow r)) parts = paragraph rows :: parts := by
  induction rows with
  | nil => exact absurd rfl hne
  | cons r rows ih =>
    obtain ⟨hr, hrest⟩ := List.forall_mem_cons.mp h
    rw [List.foldr_cons, hr]
    cases rows with
    | nil => exact join_apart _ hparts
    | cons r' rows =>
      rw [ih (List.cons_ne_nil r' rows) hrest]
      rfl

theorem isParagraph_of_block? {p : Part} {b : Block} (h : p.block?.map Block.bare = some b.bare) :
    p.isParagraph = b.isParagraph := by
  obtain ⟨d, hd, hbare⟩ := Option.map_eq_some_iff.mp h
  have hb : b.isParagraph = b.bare.isParagraph := by cases b <;> rfl
  rw [hb, ← hbare]
  cases p <;> cases hd <;> rfl

variable {ts : List Token}

def Prepends (c : Config) (b : Block) (front ts : List Token) : Prop :=
  (Row.split (front ++ ts)).1 = [] ∧ ∃ p : Part,
    ofRows (Row.split (front ++ ts)).2 = p :: ofRows (Row.split ts).2 ∧
      p.block?.map Block.bare = some (b.canonical c).bare

theorem prepends_row {c : Config} {b : Block} {q : Piece} {body : List Piece} {offset : Nat}
    (hq : Row.opens q.kind = true) (hbody : ∀ p ∈ body, p.Inner) (hts : (Row.split ts).1 = []) {p : Part}
    (hp : ofRow ⟨⟨q.kind, q.text, ⟨offset, offset + Text.bytes q.text⟩⟩,
      place (offset + Text.bytes q.text) body⟩ = p) (hparagraph : p.isParagraph = false)
    (hblock : p.block?.map Block.bare = some (b.canonical c).bare) :
    Prepends c b (place offset (q :: body)) ts := by
  rw [Prepends, Row.split_place hq hbody offset hts, ofRows_cons, hp]
  exact ⟨rfl, p, join_of_not_paragraph hparagraph _, hblock⟩

theorem prepends_headline (c : Config) {h : Headline} (hmarked : h.level ≠ Extent.lastOffset)
    (offset : Nat) (hts : (Row.split ts).1 = []) :
    Prepends c (.headline h) (place offset ((Block.headline h).pieces c)) ts := by
  have hwords (n : Nat) : (Row.line (place n (space :: phrase .inlineText h.title.words))).bare =
      h.title.bare := by
    rw [Line.bare, Row.words_line, texts_cons_of_ne (by decide), texts_phrase (by decide)]
    rfl
  have hinner : ∀ p ∈ (⟨.headline, h.marker⟩ :: space :: phrase .inlineText h.title.words : List Piece), p.Inner :=
    List.forall_mem_cons.mpr ⟨rfl, List.forall_mem_cons.mpr ⟨rfl, inner_phrase rfl _⟩⟩
  apply prepends_row rfl hinner hts (ofRow_headline rfl rfl _) rfl
  have hlevel : Headline.levelOf h.marker.length = h.level := by
    rw [Headline.marker, List.length_replicate, Headline.levelOf_signs hmarked]
  simp only [block?, Option.map_some, Block.bare, Block.canonical, hwords, hlevel]

theorem prepends_emptyLine (c : Config) (l : Location) (offset : Nat) (hts : (Row.split ts).1 = []) :
    Prepends c (.emptyLine l) (place offset ((Block.emptyLine l).pieces c)) ts := by
  apply prepends_row rfl (by simp) hts (ofRow_emptyLine rfl _) rfl
  simp only [block?, Option.map_some, Block.bare, Block.canonical]

theorem prepends_attributes (c : Config) {b : AttributeBlock} (h : (Block.attributes b).WellFormed)
    (offset : Nat) (hts : (Row.split ts).1 = []) :
    Prepends c (.attributes b) (place offset ((Block.attributes b).pieces c)) ts := by
  apply prepends_row rfl (inner_list c b.list) hts (ofRow_attributes rfl rfl _) rfl
  have hlist := AttributeList.gather_canonical h c (offset + Text.bytes Piece.newline.text)
  simp only [block?, Option.map_some, Block.bare, Block.canonical, AttributeList.bare]
  exact congrArg (fun as => some (Block.attributes ⟨⟨as, .unresolved⟩, .unresolved⟩)) hlist

end Part

namespace Paragraph

def IsRowOf (c : Config) (p : Paragraph) (r : Row) (l : Line) : Prop :=
  Part.ofRow r = .paragraph [r] ∧ (Row.line r.body).words = l.words ∧
    (r.body.takeWhile Row.isSpace).isEmpty = (p.indent c l.joined).isEmpty

theorem isRowOf_place (c : Config) (p : Paragraph) {l : Line} (h : l.WellFormed) {opening : Token}
    (ho : opening.kind = .newline) (offset : Nat) :
    p.IsRowOf c ⟨opening, place offset
      (((p.indent c l.joined).map fun ch => ⟨.space, [ch]⟩) ++ phrase .inlineText l.words)⟩ l := by
  have hwords : texts .inlineText (((p.indent c l.joined).map fun ch => (⟨.space, [ch]⟩ : Piece)) ++
      phrase .inlineText l.words) = l.words := by
    have hindent : texts .inlineText ((p.indent c l.joined).map fun ch => (⟨.space, [ch]⟩ : Piece)) = [] := by
      simp [texts]
    rw [texts_append, texts_phrase (by decide), hindent]
    rfl
  obtain ⟨w, ws, hl⟩ := List.exists_cons_of_ne_nil h.1
  refine ⟨?_, (Row.words_line _ _).trans hwords, ?_⟩
  · rw [hl]
    cases p.indent c l.joined with
    | nil => exact Part.ofRow_paragraph ho (Or.inr rfl) _
    | cons ch chs => exact Part.ofRow_paragraph ho (Or.inl rfl) _
  · rw [hl]
    cases p.indent c l.joined with
    | nil => rfl
    | cons ch chs => rfl

theorem split_line (c : Config) (p : Paragraph) {l : Line} (h : l.WellFormed) (offset : Nat) {ts : List Token}
    (hts : (Row.split ts).1 = []) :
    ∃ r, Row.split (place offset (p.linePieces c l) ++ ts) = ([], r :: (Row.split ts).2) ∧
      p.IsRowOf c r l := by
  have hinner : ∀ q ∈ ((p.indent c l.joined).map fun ch => (⟨.space, [ch]⟩ : Piece)) ++
      phrase .inlineText l.words, q.Inner := by
    refine List.forall_mem_append.mpr ⟨?_, inner_phrase rfl _⟩
    intro q hq
    obtain ⟨ch, -, rfl⟩ := List.mem_map.mp hq
    rfl
  exact ⟨_, Row.split_place (q := newline) rfl hinner offset hts, p.isRowOf_place c h rfl _⟩

theorem split_lines (c : Config) (p : Paragraph) {lines : List Line} (h : ∀ l ∈ lines, l.WellFormed)
    (offset : Nat) {ts : List Token} (hts : (Row.split ts).1 = []) :
    ∃ rows, Row.split (place offset (lines.flatMap (p.linePieces c)) ++ ts) = ([], rows ++ (Row.split ts).2) ∧
      List.Forall₂ (p.IsRowOf c) rows lines := by
  induction lines generalizing offset with
  | nil =>
    refine ⟨[], ?_, .nil⟩
    rw [List.flatMap_nil, place_nil, List.nil_append, List.nil_append, ← hts]
  | cons l lines ih =>
    obtain ⟨hl, hlines⟩ := List.forall_mem_cons.mp h
    obtain ⟨rows, hsplit, hrows⟩ := ih hlines (offset + Text.bytes (source (p.linePieces c l)))
    obtain ⟨r, hrow, hr⟩ := p.split_line c hl offset (congrArg Prod.fst hsplit)
    refine ⟨r :: rows, ?_, .cons hr hrows⟩
    rw [List.flatMap_cons, place_append, List.append_assoc, hrow, hsplit]
    rfl

theorem lines_of_isRowOf {c : Config} {p : Paragraph} {rows : List Row} {lines : List Line}
    (h : List.Forall₂ (p.IsRowOf c) rows lines) :
    (∀ r ∈ rows, Part.ofRow r = .paragraph [r]) ∧
      (rows.map fun r => (Row.line r.body).bare) = lines.map Line.bare ∧
        (rows.any fun r => !(r.body.takeWhile Row.isSpace).isEmpty) =
          lines.any fun l => !(p.indent c l.joined).isEmpty := by
  induction h with
  | nil => simp
  | @cons r l rows lines hr _ ih =>
    obtain ⟨hpart, hwords, hindent⟩ := hr
    obtain ⟨hparts, hlines, hany⟩ := ih
    refine ⟨List.forall_mem_cons.mpr ⟨hpart, hparts⟩, ?_, ?_⟩
    · rw [List.map_cons, hlines, Line.bare, hwords]
      rfl
    · rw [List.any_cons, hany, hindent, List.any_cons]

theorem any_indent {p : Paragraph} (h : p.lines ≠ []) (c : Config) :
    (p.lines.any fun l => !(p.indent c l.joined).isEmpty) = (p.canonical c).isLiteral := by
  have hline (l : Line) : (!(p.indent c l.joined).isEmpty) =
      (p.isLiteral && (decide (0 < c.literalIndent) || decide (l.joined.head? = some '='))) := by
    rw [Bool.eq_iff_iff, Bool.not_eq_true', ← Bool.not_eq_true, List.isEmpty_iff, p.indent_eq_nil_iff c,
      Bool.not_eq_false]
  obtain ⟨l, lines, hlines⟩ := List.exists_cons_of_ne_nil h
  simp only [hline, canonical]
  -- If the indent is empty, only lines that begin with `=` get one.
  cases p.isLiteral with
  | false => simp
  | true =>
    cases hpos : decide (0 < c.literalIndent) with
    | true => simp [hlines]
    | false => simp

end Paragraph

namespace Part

theorem prepends_paragraph (c : Config) {p : Paragraph} (h : p.WellFormed) (offset : Nat) {ts : List Token}
    (hts : (Row.split ts).1 = []) (hparts : ∀ q ∈ (ofRows (Row.split ts).2).head?, q.isParagraph = false) :
    Prepends c (.paragraph p) (place offset ((Block.paragraph p).pieces c)) ts := by
  obtain ⟨hne, hlines, -⟩ := h
  obtain ⟨rows, hsplit, hrows⟩ := p.split_lines c hlines offset hts
  obtain ⟨hparagraphs, hwords, hany⟩ := Paragraph.lines_of_isRowOf hrows
  have hrows : rows ≠ [] := by
    rintro rfl
    exact hne (List.forall₂_nil_left_iff.mp hrows)
  rw [Prepends, Block.pieces, hsplit]
  refine ⟨rfl, paragraph rows, ?_, ?_⟩
  · rw [ofRows, List.foldr_append]
    exact foldr_join_paragraph hrows hparagraphs hparts
  · simp only [block?, Option.map_some, Block.bare, Block.canonical, Paragraph.bare, List.map_map, hany,
      Paragraph.any_indent hne c]
    exact congrArg (fun ls => some (Block.paragraph ⟨ls, _, .unresolved⟩)) hwords

theorem prepends_block (c : Config) {b : Block} (h : b.WellFormed) (hmarked : b.Marked) (offset : Nat) {ts : List Token}
    (hts : (Row.split ts).1 = [])
    (hparts : b.isParagraph = true → ∀ q ∈ (ofRows (Row.split ts).2).head?, q.isParagraph = false) :
    Prepends c b (place offset (b.pieces c)) ts := by
  cases b with
  | headline head => exact prepends_headline c hmarked offset hts
  | paragraph p => exact prepends_paragraph c h offset hts (hparts rfl)
  | emptyLine l => exact prepends_emptyLine c l offset hts
  | attributes block => exact prepends_attributes c h offset hts

theorem ofRows_place (c : Config) {bs : List Block} (h : ∀ b ∈ bs, b.WellFormed)
    (hmarked : ∀ b ∈ bs, b.Marked) (hapart : bs.IsChain Block.Apart) (offset : Nat) :
    (Row.split (place offset (bs.flatMap (Block.pieces c)))).1 = [] ∧
      ((ofRows (Row.split (place offset (bs.flatMap (Block.pieces c)))).2).map fun p =>
        p.block?.map Block.bare) = bs.map fun b => some (b.canonical c).bare := by
  induction bs generalizing offset with
  | nil => exact ⟨rfl, rfl⟩
  | cons b bs ih =>
    obtain ⟨hb, hbs⟩ := List.forall_mem_cons.mp h
    obtain ⟨hlevel, hlevels⟩ := List.forall_mem_cons.mp hmarked
    obtain ⟨hnext, hchain⟩ := List.isChain_cons.mp hapart
    obtain ⟨hsplit, hparts⟩ := ih hbs hlevels hchain (offset + Text.bytes (source (b.pieces c)))
    have hhead : b.isParagraph = true → ∀ q ∈ (ofRows (Row.split (place
        (offset + Text.bytes (source (b.pieces c))) (bs.flatMap (Block.pieces c)))).2).head?,
          q.isParagraph = false := by
      intro hparagraph q hq
      have hfirst := congrArg List.head? hparts
      rw [List.head?_map, List.head?_map, Option.mem_def.mp hq] at hfirst
      cases bs with
      | nil => cases hfirst
      | cons d bs =>
        have hd : (d.canonical c).isParagraph = d.isParagraph := by cases d <;> rfl
        rw [isParagraph_of_block? (Option.some.inj hfirst), hd]
        exact hnext d rfl hparagraph
    obtain ⟨hnil, p, hp, hblock⟩ := prepends_block c hb hlevel offset hsplit hhead
    rw [List.flatMap_cons, place_append]
    refine ⟨hnil, ?_⟩
    rw [hp, List.map_cons, hparts, hblock]
    rfl

end Part

end AsciiDoc
