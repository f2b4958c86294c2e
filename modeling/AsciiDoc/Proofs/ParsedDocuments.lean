import AsciiDoc.Proofs.Canonical
import AsciiDoc.Proofs.Lexemes
import AsciiDoc.Proofs.Normalization
import AsciiDoc.Proofs.SyntaxTrees

namespace AsciiDoc

theorem Token.mem_texts {k : Kind} {ts : List Token} {s : Text} :
    s ∈ Token.texts k ts ↔ ∃ t ∈ ts, t.kind = k ∧ t.text = s := by
  simp [Token.texts, and_assoc]

namespace Row

theorem wellFormed_line {body : List Token} (h : IsLine body) (hproper : ∀ t ∈ body, t.piece.Proper) :
    (line body).WellFormed := by
  obtain ⟨w, rest, hdrop, hw, -⟩ := h
  constructor
  · apply List.ne_nil_of_mem (a := w.text)
    exact Token.mem_texts.mpr ⟨w, by simp [hdrop], hw, rfl⟩
  · intro s hs
    obtain ⟨t, ht, hkind, rfl⟩ := Token.mem_texts.mp hs
    have htext := hproper t ((List.dropWhile_suffix _).subset ht)
    simpa [Piece.Proper, Token.piece, hkind] using htext

end Row

namespace Item

theorem isValue_texts {ts : List Token} (h : ∀ t ∈ ts, t.piece.Proper) {k : Kind}
    (hk : k = .listText ∨ k = .stringText) : ∀ s ∈ Token.texts k ts, s.IsValue := by
  intro s hs
  obtain ⟨t, ht, hkind, rfl⟩ := Token.mem_texts.mp hs
  have htext := h t ht
  rcases hk with rfl | rfl
  · simp only [Piece.Proper, Token.piece, hkind] at htext
    exact ⟨htext.1, fun c hc => (htext.2 c hc).1, fun _ c hc => (htext.2 c hc).2⟩
  · simp only [Piece.Proper, Token.piece, hkind] at htext
    exact ⟨htext.1, fun c hc => (htext.2 c hc).1, fun hquote => absurd rfl (htext.2 '"' hquote).2⟩

theorem isValue_values {ts : List Token} (h : ∀ t ∈ ts, t.piece.Proper) :
    ∀ s ∈ Token.values ts, s.IsValue := by
  unfold Token.values
  split
  · exact isValue_texts h (Or.inr rfl)
  · exact isValue_texts h (Or.inl rfl)

theorem lexical_shorthand {ts : List Token} (h : ∀ t ∈ ts, t.piece.Proper) (m : Mark) {gs : List Gathered}
    (hgs : ∀ g ∈ gs, g.built.Lexical) : ∀ g ∈ Gathered.shorthand m ts gs, g.built.Lexical := by
  have hvalues := isValue_texts h (Or.inl rfl : Kind.listText = .listText ∨ _)
  unfold Gathered.shorthand
  split
  · intro g hg
    obtain ⟨g, hmem, rfl⟩ := List.mem_map.mp hg
    have hold := hgs g hmem
    split
    · exact ⟨hold.1, List.forall_mem_append.mpr ⟨hold.2, hvalues⟩⟩
    · exact hold
  · refine List.forall_mem_append.mpr ⟨hgs, List.forall_mem_singleton.mpr ⟨?_, hvalues⟩⟩
    rintro k ⟨⟩
    obtain ⟨hne, hplain⟩ := m.key_plain
    exact ⟨hne, fun c hc => ⟨(hplain c hc).1, (hplain c hc).2.2⟩⟩

theorem lexical_entry {key : Option (Token × Token)} {value : List Token} (hi : (entry key value).Valid)
    (h : ∀ t ∈ (entry key value).tokens, t.piece.Proper) (l l' : Location) :
    Attribute.Lexical ⟨key.map fun p => p.1.text, ⟨Token.values value, l⟩, l'⟩ := by
  cases key with
  | none => exact ⟨nofun, isValue_values h⟩
  | some p =>
    obtain ⟨k, a⟩ := p
    obtain ⟨hk, h⟩ := List.forall_mem_cons.mp h
    obtain ⟨-, hvalue⟩ := List.forall_mem_cons.mp h
    have hkind : k.kind = .listText := (hi.1 (k, a) rfl).1
    refine ⟨?_, isValue_values hvalue⟩
    rintro _ ⟨⟩
    simpa only [Piece.Proper, Token.piece, hkind] using hk

theorem lexical_gather {i : Item} (hi : i.Valid) (h : ∀ t ∈ i.tokens, t.piece.Proper) {gs : List Gathered}
    (hgs : ∀ g ∈ gs, g.built.Lexical) : ∀ g ∈ gather gs i, g.built.Lexical := by
  rcases exists_mark? hi with ⟨t, rfl⟩ | ⟨key, value, rfl⟩ | ⟨m, hm, hgather⟩
  · exact hgs
  · exact List.forall_mem_append.mpr ⟨hgs, List.forall_mem_singleton.mpr (lexical_entry hi h _ _)⟩
  · rw [hgather]
    exact lexical_shorthand h m hgs

theorem lexical_foldl {items : List Item} (hi : ∀ i ∈ items, i.Valid)
    (h : ∀ t ∈ items.flatMap tokens, t.piece.Proper) {gs : List Gathered}
    (hgs : ∀ g ∈ gs, g.built.Lexical) : ∀ g ∈ items.foldl gather gs, g.built.Lexical := by
  induction items generalizing gs with
  | nil => exact hgs
  | cons i items ih =>
    obtain ⟨hfirst, hrest⟩ := List.forall_mem_cons.mp hi
    rw [List.flatMap_cons] at h
    obtain ⟨htokens, hothers⟩ := List.forall_mem_append.mp h
    exact ih hrest hothers (lexical_gather hfirst htokens hgs)

end Item

namespace Part

theorem head?_of_not_indented {r : Row} (ho : r.opening.kind = .newline) (hline : Row.IsLine r.body)
    (hproper : ∀ t ∈ r.tokens, t.piece.Proper)
    (hbehind : r.tokens.IsChain fun a b => Lexer.Behind a.piece b.piece)
    (hindent : r.body.takeWhile Row.isSpace = []) : (Row.line r.body).joined.head? ≠ some '=' := by
  -- A row that is not indented has its first word right behind the newline.
  obtain ⟨w, rest, hdrop, hw, -⟩ := hline
  have hbody : r.body = w :: rest := by
    have hsplit := List.takeWhile_append_dropWhile (p := Row.isSpace) (l := r.body)
    rw [hindent, hdrop] at hsplit
    exact hsplit.symm
  rw [Row.tokens, hbody] at hproper hbehind
  have hnewline : r.opening.text = ['\n'] := by
    simpa only [Piece.Proper, Token.piece, ho] using hproper r.opening List.mem_cons_self
  have hword : w.text ≠ [] := by
    have hw' := hproper w (by simp)
    simp only [Piece.Proper, Token.piece, hw] at hw'
    exact hw'.1
  have hhead : (Row.line r.body).joined.head? = w.text.head? := by
    rw [Row.line, hdrop, Line.joined, Line.ofTokens, Token.texts, List.filter_cons_of_pos (by simp [hw]),
      List.map_cons, Text.unwords, Text.intercalate_cons, List.head?_append_of_ne_nil _ hword]
  rw [hhead]
  apply (List.isChain_cons_cons.mp hbehind).1 _ hw
  rw [Token.piece, hnewline]
  rfl

theorem lexical_block {p : Part} (h : p.Valid) (hproper : ∀ t ∈ p.tokens, t.piece.Proper)
    (hbehind : p.tokens.IsChain fun a b => Lexer.Behind a.piece b.piece) {b : Block} (hb : p.block? = some b) :
    b.Lexical := by
  cases p with
  | newline t => cases hb
  | emptyLine t =>
    cases hb
    trivial
  | headline opening marker rest =>
    cases hb
    obtain ⟨-, -, hline⟩ := h
    exact Row.wellFormed_line hline fun t ht => hproper t (by simp [tokens, ht])
  | attributes opening list =>
    cases hb
    obtain ⟨hitems, htokens⟩ := items_attributes h
    intro a ha
    obtain ⟨g, hg, rfl⟩ := List.mem_map.mp ha
    exact Item.lexical_foldl hitems
      (fun t ht => hproper t (List.mem_cons_of_mem opening (htokens ▸ ht))) (by simp) g hg
  | paragraph rows =>
    cases hb
    obtain ⟨hne, hrows⟩ := h
    have hwithin {r : Row} (hr : r ∈ rows) : r.tokens <:+: rows.flatMap Row.tokens := by
      rw [List.flatMap_def]
      exact List.infix_of_mem_flatten (List.mem_map_of_mem hr)
    refine ⟨by simpa using hne, ?_, ?_⟩
    · intro l hl
      obtain ⟨r, hr, rfl⟩ := List.mem_map.mp hl
      exact Row.wellFormed_line (hrows r hr).2 fun t ht =>
        hproper t ((hwithin hr).subset (List.mem_cons_of_mem _ ht))
    · intro hliteral l hl
      obtain ⟨r, hr, rfl⟩ := List.mem_map.mp hl
      obtain ⟨ho, hline⟩ := hrows r hr
      have hrow := List.IsChain.infix hbehind (hwithin hr)
      apply head?_of_not_indented ho hline (fun t ht => hproper t ((hwithin hr).subset ht)) hrow
      simpa using List.any_eq_false.mp hliteral r hr

theorem isParagraph_eq {p : Part} {b : Block} (h : p.block? = some b) : p.isParagraph = b.isParagraph := by
  cases p <;> cases h <;> rfl

theorem apart_blocks {parts : List Part} (h : parts.IsChain Apart)
    (hblocks : ∀ p ∈ parts.dropLast, p.block?.isSome) : (parts.filterMap block?).IsChain Block.Apart := by
  induction parts with
  | nil => exact .nil
  | cons p parts ih =>
    cases parts with
    | nil => cases hp : p.block? <;> simp [hp]
    | cons q parts =>
      obtain ⟨hpq, hchain⟩ := List.isChain_cons_cons.mp h
      rw [List.dropLast_cons_cons] at hblocks
      obtain ⟨hp, hrest⟩ := List.forall_mem_cons.mp hblocks
      obtain ⟨b, hb⟩ := Option.isSome_iff_exists.mp hp
      rw [List.filterMap_cons_some hb, List.isChain_cons]
      refine ⟨?_, ih hchain hrest⟩
      intro d hd
      cases hq : q.block? with
      | some e =>
        rw [List.filterMap_cons_some hq] at hd
        cases hd
        rw [Block.Apart, ← isParagraph_eq hb, ← isParagraph_eq hq]
        exact hpq
      | none =>
        cases parts with
        | nil => simp [hq] at hd
        | cons r parts =>
          have hsome := hrest q (by simp)
          simp [hq] at hsome

end Part

namespace Document

theorem lexical_ofPieces {legacyIds : Bool} {s : Text} {ps : List Piece} {b : Lexer.State}
    (h : Lexer.Reads legacyIds (.root false) s ps b []) (haccepts : Place.Accepts (ps.map Piece.kind)) :
    (∀ d ∈ (ofPieces ps).blocks, d.Lexical) ∧ (ofPieces ps).blocks.IsChain Block.Apart := by
  rw [← Piece.map_kind_place 0] at haccepts
  obtain ⟨hvalid, htokens, hblocks⟩ := Part.ofRows_split haccepts
  have hproper : ∀ t ∈ Piece.place 0 ps, t.piece.Proper :=
    fun t ht => h.proper _ (Piece.piece_of_mem_place ht)
  have hbehind : (Piece.place 0 ps).IsChain fun a b => Lexer.Behind a.piece b.piece := by
    rw [← List.isChain_map, Piece.map_piece_place]
    exact h.behind.1
  constructor
  · intro d hd
    obtain ⟨p, hp, hpd⟩ := List.mem_filterMap.mp hd
    have hwithin : p.tokens <:+: Piece.place 0 ps := by
      rw [← htokens, List.flatMap_def]
      exact List.infix_of_mem_flatten (List.mem_map_of_mem hp)
    have hpart := List.IsChain.infix hbehind hwithin
    exact Part.lexical_block (hvalid p hp) (fun t ht => hproper t (hwithin.subset ht)) hpart hpd
  · exact Part.apart_blocks (Part.ofRows_apart _) hblocks

theorem marked_of_parse {c : Config} {text : Text} {d : Document} (h : parse c text = .ok d) :
    ∀ b ∈ d.blocks, b.Marked := by
  obtain ⟨ps, -, -, -, rfl⟩ := (parse_eq_ok_iff c text d).mp h
  intro b hb
  obtain ⟨p, -, hp⟩ := List.mem_filterMap.mp hb
  cases p <;> cases hp
  case headline => exact Headline.levelOf_ne_lastOffset _
  all_goals trivial

theorem lexical_of_parse {c : Config} {text : Text} {d : Document} (h : parse c text = .ok d) :
    (∀ b ∈ d.blocks, b.Lexical) ∧ d.blocks.IsChain Block.Apart := by
  obtain ⟨ps, b, hreads, haccepts, rfl⟩ := (parse_eq_ok_iff c text d).mp h
  exact lexical_ofPieces hreads haccepts

end Document

namespace Lexer

variable {legacyIds : Bool} {ps : List Piece} {b : State}

theorem Reads.head?_kind {text : Text} (h : Reads legacyIds (.root false) (normalize text) ps b []) :
    ∀ p ∈ ps.head?, p.kind = .newline := by
  obtain ⟨s, hs, hline⟩ := normalize_eq_cons text
  rw [hs] at h
  cases h with
  | step hread _ =>
    have hnext : Lexeme.inRoot false '\n' s = _ := next_of_read hread
    simp only [Lexeme.inRoot, Lexeme.newline, hline] at hnext
    cases hnext
    rintro p ⟨⟩
    rfl

theorem proper_blank {p : Piece} (h : p.Proper) (hkind : Row.opens p.kind = true) : ¬p.text.EndsInk := by
  have hopens : p.kind = .newline ∨ p.kind = .emptyLine := by simpa [Row.opens] using hkind
  have hblank : ∀ c ∈ p.text, Text.isBlank c = true := by
    rcases hopens with hk | hk
    · simp only [Piece.Proper, hk] at h
      rw [h]
      simpa using Text.isBlank_newline
    · simp only [Piece.Proper, hk] at h
      obtain ⟨s, hs, hindent⟩ := h
      rw [hs]
      exact List.forall_mem_cons.mpr ⟨by decide, fun c hc => Text.isBlank_of_isIndent (hindent c hc)⟩
  rintro ⟨c, hc, hink⟩
  rw [hblank c (List.mem_of_getLast? hc)] at hink
  cases hink

theorem Reads.getLast?_kind {a : State} {s : Text} (h : Reads legacyIds a s ps b []) (hs : s.EndsInk) :
    ∀ p ∈ ps.getLast?, Row.opens p.kind = false := by
  intro p hp
  obtain ⟨qs, rfl⟩ := List.getLast?_eq_some_iff.mp hp
  rw [Bool.eq_false_iff]
  intro hkind
  have hproper := h.proper p (by simp)
  apply proper_blank hproper hkind
  obtain ⟨c, hc, hink⟩ := hs
  refine ⟨c, ?_, hink⟩
  have hne := h.text_ne_nil p (by simp)
  rw [h.source_eq, List.append_nil, Piece.source_append, Piece.source_cons, Piece.source_nil, List.append_nil,
    List.getLast?_append_of_ne_nil _ hne] at hc
  exact hc

theorem Reads.getLast?_place {a : State} {s : Text} (h : Reads legacyIds a s ps b []) (hs : s.EndsInk) :
    ∀ t ∈ (Piece.place 0 ps).getLast?, Row.opens t.kind = false := by
  intro t ht
  apply h.getLast?_kind hs t.piece
  rw [← Piece.map_piece_place 0 ps, List.getLast?_map, ht]
  rfl

end Lexer

namespace Part

theorem eq_emptyLine {p : Part} {d : Block} (h : p.block? = some d) (hd : d.isEmptyLine = true) :
    ∃ t, p = emptyLine t := by
  cases p <;> cases h <;> cases hd
  exact ⟨_, rfl⟩

theorem eq_newline {p : Part} (h : p.block? = none) : ∃ t, p = newline t := by
  cases p <;> cases h
  exact ⟨_, rfl⟩

theorem head?_blocks {parts : List Part} (hvalid : ∀ p ∈ parts, p.Valid)
    (hblocks : ∀ p ∈ parts.dropLast, p.block?.isSome)
    (hfirst : ∀ t ∈ (parts.flatMap tokens).head?, t.kind = .newline) :
    ∀ d ∈ (parts.filterMap block?).head?, d.isEmptyLine = false := by
  intro d hd
  cases parts with
  | nil => cases hd
  | cons p parts =>
    cases hp : p.block? with
    | none =>
      cases parts with
      | nil => simp [hp] at hd
      | cons q parts =>
        have hsome := hblocks p (by simp)
        simp [hp] at hsome
    | some e =>
      rw [List.filterMap_cons_some hp] at hd
      cases hd
      rw [Bool.eq_false_iff]
      intro hempty
      obtain ⟨t, rfl⟩ := eq_emptyLine hp hempty
      have hkind : t.kind = .emptyLine := hvalid _ List.mem_cons_self
      have hnewline := hfirst t rfl
      rw [hkind] at hnewline
      cases hnewline

theorem not_opens_getLast? {parts : List Part} {p : Part} (hp : p.Valid)
    (hlast : ∀ t ∈ ((parts ++ [p]).flatMap tokens).getLast?, Row.opens t.kind = false) {t : Token}
    (ht : t ∈ p.tokens.getLast?) : Row.opens t.kind = false := by
  apply hlast t
  rw [List.flatMap_append, List.flatMap_singleton, List.getLast?_append_of_ne_nil _ hp.tokens_ne_nil]
  exact ht

theorem isSome_block? {parts : List Part} (hvalid : ∀ p ∈ parts, p.Valid)
    (hblocks : ∀ p ∈ parts.dropLast, p.block?.isSome)
    (hlast : ∀ t ∈ (parts.flatMap tokens).getLast?, Row.opens t.kind = false) :
    ∀ p ∈ parts, p.block?.isSome := by
  rcases List.eq_nil_or_concat' parts with rfl | ⟨init, p, rfl⟩
  · simp
  · rw [List.dropLast_concat] at hblocks
    refine List.forall_mem_append.mpr ⟨hblocks, List.forall_mem_singleton.mpr ?_⟩
    have hp := hvalid p (by simp)
    rw [Option.isSome_iff_ne_none]
    intro hb
    obtain ⟨t, rfl⟩ := eq_newline hb
    have hkind : t.kind = .newline := hp
    have hnot := not_opens_getLast? hp hlast rfl
    simp [Row.opens, hkind] at hnot

theorem getLast?_blocks {parts : List Part} (hvalid : ∀ p ∈ parts, p.Valid)
    (hblocks : ∀ p ∈ parts.dropLast, p.block?.isSome)
    (hlast : ∀ t ∈ (parts.flatMap tokens).getLast?, Row.opens t.kind = false) :
    ∀ d ∈ (parts.filterMap block?).getLast?, d.isEmptyLine = false := by
  intro d hd
  have hsome := isSome_block? hvalid hblocks hlast
  rcases List.eq_nil_or_concat' parts with rfl | ⟨init, p, rfl⟩
  · cases hd
  · have hp := hvalid p (by simp)
    obtain ⟨e, hb⟩ := Option.isSome_iff_exists.mp (hsome p (by simp))
    rw [List.filterMap_append, List.filterMap_cons_some hb, List.filterMap_nil, List.getLast?_concat] at hd
    cases hd
    rw [Bool.eq_false_iff]
    intro hempty
    obtain ⟨t, rfl⟩ := eq_emptyLine hb hempty
    have hkind : t.kind = .emptyLine := hp
    have hnot := not_opens_getLast? hp hlast rfl
    simp [Row.opens, hkind] at hnot

end Part

namespace Document

theorem core_eq_blocks {d : Document} (hfirst : ∀ b ∈ d.blocks.head?, b.isEmptyLine = false)
    (hlast : ∀ b ∈ d.blocks.getLast?, b.isEmptyLine = false) : d.core = d.blocks := by
  have hdrop : d.blocks.dropWhile Block.isEmptyLine = d.blocks := by
    cases hblocks : d.blocks with
    | nil => rfl
    | cons b bs =>
      have hb := hfirst b (by simp [hblocks])
      exact List.dropWhile_cons_of_neg (by simp [hb])
  rw [core, hdrop, List.rdropWhile_eq_self_iff]
  intro hne
  simpa using hlast _ (List.getLast?_eq_some_getLast hne)

theorem ofPieces_newline {legacyIds : Bool} {ps : List Piece} {b : Lexer.State}
    (h : Lexer.Reads legacyIds (.root false) ['\n'] ps b []) : (ofPieces ps).blocks = [] := by
  cases h with
  | step hread h =>
    have hnext : Lexeme.inRoot false '\n' [] = _ := Lexer.next_of_read hread
    cases hnext
    cases h
    rfl

theorem core_of_parse {c : Config} {text : Text} {d : Document} (h : parse c text = .ok d) :
    d.core = d.blocks := by
  obtain ⟨ps, b, hreads, haccepts, rfl⟩ := (parse_eq_ok_iff c text d).mp h
  rcases normalize_ends text with hnewline | hink
  · have hempty := ofPieces_newline (hnewline ▸ hreads)
    rw [core, hempty]
    rfl
  · have hhead := hreads.head?_kind
    have hlast := hreads.getLast?_place hink
    rw [← Piece.map_kind_place 0] at haccepts
    obtain ⟨hvalid, htokens, hblocks⟩ := Part.ofRows_split haccepts
    apply core_eq_blocks
    · apply Part.head?_blocks hvalid hblocks
      intro t ht
      rw [htokens] at ht
      apply hhead t.piece
      rw [← Piece.map_piece_place 0 ps, List.head?_map, ht]
      rfl
    · exact Part.getLast?_blocks hvalid hblocks (htokens.symm ▸ hlast)

/-- What every document that is read is like. An empty line stands only between other blocks, and two
paragraphs never follow each other. Lines have words, and keys and values have the characters that can be read
as such, so that no delimiter stands in a value with a quote in it. -/
theorem shape_of_parse {c : Config} {text : Text} {d : Document} (h : parse c text = .ok d) :
    (∀ b ∈ d.blocks.head?, b.isEmptyLine = false) ∧ (∀ b ∈ d.blocks.getLast?, b.isEmptyLine = false) ∧
      d.blocks.IsChain Block.Apart ∧ ∀ b ∈ d.blocks, b.Lexical := by
  obtain ⟨hlexical, hapart⟩ := lexical_of_parse h
  have hfirst := d.head?_core
  have hlast := d.getLast?_core
  rw [core_of_parse h] at hfirst hlast
  exact ⟨hfirst, hlast, hapart, hlexical⟩

theorem shape_of_parse_quote :
    ∃ d, parse {} "\n= T\n[a\"b,k=\"c d\"#e]\n\n  =x\ny\n\n".toList = .ok d ∧ d.blocks.length = 4 ∧
      (∀ b ∈ d.blocks.head?, b.isEmptyLine = false) ∧ (∀ b ∈ d.blocks.getLast?, b.isEmptyLine = false) ∧
        d.blocks.IsChain Block.Apart ∧ ∀ b ∈ d.blocks, b.Lexical := by
  have hparse : (parse {} "\n= T\n[a\"b,k=\"c d\"#e]\n\n  =x\ny\n\n".toList).toOption.any
      (fun d => d.blocks.length = 4) = true := by decide +kernel
  generalize htext : parse {} _ = result at hparse ⊢
  cases result with
  | error e => cases hparse
  | ok d => exact ⟨d, rfl, of_decide_eq_true hparse, shape_of_parse htext⟩

end Document

end AsciiDoc
