import AsciiDoc.Proofs.Rereading
import AsciiDoc.Proofs.SyntaxTrees

namespace AsciiDoc

open Piece

namespace Place

theorem append_mem_leads {P Q R : List Place} {ks ls : List Kind} (hks : ks ∈ Leads P Q)
    (hls : ls ∈ Leads Q R) : ks ++ ls ∈ Leads P R :=
  mul_leads le_rfl le_rfl ⟨ks, hks, ls, hls, rfl⟩

theorem cons_mem_leads {P Q R : List Place} {k : Kind} {ks : List Kind}
    (hk : ∀ p ∈ P, ∃ q ∈ Q, p.next? k = some q) (hks : ks ∈ Leads Q R) : k :: ks ∈ Leads P R :=
  append_mem_leads (kind_leads hk rfl) hks

theorem flatMap_mem_leads {α : Type} {P : List Place} {f : α → List Piece} {xs : List α}
    (h : ∀ x ∈ xs, (f x).map Piece.kind ∈ Leads P P) : (xs.flatMap f).map Piece.kind ∈ Leads P P := by
  induction xs with
  | nil => exact one_leads P rfl
  | cons x xs ih =>
    obtain ⟨hx, hxs⟩ := List.forall_mem_cons.mp h
    rw [List.flatMap_cons, List.map_append]
    exact append_mem_leads hx (ih hxs)

theorem separate_mem_leads {P Q : List Place} {sep : Piece} {ps : List Piece} {pss : List (List Piece)}
    (hfirst : ps.map Piece.kind ∈ Leads P Q)
    (h : ∀ qs ∈ pss, sep.kind :: qs.map Piece.kind ∈ Leads Q Q) :
    (separate sep (ps :: pss)).map Piece.kind ∈ Leads P Q := by
  rw [separate, List.map_append]
  exact append_mem_leads hfirst (flatMap_mem_leads h)

theorem phrase_mem_leads {P Q R : List Place} {k : Kind} (hfirst : ∀ p ∈ P, ∃ q ∈ Q, p.next? k = some q)
    (hspace : ∀ q ∈ Q, ∃ r ∈ R, q.next? .space = some r) (hword : ∀ r ∈ R, ∃ q ∈ Q, r.next? k = some q)
    (w : Text) (ws : List Text) : (phrase k (w :: ws)).map Piece.kind ∈ Leads P Q := by
  rw [phrase, List.map_cons]
  apply separate_mem_leads
  · exact kind_leads hfirst rfl
  · intro qs hqs
    obtain ⟨v, -, rfl⟩ := List.mem_map.mp hqs
    exact cons_mem_leads hspace (kind_leads hword rfl)

theorem line_mem_leads {l : Line} (h : l.WellFormed) :
    (phrase .inlineText l.words).map Piece.kind ∈ Leads [lineStart, beforeText] [inText] := by
  obtain ⟨w, ws, hl⟩ := List.exists_cons_of_ne_nil h.1
  rw [hl]
  exact phrase_mem_leads (R := [inText]) (by decide) (by decide) (by decide) w ws

theorem value_mem_leads (c : Config) (v : AttributeValue) :
    (v.pieces c).map Piece.kind ∈ Leads [item, beforeEntry, beforeValue] [keyOrValue, entryEnd] := by
  cases hquotes : v.needsQuotes c with
  | true =>
    have hstrings : (phrase .stringText v.values).map Piece.kind ∈
        Leads [stringOpen] [stringOpen, stringWord] := by
      cases v.values with
      | nil => exact leads_mono (one_leads [stringOpen]) (by simp) (by simp) rfl
      | cons w ws =>
        have hwords := phrase_mem_leads (P := [stringOpen]) (Q := [stringWord]) (R := [stringGap])
          (k := .stringText) (by decide) (by decide) (by decide) w ws
        exact leads_mono le_rfl (by simp) (by simp) hwords
    simp only [AttributeValue.pieces, hquotes, if_true, List.map_append, List.map_cons, List.cons_append]
    exact cons_mem_leads (by decide) (append_mem_leads hstrings (kind_leads (by decide) rfl))
  | false =>
    obtain ⟨s, hs, -⟩ := AttributeValue.eq_singleton_of_not_needsQuotes hquotes
    simp only [AttributeValue.pieces, hquotes, Bool.false_eq_true, if_false, hs]
    exact kind_leads (k := .listText) (by decide) rfl

theorem entry_mem_leads (c : Config) (a : Attribute) :
    (a.pieces c).map Piece.kind ∈ Leads [item, beforeEntry] [keyOrValue, entryEnd] := by
  obtain ⟨_ | key, value, location⟩ := a
  · exact leads_mono le_rfl (by simp) (by simp) (value_mem_leads c value)
  · have hvalue := leads_mono le_rfl (R := [beforeValue]) (by simp) (fun _ h => h)
      (value_mem_leads c value)
    exact cons_mem_leads (Q := [keyOrValue]) (k := .listText) (by decide)
      (cons_mem_leads (k := .assignment) (by decide) hvalue)

theorem entries_mem_leads (c : Config) (as : List Attribute) :
    (separate comma (as.map (Attribute.pieces c))).map Piece.kind ∈ Leads [item] itemEnds := by
  cases as with
  | nil => exact leads_mono (one_leads [item]) (by simp) (by simp [itemEnds]) rfl
  | cons a as =>
    have hentry (a : Attribute) := entry_mem_leads c a
    have hentries : (separate comma ((a :: as).map (Attribute.pieces c))).map Piece.kind ∈
        Leads [item] [keyOrValue, entryEnd] := by
      rw [List.map_cons]
      apply separate_mem_leads
      · exact leads_mono le_rfl (by simp) (fun _ h => h) (hentry a)
      · intro qs hqs
        obtain ⟨e, -, rfl⟩ := List.mem_map.mp hqs
        exact cons_mem_leads (Q := [item, beforeEntry]) (by decide) (hentry e)
    exact leads_mono le_rfl (fun _ h => h) (by simp [itemEnds]) hentries

theorem shorts_mem_leads (m : Mark) (ss : List Text) :
    (ss.flatMap (short m)).map Piece.kind ∈ Leads itemEnds itemEnds := by
  apply flatMap_mem_leads
  intro s _
  refine cons_mem_leads (Q := [afterMark]) ?_ (kind_leads (k := .listText) (by decide) rfl)
  cases m <;> decide

theorem list_mem_leads (c : Config) (l : AttributeList) :
    (l.pieces c).map Piece.kind ∈ Leads [lineStart] [between] := by
  have hentries := entries_mem_leads c (l.entries c)
  have hshorts (m : Mark) := shorts_mem_leads m (l.marked c m)
  simp only [AttributeList.pieces, List.map_append, List.map_cons, List.cons_append, List.append_assoc]
  exact cons_mem_leads (by decide) (append_mem_leads hentries (append_mem_leads (hshorts .id)
    (append_mem_leads (hshorts .role) (append_mem_leads (hshorts .option) (kind_leads (by decide) rfl)))))

theorem paragraphLine_mem_leads {p : Paragraph} (h : p.WellFormed) {l : Line} (hl : l ∈ p.lines) (c : Config) :
    (p.linePieces c l).map Piece.kind ∈ Leads closed closed := by
  have hindent : ((p.indent c l.joined).map fun ch => (⟨.space, [ch]⟩ : Piece)).map Piece.kind ∈
      Leads [lineStart, beforeText] [lineStart, beforeText] := by
    rw [List.map_eq_flatMap (f := fun ch => (⟨.space, [ch]⟩ : Piece))]
    apply flatMap_mem_leads
    intro ch _
    exact kind_leads (k := .space) (by decide) rfl
  have hline := leads_mono le_rfl (fun _ h => h) (by simp [closed] : [inText] ⊆ closed)
    (line_mem_leads (h.2.1 l hl))
  rw [Paragraph.linePieces, List.cons_append, List.map_cons, List.map_append]
  exact cons_mem_leads (k := .newline) (by decide) (append_mem_leads hindent hline)

theorem block_mem_leads {b : Block} (h : b.WellFormed) (c : Config) :
    (b.pieces c).map Piece.kind ∈ Leads closed closed := by
  cases b with
  | headline head =>
    have hline := leads_mono le_rfl (by simp : [beforeText] ⊆ [lineStart, beforeText])
      (by simp [closed] : [inText] ⊆ closed) (line_mem_leads h)
    exact cons_mem_leads (Q := [lineStart]) (k := .newline) (by decide)
      (cons_mem_leads (Q := [beforeText]) (k := .headline) (by decide)
        (cons_mem_leads (k := .space) (by decide) hline))
  | paragraph p =>
    apply flatMap_mem_leads
    intro l hl
    exact paragraphLine_mem_leads h hl c
  | emptyLine l => exact kind_leads (k := .emptyLine) (by decide) rfl
  | attributes block =>
    have hlist := leads_mono le_rfl (fun _ h => h) (by simp [closed] : [between] ⊆ closed)
      (list_mem_leads c block.list)
    exact cons_mem_leads (k := .newline) (by decide) hlist

theorem accepts_blocks {bs : List Block} (h : ∀ b ∈ bs, b.WellFormed) (c : Config) :
    Accepts ((bs.flatMap (Block.pieces c)).map Piece.kind) := by
  have hbs := flatMap_mem_leads (P := closed) fun b hb => block_mem_leads (h b hb) c
  obtain ⟨q, hq, hwalk⟩ := hbs between (by simp [closed])
  exact ⟨q, hwalk, (isEnd_closed q hq).1⟩

end Place

namespace Piece

def texts (k : Kind) (ps : List Piece) : List Text := (ps.filter fun p => p.kind = k).map Piece.text

theorem texts_append (k : Kind) (ps qs : List Piece) : texts k (ps ++ qs) = texts k ps ++ texts k qs := by
  rw [texts, List.filter_append, List.map_append]
  rfl

theorem texts_cons_of_ne {k : Kind} {p : Piece} (h : p.kind ≠ k) (ps : List Piece) :
    texts k (p :: ps) = texts k ps := by
  rw [texts, List.filter_cons_of_neg (by simpa using h)]
  rfl

theorem texts_place (k : Kind) (offset : Nat) (ps : List Piece) :
    Token.texts k (place offset ps) = texts k ps := by
  conv_rhs => rw [← map_piece_place offset ps, texts, List.filter_map, List.map_map]
  rfl

theorem texts_phrase {k : Kind} (hk : k ≠ .space) (ss : List Text) : texts k (phrase k ss) = ss := by
  have hwords (ss : List Text) :
      texts k ((ss.map fun s => [(⟨k, s⟩ : Piece)]).flatMap fun ps => space :: ps) = ss := by
    induction ss with
    | nil => rfl
    | cons s ss ih =>
      have hone : texts k [(⟨k, s⟩ : Piece)] = [s] := by simp [texts]
      rw [List.map_cons, List.flatMap_cons, texts_append, ih, texts_cons_of_ne hk.symm, hone]
      rfl
  cases ss with
  | nil => rfl
  | cons s ss =>
    have hone : texts k [(⟨k, s⟩ : Piece)] = [s] := by simp [texts]
    rw [phrase, List.map_cons, separate, texts_append, hwords, hone]
    rfl

theorem kind_of_mem_phrase {k : Kind} {ss : List Text} {p : Piece} (h : p ∈ phrase k ss) :
    p.kind = k ∨ p.kind = .space := by
  rcases mem_phrase h with rfl | ⟨s, -, rfl⟩
  · exact Or.inr rfl
  · exact Or.inl rfl

end Piece

theorem Mark.kind_ne {m n : Mark} (h : m ≠ n) : m.kind ≠ n.kind := by
  revert h
  cases m <;> cases n <;> decide

namespace Item

theorem validValue_place (c : Config) (v : AttributeValue) (offset : Nat) :
    ValidValue (place offset (v.pieces c)) := by
  cases hquotes : v.needsQuotes c with
  | true =>
    simp only [AttributeValue.pieces, hquotes, if_true, List.cons_append, place, place_append]
    refine Or.inr ⟨_, _, _, rfl, rfl, rfl, ?_⟩
    intro t ht
    exact kind_of_mem_phrase (piece_of_mem_place ht)
  | false =>
    obtain ⟨s, hs, -⟩ := AttributeValue.eq_singleton_of_not_needsQuotes hquotes
    simp only [AttributeValue.pieces, hquotes, Bool.false_eq_true, if_false, hs]
    exact Or.inl ⟨_, rfl, rfl⟩

theorem values_place (c : Config) (v : AttributeValue) (offset : Nat) :
    Token.values (place offset (v.pieces c)) = v.values := by
  cases hquotes : v.needsQuotes c with
  | true =>
    have hstring : (place offset (v.pieces c)).any (fun t => t.kind = .stringStart) = true := by
      simp [AttributeValue.pieces, hquotes, place]
    rw [Token.values, if_pos hstring, texts_place, AttributeValue.pieces, if_pos hquotes, List.cons_append,
      texts_cons_of_ne (by decide), texts_append, texts_phrase (by decide), texts_cons_of_ne (by decide)]
    exact List.append_nil _
  | false =>
    obtain ⟨s, hs, -⟩ := AttributeValue.eq_singleton_of_not_needsQuotes hquotes
    simp only [AttributeValue.pieces, hquotes, Bool.false_eq_true, if_false, hs]
    rfl

def view (g : Gathered) : Option Mark × Attribute := (g.mark, g.built.bare)

theorem ofTokens_entry (c : Config) (a : Attribute) (offset : Nat) {ts : List Token}
    (hts : ts.head?.map Token.kind ≠ some .assignment) :
    ∃ i, ofTokens (place offset (a.pieces c) ++ ts) = i :: ofTokens ts ∧
      ∀ gs, (gather gs i).map view = gs.map view ++ [(none, a.bare)] := by
  obtain ⟨_ | key, value, location⟩ := a
  · refine ⟨_, ofTokens_value (validValue_place c value offset) hts, ?_⟩
    intro gs
    simp [gather, view, Attribute.bare, Attribute.pieces, values_place]
  · refine ⟨_, ofTokens_keyed rfl rfl (validValue_place c value _), ?_⟩
    intro gs
    simp [gather, view, Attribute.bare, values_place]

section Gather

variable {ts : List Token}

theorem gather_moreEntries (c : Config) (as : List Attribute) (offset : Nat)
    (hts : ts.head?.map Token.kind ≠ some .assignment) :
    (place offset ((as.map (Attribute.pieces c)).flatMap fun ps => comma :: ps) ++ ts).head?.map
        Token.kind ≠ some .assignment ∧
      ∀ gs, ∃ gs', (ofTokens (place offset ((as.map (Attribute.pieces c)).flatMap fun ps => comma :: ps) ++
        ts)).foldl gather gs = (ofTokens ts).foldl gather gs' ∧
          gs'.map view = gs.map view ++ as.map fun a => (none, a.bare) := by
  induction as generalizing offset with
  | nil => exact ⟨hts, fun gs => ⟨gs, rfl, by simp⟩⟩
  | cons a as ih =>
    rw [List.map_cons, List.flatMap_cons, List.cons_append, place, place_append]
    refine ⟨by simp [comma], ?_⟩
    intro gs
    obtain ⟨hhead, htail⟩ := ih (offset + Text.bytes comma.text + Text.bytes (source (a.pieces c)))
    obtain ⟨i, hi, hgather⟩ := ofTokens_entry c a (offset + Text.bytes comma.text) hhead
    obtain ⟨gs', hfold, hview⟩ := htail (gather gs i)
    refine ⟨gs', ?_, ?_⟩
    · rw [List.cons_append, ofTokens_punctuation (Or.inr (Or.inr rfl)), List.append_assoc, hi]
      exact hfold
    · rw [hview, hgather, List.append_assoc]
      rfl

theorem gather_entries (c : Config) (as : List Attribute) (offset : Nat)
    (hts : ts.head?.map Token.kind ≠ some .assignment) (gs : List Gathered) :
    ∃ gs', (ofTokens (place offset (separate comma (as.map (Attribute.pieces c))) ++ ts)).foldl gather gs =
        (ofTokens ts).foldl gather gs' ∧ gs'.map view = gs.map view ++ as.map fun a => (none, a.bare) := by
  cases as with
  | nil => exact ⟨gs, rfl, by simp⟩
  | cons a as =>
    obtain ⟨hhead, htail⟩ :=
      gather_moreEntries c as (offset + Text.bytes (source (a.pieces c))) hts
    obtain ⟨i, hi, hgather⟩ := ofTokens_entry c a offset hhead
    obtain ⟨gs', hfold, hview⟩ := htail (gather gs i)
    refine ⟨gs', ?_, ?_⟩
    · rw [List.map_cons, separate, place_append, List.append_assoc, hi]
      exact hfold
    · rw [hview, hgather, List.append_assoc]
      rfl

def Unmarked (m : Mark) (items : List Item) : Prop :=
  ∀ q qs rest, items = marked (q :: qs) :: rest → q.1.kind ≠ m.kind

theorem addPair_of_unmarked {m : Mark} {items : List Item} (h : Unmarked m items) {p : Token × Token}
    (hp : p.1.kind = m.kind) : addPair p items = marked [p] :: items := by
  unfold addPair
  split
  · rename_i q qs rest
    have hne := h q qs rest rfl
    rw [hp, if_neg hne]
  · rfl

theorem unmarked_addPair {m : Mark} {p : Token × Token} (hp : p.1.kind ≠ m.kind) (items : List Item) :
    Unmarked m (addPair p items) := by
  intro q qs rest h
  unfold addPair at h
  split at h
  · split at h <;> cases h <;> exact hp
  · cases h
    exact hp

theorem unmarked_shorts {m n : Mark} (hne : n ≠ m) (ss : List Text) (offset : Nat)
    (h : Unmarked m (ofTokens ts)) : Unmarked m (ofTokens (place offset (ss.flatMap (short n)) ++ ts)) := by
  cases ss with
  | nil => exact h
  | cons s ss =>
    rw [List.flatMap_cons, short, List.cons_append, List.cons_append, place, place, List.cons_append,
      List.cons_append, ofTokens_pair (m := n) rfl]
    exact unmarked_addPair (Mark.kind_ne hne) _

theorem ofTokens_shorts {m : Mark} (s : Text) (ss : List Text) (offset : Nat)
    (h : Unmarked m (ofTokens ts)) :
    ∃ pairs, ofTokens (place offset ((s :: ss).flatMap (short m)) ++ ts) = marked pairs :: ofTokens ts ∧
      (pairs.map fun p => p.2.text) = s :: ss ∧
        ∀ p ∈ pairs, p.1.kind = m.kind ∧ p.2.kind = .listText := by
  -- A pair of the same mark joins the item behind it, so the values are added from the last on.
  induction ss generalizing s offset with
  | nil =>
    refine ⟨_, (ofTokens_pair (m := m) rfl _).trans (addPair_of_unmarked h rfl), rfl, ?_⟩
    exact List.forall_mem_singleton.mpr ⟨rfl, rfl⟩
  | cons s' ss ih =>
    rw [List.flatMap_cons, short, List.cons_append, List.cons_append, List.nil_append, place, place,
      List.cons_append, List.cons_append, ofTokens_pair (m := m) rfl]
    obtain ⟨pairs, hitems, htexts, hpairs⟩ :=
      ih s' (offset + Text.bytes [m.symbol] + Text.bytes s)
    obtain ⟨q, qs, rfl⟩ : ∃ q qs, pairs = q :: qs := by
      cases pairs with
      | nil => cases htexts
      | cons q qs => exact ⟨q, qs, rfl⟩
    have hq : q.1.kind = m.kind := (hpairs q List.mem_cons_self).1
    rw [hitems, addPair, if_pos hq]
    refine ⟨_, rfl, ?_, List.forall_mem_cons.mpr ⟨⟨rfl, rfl⟩, hpairs⟩⟩
    rw [List.map_cons, htexts]

theorem gather_marked {m : Mark} {pairs : List (Token × Token)} (hne : pairs ≠ [])
    (h : ∀ p ∈ pairs, p.1.kind = m.kind ∧ p.2.kind = .listText) {gs : List Gathered}
    (hgs : ∀ g ∈ gs, g.mark ≠ some m) : (gather gs (marked pairs)).map view =
      gs.map view ++ [(some m, ⟨some m.key, ⟨pairs.map fun p => p.2.text, .unresolved⟩, .unresolved⟩)] := by
  have hmark := mark?_marked hne h
  have hnone : (gs.any fun g => g.mark = some m) = false := by
    rw [List.any_eq_false]
    intro g hg
    simpa using hgs g hg
  have hgather : gather gs (marked pairs) = Gathered.shorthand m (marked pairs).tokens gs := by
    change ((marked pairs).mark?.map fun l => Gathered.shorthand l (marked pairs).tokens gs).getD gs = _
    rw [hmark]
    rfl
  rw [hgather, Gathered.shorthand, hnone, if_neg (by decide), texts_marked h, List.map_append]
  rfl

theorem gather_shorts {m : Mark} (ss : List Text) (offset : Nat) (h : Unmarked m (ofTokens ts))
    {gs : List Gathered} (hgs : ∀ g ∈ gs, g.mark ≠ some m) :
    ∃ gs', (ofTokens (place offset (ss.flatMap (short m)) ++ ts)).foldl gather gs =
        (ofTokens ts).foldl gather gs' ∧
      gs'.map view = gs.map view ++
        if ss = [] then [] else [(some m, ⟨some m.key, ⟨ss, .unresolved⟩, .unresolved⟩)] := by
  cases ss with
  | nil => exact ⟨gs, rfl, by simp⟩
  | cons s ss =>
    obtain ⟨pairs, hitems, htexts, hpairs⟩ := ofTokens_shorts s ss offset h
    have hne : pairs ≠ [] := by
      rintro rfl
      cases htexts
    refine ⟨gather gs (marked pairs), ?_, ?_⟩
    · rw [hitems, List.foldl_cons]
    · rw [gather_marked hne hpairs hgs, htexts, if_neg (List.cons_ne_nil s ss)]

def shortPieces (f : Mark → List Text) (ms : List Mark) : List Piece :=
  ms.flatMap fun m => (f m).flatMap (short m)

theorem head?_shortPieces (f : Mark → List Text) (ms : List Mark) (offset : Nat)
    (h : ts.head?.map Token.kind ≠ some .assignment) :
    (place offset (shortPieces f ms) ++ ts).head?.map Token.kind ≠ some .assignment := by
  induction ms generalizing offset with
  | nil => exact h
  | cons m ms ih =>
    rw [shortPieces, List.flatMap_cons, place_append, List.append_assoc]
    cases f m with
    | nil => exact ih _
    | cons s ss => cases m <;> simp [short, place, Mark.kind]

theorem unmarked_shortPieces (f : Mark → List Text) {m : Mark} {ms : List Mark} (hm : m ∉ ms) (offset : Nat)
    (h : Unmarked m (ofTokens ts)) : Unmarked m (ofTokens (place offset (shortPieces f ms) ++ ts)) := by
  induction ms generalizing offset with
  | nil => exact h
  | cons n ms ih =>
    obtain ⟨hne, hrest⟩ := List.ne_and_not_mem_of_not_mem_cons hm
    rw [shortPieces, List.flatMap_cons, place_append, List.append_assoc]
    exact unmarked_shorts hne.symm _ _ (ih hrest _)

theorem gather_shortPieces (f : Mark → List Text) {ms : List Mark} (hms : ms.Nodup) (offset : Nat)
    (h : ∀ m, Unmarked m (ofTokens ts)) {gs : List Gathered} (hgs : ∀ v ∈ gs.map view, ∀ m ∈ ms, v.1 ≠ some m) :
    ∃ gs', (ofTokens (place offset (shortPieces f ms) ++ ts)).foldl gather gs =
        (ofTokens ts).foldl gather gs' ∧
      gs'.map view = gs.map view ++ ms.flatMap fun m =>
        if f m = [] then [] else [(some m, ⟨some m.key, ⟨f m, .unresolved⟩, .unresolved⟩)] := by
  induction ms generalizing offset gs with
  | nil => exact ⟨gs, rfl, by simp⟩
  | cons m ms ih =>
    obtain ⟨hm, hnodup⟩ := List.nodup_cons.mp hms
    obtain ⟨gs₁, hfold₁, hview₁⟩ := gather_shorts (f m) offset (unmarked_shortPieces f hm _ (h m))
      fun g hg => hgs (view g) (List.mem_map_of_mem hg) m List.mem_cons_self
    have hgs₁ : ∀ v ∈ gs₁.map view, ∀ n ∈ ms, v.1 ≠ some n := by
      rw [hview₁]
      intro v hv n hn
      rcases List.mem_append.mp hv with hv | hv
      · exact hgs v hv n (List.mem_cons_of_mem m hn)
      · split at hv
        · cases hv
        · rw [List.mem_singleton.mp hv]
          rintro ⟨⟩
          exact hm hn
    obtain ⟨gs₂, hfold₂, hview₂⟩ := ih hnodup _ hgs₁
    refine ⟨gs₂, ?_, ?_⟩
    · rw [shortPieces, List.flatMap_cons, place_append, List.append_assoc]
      exact hfold₁.trans hfold₂
    · rw [hview₂, hview₁, List.flatMap_cons, List.append_assoc]

end Gather

theorem gather_listTail (c : Config) (as : List Attribute) (f : Mark → List Text) {ms : List Mark}
    (hms : ms.Nodup) (n k : Nat) {e : Token} (he : e.kind = .listEnd) :
    ((ofTokens (place n (separate comma (as.map (Attribute.pieces c))) ++
      (place k (shortPieces f ms) ++ [e]))).foldl gather []).map view =
        (as.map fun a => (none, a.bare)) ++ ms.flatMap fun m =>
          if f m = [] then [] else [(some m, ⟨some m.key, ⟨f m, .unresolved⟩, .unresolved⟩)] := by
  have hend : ofTokens [e] = [punctuation e] := by rw [ofTokens_punctuation (Or.inr (Or.inl he)), ofTokens]
  have hunmarked (m : Mark) : Unmarked m (ofTokens [e]) := by
    rw [hend]
    intro q qs rest h
    cases h
  have hhead := head?_shortPieces f ms k (show [e].head?.map Token.kind ≠ some .assignment by simp [he])
  obtain ⟨gs, hfold, hview⟩ := gather_entries c as n hhead []
  have hmarks : ∀ v ∈ gs.map view, ∀ m ∈ ms, v.1 ≠ some m := by
    rw [hview]
    intro v hv m _
    obtain ⟨a, -, rfl⟩ := List.mem_map.mp hv
    exact (Option.some_ne_none m).symm
  obtain ⟨gs', hfold', hview'⟩ := gather_shortPieces f hms k hunmarked hmarks
  rw [hfold, hfold', hend]
  exact hview'.trans (congrArg (· ++ _) hview)

theorem gather_list (c : Config) (l : AttributeList) (offset : Nat) :
    (((ofTokens (place offset (l.pieces c))).foldl gather []).map Gathered.built).map Attribute.bare =
      (l.entries c).map Attribute.bare ++ [.id, .role, .option].flatMap fun m =>
        if l.marked c m = [] then []
        else [⟨some m.key, ⟨l.marked c m, .unresolved⟩, .unresolved⟩] := by
  have hpieces : l.pieces c = ⟨.listStart, ['[']⟩ :: (separate comma ((l.entries c).map (Attribute.pieces c)) ++
      (shortPieces (l.marked c) [.id, .role, .option] ++ [⟨.listEnd, [']']⟩])) := by
    simp [AttributeList.pieces, shortPieces]
  have hsnd (gs : List Gathered) : (gs.map Gathered.built).map Attribute.bare = (gs.map view).map Prod.snd := by
    rw [List.map_map, List.map_map]
    rfl
  rw [hpieces, place, place_append, place_append, ofTokens_punctuation (Or.inl rfl), List.foldl_cons, hsnd]
  refine (congrArg _ (gather_listTail c (l.entries c) (l.marked c) (by decide) _ _ rfl)).trans ?_
  rw [List.map_append, List.map_map, List.map_flatMap]
  congr 1
  apply List.flatMap_congr
  intro m _
  split <;> rfl

end Item

theorem AttributeList.gather_canonical {l : AttributeList} (h : ∀ a ∈ l.attributes, a.WellFormed) (c : Config)
    (offset : Nat) : (((Item.ofTokens (place offset (l.pieces c))).foldl Item.gather []).map
      Gathered.built).map Attribute.bare = (l.canonical c).attributes.map Attribute.bare := by
  have hgathered (m : Mark) : (l.gathered c m).map Attribute.bare =
      if l.short c m = [] then [] else [⟨some m.key, ⟨l.short c m, .unresolved⟩, .unresolved⟩] := by
    rw [gathered]
    split <;> rfl
  rw [Item.gather_list, entries_eq h]
  simp only [marked_eq h, canonical, List.map_append, hgathered, List.flatMap_cons, List.flatMap_nil,
    List.append_nil, List.append_assoc]

end AsciiDoc
