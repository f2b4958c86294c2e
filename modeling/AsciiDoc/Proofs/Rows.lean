import AsciiDoc.Proofs.Parts
import AsciiDoc.Proofs.Reading
import Mathlib.Data.List.Chain

namespace AsciiDoc

namespace Row

def IsRow (r : Row) : Prop := opens r.opening.kind = true ∧ ∀ t ∈ r.body, opens t.kind = false

theorem split_cons_of_opens {t : Token} (h : opens t.kind = true) (ts : List Token) :
    split (t :: ts) = ([], ⟨t, (split ts).1⟩ :: (split ts).2) := by
  simp only [split, h, if_true]

theorem split_cons_of_not_opens {t : Token} (h : opens t.kind = false) (ts : List Token) :
    split (t :: ts) = (t :: (split ts).1, (split ts).2) := by
  simp only [split, h, Bool.false_eq_true, if_false]

theorem split_tokens (ts : List Token) : (split ts).1 ++ (split ts).2.flatMap tokens = ts := by
  induction ts with
  | nil => rfl
  | cons t ts ih =>
    cases h : opens t.kind with
    | true =>
      rw [split_cons_of_opens h, List.flatMap_cons, tokens, List.nil_append, List.cons_append, ih]
    | false => rw [split_cons_of_not_opens h, List.cons_append, ih]

theorem isRow_of_split (ts : List Token) :
    (∀ t ∈ (split ts).1, opens t.kind = false) ∧ ∀ r ∈ (split ts).2, r.IsRow := by
  induction ts with
  | nil => simp [split]
  | cons t ts ih =>
    obtain ⟨hbody, hrows⟩ := ih
    cases h : opens t.kind with
    | true =>
      rw [split_cons_of_opens h]
      exact ⟨by simp, List.forall_mem_cons.mpr ⟨⟨h, hbody⟩, hrows⟩⟩
    | false =>
      rw [split_cons_of_not_opens h]
      exact ⟨List.forall_mem_cons.mpr ⟨h, hbody⟩, hrows⟩

theorem split_append {body : List Token} (hbody : ∀ t ∈ body, opens t.kind = false) (ts : List Token) :
    split (body ++ ts) = (body ++ (split ts).1, (split ts).2) := by
  induction body with
  | nil => rfl
  | cons t body ih =>
    rw [List.cons_append, split_cons_of_not_opens (hbody t List.mem_cons_self),
      ih fun u hu => hbody u (List.mem_cons_of_mem t hu)]
    rfl

end Row

namespace Place

theorem walk_inText {q : Place} {ts : List Token} (h : inText.walk (ts.map Token.kind) = some q)
    (hts : ∀ t ∈ ts, Row.opens t.kind = false) :
    q = inText ∧ ∀ t ∈ ts, t.kind = .inlineText ∨ t.kind = .space := by
  have hnext : ∀ k ∈ Kind.all, ∀ r ∈ inText.next? k, Row.opens k = false →
      (k = .inlineText ∨ k = .space) ∧ r = inText := by
    decide
  induction ts with
  | nil =>
    cases h
    exact ⟨rfl, by simp⟩
  | cons t ts ih =>
    obtain ⟨r, hr, hwalk⟩ := walk_cons_eq_some h
    obtain ⟨ht, hrest⟩ := List.forall_mem_cons.mp hts
    obtain ⟨hkind, rfl⟩ := hnext t.kind (Kind.mem_all _) r hr ht
    obtain ⟨hq, hall⟩ := ih hwalk hrest
    exact ⟨hq, List.forall_mem_cons.mpr ⟨hkind, hall⟩⟩

theorem walk_beforeText {q : Place} {ts : List Token} (h : beforeText.walk (ts.map Token.kind) = some q)
    (hq : q.isEnd = true) (hts : ∀ t ∈ ts, Row.opens t.kind = false) : q = inText ∧ Row.IsLine ts := by
  have hnext : ∀ k ∈ Kind.all, ∀ r ∈ beforeText.next? k,
      (k = .space ∧ r = beforeText) ∨ (k = .inlineText ∧ r = inText) := by
    decide
  induction ts with
  | nil =>
    cases h
    cases hq
  | cons t ts ih =>
    obtain ⟨r, hr, hwalk⟩ := walk_cons_eq_some h
    obtain ⟨-, hrest⟩ := List.forall_mem_cons.mp hts
    rcases hnext t.kind (Kind.mem_all _) r hr with ⟨hk, rfl⟩ | ⟨hk, rfl⟩
    · obtain ⟨hend, w, rest, hdrop, hw⟩ := ih hwalk hrest
      refine ⟨hend, w, rest, ?_, hw⟩
      rw [List.dropWhile_cons_of_pos (by simp [Row.isSpace, hk]), hdrop]
    · obtain ⟨hend, hall⟩ := walk_inText hwalk hrest
      refine ⟨hend, t, ts, ?_, hk, hall⟩
      rw [List.dropWhile_cons_of_neg (by simp [Row.isSpace, hk])]

theorem isLine_of_walk_lineStart {q : Place} {t : Token} {ts : List Token}
    (h : lineStart.walk ((t :: ts).map Token.kind) = some q) (hq : q.isEnd = true)
    (hts : ∀ u ∈ t :: ts, Row.opens u.kind = false) (hhead : t.kind ≠ .headline)
    (hlist : t.kind ≠ .listStart) : q = inText ∧ Row.IsLine (t :: ts) := by
  apply walk_beforeText _ hq hts
  obtain ⟨r, hr, hwalk⟩ := walk_cons_eq_some h
  have hsame : ∀ k ∈ Kind.all, k ≠ .headline → k ≠ .listStart → ∀ r ∈ lineStart.next? k,
      beforeText.next? k = some r := by
    decide
  rw [List.map_cons, walk_cons, hsame t.kind (Kind.mem_all _) hhead hlist r hr]
  exact hwalk

theorem mem_closed_of_opens {p r : Place} {k : Kind} (h : p.next? k = some r) (hk : Row.opens k = true) :
    p ∈ closed := by
  have hkind : k = .newline ∨ k = .emptyLine := by simpa [Row.opens] using hk
  rcases hkind with rfl | rfl <;> cases p <;> simp [next?, itemStart?, closed] at h ⊢

theorem isEnd_closed : ∀ p ∈ closed, p.isEnd = true ∧ p ≠ lineStart := by decide

end Place

namespace Part

theorem ofRow_of_walk_lineStart {q : Place} {opening t : Token} {ts : List Token}
    (hk : opening.kind = .newline) (h : Place.lineStart.walk ((t :: ts).map Token.kind) = some q)
    (hq : q.isEnd = true) (hbody : ∀ u ∈ t :: ts, Row.opens u.kind = false) :
    (ofRow ⟨opening, t :: ts⟩).Valid ∧ (ofRow ⟨opening, t :: ts⟩).tokens = opening :: t :: ts ∧
      (ofRow ⟨opening, t :: ts⟩).block?.isSome := by
  have hempty : opening.kind ≠ .emptyLine := by simp [hk]
  obtain ⟨s, hs, hwalk⟩ := Place.walk_cons_eq_some h
  obtain ⟨-, hrest⟩ := List.forall_mem_cons.mp hbody
  by_cases hhead : t.kind = .headline
  · have hpart : ofRow ⟨opening, t :: ts⟩ = headline opening t ts := by simp [ofRow, hempty, hhead]
    rw [hhead] at hs
    cases hs
    rw [hpart]
    exact ⟨⟨hk, hhead, (Place.walk_beforeText hwalk hq hrest).2⟩, rfl, rfl⟩
  by_cases hlist : t.kind = .listStart
  · have hpart : ofRow ⟨opening, t :: ts⟩ = attributes opening (t :: ts) := by simp [ofRow, hempty, hlist]
    rw [hlist] at hs
    cases hs
    have htail := Place.listTail_of_walk (by simp [Place.itemEnds]) hwalk hq
      (Place.head_ne_assignment rfl hwalk) hrest
    rw [hpart]
    exact ⟨⟨hk, t, ts, rfl, hlist, htail⟩, rfl, rfl⟩
  · have hpart : ofRow ⟨opening, t :: ts⟩ = paragraph [⟨opening, t :: ts⟩] := by
      simp only [ofRow, hempty, if_false]
    have hline := (Place.isLine_of_walk_lineStart h hq hbody hhead hlist).2
    rw [hpart]
    exact ⟨⟨List.cons_ne_nil _ _, by simpa using ⟨hk, hline⟩⟩, by simp [tokens, Row.tokens], rfl⟩

theorem ofRow_of_walk {p q : Place} {r : Row} (hr : r.IsRow)
    (h : p.walk (r.tokens.map Token.kind) = some q) (hq : q.isEnd = true) :
    (ofRow r).Valid ∧ (ofRow r).tokens = r.tokens ∧ (q ≠ .lineStart → (ofRow r).block?.isSome) := by
  obtain ⟨opening, body⟩ := r
  obtain ⟨hopening, hbody⟩ := hr
  obtain ⟨s, hs, hwalk⟩ := Place.walk_cons_eq_some h
  have hclosed := Place.mem_closed_of_opens hs hopening
  have hkind : opening.kind = .newline ∨ opening.kind = .emptyLine := by simpa [Row.opens] using hopening
  have hnext : ∀ p ∈ Place.closed,
      p.next? .newline = some .lineStart ∧ p.next? .emptyLine = some .between := by
    decide
  rcases hkind with hk | hk
  · rw [hk, (hnext p hclosed).1] at hs
    cases hs
    cases body with
    | nil =>
      cases hwalk
      simp [ofRow, hk, Valid, tokens, Row.tokens]
    | cons t ts =>
      obtain ⟨hvalid, htokens, hblock⟩ := ofRow_of_walk_lineStart hk hwalk hq hbody
      exact ⟨hvalid, htokens, fun _ => hblock⟩
  · rw [hk, (hnext p hclosed).2] at hs
    cases hs
    obtain rfl : body = [] := Place.walk_between hwalk hbody
    simp [ofRow, hk, Valid, tokens, Row.tokens, block?]

theorem ofRow_of_walk_flatMap {p q : Place} {rows : List Row} (hrows : ∀ r ∈ rows, r.IsRow)
    (h : p.walk ((rows.flatMap Row.tokens).map Token.kind) = some q) (hq : q.isEnd = true) :
    (∀ r ∈ rows, (ofRow r).Valid ∧ (ofRow r).tokens = r.tokens) ∧
      ∀ r ∈ rows.dropLast, (ofRow r).block?.isSome := by
  -- The induction is on the rows. A row with another one behind it ends where rows may begin, which
  -- is not behind a lone newline.
  induction rows generalizing p with
  | nil => simp
  | cons r rows ih =>
    obtain ⟨hr, hrest⟩ := List.forall_mem_cons.mp hrows
    rw [List.flatMap_cons, List.map_append, Place.walk_append] at h
    obtain ⟨s, hs, hwalk⟩ := Option.bind_eq_some_iff.mp h
    obtain ⟨hvalid, hblock⟩ := ih hrest hwalk
    cases rows with
    | nil =>
      cases hwalk
      obtain ⟨hone, htokens, -⟩ := ofRow_of_walk hr hs hq
      simpa using ⟨hone, htokens⟩
    | cons r' rows =>
      have hclosed : s ∈ Place.closed := by
        obtain ⟨s', hnext, -⟩ := Place.walk_cons_eq_some hwalk
        exact Place.mem_closed_of_opens hnext (hrest r' List.mem_cons_self).1
      obtain ⟨hend, hne⟩ := Place.isEnd_closed s hclosed
      obtain ⟨hone, htokens, hsome⟩ := ofRow_of_walk hr hs hend
      refine ⟨List.forall_mem_cons.mpr ⟨⟨hone, htokens⟩, hvalid⟩, ?_⟩
      rw [List.dropLast_cons_cons]
      exact List.forall_mem_cons.mpr ⟨hsome hne, hblock⟩

def isParagraph : Part → Bool
  | paragraph _ => true
  | _ => false

theorem join_of_not_paragraph {p : Part} (h : p.isParagraph = false) (parts : List Part) :
    join p parts = p :: parts := by
  cases p <;> first | rfl | cases h

theorem join_apart (p : Part) {parts : List Part} (h : ∀ q ∈ parts.head?, q.isParagraph = false) :
    join p parts = p :: parts := by
  cases parts with
  | nil => cases p <;> rfl
  | cons q parts =>
    have hq := h q rfl
    cases p <;> cases q <;> first | rfl | cases hq

theorem join_cases (p : Part) (parts : List Part) :
    (join p parts = p :: parts ∧ (p.isParagraph = true → ∀ q ∈ parts.head?, q.isParagraph = false)) ∨
      ∃ rows more rest, p = paragraph rows ∧ parts = paragraph more :: rest ∧
        join p parts = paragraph (rows ++ more) :: rest := by
  cases parts with
  | nil => exact Or.inl ⟨join_apart p (by simp), by simp⟩
  | cons q parts =>
    cases hp : p.isParagraph with
    | false => exact Or.inl ⟨join_of_not_paragraph hp _, by simp⟩
    | true =>
      cases hq : q.isParagraph with
      | false => exact Or.inl ⟨join_apart p (by simpa using hq), by simpa using hq⟩
      | true =>
        cases p <;> cases hp
        cases q <;> cases hq
        exact Or.inr ⟨_, _, _, rfl, rfl, rfl⟩

theorem tokens_join (p : Part) (parts : List Part) :
    (join p parts).flatMap tokens = p.tokens ++ parts.flatMap tokens := by
  rcases join_cases p parts with ⟨h, -⟩ | ⟨rows, more, rest, rfl, rfl, h⟩
  · rw [h, List.flatMap_cons]
  · simp only [h, List.flatMap_cons, tokens, List.flatMap_append, List.append_assoc]

theorem valid_join {p : Part} {parts : List Part} (hp : p.Valid) (h : ∀ q ∈ parts, q.Valid) :
    ∀ q ∈ join p parts, q.Valid := by
  rcases join_cases p parts with ⟨hjoin, -⟩ | ⟨rows, more, rest, rfl, rfl, hjoin⟩
  · rw [hjoin]
    exact List.forall_mem_cons.mpr ⟨hp, h⟩
  · obtain ⟨hmore, hrest⟩ := List.forall_mem_cons.mp h
    rw [hjoin]
    refine List.forall_mem_cons.mpr ⟨⟨by simp [hp.1], ?_⟩, hrest⟩
    exact List.forall_mem_append.mpr ⟨hp.2, hmore.2⟩

theorem ofRows_cons (r : Row) (rows : List Row) : ofRows (r :: rows) = join (ofRow r) (ofRows rows) := rfl

theorem ofRows_valid {rows : List Row}
    (h : ∀ r ∈ rows, (ofRow r).Valid ∧ (ofRow r).tokens = r.tokens) :
    (∀ p ∈ ofRows rows, p.Valid) ∧ (ofRows rows).flatMap tokens = rows.flatMap Row.tokens := by
  induction rows with
  | nil => simp [ofRows]
  | cons r rows ih =>
    obtain ⟨⟨hr, htokens⟩, hrest⟩ := List.forall_mem_cons.mp h
    obtain ⟨hvalid, hall⟩ := ih hrest
    rw [ofRows_cons]
    refine ⟨valid_join hr hvalid, ?_⟩
    rw [tokens_join, htokens, hall, List.flatMap_cons]

def Apart (p q : Part) : Prop := p.isParagraph = true → q.isParagraph = false

theorem apart_join {p : Part} {parts : List Part} (h : parts.IsChain Apart) : (join p parts).IsChain Apart := by
  rcases join_cases p parts with ⟨hjoin, happart⟩ | ⟨rows, more, rest, rfl, rfl, hjoin⟩
  · rw [hjoin, List.isChain_cons]
    exact ⟨fun q hq hp => happart hp q hq, h⟩
  · obtain ⟨hmore, hrest⟩ := List.isChain_cons.mp h
    rw [hjoin, List.isChain_cons]
    exact ⟨hmore, hrest⟩

theorem ofRows_apart (rows : List Row) : (ofRows rows).IsChain Apart := by
  induction rows with
  | nil => exact .nil
  | cons r rows ih => exact apart_join ih

theorem block?_dropLast_join {p : Part} (hp : p.block?.isSome) {parts : List Part}
    (h : ∀ q ∈ parts.dropLast, q.block?.isSome) : ∀ q ∈ (join p parts).dropLast, q.block?.isSome := by
  rcases join_cases p parts with ⟨hjoin, -⟩ | ⟨rows, more, rest, rfl, rfl, hjoin⟩
  · rw [hjoin]
    cases parts with
    | nil => simp
    | cons q parts =>
      rw [List.dropLast_cons_cons]
      exact List.forall_mem_cons.mpr ⟨hp, h⟩
  · rw [hjoin]
    cases rest with
    | nil => simp
    | cons q rest =>
      rw [List.dropLast_cons_cons] at h ⊢
      exact List.forall_mem_cons.mpr ⟨rfl, (List.forall_mem_cons.mp h).2⟩

theorem block?_dropLast_ofRows {rows : List Row} (h : ∀ r ∈ rows.dropLast, (ofRow r).block?.isSome) :
    ∀ p ∈ (ofRows rows).dropLast, p.block?.isSome := by
  induction rows with
  | nil => simp [ofRows]
  | cons r rows ih =>
    cases rows with
    | nil =>
      have hone : ofRows [r] = [ofRow r] := join_apart _ (by simp)
      rw [hone]
      simp
    | cons r' rows =>
      rw [List.dropLast_cons_cons] at h
      obtain ⟨hr, hrest⟩ := List.forall_mem_cons.mp h
      exact block?_dropLast_join hr (ih hrest)

theorem mapM_toBlock {parts : List Part} {a b : Nat} (h : ∀ p ∈ parts, p.Valid)
    (htiles : Tiles a b ((parts.flatMap tokens).map .token)) :
    ((parts.map child).filterMap Child.node?).mapM Node.toBlock = .ok (parts.filterMap block?) := by
  induction parts generalizing a with
  | nil => rfl
  | cons p parts ih =>
    obtain ⟨hp, hrest⟩ := List.forall_mem_cons.mp h
    rw [List.flatMap_cons, List.map_append] at htiles
    obtain ⟨m, hfirst, hlast⟩ := Tiles.append_iff.mp htiles
    have hparts := ih hrest hlast
    rw [List.map_cons]
    rcases toBlock_child hp hfirst with ⟨hnode, hblock⟩ | ⟨n, block, hnode, hblock, hto⟩
    · rw [List.filterMap_cons_none hnode, List.filterMap_cons_none hblock, hparts]
    · rw [hnode, Node.filterMap_node?_cons, List.mapM_cons, hto, hparts, List.filterMap_cons_some hblock]
      rfl

end Part

theorem Row.split_of_walk {q : Place} {ts : List Token}
    (h : Place.between.walk (ts.map Token.kind) = some q) : (Row.split ts).1 = [] := by
  rw [← Row.split_tokens ts, List.map_append, Place.walk_append] at h
  obtain ⟨s, hs, -⟩ := Option.bind_eq_some_iff.mp h
  exact Place.walk_between hs (Row.isRow_of_split ts).1

theorem Row.flatMap_split_of_walk {q : Place} {ts : List Token}
    (h : Place.between.walk (ts.map Token.kind) = some q) : (Row.split ts).2.flatMap Row.tokens = ts := by
  have hsplit := Row.split_tokens ts
  rwa [Row.split_of_walk h, List.nil_append] at hsplit

theorem Part.ofRows_split {ts : List Token} (h : Place.Accepts (ts.map Token.kind)) :
    (∀ p ∈ ofRows (Row.split ts).2, p.Valid) ∧ (ofRows (Row.split ts).2).flatMap tokens = ts ∧
      ∀ p ∈ (ofRows (Row.split ts).2).dropLast, p.block?.isSome := by
  obtain ⟨q, hwalk, hq⟩ := h
  have hrows := Row.flatMap_split_of_walk hwalk
  obtain ⟨hvalid, hblocks⟩ := ofRow_of_walk_flatMap (Row.isRow_of_split ts).2 (hrows.symm ▸ hwalk) hq
  obtain ⟨hparts, htokens⟩ := ofRows_valid hvalid
  exact ⟨hparts, htokens.trans hrows, block?_dropLast_ofRows hblocks⟩

theorem Node.toDocument_ofTokens {ts : List Token} {a b : Nat} (h : Place.Accepts (ts.map Token.kind))
    (htiles : Tiles a b (ts.map .token)) : (Node.ofTokens ts).toDocument =
      .ok ⟨(Part.ofRows (Row.split ts).2).filterMap Part.block?, Token.location ts⟩ := by
  obtain ⟨hvalid, htokens, -⟩ := Part.ofRows_split h
  rw [← htokens] at htiles
  have hchildren : Tiles a b ((Part.ofRows (Row.split ts).2).map Part.child) :=
    htiles.of_tokens Part.child Part.tokens fun p hp =>
      ⟨Part.extent_child (hvalid p hp), (hvalid p hp).tokens_ne_nil⟩
  have hspan : (Node.ofTokens ts).span = Token.span? ts := by
    have hextents := Node.extents_flatMap Part.child Part.tokens fun p hp =>
      Part.extent_child (hvalid p hp)
    rw [htokens] at hextents
    exact hextents
  have hblocks : (Node.ofTokens ts).orderedNodes.mapM Node.toBlock =
      .ok ((Part.ofRows (Row.split ts).2).filterMap Part.block?) := by
    rw [Node.orderedNodes, Node.ofTokens, hchildren.orderedChildren_ofChildren]
    exact Part.mapM_toBlock hvalid htiles
  have hrule : (Node.ofTokens ts).rule = .document := rfl
  rw [Node.toDocument, if_pos hrule, hblocks, hspan]
  rfl

end AsciiDoc
