import AsciiDoc.Document.OfTree
import AsciiDoc.Proofs.Acceptance
import AsciiDoc.Proofs.SourceOrder
import AsciiDoc.Proofs.RowTrees

namespace AsciiDoc

def Mark.kind : Mark → Kind
  | id => .idMark
  | role => .roleMark
  | option => .optionMark

namespace Token

def span? (ts : List Token) : Option Extent := (ts.map fun t => some t.extent).foldl Node.widen none

def location (ts : List Token) : Location := ((span? ts).map Location.ofExtent).getD .unresolved

def texts (k : Kind) (ts : List Token) : List Text := (ts.filter fun t => t.kind = k).map Token.text

end Token

namespace Node

theorem widen_none (e : Option Extent) : widen e none = e := by cases e <;> rfl

theorem widen_assoc (a b c : Option Extent) : widen (widen a b) c = widen a (widen b c) := by
  cases a <;> cases b <;> cases c <;> simp only [widen, Extent.union, Option.some.injEq, Extent.mk.injEq]
  omega

theorem foldl_widen (es : List (Option Extent)) (a : Option Extent) :
    es.foldl widen a = widen a (es.foldl widen none) := by
  induction es generalizing a with
  | nil => exact (widen_none a).symm
  | cons e es ih => rw [List.foldl_cons, ih, widen_assoc, List.foldl_cons, ← ih e]; rfl

theorem span?_append (ts us : List Token) :
    Token.span? (ts ++ us) = widen (Token.span? ts) (Token.span? us) := by
  rw [Token.span?, List.map_append, List.foldl_append, foldl_widen]
  rfl

theorem span?_ne_none {ts : List Token} (h : ts ≠ []) : ∃ e, Token.span? ts = some e := by
  cases ts with
  | nil => exact absurd rfl h
  | cons t ts =>
    rw [Token.span?, List.map_cons, List.foldl_cons, foldl_widen]
    cases (ts.map fun t => some t.extent).foldl widen none with
    | none => exact ⟨_, rfl⟩
    | some e => exact ⟨_, rfl⟩

theorem location_ofChildren (r : Rule) {cs : List (Child Node)} {ts : List Token}
    (h : (cs.map Child.extent?).foldl widen none = Token.span? ts) (hts : ts ≠ []) :
    (ofChildren r cs).location = .ok (Token.location ts) := by
  obtain ⟨e, he⟩ := span?_ne_none hts
  have hspan : (ofChildren r cs).span = some e := h.trans he
  rw [location, hspan, Token.location, he]
  rfl

theorem extents_tokens (ts : List Token) :
    ((ts.map Child.token).map Child.extent?).foldl widen none = Token.span? ts := by
  rw [List.map_map]
  rfl

theorem location_ofTokens (r : Rule) {ts : List Token} (hts : ts ≠ []) :
    (ofChildren r (ts.map .token)).location = .ok (Token.location ts) :=
  location_ofChildren r (extents_tokens ts) hts

@[simp] theorem filterMap_token? (ts : List Token) : (ts.map Child.token).filterMap Child.token? = ts := by
  rw [List.filterMap_map]
  exact List.filterMap_some

@[simp] theorem filterMap_node? (ts : List Token) : (ts.map Child.token).filterMap Child.node? = [] := by
  rw [List.filterMap_map]
  exact List.filterMap_eq_nil_iff.mpr fun t _ => rfl

@[simp] theorem filterMap_node?_cons (n : Node) (cs : List (Child Node)) :
    (Child.node n :: cs).filterMap Child.node? = n :: cs.filterMap Child.node? := rfl

theorem texts_ofTokens (r : Rule) (k : Kind) (ts : List Token) :
    (ofChildren r (ts.map .token)).texts k = Token.texts k ts := by
  rw [texts, tokens, ofChildren, filterMap_token?]
  rfl

theorem hasToken_iff (n : Node) (k : Kind) :
    n.hasToken k = true ↔ ∃ t ∈ n.children.filterMap Child.token?, t.kind = k := by
  rw [hasToken, tokens, Bool.not_eq_true', List.isEmpty_eq_false_iff_exists_mem]
  simp only [List.mem_filter, decide_eq_true_eq]

theorem hasToken_ofTokens (r : Rule) (k : Kind) (ts : List Token) :
    (ofChildren r (ts.map .token)).hasToken k = true ↔ ∃ t ∈ ts, t.kind = k := by
  rw [hasToken_iff, ofChildren, filterMap_token?]

end Node

theorem Tiles.of_tokens {α : Type} {a b : Nat} (child : α → Child Node) (tokens : α → List Token)
    {xs : List α} (hextent : ∀ x ∈ xs, (child x).extent? = Token.span? (tokens x) ∧ tokens x ≠ [])
    (h : Tiles a b ((xs.flatMap tokens).map .token)) : Tiles a b (xs.map child) := by
  induction xs generalizing a with
  | nil => exact h
  | cons x xs ih =>
    obtain ⟨hx, hne⟩ := hextent x List.mem_cons_self
    rw [List.flatMap_cons, List.map_append] at h
    obtain ⟨m, hfirst, hrest⟩ := Tiles.append_iff.mp h
    have hne' : (tokens x).map Child.token ≠ ([] : List (Child Node)) := by simpa using hne
    have hspan : Token.span? (tokens x) = some ⟨a, m⟩ := by
      rw [← Node.extents_tokens]
      exact hfirst.span_ofChildren hne' .document
    refine .cons (hx.trans hspan) (hfirst.lt hne') (ih ?_ hrest)
    intro y hy
    exact hextent y (List.mem_cons_of_mem x hy)

theorem Node.extents_flatMap {α : Type} (child : α → Child Node) (tokens : α → List Token) {xs : List α}
    (h : ∀ x ∈ xs, (child x).extent? = Token.span? (tokens x)) :
    ((xs.map child).map Child.extent?).foldl widen none = Token.span? (xs.flatMap tokens) := by
  induction xs with
  | nil => rfl
  | cons x xs ih =>
    rw [List.map_cons, List.map_cons, List.foldl_cons, foldl_widen, h x List.mem_cons_self,
      ih fun y hy => h y (List.mem_cons_of_mem x hy), List.flatMap_cons, span?_append]
    rfl

namespace Item

def tokens : Item → List Token
  | punctuation t => [t]
  | legacyId a b c => [a, b, c]
  | marked pairs => pairs.flatMap fun p => [p.1, p.2]
  | entry none value => value
  | entry (some (k, a)) value => k :: a :: value

def ValidValue (ts : List Token) : Prop :=
  (∃ t, ts = [t] ∧ t.kind = .listText) ∨
    ∃ a words b, ts = a :: words ++ [b] ∧ a.kind = .stringStart ∧ b.kind = .stringEnd ∧
      ∀ w ∈ words, w.kind = .stringText ∨ w.kind = .space

def Valid : Item → Prop
  | punctuation t => t.kind = .listStart ∨ t.kind = .listEnd ∨ t.kind = .comma
  | legacyId a b c => a.kind = .legacyIdStart ∧ b.kind = .listText ∧ c.kind = .legacyIdEnd
  | marked pairs => pairs ≠ [] ∧ ∃ m : Mark, ∀ p ∈ pairs, p.1.kind = m.kind ∧ p.2.kind = .listText
  | entry key value =>
    (∀ p ∈ key, p.1.kind = .listText ∧ p.2.kind = .assignment) ∧ ValidValue value

theorem ValidValue.ne_nil {v : List Token} (h : ValidValue v) : v ≠ [] := by
  rcases h with ⟨t, rfl, -⟩ | ⟨a, words, b, rfl, -⟩ <;> simp

theorem Valid.tokens_ne_nil {i : Item} (h : i.Valid) : i.tokens ≠ [] := by
  match i, h with
  | punctuation _, _ => exact List.cons_ne_nil _ _
  | legacyId _ _ _, _ => exact List.cons_ne_nil _ _
  | marked (_ :: _), _ => exact List.cons_ne_nil _ _
  | entry none _, h => exact h.2.ne_nil
  | entry (some _) _, _ => exact List.cons_ne_nil _ _

section OfTokens

variable {ts : List Token}

theorem ofTokens_punctuation {t : Token}
    (h : t.kind = .listStart ∨ t.kind = .listEnd ∨ t.kind = .comma) :
    ofTokens (t :: ts) = punctuation t :: ofTokens ts := by
  rw [ofTokens.eq_def]
  rcases h with h | h | h <;> simp only [h]

theorem ofTokens_legacyId {a : Token} (h : a.kind = .legacyIdStart) (b c : Token) :
    ofTokens (a :: b :: c :: ts) = legacyId a b c :: ofTokens ts := by
  rw [ofTokens.eq_def]
  simp only [h]

theorem ofTokens_pair {m : Mark} {a : Token} (h : a.kind = m.kind) (b : Token) :
    ofTokens (a :: b :: ts) = addPair (a, b) (ofTokens ts) := by
  rw [ofTokens.eq_def]
  cases m <;> simp only [h, Mark.kind]

theorem split_value {t : Token} {vs : List Token} (h : ValidValue (t :: vs)) (ts : List Token) :
    (vs ++ ts).take (valueExtra t (vs ++ ts)) = vs ∧ (vs ++ ts).drop (valueExtra t (vs ++ ts)) = ts := by
  rcases h with ⟨u, hu, hkind⟩ | ⟨a, words, b, hv, ha, hb, hwords⟩
  · obtain ⟨rfl, rfl⟩ := List.cons.inj hu
    have hextra : valueExtra t ([] ++ ts) = 0 := by simp [valueExtra, hkind]
    rw [hextra]
    exact ⟨rfl, rfl⟩
  · obtain ⟨rfl, rfl⟩ : t = a ∧ vs = words ++ [b] := List.cons.inj hv
    have hrun : (words ++ b :: ts).takeWhile (fun u => u.kind != .stringEnd) = words := by
      rw [List.takeWhile_append_of_pos, List.takeWhile_cons_of_neg (by simp [hb]), List.append_nil]
      intro w hw
      rcases hwords w hw with h | h <;> simp [h]
    have hextra : valueExtra t (words ++ [b] ++ ts) = (words ++ [b]).length := by
      rw [valueExtra, if_pos ha, List.append_assoc, List.singleton_append, hrun, List.length_append]
      rfl
    rw [hextra]
    exact ⟨List.take_left, List.drop_left⟩

theorem ofTokens_keyed {k a : Token} {v : List Token} (hk : k.kind = .listText)
    (ha : a.kind = .assignment) (hv : ValidValue v) :
    ofTokens (k :: a :: (v ++ ts)) = entry (some (k, a)) v :: ofTokens ts := by
  obtain ⟨t, vs, rfl⟩ := List.exists_cons_of_ne_nil hv.ne_nil
  obtain ⟨htake, hdrop⟩ := split_value hv ts
  rw [List.cons_append, ofTokens.eq_def]
  simp only [hk, List.head?_cons, Option.map_some, ha, if_true, htake, hdrop]

theorem ofTokens_value {v : List Token} (hv : ValidValue v)
    (hts : ts.head?.map Token.kind ≠ some .assignment) :
    ofTokens (v ++ ts) = entry none v :: ofTokens ts := by
  obtain ⟨t, vs, rfl⟩ := List.exists_cons_of_ne_nil hv.ne_nil
  have hsplit := split_value hv ts
  have hhead : (vs ++ ts).head?.map Token.kind ≠ some .assignment := by
    rcases hv with ⟨u, hu, -⟩ | ⟨a, words, b, hv, -, hb, hwords⟩
    · obtain ⟨rfl, rfl⟩ := List.cons.inj hu
      exact hts
    · obtain ⟨rfl, rfl⟩ := List.cons.inj hv
      cases words with
      | nil => simp [hb]
      | cons w words => rcases hwords w List.mem_cons_self with h | h <;> simp [h]
  have hkind : t.kind = .listText ∨ t.kind = .stringStart := by
    rcases hv with ⟨u, hu, hkind⟩ | ⟨a, words, b, hv, ha, -⟩
    · obtain ⟨rfl, -⟩ := List.cons.inj hu
      exact Or.inl hkind
    · obtain ⟨rfl, -⟩ := List.cons.inj hv
      exact Or.inr ha
  rw [List.cons_append, ofTokens.eq_def]
  rcases hkind with h | h <;> simp only [h, hhead, if_false, hsplit.1, hsplit.2]

end OfTokens

inductive ListTail : List Token → Prop
  | close {t : Token} (h : t.kind = .listEnd) : ListTail [t]
  | comma {t : Token} {ts : List Token} (h : t.kind = .comma) (hts : ListTail ts) : ListTail (t :: ts)
  | legacyId {a b c : Token} {ts : List Token} (h : (legacyId a b c).Valid) (hts : ListTail ts) :
      ListTail (a :: b :: c :: ts)
  | pair (m : Mark) {a b : Token} {ts : List Token} (ha : a.kind = m.kind) (hb : b.kind = .listText)
      (hts : ListTail ts) : ListTail (a :: b :: ts)
  | keyed {k a : Token} {v ts : List Token} (hk : k.kind = .listText) (ha : a.kind = .assignment)
      (hv : ValidValue v) (hts : ListTail ts) : ListTail (k :: a :: (v ++ ts))
  | value {v ts : List Token} (hv : ValidValue v) (hhead : ts.head?.map Token.kind ≠ some .assignment)
      (hts : ListTail ts) : ListTail (v ++ ts)

theorem valid_addPair {m : Mark} {a b : Token} (ha : a.kind = m.kind) (hb : b.kind = .listText)
    {items : List Item} (h : ∀ i ∈ items, i.Valid) : ∀ i ∈ addPair (a, b) items, i.Valid := by
  have hone : (marked [(a, b)]).Valid := by
    refine ⟨List.cons_ne_nil _ _, m, ?_⟩
    simpa using ⟨ha, hb⟩
  unfold addPair
  split
  · rename_i q qs items
    have hfirst := h _ List.mem_cons_self
    split
    · rename_i hq
      intro i hi
      rcases List.mem_cons.mp hi with rfl | hi
      · obtain ⟨-, l, hl⟩ := hfirst
        refine ⟨List.cons_ne_nil _ _, l, ?_⟩
        intro r hr
        rcases List.mem_cons.mp hr with rfl | hr
        · exact ⟨hq.symm.trans (hl q List.mem_cons_self).1, hb⟩
        · exact hl r hr
      · exact h i (List.mem_cons_of_mem _ hi)
    · intro i hi
      rcases List.mem_cons.mp hi with rfl | hi
      · exact hone
      · exact h i hi
  · intro i hi
    rcases List.mem_cons.mp hi with rfl | hi
    · exact hone
    · exact h i hi

theorem flatMap_tokens_addPair (p : Token × Token) (items : List Item) :
    (addPair p items).flatMap tokens = p.1 :: p.2 :: items.flatMap tokens := by
  unfold addPair
  split
  · split <;> simp [tokens]
  · simp [tokens]

theorem ListTail.valid {ts : List Token} (h : ListTail ts) : ∀ i ∈ ofTokens ts, i.Valid := by
  induction h with
  | close h =>
    rw [ofTokens_punctuation (Or.inr (Or.inl h)), ofTokens]
    exact List.forall_mem_singleton.mpr (Or.inr (Or.inl h))
  | comma h _ ih =>
    rw [ofTokens_punctuation (Or.inr (Or.inr h))]
    exact List.forall_mem_cons.mpr ⟨Or.inr (Or.inr h), ih⟩
  | legacyId h _ ih =>
    rw [ofTokens_legacyId h.1]
    exact List.forall_mem_cons.mpr ⟨h, ih⟩
  | pair m ha hb _ ih =>
    rw [ofTokens_pair ha]
    exact valid_addPair ha hb ih
  | keyed hk ha hv _ ih =>
    rw [ofTokens_keyed hk ha hv]
    exact List.forall_mem_cons.mpr ⟨⟨by simpa using ⟨hk, ha⟩, hv⟩, ih⟩
  | value hv hhead _ ih =>
    rw [ofTokens_value hv hhead]
    exact List.forall_mem_cons.mpr ⟨⟨by simp, hv⟩, ih⟩

theorem ListTail.flatMap_tokens {ts : List Token} (h : ListTail ts) :
    (ofTokens ts).flatMap tokens = ts := by
  induction h with
  | close h =>
    rw [ofTokens_punctuation (Or.inr (Or.inl h)), ofTokens]
    rfl
  | comma h _ ih =>
    rw [ofTokens_punctuation (Or.inr (Or.inr h)), List.flatMap_cons, ih]
    rfl
  | legacyId h _ ih =>
    rw [ofTokens_legacyId h.1, List.flatMap_cons, ih]
    rfl
  | pair m ha _ _ ih => rw [ofTokens_pair ha, flatMap_tokens_addPair, ih]
  | keyed hk ha hv _ ih =>
    rw [ofTokens_keyed hk ha hv, List.flatMap_cons, ih]
    rfl
  | value hv hhead _ ih =>
    rw [ofTokens_value hv hhead, List.flatMap_cons, ih]
    rfl

end Item

namespace Place

open Item

theorem walk_cons_eq_some {p q : Place} {t : Token} {ts : List Token}
    (h : p.walk ((t :: ts).map Token.kind) = some q) :
    ∃ r, p.next? t.kind = some r ∧ r.walk (ts.map Token.kind) = some q := by
  rw [List.map_cons, walk_cons] at h
  exact Option.bind_eq_some_iff.mp h

theorem next_string : ∀ p ∈ [stringOpen, stringWord, stringGap], ∀ k ∈ Kind.all, ∀ r ∈ p.next? k,
    (k = .stringEnd ∧ r = entryEnd) ∨
      ((k = .stringText ∨ k = .space) ∧ r ∈ [stringOpen, stringWord, stringGap]) := by
  decide

theorem isEnd_string : ∀ p ∈ [stringOpen, stringWord, stringGap], p.isEnd = false := by decide

theorem isEnd_item : ∀ p ∈ beforeEntry :: itemEnds, p.isEnd = false := by decide

theorem walk_string {p q : Place} {ts : List Token} (hp : p ∈ [stringOpen, stringWord, stringGap])
    (h : p.walk (ts.map Token.kind) = some q) (hq : q.isEnd = true) :
    ∃ words b rest, ts = words ++ b :: rest ∧ (∀ w ∈ words, w.kind = .stringText ∨ w.kind = .space) ∧
      b.kind = .stringEnd ∧ entryEnd.walk (rest.map Token.kind) = some q := by
  -- No document ends inside a string, so the walk comes to its closing quote.
  induction ts generalizing p with
  | nil =>
    cases h
    have hopen := isEnd_string q hp
    rw [hq] at hopen
    cases hopen
  | cons t ts ih =>
    obtain ⟨r, hr, hwalk⟩ := walk_cons_eq_some h
    rcases next_string p hp t.kind (Kind.mem_all _) r hr with ⟨hend, rfl⟩ | ⟨hword, hr'⟩
    · exact ⟨[], t, ts, rfl, by simp, hend, hwalk⟩
    · obtain ⟨words, b, rest, rfl, hwords, hb, hrest⟩ := ih hr' hwalk
      exact ⟨t :: words, b, rest, rfl, List.forall_mem_cons.mpr ⟨hword, hwords⟩, hb, hrest⟩

theorem walk_value {q : Place} {t : Token} {ts : List Token} (ht : t.kind = .stringStart)
    (h : stringOpen.walk (ts.map Token.kind) = some q) (hq : q.isEnd = true) :
    ∃ v rest, t :: ts = v ++ rest ∧ ValidValue v ∧ entryEnd.walk (rest.map Token.kind) = some q := by
  obtain ⟨words, b, rest, rfl, hwords, hb, hrest⟩ := walk_string (by simp) h hq
  exact ⟨t :: words ++ [b], rest, by simp, Or.inr ⟨t, words, b, rfl, ht, hb, hwords⟩, hrest⟩

theorem walk_forced {p q r : Place} {k : Kind} {ts : List Token}
    (hp : p.isEnd = false ∧ ∀ l ∈ Kind.all, ∀ s ∈ p.next? l, l = k ∧ s = r)
    (h : p.walk (ts.map Token.kind) = some q) (hq : q.isEnd = true) :
    ∃ t rest, ts = t :: rest ∧ t.kind = k ∧ r.walk (rest.map Token.kind) = some q := by
  cases ts with
  | nil =>
    cases h
    rw [hp.1] at hq
    cases hq
  | cons t ts =>
    obtain ⟨s, hs, hwalk⟩ := walk_cons_eq_some h
    obtain ⟨hk, rfl⟩ := hp.2 t.kind (Kind.mem_all _) s hs
    exact ⟨t, ts, rfl, hk, hwalk⟩

theorem walk_beforeValue {q : Place} {ts : List Token} (h : beforeValue.walk (ts.map Token.kind) = some q)
    (hq : q.isEnd = true) :
    ∃ v rest, ts = v ++ rest ∧ ValidValue v ∧ entryEnd.walk (rest.map Token.kind) = some q := by
  cases ts with
  | nil =>
    cases h
    cases hq
  | cons t ts =>
    have hnext : ∀ k ∈ Kind.all, ∀ r ∈ beforeValue.next? k,
        (k = .listText ∧ r = entryEnd) ∨ (k = .stringStart ∧ r = stringOpen) := by
      decide
    obtain ⟨r, hr, hwalk⟩ := walk_cons_eq_some h
    rcases hnext t.kind (Kind.mem_all _) r hr with ⟨hk, rfl⟩ | ⟨hk, rfl⟩
    · exact ⟨[t], ts, rfl, Or.inl ⟨t, rfl, hk⟩, hwalk⟩
    · exact walk_value hk hwalk hq

theorem head_ne_assignment {p q : Place} {ts : List Token} (hp : p.next? .assignment = none)
    (h : p.walk (ts.map Token.kind) = some q) : ts.head?.map Token.kind ≠ some .assignment := by
  cases ts with
  | nil => simp
  | cons t ts =>
    obtain ⟨r, hr, -⟩ := walk_cons_eq_some h
    intro hkind
    rw [Option.some.inj hkind, hp] at hr
    cases hr

theorem next_item : ∀ p ∈ beforeEntry :: itemEnds, ∀ k ∈ Kind.all, ∀ r ∈ p.next? k, k ≠ .assignment →
    (k = .comma ∧ r = beforeEntry) ∨ (k = .listEnd ∧ r = between) ∨
      (k = .legacyIdStart ∧ r = legacyOpen) ∨
      ((k = Mark.id.kind ∨ k = Mark.role.kind ∨ k = Mark.option.kind) ∧ r = afterMark) ∨
      (k = .listText ∧ r = keyOrValue) ∨ (k = .stringStart ∧ r = stringOpen) := by
  decide

theorem walk_between {q : Place} {ts : List Token} (h : between.walk (ts.map Token.kind) = some q)
    (hts : ∀ t ∈ ts, Row.opens t.kind = false) : ts = [] := by
  cases ts with
  | nil => rfl
  | cons t ts =>
    obtain ⟨r, hr, -⟩ := walk_cons_eq_some h
    have hnot := hts t List.mem_cons_self
    cases hkind : t.kind <;> simp [hkind, next?, Row.opens] at hr hnot

theorem listTail_of_walk {p q : Place} {ts : List Token} (hp : p ∈ beforeEntry :: itemEnds)
    (h : p.walk (ts.map Token.kind) = some q) (hq : q.isEnd = true)
    (hhead : ts.head?.map Token.kind ≠ some .assignment) (hts : ∀ t ∈ ts, Row.opens t.kind = false) :
    ListTail ts := by
  -- The induction is on the number of tokens, since an entry takes many of them at once. A list text
  -- that was just read may still be a key, so what follows must not begin with an assignment.
  induction hn : ts.length using Nat.strongRecOn generalizing p ts with
  | ind n ih =>
    have htail {u rest : List Token} (hu : ts = u ++ rest) (hne : u ≠ []) {r : Place}
        (hr : r ∈ beforeEntry :: itemEnds) (hwalk : r.walk (rest.map Token.kind) = some q)
        (hrest : rest.head?.map Token.kind ≠ some .assignment) : ListTail rest := by
      have hlength := congrArg List.length hu
      have hpos := List.length_pos_of_ne_nil hne
      rw [List.length_append] at hlength
      exact ih rest.length (by omega) hr hwalk hrest
        (fun t ht => hts t (hu ▸ List.mem_append_right u ht)) rfl
    cases ts with
    | nil =>
      cases h
      have hopen := isEnd_item q hp
      rw [hq] at hopen
      cases hopen
    | cons t ts =>
      obtain ⟨r, hr, hwalk⟩ := walk_cons_eq_some h
      have hne : t.kind ≠ .assignment := by simpa using hhead
      rcases next_item p hp t.kind (Kind.mem_all _) r hr hne with ⟨hk, rfl⟩ | ⟨hk, rfl⟩ | ⟨hk, rfl⟩ |
        ⟨hk, rfl⟩ | ⟨hk, rfl⟩ | ⟨hk, rfl⟩
      · exact .comma hk (htail (u := [t]) rfl (by simp) (by simp) hwalk (head_ne_assignment rfl hwalk))
      · rw [walk_between hwalk fun u hu => hts u (List.mem_cons_of_mem t hu)]
        exact .close hk
      · obtain ⟨b, rest, rfl, hb, hwalk⟩ := walk_forced (k := .listText) (r := legacyText) (by decide) hwalk hq
        obtain ⟨d, rest, rfl, hd, hwalk⟩ := walk_forced (k := .legacyIdEnd) (r := item) (by decide) hwalk hq
        exact .legacyId ⟨hk, hb, hd⟩
          (htail (u := [t, b, d]) rfl (by simp) (by simp [itemEnds]) hwalk (head_ne_assignment rfl hwalk))
      · obtain ⟨m, hm⟩ : ∃ m : Mark, t.kind = m.kind := by
          rcases hk with h | h | h <;> exact ⟨_, h⟩
        obtain ⟨b, rest, rfl, hb, hwalk⟩ := walk_forced (k := .listText) (r := item) (by decide) hwalk hq
        exact .pair m hm hb
          (htail (u := [t, b]) rfl (by simp) (by simp [itemEnds]) hwalk (head_ne_assignment rfl hwalk))
      · by_cases hkey : ts.head?.map Token.kind = some .assignment
        · obtain ⟨a, ts, rfl⟩ : ∃ a us, ts = a :: us := by
            cases ts with
            | nil => cases hkey
            | cons a us => exact ⟨a, us, rfl⟩
          have ha : a.kind = .assignment := by simpa using hkey
          obtain ⟨s, hs, hwalk⟩ := walk_cons_eq_some hwalk
          rw [ha] at hs
          cases hs
          obtain ⟨v, rest, rfl, hv, hwalk⟩ := walk_beforeValue hwalk hq
          exact .keyed hk ha hv (htail (u := t :: a :: v) (by simp) (by simp) (by simp [itemEnds]) hwalk
            (head_ne_assignment rfl hwalk))
        · exact .value (v := [t]) (Or.inl ⟨t, rfl, hk⟩) hkey
            (htail (u := [t]) rfl (by simp) (by simp [itemEnds]) hwalk hkey)
      · obtain ⟨v, rest, hv, hvalid, hwalk⟩ := walk_value hk hwalk hq
        have hhead := head_ne_assignment rfl hwalk
        rw [hv]
        exact .value hvalid hhead (htail hv hvalid.ne_nil (by simp [itemEnds]) hwalk hhead)

end Place

end AsciiDoc
