import AsciiDoc.Proofs.Forests
import AsciiDoc.Proofs.Rows

namespace AsciiDoc

namespace Pattern

variable {p q : Pattern} {s t : List Slot}

theorem kind_mem (k : Kind) : [.token k] ∈ (kind k).matches' := rfl

theorem rule_mem (r : Rule) : [.rule r] ∈ (rule r).matches' := rfl

theorem append_mem (hs : s ∈ p.matches') (ht : t ∈ q.matches') : s ++ t ∈ (p * q).matches' :=
  Language.append_mem_mul hs ht

theorem mul_assoc_mem {r : Pattern} (h : s ∈ (p * (q * r)).matches') : s ∈ (p * q * r).matches' := by
  simpa only [RegularExpression.matches'_mul, mul_assoc] using h

theorem nil_mem_many (p : Pattern) : [] ∈ p.many.matches' := Language.nil_mem_kstar _

theorem append_mem_many (hs : s ∈ p.matches') (ht : t ∈ p.many.matches') : s ++ t ∈ p.many.matches' := by
  obtain ⟨words, rfl, hwords⟩ := ht
  refine ⟨s :: words, rfl, ?_⟩
  exact List.forall_mem_cons.mpr ⟨hs, hwords⟩

theorem mem_many (hs : s ∈ p.matches') : s ∈ p.many.matches' := by
  have h := append_mem_many hs (nil_mem_many p)
  rwa [List.append_nil] at h

theorem flatMap_mem_many {α : Type} {f : α → List Slot} {xs : List α} (h : ∀ x ∈ xs, f x ∈ p.matches') :
    xs.flatMap f ∈ p.many.matches' := by
  induction xs with
  | nil => exact nil_mem_many p
  | cons x xs ih =>
    obtain ⟨hx, hxs⟩ := List.forall_mem_cons.mp h
    exact append_mem_many hx (ih hxs)

theorem flatMap_mem_several {α : Type} {f : α → List Slot} {xs : List α} (hne : xs ≠ [])
    (h : ∀ x ∈ xs, f x ∈ p.matches') : xs.flatMap f ∈ p.several.matches' := by
  obtain ⟨x, xs, rfl⟩ := List.exists_cons_of_ne_nil hne
  obtain ⟨hx, hxs⟩ := List.forall_mem_cons.mp h
  exact append_mem hx (flatMap_mem_many hxs)

theorem slots_tokens (ts : List Token) :
    (ts.map Child.token).map Child.slot = ts.map fun t => .token t.kind := by
  rw [List.map_map]
  rfl

end Pattern

namespace Row

open Pattern

theorem slots_words {ts : List Token} (h : ∀ t ∈ ts, t.kind = .inlineText ∨ t.kind = .space) :
    (ts.map fun t => Slot.token t.kind) ∈
      ((kind .space).many * (kind .inlineText * (kind .space).many).many).matches' := by
  induction ts with
  | nil => exact append_mem (nil_mem_many _) (nil_mem_many _)
  | cons t ts ih =>
    obtain ⟨ht, hts⟩ := List.forall_mem_cons.mp h
    obtain ⟨spaces, hspaces, words, hwords, hsplit⟩ := ih hts
    rw [List.map_cons, ← hsplit]
    rcases ht with hk | hk
    · rw [hk]
      exact append_mem (nil_mem_many _)
        (append_mem_many (append_mem (kind_mem .inlineText) hspaces) hwords)
    · rw [hk]
      exact append_mem (append_mem_many (kind_mem .space) hspaces) hwords

theorem IsLine.slots_text {ts : List Token} (h : IsLine ts) :
    ((ts.dropWhile isSpace).map Child.token).map Child.slot ∈ Rule.text.body.matches' := by
  obtain ⟨w, rest, hdrop, hw, hrest⟩ := h
  obtain ⟨spaces, hspaces, words, hwords, hsplit⟩ := slots_words hrest
  rw [hdrop, slots_tokens, List.map_cons, ← hsplit, hw]
  exact append_mem (append_mem (kind_mem .inlineText) hspaces) hwords

theorem slots_lineChildren (ts : List Token) :
    (lineChildren ts).map Child.slot ∈ ((kind .space).many * rule .text).matches' := by
  rw [lineChildren, List.map_append, slots_tokens, ← List.flatMap_singleton' ((ts.takeWhile _).map _)]
  refine append_mem (flatMap_mem_many ?_) (rule_mem .text)
  intro s hs
  obtain ⟨t, ht, rfl⟩ := List.mem_map.mp hs
  have hk : t.kind = .space := by simpa [isSpace] using List.mem_takeWhile_imp ht
  rw [hk]
  exact kind_mem .space

theorem IsLine.forest {ts : List Token} (h : IsLine ts) : Forest (lineChildren ts) ts := by
  have hne : ts.dropWhile isSpace ≠ [] := by
    obtain ⟨w, rest, hdrop, -⟩ := h
    rw [hdrop]
    exact List.cons_ne_nil _ _
  have hforest := (Forest.tokens (ts.takeWhile isSpace)).append
    (Forest.single h.slots_text hne (.tokens (ts.dropWhile isSpace)))
  rwa [List.takeWhile_append_dropWhile] at hforest

end Row

namespace Place

open Pattern

def restOfString : Place → Pattern
  | stringWord => (kind .space * kind .stringText).many
  | stringGap => kind .stringText * (kind .space * kind .stringText).many
  | _ => (kind .stringText * (kind .space * kind .stringText).many).optional

theorem walk_words {p q : Place} {ws : List Token} {b : Token}
    (hp : p ∈ [stringOpen, stringWord, stringGap])
    (hws : ∀ w ∈ ws, w.kind = .stringText ∨ w.kind = .space) (hb : b.kind = .stringEnd)
    (h : p.walk ((ws ++ [b]).map Token.kind) = some q) :
    q = entryEnd ∧ (ws.map fun t => Slot.token t.kind) ∈ p.restOfString.matches' := by
  induction ws generalizing p with
  | nil =>
    obtain ⟨r, hr, hwalk⟩ := walk_cons_eq_some h
    cases hwalk
    rw [hb] at hr
    simp only [List.mem_cons, List.not_mem_nil, or_false] at hp
    rcases hp with rfl | rfl | rfl
    · cases hr
      exact ⟨rfl, Or.inl rfl⟩
    · cases hr
      exact ⟨rfl, nil_mem_many _⟩
    · cases hr
  | cons w ws ih =>
    obtain ⟨r, hr, hwalk⟩ := walk_cons_eq_some h
    obtain ⟨hw, hws⟩ := List.forall_mem_cons.mp hws
    simp only [List.mem_cons, List.not_mem_nil, or_false] at hp
    rcases hw with hk | hk
    · rw [hk] at hr
      rw [List.map_cons, hk]
      rcases hp with rfl | rfl | rfl
      · cases hr
        obtain ⟨hq, hslots⟩ := ih (by simp) hws hwalk
        exact ⟨hq, Or.inr (append_mem (kind_mem .stringText) hslots)⟩
      · cases hr
      · cases hr
        obtain ⟨hq, hslots⟩ := ih (by simp) hws hwalk
        exact ⟨hq, append_mem (kind_mem .stringText) hslots⟩
    · rw [hk] at hr
      rw [List.map_cons, hk]
      rcases hp with rfl | rfl | rfl
      · cases hr
      · cases hr
        obtain ⟨hq, text, htext, more, hmore, hsplit⟩ := ih (by simp) hws hwalk
        rw [← hsplit]
        exact ⟨hq, append_mem_many (append_mem (kind_mem .space) htext) hmore⟩
      · cases hr

theorem walk_validValue {p q : Place} {v : List Token} (hp : p ∈ beforeValue :: beforeEntry :: itemEnds)
    (hv : Item.ValidValue v) (h : p.walk (v.map Token.kind) = some q) :
    q ∈ entryEnds ∧ (v.map Child.token).map Child.slot ∈ Rule.attributeValue.body.matches' := by
  have hnext : ∀ p ∈ beforeValue :: beforeEntry :: itemEnds,
      (∀ r ∈ p.next? .listText, r ∈ entryEnds) ∧ ∀ r ∈ p.next? .stringStart, r = stringOpen := by
    decide
  rcases hv with ⟨t, rfl, ht⟩ | ⟨a, words, b, rfl, ha, hb, hwords⟩
  · obtain ⟨r, hr, hwalk⟩ := walk_cons_eq_some h
    cases hwalk
    rw [ht] at hr
    refine ⟨(hnext p hp).1 q hr, Or.inr ?_⟩
    rw [slots_tokens, List.map_singleton, ht]
    exact kind_mem .listText
  · obtain ⟨r, hr, hwalk⟩ := walk_cons_eq_some h
    rw [ha] at hr
    obtain rfl := (hnext p hp).2 r hr
    obtain ⟨rfl, hslots⟩ := walk_words (by simp) hwords hb hwalk
    refine ⟨by simp [entryEnds], Or.inl ?_⟩
    rw [slots_tokens, List.cons_append, List.map_cons, List.map_append, List.map_singleton, ha, hb]
    exact append_mem (append_mem (kind_mem .stringStart) hslots) (kind_mem .stringEnd)

theorem walk_pairs {m : Mark} {pairs : List (Token × Token)} {q : Place}
    (hpairs : ∀ x ∈ pairs, x.1.kind = m.kind ∧ x.2.kind = .listText)
    (h : item.walk ((pairs.flatMap fun x => [x.1, x.2]).map Token.kind) = some q) : q = item := by
  induction pairs with
  | nil =>
    cases h
    rfl
  | cons x pairs ih =>
    obtain ⟨⟨hmark, htext⟩, hrest⟩ := List.forall_mem_cons.mp hpairs
    obtain ⟨r, hr, hwalk⟩ := walk_cons_eq_some h
    obtain ⟨s, hs, hwalk⟩ := walk_cons_eq_some hwalk
    obtain rfl : r = afterMark := by
      rw [hmark] at hr
      cases m <;> cases hr <;> rfl
    rw [htext] at hs
    cases hs
    exact ih hrest hwalk

def restOfList : Place → Pattern
  | item => items * kind .listEnd
  | beforeEntry => rule .attributeEntry * moreEntries * (items * kind .listEnd)
  | _ => moreEntries * (items * kind .listEnd)
where
  moreEntries : Pattern := (kind .comma * rule .attributeEntry).many
  items : Pattern := (rule .shorthand + rule .attributeEntry * moreEntries).many

variable {p q : Place} {slots : List Slot}

theorem mem_itemEnds (hp : p ∈ entryEnds) : p ∈ beforeEntry :: itemEnds := by
  simp only [entryEnds, itemEnds, List.mem_cons, List.not_mem_nil, or_false] at hp ⊢
  tauto

theorem restOfList_of_item (hp : p ∈ itemEnds) (h : slots ∈ item.restOfList.matches') :
    slots ∈ p.restOfList.matches' := by
  simp only [itemEnds, List.mem_cons, List.not_mem_nil, or_false] at hp
  rcases hp with rfl | rfl | rfl
  · exact h
  · exact append_mem (nil_mem_many _) h
  · exact append_mem (nil_mem_many _) h

theorem restOfList_listEnd (hp : p ∈ itemEnds) : [.token .listEnd] ∈ p.restOfList.matches' :=
  restOfList_of_item hp (append_mem (nil_mem_many _) (kind_mem .listEnd))

theorem restOfList_shorthand (hp : p ∈ itemEnds) (h : slots ∈ item.restOfList.matches') :
    .rule .shorthand :: slots ∈ p.restOfList.matches' := by
  obtain ⟨items, hitems, closing, hclosing, rfl⟩ := h
  apply restOfList_of_item hp
  exact append_mem (append_mem_many (Or.inl (rule_mem .shorthand)) hitems) hclosing

theorem restOfList_comma (hp : p ∈ entryEnds) (h : slots ∈ beforeEntry.restOfList.matches') :
    .token .comma :: slots ∈ p.restOfList.matches' := by
  obtain ⟨_, ⟨entry, hentry, more, hmore, rfl⟩, rest, hrest, rfl⟩ := h
  have hmore := append_mem_many (append_mem (kind_mem .comma) hentry) hmore
  simp only [entryEnds, List.mem_cons, List.not_mem_nil, or_false] at hp
  rcases hp with rfl | rfl
  · exact append_mem hmore hrest
  · exact append_mem hmore hrest

theorem restOfList_entry (hp : p ∈ beforeEntry :: itemEnds) (hq : q ∈ entryEnds)
    (h : slots ∈ q.restOfList.matches') : .rule .attributeEntry :: slots ∈ p.restOfList.matches' := by
  obtain ⟨more, hmore, rest, hrest, rfl⟩ : ∃ more ∈ restOfList.moreEntries.matches',
      ∃ rest ∈ item.restOfList.matches', more ++ rest = slots := by
    simp only [entryEnds, List.mem_cons, List.not_mem_nil, or_false] at hq
    rcases hq with rfl | rfl <;> exact h
  have hentries := append_mem (rule_mem .attributeEntry) hmore
  rcases List.mem_cons.mp hp with rfl | hp
  · exact append_mem hentries hrest
  · obtain ⟨items, hitems, closing, hclosing, rfl⟩ := hrest
    apply restOfList_of_item hp
    have hall := append_mem (append_mem_many (Or.inr hentries) hitems) hclosing
    rwa [List.append_assoc] at hall

end Place

namespace Item

open Pattern Place

theorem walk_entry {key : Option (Token × Token)} {value : List Token} (hi : (entry key value).Valid)
    {p q : Place} (hp : p ∈ beforeEntry :: itemEnds)
    (h : p.walk ((entry key value).tokens.map Token.kind) = some q) :
    ∃ r ∈ beforeValue :: beforeEntry :: itemEnds, r.walk (value.map Token.kind) = some q := by
  cases key with
  | none => exact ⟨p, List.mem_cons_of_mem _ hp, h⟩
  | some k =>
    have hnext : ∀ p ∈ beforeEntry :: itemEnds, ∀ r ∈ p.next? .listText, r = keyOrValue := by decide
    obtain ⟨hkey, hassign⟩ := hi.1 k rfl
    obtain ⟨r, hr, hwalk⟩ := walk_cons_eq_some h
    obtain ⟨s, hs, hwalk⟩ := walk_cons_eq_some hwalk
    rw [hkey] at hr
    obtain rfl := hnext p hp r hr
    rw [hassign] at hs
    cases hs
    exact ⟨beforeValue, List.mem_cons_self, hwalk⟩

theorem forest_child {i : Item} (hi : i.Valid) {p q : Place} (hp : p ∈ beforeEntry :: itemEnds)
    (h : p.walk (i.tokens.map Token.kind) = some q) : Forest [i.child] i.tokens := by
  cases i with
  | punctuation t => exact .token t .nil
  | legacyId a b c =>
    obtain ⟨ha, hb, hc⟩ := hi
    have hslots : [.token a.kind, .token b.kind, .token c.kind] ∈ Rule.shorthand.body.matches' := by
      rw [ha, hb, hc]
      exact Or.inl (Or.inl (Or.inl (append_mem (append_mem (kind_mem .legacyIdStart) (kind_mem .listText))
        (kind_mem .legacyIdEnd))))
    exact Forest.single hslots (List.cons_ne_nil _ _) (.tokens [a, b, c])
  | marked pairs =>
    have hne := hi.tokens_ne_nil
    obtain ⟨hpairs, m, hm⟩ := hi
    rw [child_marked]
    refine Forest.single ?_ hne (.tokens _)
    have hslots : (marked pairs).tokens.map (fun t => Slot.token t.kind) ∈ (Pattern.pairs m.kind).matches' := by
      rw [tokens, List.map_flatMap]
      apply flatMap_mem_several hpairs
      intro x hx
      obtain ⟨hmark, htext⟩ := hm x hx
      rw [List.map_cons, List.map_singleton, hmark, htext]
      exact append_mem (kind_mem m.kind) (kind_mem .listText)
    rw [slots_tokens]
    cases m with
    | id => exact Or.inl (Or.inl (Or.inr hslots))
    | role => exact Or.inl (Or.inr hslots)
    | option => exact Or.inr hslots
  | entry key value =>
    obtain ⟨r, hr, hwalk⟩ := walk_entry hi hp h
    obtain ⟨hkey, hvalue⟩ := hi
    have hforest := Forest.single (walk_validValue hr hvalue hwalk).2 hvalue.ne_nil (.tokens value)
    cases key with
    | none =>
      have hslots : [.rule .attributeValue] ∈ Rule.attributeEntry.body.matches' :=
        append_mem (s := []) (Or.inl rfl) (rule_mem .attributeValue)
      exact Forest.single hslots hvalue.ne_nil hforest
    | some k =>
      obtain ⟨hk, ha⟩ := hkey k rfl
      have hslots : [.token k.1.kind, .token k.2.kind, .rule .attributeValue] ∈
          Rule.attributeEntry.body.matches' := by
        rw [hk, ha]
        exact append_mem (s := [.token .listText, .token .assignment])
          (Or.inr (append_mem (kind_mem .listText) (kind_mem .assignment))) (rule_mem .attributeValue)
      exact Forest.single hslots (List.cons_ne_nil _ _) (.token k.1 (.token k.2 hforest))

theorem walk_tokens {i : Item} (hi : i.Valid) {p q : Place} (hp : p ∈ beforeEntry :: itemEnds)
    (h : p.walk (i.tokens.map Token.kind) = some q) :
    (i.child.slot = .token .listEnd ∧ p ∈ itemEnds ∧ q = between) ∨
      (i.child.slot = .token .comma ∧ p ∈ entryEnds ∧ q = beforeEntry) ∨
      (i.child.slot = .rule .shorthand ∧ p ∈ itemEnds ∧ q = .item) ∨
      (i.child.slot = .rule .attributeEntry ∧ q ∈ entryEnds) := by
  cases i with
  | punctuation t =>
    have hnext : ∀ p ∈ beforeEntry :: itemEnds, p.next? .listStart = none ∧
        (∀ r ∈ p.next? .listEnd, p ∈ itemEnds ∧ r = between) ∧
        ∀ r ∈ p.next? .comma, p ∈ entryEnds ∧ r = beforeEntry := by
      decide
    obtain ⟨hstart, hend, hcomma⟩ := hnext p hp
    obtain ⟨r, hr, hwalk⟩ := walk_cons_eq_some h
    cases hwalk
    rcases hi with hk | hk | hk
    · rw [hk, hstart] at hr
      cases hr
    · rw [hk] at hr
      exact Or.inl ⟨congrArg Slot.token hk, hend q hr⟩
    · rw [hk] at hr
      exact Or.inr (Or.inl ⟨congrArg Slot.token hk, hcomma q hr⟩)
  | legacyId a b c =>
    have hnext : ∀ p ∈ beforeEntry :: itemEnds, ∀ r ∈ p.next? .legacyIdStart, p ∈ itemEnds ∧ r = legacyOpen := by
      decide
    obtain ⟨ha, hb, hc⟩ := hi
    obtain ⟨r, hr, hwalk⟩ := walk_cons_eq_some h
    obtain ⟨s, hs, hwalk⟩ := walk_cons_eq_some hwalk
    obtain ⟨u, hu, hwalk⟩ := walk_cons_eq_some hwalk
    rw [ha] at hr
    rw [hb] at hs
    rw [hc] at hu
    obtain ⟨hends, rfl⟩ := hnext p hp r hr
    cases hs
    cases hu
    cases hwalk
    exact Or.inr (Or.inr (Or.inl ⟨rfl, hends, rfl⟩))
  | marked pairs =>
    have hnext : ∀ p ∈ beforeEntry :: itemEnds, ∀ m ∈ [Mark.id, Mark.role, Mark.option],
        ∀ r ∈ p.next? m.kind, p ∈ itemEnds ∧ r = afterMark := by
      decide
    obtain ⟨hne, m, hm⟩ := hi
    obtain ⟨x, pairs, rfl⟩ := List.exists_cons_of_ne_nil hne
    obtain ⟨⟨hmark, htext⟩, hrest⟩ := List.forall_mem_cons.mp hm
    obtain ⟨r, hr, hwalk⟩ := walk_cons_eq_some h
    obtain ⟨s, hs, hwalk⟩ := walk_cons_eq_some hwalk
    rw [hmark] at hr
    obtain ⟨hends, rfl⟩ := hnext p hp m (by cases m <;> simp) r hr
    rw [htext] at hs
    cases hs
    exact Or.inr (Or.inr (Or.inl ⟨rfl, hends, walk_pairs hrest hwalk⟩))
  | entry key value =>
    obtain ⟨r, hr, hwalk⟩ := walk_entry hi hp h
    have hslot : (entry key value).child.slot = .rule .attributeEntry := by
      cases key <;> rfl
    exact Or.inr (Or.inr (Or.inr ⟨hslot, (walk_validValue hr hi.2 hwalk).1⟩))

theorem Valid.walk_between {i : Item} (hi : i.Valid) (ts : List Token) :
    between.walk ((i.tokens ++ ts).map Token.kind) = none := by
  obtain ⟨t, us, ht, hnext⟩ : ∃ t us, i.tokens = t :: us ∧ between.next? t.kind = none := by
    cases i with
    | punctuation t =>
      refine ⟨t, [], rfl, ?_⟩
      rcases hi with hk | hk | hk <;> rw [hk] <;> rfl
    | legacyId a b c =>
      refine ⟨a, [b, c], rfl, ?_⟩
      rw [hi.1]
      rfl
    | marked pairs =>
      obtain ⟨hne, m, hm⟩ := hi
      obtain ⟨x, pairs, rfl⟩ := List.exists_cons_of_ne_nil hne
      refine ⟨x.1, _, rfl, ?_⟩
      rw [(hm x List.mem_cons_self).1]
      cases m <;> rfl
    | entry key value =>
      cases key with
      | none =>
        rcases hi.2 with ⟨t, rfl, hk⟩ | ⟨a, words, b, rfl, hk, -⟩
        · exact ⟨t, [], rfl, by rw [hk]; rfl⟩
        · exact ⟨a, _, rfl, by rw [hk]; rfl⟩
      | some k =>
        refine ⟨k.1, _, rfl, ?_⟩
        rw [(hi.1 k rfl).1]
        rfl
  rw [ht, List.cons_append, List.map_cons, walk_cons, hnext]
  rfl

theorem slots_items {items : List Item} (hitems : ∀ i ∈ items, i.Valid) {p q : Place}
    (hp : p ∈ beforeEntry :: itemEnds) (h : p.walk ((items.flatMap tokens).map Token.kind) = some q)
    (hq : q.isEnd = true) :
    (items.map child).map Child.slot ∈ p.restOfList.matches' ∧ ∀ i ∈ items, Forest [i.child] i.tokens := by
  induction items generalizing p with
  | nil =>
    cases h
    have hopen := isEnd_item q hp
    rw [hq] at hopen
    cases hopen
  | cons i items ih =>
    obtain ⟨hi, hrest⟩ := List.forall_mem_cons.mp hitems
    rw [List.flatMap_cons, List.map_append, walk_append] at h
    obtain ⟨r, hr, hwalk⟩ := Option.bind_eq_some_iff.mp h
    have hforest := forest_child hi hp hr
    rw [List.map_cons, List.map_cons, List.forall_mem_cons]
    rcases walk_tokens hi hp hr with ⟨hslot, hends, rfl⟩ | ⟨hslot, hends, rfl⟩ | ⟨hslot, hends, rfl⟩ |
      ⟨hslot, hends⟩
    · rw [hslot]
      cases items with
      | nil => exact ⟨restOfList_listEnd hends, hforest, by simp⟩
      | cons j items =>
        rw [List.flatMap_cons, (hrest j List.mem_cons_self).walk_between] at hwalk
        cases hwalk
    · obtain ⟨hslots, hall⟩ := ih hrest (by simp) hwalk
      rw [hslot]
      exact ⟨restOfList_comma hends hslots, hforest, hall⟩
    · obtain ⟨hslots, hall⟩ := ih hrest (by simp [itemEnds]) hwalk
      rw [hslot]
      exact ⟨restOfList_shorthand hends hslots, hforest, hall⟩
    · obtain ⟨hslots, hall⟩ := ih hrest (mem_itemEnds hends) hwalk
      rw [hslot]
      exact ⟨restOfList_entry hp hends hslots, hforest, hall⟩

end Item

namespace Part

open Pattern

theorem walk_attributes {opening : Token} {list : List Token} (h : (attributes opening list).Valid)
    {p q : Place} (hwalk : p.walk ((attributes opening list).tokens.map Token.kind) = some q) :
    ∃ t ts, list = t :: ts ∧ t.kind = .listStart ∧ Item.ListTail ts ∧
      Place.item.walk (ts.map Token.kind) = some q := by
  obtain ⟨ho, t, ts, rfl, ht, htail⟩ := h
  obtain ⟨r, hr, hwalk⟩ := Place.walk_cons_eq_some hwalk
  obtain ⟨s, hs, hwalk⟩ := Place.walk_cons_eq_some hwalk
  obtain rfl : s = .item := by
    have hnext : ∀ r ∈ p.next? .newline, r = .lineStart := by cases p <;> simp [Place.next?, Place.itemStart?]
    rw [ho] at hr
    rw [ht, hnext r hr] at hs
    exact (Option.some.inj hs).symm
  exact ⟨t, ts, rfl, ht, htail, hwalk⟩

theorem slots_attributes {opening : Token} {list : List Token} (h : (attributes opening list).Valid)
    {p q : Place} (hwalk : p.walk ((attributes opening list).tokens.map Token.kind) = some q)
    (hq : q.isEnd = true) :
    ((Item.ofTokens list).map Item.child).map Child.slot ∈ Rule.attributeList.body.matches' ∧
      Forest ((Item.ofTokens list).map Item.child) list := by
  obtain ⟨t, ts, rfl, ht, htail, hwalk⟩ := walk_attributes h hwalk
  rw [← htail.flatMap_tokens] at hwalk
  obtain ⟨hslots, hforests⟩ := Item.slots_items htail.valid (by simp [Place.itemEnds]) hwalk hq
  have hforest := Forest.flatMap (f := fun i => [Item.child i]) hforests
  rw [← List.map_eq_flatMap, htail.flatMap_tokens] at hforest
  rw [Item.ofTokens_punctuation (Or.inl ht), List.map_cons, List.map_cons]
  refine ⟨mul_assoc_mem ?_, .token t hforest⟩
  rw [Item.child, Child.slot, ht]
  exact append_mem (kind_mem .listStart) hslots

theorem forest_child {x : Part} (h : x.Valid) {p q : Place}
    (hwalk : p.walk (x.tokens.map Token.kind) = some q) (hq : q.isEnd = true) :
    Forest [x.child] x.tokens := by
  cases x with
  | newline t => exact .token t .nil
  | emptyLine t =>
    have hslots : [.token t.kind] ∈ Rule.emptyLine.body.matches' := congrArg (fun k => [Slot.token k]) h
    exact Forest.single hslots (List.cons_ne_nil _ _) (.token t .nil)
  | headline opening marker rest =>
    have hne := h.tokens_ne_nil
    obtain ⟨ho, hm, hline⟩ := h
    refine Forest.single ?_ hne (.token opening (.token marker hline.forest))
    apply mul_assoc_mem
    rw [List.map_cons, List.map_cons, Child.slot, Child.slot, ho, hm]
    exact append_mem (append_mem (kind_mem .newline) (kind_mem .headline)) (Row.slots_lineChildren rest)
  | attributes opening list =>
    have hne := h.tokens_ne_nil
    obtain ⟨hslots, hforest⟩ := slots_attributes h hwalk hq
    have hlist : list ≠ [] := by
      obtain ⟨-, t, ts, rfl, -⟩ := h
      exact List.cons_ne_nil _ _
    have hblock : [.token opening.kind, .rule .attributeList] ∈ Rule.attributeBlock.body.matches' := by
      rw [h.1]
      exact append_mem (kind_mem .newline) (rule_mem .attributeList)
    exact Forest.single hblock hne (.token opening (Forest.single hslots hlist hforest))
  | paragraph rows =>
    have hne := h.tokens_ne_nil
    obtain ⟨hrows, hlines⟩ := h
    refine Forest.single ?_ hne (Forest.flatMap fun r hr => .token r.opening (hlines r hr).2.forest)
    rw [List.map_flatMap]
    apply flatMap_mem_several hrows
    intro r hr
    apply mul_assoc_mem
    rw [List.map_cons, Child.slot, (hlines r hr).1]
    exact append_mem (kind_mem .newline) (Row.slots_lineChildren r.body)

theorem Valid.exists_opening {x : Part} (h : x.Valid) :
    ∃ t ts, x.tokens = t :: ts ∧ Row.opens t.kind = true := by
  cases x with
  | newline t => exact ⟨t, [], rfl, congrArg Row.opens h⟩
  | emptyLine t => exact ⟨t, [], rfl, congrArg Row.opens h⟩
  | headline opening marker rest => exact ⟨opening, _, rfl, congrArg Row.opens h.1⟩
  | attributes opening list => exact ⟨opening, _, rfl, congrArg Row.opens h.1⟩
  | paragraph rows =>
    obtain ⟨r, rows, rfl⟩ := List.exists_cons_of_ne_nil h.1
    exact ⟨r.opening, _, rfl, congrArg Row.opens (h.2 r List.mem_cons_self).1⟩

theorem isEnd_before {parts : List Part} (h : ∀ x ∈ parts, x.Valid) {p q : Place}
    (hwalk : p.walk ((parts.flatMap tokens).map Token.kind) = some q) (hq : q.isEnd = true) : p.isEnd = true := by
  cases parts with
  | nil =>
    cases hwalk
    exact hq
  | cons x parts =>
    obtain ⟨t, ts, ht, hopens⟩ := (h x List.mem_cons_self).exists_opening
    rw [List.flatMap_cons, ht] at hwalk
    obtain ⟨r, hr, -⟩ := Place.walk_cons_eq_some hwalk
    exact (Place.isEnd_closed p (Place.mem_closed_of_opens hr hopens)).1

theorem forest_children {parts : List Part} (h : ∀ x ∈ parts, x.Valid) {p q : Place}
    (hwalk : p.walk ((parts.flatMap tokens).map Token.kind) = some q) (hq : q.isEnd = true) :
    Forest (parts.map child) (parts.flatMap tokens) := by
  induction parts generalizing p with
  | nil => exact .nil
  | cons x parts ih =>
    obtain ⟨hx, hparts⟩ := List.forall_mem_cons.mp h
    rw [List.flatMap_cons, List.map_append, Place.walk_append] at hwalk
    obtain ⟨s, hs, hrest⟩ := Option.bind_eq_some_iff.mp hwalk
    exact (forest_child hx hs (isEnd_before hparts hrest hq)).append (ih hparts hrest)

theorem slots_document {parts : List Part} (h : ∀ x ∈ parts, x.Valid)
    (hblocks : ∀ x ∈ parts.dropLast, x.block?.isSome) :
    (parts.map child).map Child.slot ∈ Rule.document.body.matches' := by
  have hblock {x : Part} (hx : x.block?.isSome) : [x.child.slot] ∈ (rule .headline +
      rule .attributeBlock + rule .paragraph + rule .emptyLine).matches' := by
    cases x with
    | newline t => cases hx
    | emptyLine t => exact Or.inr rfl
    | headline opening marker rest => exact Or.inl (Or.inl (Or.inl rfl))
    | attributes opening list => exact Or.inl (Or.inl (Or.inr rfl))
    | paragraph rows => exact Or.inl (Or.inr rfl)
  induction parts with
  | nil => exact append_mem (nil_mem_many _) (Or.inl rfl)
  | cons x parts ih =>
    obtain ⟨hx, hparts⟩ := List.forall_mem_cons.mp h
    cases parts with
    | nil =>
      cases hsome : x.block?.isSome with
      | true => exact append_mem (t := []) (mem_many (hblock hsome)) (Or.inl rfl)
      | false =>
        cases x with
        | newline t => exact append_mem (s := []) (nil_mem_many _) (Or.inr (congrArg (fun k => [Slot.token k]) hx))
        | _ => cases hsome
    | cons y parts =>
      rw [List.dropLast_cons_cons] at hblocks
      obtain ⟨hsome, hrest⟩ := List.forall_mem_cons.mp hblocks
      obtain ⟨blocks, hmany, last, hlast, hsplit⟩ := ih hparts hrest
      rw [List.map_cons, List.map_cons, ← hsplit]
      exact append_mem (append_mem_many (hblock hsome) hmany) hlast

end Part

end AsciiDoc
