import AsciiDoc.Proofs.Conformance
import AsciiDoc.Proofs.ParserLaws
import AsciiDoc.Tree.OfTokens

/-!
Ordered choice loses nothing here. Of tokens that the places accept, every alternative and every
repetition takes the part that the places take, though none of them is ever tried a second way. So the
parser builds the tree of the rows, and it succeeds exactly on what can be derived from the grammar.
-/

namespace AsciiDoc

open Computability AsciiDoc.Parser

namespace Item

def Apart : Item → Item → Prop
  | marked (x :: _), marked (y :: _) => x.1.kind ≠ y.1.kind
  | _, _ => True

theorem apart_addPair (x : Token × Token) {items : List Item} (h : items.IsChain Apart) :
    (addPair x items).IsChain Apart := by
  match items, h with
  | [], _ => exact .singleton _
  | marked (y :: ys) :: items, h =>
    rw [addPair]
    split
    · rename_i hkind
      obtain ⟨hfirst, hrest⟩ := List.isChain_cons.mp h
      refine List.isChain_cons.mpr ⟨fun i hi => ?_, hrest⟩
      have hapart := hfirst i hi
      match i, hapart with
      | marked (z :: _), hapart => exact fun h => hapart (hkind.trans h)
      | marked [], _ | punctuation _, _ | legacyId _ _ _, _ | entry _ _, _ => trivial
    · rename_i hkind
      exact .cons_cons (Ne.symm hkind) h
  | marked [] :: _, h | punctuation _ :: _, h | legacyId _ _ _ :: _, h | entry _ _ :: _, h =>
    exact .cons_cons trivial h

theorem exists_punctuation {i : Item} {k : Kind} (h : i.child.slot = .token k) :
    ∃ t, i = punctuation t ∧ t.kind = k := by
  cases i with
  | punctuation t => exact ⟨t, rfl, Slot.token.inj h⟩
  | legacyId a b c => cases h
  | marked pairs => cases h
  | entry key value => cases key <;> cases h

theorem exists_entry {i : Item} (h : i.child.slot = .rule .attributeEntry) :
    ∃ key value, i = entry key value := by
  cases i with
  | punctuation t => cases h
  | legacyId a b c => cases h
  | marked pairs => cases h
  | entry key value => exact ⟨key, value, rfl⟩

theorem Valid.next_entry {key : Option (Token × Token)} {value : List Token} (h : (entry key value).Valid)
    (ts : List Token) : Token.next? ((entry key value).tokens ++ ts) = some .listText ∨
      Token.next? ((entry key value).tokens ++ ts) = some .stringStart := by
  cases key with
  | some k => exact Or.inl (by simp [Token.next?, tokens, (h.1 k rfl).1])
  | none =>
    rcases h.2 with ⟨t, rfl, ht⟩ | ⟨a, words, b, rfl, ha, -⟩
    · exact Or.inl (by simp [Token.next?, tokens, ht])
    · exact Or.inr (by simp [Token.next?, tokens, ha])

theorem Valid.next_ne_assignment {i : Item} (h : i.Valid) (ts : List Token) :
    Token.next? (i.tokens ++ ts) ≠ some .assignment := by
  match i, h with
  | punctuation t, h => rcases h with h | h | h <;> simp [Token.next?, tokens, h]
  | legacyId a b c, h => simp [Token.next?, tokens, h.1]
  | marked (x :: _), h =>
    obtain ⟨-, m, hm⟩ := h
    have hx := (hm x List.mem_cons_self).1
    cases m <;> simp [Token.next?, tokens, hx, Mark.kind]
  | entry key value, h => rcases h.next_entry ts with h | h <;> simp [h]

theorem Apart.next_ne {x : Token × Token} {pairs : List (Token × Token)} {m : Mark} (hx : x.1.kind = m.kind)
    {i : Item} (hi : i.Valid) (h : Apart (marked (x :: pairs)) i) (ts : List Token) :
    Token.next? (i.tokens ++ ts) ≠ some m.kind := by
  match i, hi, h with
  | punctuation t, hi, _ =>
    rcases hi with hk | hk | hk <;> cases m <;> simp [Token.next?, tokens, hk, Mark.kind]
  | legacyId a b c, hi, _ => cases m <;> simp [Token.next?, tokens, hi.1, Mark.kind]
  | marked (y :: _), _, h => simpa [Token.next?, tokens, ← hx] using Ne.symm h
  | entry key value, hi, _ =>
    rcases Valid.next_entry hi ts with h | h <;> cases m <;> simp [h, Mark.kind]

theorem ListTail.apart {ts : List Token} (h : ListTail ts) : (ofTokens ts).IsChain Apart := by
  induction h with
  | close h =>
    rw [ofTokens_punctuation (Or.inr (Or.inl h)), ofTokens]
    exact .singleton _
  | comma h _ ih =>
    rw [ofTokens_punctuation (Or.inr (Or.inr h))]
    exact List.isChain_cons.mpr ⟨fun _ _ => trivial, ih⟩
  | legacyId h _ ih =>
    rw [ofTokens_legacyId h.1]
    exact List.isChain_cons.mpr ⟨fun _ _ => trivial, ih⟩
  | pair m ha hb _ ih =>
    rw [ofTokens_pair ha]
    exact apart_addPair _ ih
  | keyed hk ha hv _ ih =>
    rw [ofTokens_keyed hk ha hv]
    exact List.isChain_cons.mpr ⟨fun _ _ => trivial, ih⟩
  | value hv hhead _ ih =>
    rw [ofTokens_value hv hhead]
    exact List.isChain_cons.mpr ⟨fun _ _ => trivial, ih⟩

end Item

namespace Grammar

section Lawful

variable {L M : Language Kind}

theorem nil_notMem_kind (k : Kind) : [] ∉ ({[k]} : Language Kind) := nofun

theorem nil_notMem_mul (h : [] ∉ L) : [] ∉ L * M := by
  rintro ⟨us, hus, vs, -, happend⟩
  exact h ((List.append_eq_nil_iff.mp happend).1 ▸ hus)

theorem nil_notMem_add (hL : [] ∉ L) (hM : [] ∉ M) : [] ∉ L + M := fun h => h.elim hL hM

theorem lawful_spaces : spaces.Lawful {[.space]}∗ := (Lawful.token .space).repeated (nil_notMem_kind _)

theorem lawful_text : text.Lawful Rule.text.language := by
  rw [Rule.text_eq]
  exact (((Lawful.token _).andThen lawful_spaces).several (nil_notMem_mul (nil_notMem_kind _))).map _

theorem lawful_headline : headline.Lawful Rule.headline.language := by
  rw [Rule.headline_eq]
  exact ((((Lawful.token _).andThen (.token _)).andThen lawful_spaces).andThen lawful_text).map _

theorem lawful_emptyLine : emptyLine.Lawful Rule.emptyLine.language := by
  rw [Rule.emptyLine_eq]
  exact (Lawful.token _).map _

theorem lawful_line : line.Lawful ({[.newline]} * {[.space]}∗ * Rule.text.language) :=
  (((Lawful.token _).andThen lawful_spaces).andThen lawful_text).map _

theorem nil_notMem_line : [] ∉ {[.newline]} * {[.space]}∗ * Rule.text.language :=
  nil_notMem_mul (nil_notMem_mul (nil_notMem_kind _))

theorem lawful_paragraph : paragraph.Lawful Rule.paragraph.language := by
  rw [Rule.paragraph_eq]
  exact (lawful_line.several nil_notMem_line).map _

theorem lawful_pair (k l : Kind) : ((token k).andThen (token l)).Lawful ({[k]} * {[l]}) :=
  (Lawful.token k).andThen (Lawful.token l)

theorem nil_notMem_pair (k l : Kind) : [] ∉ ({[k]} * {[l]} : Language Kind) :=
  nil_notMem_mul (nil_notMem_kind k)

theorem lawful_attributeValue : attributeValue.Lawful Rule.attributeValue.language := by
  have hwords : stringWords.Lawful ({[.stringText]} * ({[.space]} * {[.stringText]})∗) :=
    ((Lawful.token _).andThen (((lawful_pair _ _).repeated (nil_notMem_pair _ _)).map _)).map _
  rw [Rule.attributeValue_eq]
  exact ((((Lawful.token _).andThen hwords.optional).andThen (.token _)).map _).orElse
    ((Lawful.token _).map _)

theorem lawful_attributeEntry : attributeEntry.Lawful Rule.attributeEntry.language := by
  rw [Rule.attributeEntry_eq]
  exact ((lawful_pair _ _).optional.andThen lawful_attributeValue).map _

theorem lawful_shorthand : shorthand.Lawful Rule.shorthand.language := by
  have hmarked (k : Kind) : (marked k).Lawful ({[k]} * {[.listText]} * ({[k]} * {[.listText]})∗) :=
    ((lawful_pair _ _).several (nil_notMem_pair _ _)).map _
  rw [Rule.shorthand_eq]
  exact ((((((Lawful.token _).andThen (.token _)).andThen (.token _)).map _).orElse (hmarked _)).orElse
    (hmarked _)).orElse (hmarked _)

theorem lawful_comma : ((token .comma).andThen attributeEntry).Lawful
    ({[.comma]} * Rule.attributeEntry.language) := (Lawful.token _).andThen lawful_attributeEntry

theorem lawful_listItem : listItem.Lawful Rule.items :=
  (lawful_shorthand.map _).orElse ((lawful_attributeEntry.andThen
    ((lawful_comma.repeated (nil_notMem_mul (nil_notMem_kind _))).map _)).map _)

theorem nil_notMem_items : [] ∉ Rule.items := by
  have hvalue : [] ∉ Rule.attributeValue.language := by
    rw [Rule.attributeValue_eq]
    exact nil_notMem_add (nil_notMem_mul (nil_notMem_mul (nil_notMem_kind _))) (nil_notMem_kind _)
  have hentry : [] ∉ Rule.attributeEntry.language := by
    rw [Rule.attributeEntry_eq, add_mul, one_mul]
    exact nil_notMem_add hvalue (nil_notMem_mul (nil_notMem_pair _ _))
  have hshorthand : [] ∉ Rule.shorthand.language := by
    rw [Rule.shorthand_eq]
    have hpairs (k : Kind) := nil_notMem_mul (M := ({[k]} * {[.listText]})∗) (nil_notMem_pair k .listText)
    exact nil_notMem_add (nil_notMem_add (nil_notMem_add (nil_notMem_mul (nil_notMem_pair _ _)) (hpairs _))
      (hpairs _)) (hpairs _)
  exact nil_notMem_add hshorthand (nil_notMem_mul hentry)

theorem lawful_attributeBlock : attributeBlock.Lawful Rule.attributeBlock.language := by
  rw [Rule.attributeBlock_eq, Rule.attributeList_eq]
  exact ((Lawful.token _).andThen ((((Lawful.token _).andThen
    ((lawful_listItem.repeated nil_notMem_items).map _)).andThen (.token _)).map _)).map _

theorem lawful_block : block.Lawful Rule.blocks :=
  ((lawful_headline.orElse lawful_attributeBlock).orElse lawful_paragraph).orElse lawful_emptyLine

theorem nil_notMem_blocks : [] ∉ Rule.blocks := by
  rw [Rule.blocks, Rule.headline_eq, Rule.attributeBlock_eq, Rule.paragraph_eq, Rule.emptyLine_eq]
  exact nil_notMem_add (nil_notMem_add (nil_notMem_add
    (nil_notMem_mul (nil_notMem_mul (nil_notMem_pair _ _))) (nil_notMem_mul (nil_notMem_kind _)))
    (nil_notMem_mul nil_notMem_line)) (nil_notMem_kind _)

theorem lawful_blocks : blocks.Lawful Rule.document.language := by
  rw [Rule.document_eq]
  exact ((lawful_block.repeated nil_notMem_blocks).andThen (Lawful.token _).optional).map _

end Lawful

section Lines

variable {us rest : List Token}

theorem reads_spaces (hus : ∀ t ∈ us, t.kind = .space) (hrest : Token.next? rest ≠ some .space) :
    spaces.Reads us us rest := by
  have h := reads_repeated_flatMap (Lawful.token .space) (nil_notMem_kind _) id (fun t => [t])
    (Q := fun _ => True) (fun t ht ts _ => reads_token (hus t ht)) (fun _ _ _ => trivial) trivial
    (refuses_token hrest)
  rwa [List.flatMap_singleton', List.map_id] at h

theorem exists_words (hus : ∀ t ∈ us, t.kind = .inlineText ∨ t.kind = .space) :
    ∃ (spaces : List Token) (words : List (Token × List Token)),
      us = spaces ++ words.flatMap (fun w => w.1 :: w.2) ∧ (∀ t ∈ spaces, t.kind = .space) ∧
        ∀ w ∈ words, w.1.kind = .inlineText ∧ ∀ t ∈ w.2, t.kind = .space := by
  induction us with
  | nil => exact ⟨[], [], rfl, by simp, by simp⟩
  | cons t us ih =>
    obtain ⟨ht, hus⟩ := List.forall_mem_cons.mp hus
    obtain ⟨spaces, words, rfl, hspaces, hwords⟩ := ih hus
    rcases ht with ht | ht
    · exact ⟨[], (t, spaces) :: words, rfl, by simp, List.forall_mem_cons.mpr ⟨⟨ht, hspaces⟩, hwords⟩⟩
    · exact ⟨t :: spaces, words, rfl, List.forall_mem_cons.mpr ⟨ht, hspaces⟩, hwords⟩

def EndsText (ts : List Token) : Prop :=
  Token.next? ts ≠ some .inlineText ∧ Token.next? ts ≠ some .space

theorem reads_text {w : Token} (hw : w.kind = .inlineText)
    (hus : ∀ t ∈ us, t.kind = .inlineText ∨ t.kind = .space) (hrest : EndsText rest) :
    text.Reads (w :: us) (.ofChildren .text ((w :: us).map .token)) rest := by
  obtain ⟨ss, words, rfl, hss, hwords⟩ := exists_words hus
  let parser := (token .inlineText).andThen spaces
  have hword {x : Token × List Token} (hx : x.1.kind = .inlineText ∧ ∀ t ∈ x.2, t.kind = .space)
      (ts : List Token) (hts : Token.next? ts ≠ some .space) : parser.Reads (x.1 :: x.2) x ts :=
    (reads_token hx.1).andThen (reads_spaces hx.2 hts)
  have hnext (x : Token × List Token) (hx : x ∈ words) (ts : List Token) :
      Token.next? ((x.1 :: x.2) ++ ts) ≠ some .space := by
    simp [Token.next?, (hwords x hx).1]
  have hmore : parser.repeated.Reads (words.flatMap fun x => x.1 :: x.2) (words.map id) rest :=
    reads_repeated_flatMap ((Lawful.token _).andThen lawful_spaces) (nil_notMem_mul (nil_notMem_kind _)) id _
      (fun x hx => hword (hwords x hx)) hnext hrest.2 ((refuses_token hrest.1).andThen _)
  have hfirst : parser.Reads (w :: ss) (w, ss) (words.flatMap (fun x => x.1 :: x.2) ++ rest) := by
    apply hword (x := (w, ss)) ⟨hw, hss⟩
    cases words with
    | nil => exact hrest.2
    | cons x words => simp [Token.next?, (hwords x List.mem_cons_self).1]
  have hchildren : (((w, ss) :: words.map id).flatMap fun x => (.token x.1 :: x.2.map .token : List (Child Node))) =
      (w :: (ss ++ words.flatMap fun x => x.1 :: x.2)).map .token := by
    simp [List.map_flatMap]
  rw [← hchildren]
  exact (Reads.several hfirst hmore).map _

def lineOf (r : Row) : List (Child Node) := .token r.opening :: Row.lineChildren r.body

theorem reads_lineChildren {body : List Token} (h : Row.IsLine body) (hrest : EndsText rest) :
    spaces.Reads (body.takeWhile Row.isSpace) (body.takeWhile Row.isSpace) (body.dropWhile Row.isSpace ++ rest) ∧
      text.Reads (body.dropWhile Row.isSpace) (.ofChildren .text ((body.dropWhile Row.isSpace).map .token)) rest := by
  obtain ⟨w, more, hdrop, hw, hmore⟩ := h
  rw [hdrop]
  refine ⟨reads_spaces (fun t ht => ?_) (by simp [Token.next?, hw]), reads_text hw hmore hrest⟩
  simpa [Row.isSpace] using List.mem_takeWhile_imp ht

theorem reads_line {r : Row} (ho : r.opening.kind = .newline) (h : Row.IsLine r.body) (hrest : EndsText rest) :
    line.Reads r.tokens (lineOf r) rest := by
  obtain ⟨hspaces, htext⟩ := reads_lineChildren h hrest
  have htokens : r.tokens = [r.opening] ++ r.body.takeWhile Row.isSpace ++ r.body.dropWhile Row.isSpace := by
    simp [Row.tokens]
  rw [htokens]
  exact (((reads_token ho).andThen hspaces).andThen htext).map _

theorem refuses_line (h : Token.next? rest ≠ some .newline ∨
    ∃ t ts, rest = t :: ts ∧ t.kind = .newline ∧ EndsText ts) : line.Refuses rest := by
  rcases h with h | ⟨t, ts, rfl, ht, hts⟩
  · exact (((refuses_token h).andThen _).andThen _).map _
  · have hspaces : spaces.Reads [] [] ts := reads_spaces (by simp) hts.2
    have htext : text.Refuses ts := ((refuses_token hts.1).andThen _).several.map _
    exact ((((reads_token ht).andThen hspaces).andThen_refuses htext)).map _

theorem reads_paragraph {rows : List Row} (h : (Part.paragraph rows).Valid) (hrest : EndsText rest)
    (hstop : line.Refuses rest) : paragraph.Reads (rows.flatMap Row.tokens)
      (.ofChildren .paragraph (rows.flatMap lineOf)) rest := by
  obtain ⟨hne, hrows⟩ := h
  obtain ⟨r, rows, rfl⟩ := List.exists_cons_of_ne_nil hne
  obtain ⟨⟨ho, hr⟩, hmore⟩ := List.forall_mem_cons.mp hrows
  have hends {r : Row} (hr : r ∈ rows) (ts : List Token) : EndsText (r.tokens ++ ts) := by
    simp [EndsText, Token.next?, Row.tokens, (hmore r hr).1]
  have hlines : line.repeated.Reads (rows.flatMap Row.tokens) (rows.map lineOf) rest :=
    reads_repeated_flatMap lawful_line nil_notMem_line lineOf Row.tokens
      (fun r hr ts hts => reads_line (hmore r hr).1 (hmore r hr).2 hts) (fun r hr => hends hr) hrest hstop
  have hfirst : line.Reads r.tokens (lineOf r) (rows.flatMap Row.tokens ++ rest) := by
    apply reads_line ho hr
    cases rows with
    | nil => exact hrest
    | cons r' rows =>
      rw [List.flatMap_cons, List.append_assoc]
      exact hends List.mem_cons_self _
  exact (Reads.several hfirst hlines).map _

theorem reads_headline {opening marker : Token} {body : List Token}
    (h : (Part.headline opening marker body).Valid) (hrest : EndsText rest) :
    headline.Reads (opening :: marker :: body)
      (.ofChildren .headline (.token opening :: .token marker :: Row.lineChildren body)) rest := by
  obtain ⟨ho, hm, hbody⟩ := h
  obtain ⟨hspaces, htext⟩ := reads_lineChildren hbody hrest
  have htokens : opening :: marker :: body =
      [opening] ++ [marker] ++ body.takeWhile Row.isSpace ++ body.dropWhile Row.isSpace := by
    simp
  rw [htokens]
  exact ((((reads_token ho).andThen (reads_token hm)).andThen hspaces).andThen htext).map _

end Lines

section Items

open Place

variable {p q : Place} {us rest : List Token}

theorem exists_pairs {ws : List Token} {b : Token} (hws : ∀ w ∈ ws, w.kind = .stringText ∨ w.kind = .space)
    (hb : b.kind = .stringEnd) (h : stringWord.walk ((ws ++ [b]).map Token.kind) = some q) :
    ∃ pairs : List (Token × Token), ws = pairs.flatMap (fun x => [x.1, x.2]) ∧
      ∀ x ∈ pairs, x.1.kind = .space ∧ x.2.kind = .stringText := by
  induction ws using List.twoStepInduction with
  | nil => exact ⟨[], rfl, by simp⟩
  | singleton w =>
    obtain ⟨r, hr, hwalk⟩ := walk_cons_eq_some h
    obtain ⟨s, hs, -⟩ := walk_cons_eq_some hwalk
    rw [hb] at hs
    rcases hws w List.mem_cons_self with hw | hw <;> rw [hw] at hr <;> cases hr
    cases hs
  | cons_cons w v ws ih _ =>
    obtain ⟨r, hr, hwalk⟩ := walk_cons_eq_some h
    obtain ⟨s, hs, hwalk⟩ := walk_cons_eq_some hwalk
    have hw : w.kind = .space := by
      rcases hws w List.mem_cons_self with hw | hw
      · rw [hw] at hr
        cases hr
      · exact hw
    rw [hw] at hr
    cases hr
    have hv : v.kind = .stringText := by
      rcases hws v (by simp) with hv | hv
      · exact hv
      · rw [hv] at hs
        cases hs
    rw [hv] at hs
    cases hs
    obtain ⟨pairs, rfl, hpairs⟩ := ih (fun u hu => hws u (by simp [hu])) hwalk
    exact ⟨(w, v) :: pairs, rfl, List.forall_mem_cons.mpr ⟨⟨hw, hv⟩, hpairs⟩⟩

theorem reads_pairs {k l : Kind} {pairs : List (Token × Token)}
    (h : ∀ x ∈ pairs, x.1.kind = k ∧ x.2.kind = l) (hrest : Token.next? rest ≠ some k) :
    ((token k).andThen (token l)).repeated.Reads (pairs.flatMap fun x => [x.1, x.2]) pairs rest := by
  have hpairs := reads_repeated_flatMap (lawful_pair k l) (nil_notMem_pair k l) id (fun x => [x.1, x.2])
    (Q := fun _ => True) (fun x hx ts _ => (reads_token (h x hx).1).andThen (reads_token (h x hx).2))
    (fun _ _ _ => trivial) trivial ((refuses_token hrest).andThen _)
  rwa [List.map_id] at hpairs

theorem reads_stringWords {words : List Token} {b : Token}
    (hwords : ∀ w ∈ words, w.kind = .stringText ∨ w.kind = .space) (hb : b.kind = .stringEnd)
    (h : stringOpen.walk ((words ++ [b]).map Token.kind) = some q) :
    ∃ x, stringWords.optional.Reads words x ([b] ++ rest) ∧ x.getD [] = words := by
  cases words with
  | nil =>
    have hrefuses : stringWords.Refuses ([b] ++ rest) :=
      ((refuses_token (by simp [Token.next?, hb])).andThen _).map _
    exact ⟨none, hrefuses.optional, rfl⟩
  | cons w ws =>
    obtain ⟨hw, hws⟩ := List.forall_mem_cons.mp hwords
    obtain ⟨r, hr, hwalk⟩ := walk_cons_eq_some h
    have hkind : w.kind = .stringText := by
      rcases hw with hw | hw
      · exact hw
      · rw [hw] at hr
        cases hr
    rw [hkind] at hr
    cases hr
    obtain ⟨pairs, rfl, hpairs⟩ := exists_pairs hws hb hwalk
    have hnext : Token.next? ([b] ++ rest) ≠ some .space := by simp [Token.next?, hb]
    have hmore := reads_pairs hpairs hnext
    exact ⟨_, (((reads_token hkind).andThen (hmore.map _)).map _).optional, rfl⟩

theorem reads_value {v : List Token} (hv : Item.ValidValue v) (hp : p ∈ beforeValue :: beforeEntry :: itemEnds)
    (h : p.walk (v.map Token.kind) = some q) :
    attributeValue.Reads v (.ofChildren .attributeValue (v.map .token)) rest := by
  rcases hv with ⟨t, rfl, ht⟩ | ⟨a, words, b, rfl, ha, hb, hwords⟩
  · have hquoted : quotedValue.Refuses ([t] ++ rest) :=
      (((refuses_token (by simp [Token.next?, ht])).andThen _).andThen _).map _
    exact hquoted.orElse_reads ((reads_token ht).map _)
  · have hnext : ∀ p ∈ beforeValue :: beforeEntry :: itemEnds, ∀ r ∈ p.next? .stringStart, r = stringOpen := by
      decide
    obtain ⟨r, hr, hwalk⟩ := walk_cons_eq_some h
    rw [ha] at hr
    obtain rfl := hnext p hp r hr
    obtain ⟨x, hx, rfl⟩ := reads_stringWords hwords hb hwalk
    have hchildren : (a :: x.getD [] ++ [b]).map .token =
        (.token a :: (x.getD []).map .token ++ [.token b] : List (Child Node)) := by
      simp
    rw [hchildren]
    exact Reads.orElse ((((reads_token ha).andThen hx).andThen (reads_token hb)).map _) bareValue

theorem reads_entry {key : Option (Token × Token)} {value : List Token} (hi : (Item.entry key value).Valid)
    (hp : p ∈ beforeEntry :: itemEnds) (h : p.walk ((Item.entry key value).tokens.map Token.kind) = some q)
    (hrest : Token.next? rest ≠ some .assignment) :
    ∃ n, (Item.entry key value).child = .node n ∧
      attributeEntry.Reads (Item.entry key value).tokens n rest := by
  obtain ⟨r, hr, hwalk⟩ := Item.walk_entry hi hp h
  have hvalue : attributeValue.Reads value (.ofChildren .attributeValue (value.map .token)) rest :=
    reads_value hi.2 hr hwalk
  cases key with
  | some k =>
    obtain ⟨hk, ha⟩ := hi.1 k rfl
    exact ⟨_, rfl, ((((reads_token hk).andThen (reads_token ha)).optional).andThen hvalue).map _⟩
  | none =>
    -- A list text is tried as a key first, and given back when no assignment follows.
    have hkey : ((token .listText).andThen (token .assignment)).Refuses (value ++ rest) := by
      rcases hi.2 with ⟨t, rfl, ht⟩ | ⟨a, words, b, rfl, ha, -⟩
      · exact (reads_token ht).andThen_refuses (refuses_token hrest)
      · exact (refuses_token (by simp [Token.next?, ha])).andThen _
    exact ⟨_, rfl, (hkey.optional.andThen hvalue).map _⟩

theorem refuses_marked {ts : List Token} {k : Kind} (h : Token.next? ts ≠ some k) : (marked k).Refuses ts :=
  ((refuses_token h).andThen _).several.map _

theorem refuses_legacyId {ts : List Token} (h : Token.next? ts ≠ some .legacyIdStart) : legacyId.Refuses ts :=
  (((refuses_token h).andThen _).andThen _).map _

theorem refuses_shorthand {ts : List Token} (h : Token.next? ts ≠ some .legacyIdStart)
    (hmarks : ∀ m : Mark, Token.next? ts ≠ some m.kind) : shorthand.Refuses ts :=
  (((refuses_legacyId h).orElse (refuses_marked (hmarks .id))).orElse (refuses_marked (hmarks .role))).orElse
    (refuses_marked (hmarks .option))

theorem refuses_entry {ts : List Token} (htext : Token.next? ts ≠ some .listText)
    (hstring : Token.next? ts ≠ some .stringStart) : attributeEntry.Refuses ts := by
  have hkey : ((token .listText).andThen (token .assignment)).optional.Reads [] none ts :=
    ((refuses_token htext).andThen _).optional
  have hvalue : attributeValue.Refuses ts :=
    ((((refuses_token hstring).andThen _).andThen _).map _).orElse ((refuses_token htext).map _)
  exact (hkey.andThen_refuses hvalue).map _

theorem reads_marked {m : Mark} {pairs : List (Token × Token)} (hne : pairs ≠ [])
    (h : ∀ x ∈ pairs, x.1.kind = m.kind ∧ x.2.kind = .listText) (hrest : Token.next? rest ≠ some m.kind) :
    ∃ n, (Item.marked pairs).child = .node n ∧ shorthand.Reads (Item.marked pairs).tokens n rest := by
  obtain ⟨x, pairs, rfl⟩ := List.exists_cons_of_ne_nil hne
  obtain ⟨⟨hmark, htext⟩, hmore⟩ := List.forall_mem_cons.mp h
  have hnext : Token.next? ((Item.marked (x :: pairs)).tokens ++ rest) = some m.kind := by
    simp [Token.next?, Item.tokens, hmark]
  have hrun : (marked m.kind).Reads (Item.marked (x :: pairs)).tokens _ rest :=
    (((reads_token hmark).andThen (reads_token htext)).several (reads_pairs hmore hrest)).map _
  have hother {k : Kind} (hk : k ≠ m.kind) : (marked k).Refuses ((Item.marked (x :: pairs)).tokens ++ rest) :=
    refuses_marked (by simpa [hnext] using hk.symm)
  have hlegacy : legacyId.Refuses ((Item.marked (x :: pairs)).tokens ++ rest) :=
    refuses_legacyId (by rw [hnext]; cases m <;> decide)
  refine ⟨_, rfl, ?_⟩
  cases m with
  | id => exact ((hlegacy.orElse_reads hrun).orElse _).orElse _
  | role => exact ((hlegacy.orElse (hother (by decide))).orElse_reads hrun).orElse _
  | option =>
    exact ((hlegacy.orElse (hother (by decide))).orElse (hother (by decide))).orElse_reads hrun

theorem reads_legacyId {a b c : Token} (h : (Item.legacyId a b c).Valid) :
    ∃ n, (Item.legacyId a b c).child = .node n ∧ shorthand.Reads [a, b, c] n rest :=
  ⟨_, rfl, (((((((reads_token h.1).andThen (reads_token h.2.1)).andThen (reads_token h.2.2)).map _).orElse
    _).orElse _).orElse _)⟩

def ReadsItems (us : List Token) (cs : List (Child Node)) (rest : List Token) : Prop :=
  ∃ vs, listItem.repeated.Reads us vs rest ∧ vs.flatten = cs

def ReadsEntries (us : List Token) (cs : List (Child Node)) (rest : List Token) : Prop :=
  ∃ vs, ((token .comma).andThen attributeEntry).repeated.Reads us vs rest ∧
    (vs.flatMap fun x => [.token x.1, .node x.2]) = cs

def ReadsMore (us : List Token) (cs : List (Child Node)) (rest : List Token) : Prop :=
  ∃ vs ws ds es, us = vs ++ ws ∧ cs = ds ++ es ∧ ReadsEntries vs ds (ws ++ rest) ∧ ReadsItems ws es rest

def ReadsFrom : Place → List Token → List (Child Node) → List Token → Prop
  | item, us, cs, rest => ReadsItems us cs rest
  | beforeEntry, us, cs, rest =>
    ∃ vs ws n ds, us = vs ++ ws ∧ cs = .node n :: ds ∧ attributeEntry.Reads vs n (ws ++ rest) ∧
      ReadsMore ws ds rest
  | _, us, cs, rest => ReadsMore us cs rest

variable {cs : List (Child Node)}

theorem readsFrom_of_item (hp : p ∈ itemEnds) (h : ReadsItems us cs rest)
    (hcomma : Token.next? (us ++ rest) ≠ some .comma) : ReadsFrom p us cs rest := by
  have hmore : ReadsMore us cs rest :=
    ⟨[], us, [], cs, rfl, rfl, ⟨[], ((refuses_token hcomma).andThen _).repeated, rfl⟩, h⟩
  simp only [itemEnds, List.mem_cons, List.not_mem_nil, or_false] at hp
  rcases hp with rfl | rfl | rfl
  · exact h
  · exact hmore
  · exact hmore

theorem readsFrom_listEnd (hp : p ∈ itemEnds) {t : Token} (ht : t.kind = .listEnd) :
    ReadsFrom p [] [] (t :: rest) := by
  have hnext : Token.next? (t :: rest) = some .listEnd := by simp [Token.next?, ht]
  have hitem : listItem.Refuses (t :: rest) :=
    ((refuses_shorthand (by simp [hnext]) fun m => by cases m <;> simp [hnext, Mark.kind]).map _).orElse
      (((refuses_entry (by simp [hnext]) (by simp [hnext])).andThen _).map _)
  exact readsFrom_of_item hp ⟨[], hitem.repeated, rfl⟩ (by simp [hnext])

theorem readsFrom_shorthand (hp : p ∈ itemEnds) {vs : List Token} {n : Node}
    (hn : shorthand.Reads vs n (us ++ rest)) (h : ReadsFrom item us cs rest)
    (hcomma : Token.next? (vs ++ (us ++ rest)) ≠ some .comma) :
    ReadsFrom p (vs ++ us) (.node n :: cs) rest := by
  obtain ⟨xs, hxs, rfl⟩ := h
  have hitem : listItem.Reads vs [.node n] (us ++ rest) := (hn.map _).orElse _
  refine readsFrom_of_item hp ⟨[.node n] :: xs, ?_, rfl⟩ (by rwa [List.append_assoc])
  exact Reads.repeated lawful_listItem nil_notMem_items hitem hxs

theorem readsFrom_comma (hp : p ∈ entryEnds) {t : Token} (ht : t.kind = .comma)
    (h : ReadsFrom beforeEntry us cs rest) : ReadsFrom p (t :: us) (.token t :: cs) rest := by
  obtain ⟨vs, ws, n, ds, rfl, rfl, hn, vs', ws', ds', es, rfl, rfl, ⟨xs, hxs, rfl⟩, hitems⟩ := h
  have hpair : ((token .comma).andThen attributeEntry).Reads ([t] ++ vs) (t, n) (vs' ++ (ws' ++ rest)) :=
    (reads_token ht).andThen (by rwa [List.append_assoc] at hn)
  have hmore : ReadsMore (t :: (vs ++ (vs' ++ ws')))
      (.token t :: .node n :: ((xs.flatMap fun x => [.token x.1, .node x.2]) ++ es)) rest := by
    refine ⟨[t] ++ vs ++ vs', ws', _, es, by simp, by simp, ⟨(t, n) :: xs, ?_, rfl⟩, hitems⟩
    exact Reads.repeated lawful_comma (nil_notMem_mul (nil_notMem_kind _)) hpair hxs
  simp only [entryEnds, List.mem_cons, List.not_mem_nil, or_false] at hp
  rcases hp with rfl | rfl
  · exact hmore
  · exact hmore

theorem readsFrom_entry (hp : p ∈ beforeEntry :: itemEnds) (hq : q ∈ entryEnds) {vs : List Token} {n : Node}
    (hn : attributeEntry.Reads vs n (us ++ rest)) (h : ReadsFrom q us cs rest)
    (hnext : ∀ ts, Token.next? (vs ++ ts) = some .listText ∨ Token.next? (vs ++ ts) = some .stringStart) :
    ReadsFrom p (vs ++ us) (.node n :: cs) rest := by
  have hmore : ReadsMore us cs rest := by
    simp only [entryEnds, List.mem_cons, List.not_mem_nil, or_false] at hq
    rcases hq with rfl | rfl
    · exact h
    · exact h
  rcases List.mem_cons.mp hp with rfl | hp
  · exact ⟨vs, us, n, cs, rfl, rfl, hn, hmore⟩
  · obtain ⟨vs', ws, ds, es, rfl, rfl, ⟨xs, hxs, rfl⟩, ys, hys, rfl⟩ := hmore
    rw [List.append_assoc] at hn
    have hentries : attributeEntries.Reads (vs ++ vs') _ (ws ++ rest) := (hn.andThen (hxs.map _)).map _
    have hrefuses : shorthand.Refuses (vs ++ vs' ++ (ws ++ rest)) := by
      rw [List.append_assoc]
      apply refuses_shorthand
      · rcases hnext (vs' ++ (ws ++ rest)) with h | h <;> simp [h]
      · intro m
        rcases hnext (vs' ++ (ws ++ rest)) with h | h <;> cases m <;> simp [h, Mark.kind]
    have hitem := Reads.repeated lawful_listItem nil_notMem_items ((hrefuses.map _).orElse_reads hentries) hys
    rw [← List.append_assoc vs]
    refine readsFrom_of_item hp ⟨_, hitem, rfl⟩ ?_
    rw [List.append_assoc, List.append_assoc]
    rcases hnext (vs' ++ (ws ++ rest)) with h | h <;> simp [h]

theorem next_items_ne {k : Kind} (hk : k ≠ .listEnd) {inner : List Item} {u : Token} (hu : u.kind = .listEnd)
    (h : ∀ j ∈ inner.head?, ∀ ts, Token.next? (j.tokens ++ ts) ≠ some k) :
    Token.next? (inner.flatMap Item.tokens ++ u :: rest) ≠ some k := by
  cases inner with
  | nil => simpa [Token.next?, hu] using hk.symm
  | cons j inner =>
    rw [List.flatMap_cons, List.append_assoc]
    exact h j rfl _

theorem reads_shorthand {i : Item} (hi : i.Valid) (hslot : i.child.slot = .rule .shorthand) {inner : List Item}
    {u : Token} (hinner : ∀ j ∈ inner, j.Valid) (hu : u.kind = .listEnd)
    (hapart : ∀ j ∈ inner.head?, Item.Apart i j) :
    ∃ n, i.child = .node n ∧ shorthand.Reads i.tokens n (inner.flatMap Item.tokens ++ u :: rest) ∧
      ∀ ts, Token.next? (i.tokens ++ ts) ≠ some .comma := by
  cases i with
  | punctuation t => cases hslot
  | entry key value => cases key <;> cases hslot
  | legacyId a b c =>
    obtain ⟨n, hn, hreads⟩ := reads_legacyId hi
    exact ⟨n, hn, hreads, fun ts => by simp [Token.next?, Item.tokens, hi.1]⟩
  | marked pairs =>
    obtain ⟨hne, m, hm⟩ := hi
    obtain ⟨x, pairs, rfl⟩ := List.exists_cons_of_ne_nil hne
    have hmark := (hm x List.mem_cons_self).1
    have hstop : Token.next? (inner.flatMap Item.tokens ++ u :: rest) ≠ some m.kind := by
      apply next_items_ne (by cases m <;> decide) hu
      intro j hj
      exact (hapart j hj).next_ne hmark (hinner j (List.mem_of_mem_head? hj))
    obtain ⟨n, hn, hreads⟩ := reads_marked hne hm hstop
    exact ⟨n, hn, hreads, fun ts => by cases m <;> simp [Token.next?, Item.tokens, hmark, Mark.kind]⟩

theorem reads_items (rest : List Token) {items : List Item} (hitems : ∀ i ∈ items, i.Valid)
    (hapart : items.IsChain Item.Apart) (hp : p ∈ beforeEntry :: itemEnds)
    (h : p.walk ((items.flatMap Item.tokens).map Token.kind) = some q) (hq : q.isEnd = true) :
    ∃ inner t, items = inner ++ [.punctuation t] ∧ t.kind = .listEnd ∧
      ReadsFrom p (inner.flatMap Item.tokens) (inner.map Item.child) (t :: rest) := by
  induction items generalizing p with
  | nil =>
    cases h
    have hopen := isEnd_item q hp
    rw [hq] at hopen
    cases hopen
  | cons i items ih =>
    obtain ⟨hi, hrest⟩ := List.forall_mem_cons.mp hitems
    obtain ⟨hfirst, hchain⟩ := List.isChain_cons.mp hapart
    rw [List.flatMap_cons, List.map_append, walk_append] at h
    obtain ⟨r, hr, hwalk⟩ := Option.bind_eq_some_iff.mp h
    rcases Item.walk_tokens hi hp hr with
      ⟨hslot, hends, rfl⟩ | ⟨hslot, hends, rfl⟩ | ⟨hslot, hends, rfl⟩ | ⟨hslot, hends⟩
    · obtain ⟨t, rfl, ht⟩ := Item.exists_punctuation hslot
      -- Nothing of a list may follow its end.
      cases items with
      | nil => exact ⟨[], t, rfl, ht, readsFrom_listEnd hends ht⟩
      | cons j items =>
        rw [List.flatMap_cons, (hrest j List.mem_cons_self).walk_between] at hwalk
        cases hwalk
    · obtain ⟨t, rfl, ht⟩ := Item.exists_punctuation hslot
      obtain ⟨inner, u, rfl, hu, hreads⟩ := ih hrest hchain (by simp) hwalk
      exact ⟨.punctuation t :: inner, u, rfl, hu, readsFrom_comma hends ht hreads⟩
    · obtain ⟨inner, u, rfl, hu, hreads⟩ := ih hrest hchain (by simp [itemEnds]) hwalk
      obtain ⟨n, hn, hshort, hcomma⟩ := reads_shorthand hi hslot
        (fun j hj => hrest j (List.mem_append_left _ hj)) hu
        fun j hj => hfirst j (List.mem_head?_append_of_mem_head? hj)
      refine ⟨i :: inner, u, rfl, hu, ?_⟩
      rw [List.map_cons, hn]
      exact readsFrom_shorthand hends hshort hreads (hcomma _)
    · obtain ⟨key, value, rfl⟩ := Item.exists_entry hslot
      obtain ⟨inner, u, rfl, hu, hreads⟩ := ih hrest hchain (mem_itemEnds hends) hwalk
      have hstop : Token.next? (inner.flatMap Item.tokens ++ u :: rest) ≠ some .assignment := by
        apply next_items_ne (by decide) hu
        intro j hj
        exact (hrest j (List.mem_append_left _ (List.mem_of_mem_head? hj))).next_ne_assignment
      obtain ⟨n, hn, hentry⟩ := reads_entry hi hp hr hstop
      refine ⟨.entry key value :: inner, u, rfl, hu, ?_⟩
      rw [List.map_cons, hn]
      exact readsFrom_entry hp hends hentry hreads hi.next_entry

theorem reads_attributeBlock (rest : List Token) {opening : Token} {list : List Token}
    (h : (Part.attributes opening list).Valid)
    (hwalk : p.walk ((Part.attributes opening list).tokens.map Token.kind) = some q) (hq : q.isEnd = true) :
    attributeBlock.Reads (opening :: list) (.ofChildren .attributeBlock [.token opening,
      .node (.ofChildren .attributeList ((Item.ofTokens list).map Item.child))]) rest := by
  obtain ⟨t, ts, rfl, ht, htail, hwalk⟩ := Part.walk_attributes h hwalk
  rw [← htail.flatMap_tokens] at hwalk
  obtain ⟨inner, u, hitems, hu, vs, hvs, hflat⟩ :=
    reads_items rest htail.valid htail.apart (by simp [itemEnds]) hwalk hq
  have htokens : opening :: t :: ts = [opening] ++ ([t] ++ inner.flatMap Item.tokens ++ [u]) := by
    rw [← htail.flatMap_tokens, hitems, List.flatMap_append]
    simp [Item.tokens]
  have hchildren : (Item.ofTokens (t :: ts)).map Item.child = .token t :: vs.flatten ++ [.token u] := by
    rw [Item.ofTokens_punctuation (Or.inl ht), hitems, hflat]
    simp [Item.child]
  rw [htokens, hchildren]
  exact ((reads_token h.1).andThen
    ((((reads_token ht).andThen (hvs.map List.flatten)).andThen (reads_token hu)).map _)).map _

end Items

section Blocks

variable {x : Part} {p q : Place} {rest : List Token}

theorem endsText_part (hx : x.Valid) (ts : List Token) : EndsText (x.tokens ++ ts) := by
  obtain ⟨t, us, htokens, hopens⟩ := hx.exists_opening
  have hkind : t.kind = .newline ∨ t.kind = .emptyLine := by simpa [Row.opens] using hopens
  rw [htokens]
  rcases hkind with hk | hk <;> simp [EndsText, Token.next?, hk]

theorem endsText_parts {parts : List Part} (h : ∀ x ∈ parts, x.Valid) : EndsText (parts.flatMap Part.tokens) := by
  cases parts with
  | nil => simp [EndsText, Token.next?]
  | cons x parts => exact endsText_part (h x List.mem_cons_self) _

theorem refuses_line_part (hx : x.Valid) (hpar : x.isParagraph = false) (hrest : EndsText rest) :
    line.Refuses (x.tokens ++ rest) := by
  apply refuses_line
  cases x with
  | newline t => exact Or.inr ⟨t, rest, rfl, hx, hrest⟩
  | emptyLine t =>
    have ht : t.kind = .emptyLine := hx
    exact Or.inl (by simp [Part.tokens, Token.next?, ht])
  | headline opening marker body =>
    exact Or.inr ⟨opening, _, rfl, hx.1, by simp [EndsText, Token.next?, hx.2.1]⟩
  | attributes opening list =>
    obtain ⟨ho, t, ts, rfl, ht, -⟩ := hx
    exact Or.inr ⟨opening, _, rfl, ho, by simp [EndsText, Token.next?, ht]⟩
  | paragraph rows => cases hpar

theorem refuses_headline {t : Token} {ts : List Token} (ht : t.kind = .newline)
    (hts : Token.next? ts ≠ some .headline) : headline.Refuses (t :: ts) :=
  (((((reads_token ht).andThen_refuses (refuses_token hts)).andThen _).andThen _).map _)

theorem refuses_attributeBlock {t : Token} {ts : List Token} (ht : t.kind = .newline)
    (hts : Token.next? ts ≠ some .listStart) : attributeBlock.Refuses (t :: ts) :=
  ((reads_token ht).andThen_refuses ((((refuses_token hts).andThen _).andThen _).map _)).map _

theorem refuses_of_next (ts : List Token) (h : Token.next? ts ≠ some .newline) :
    headline.Refuses ts ∧ attributeBlock.Refuses ts ∧ paragraph.Refuses ts :=
  ⟨((((refuses_token h).andThen _).andThen _).andThen _).map _, ((refuses_token h).andThen _).map _,
    ((refuses_line (Or.inl h)).several).map _⟩

theorem next_line {body : List Token} (h : Row.IsLine body) (ts : List Token) :
    Token.next? (body ++ ts) = some .space ∨ Token.next? (body ++ ts) = some .inlineText := by
  obtain ⟨w, more, hdrop, hw, -⟩ := h
  cases body with
  | nil => cases hdrop
  | cons t body =>
    cases ht : Row.isSpace t with
    | true => exact Or.inl (by simpa [Token.next?, Row.isSpace] using ht)
    | false =>
      rw [List.dropWhile_cons_of_neg (by simp [ht])] at hdrop
      obtain ⟨rfl, -⟩ := List.cons.inj hdrop
      exact Or.inr (by simp [Token.next?, hw])

/-- The order of the alternatives is right: none of those before the right one reads the part. -/
theorem reads_block (hx : x.Valid) (hblock : x.block?.isSome)
    (hwalk : p.walk (x.tokens.map Token.kind) = some q) (hq : q.isEnd = true) (hrest : EndsText rest)
    (hstop : x.isParagraph = true → line.Refuses rest) :
    ∃ n, x.child = .node n ∧ block.Reads x.tokens n rest := by
  cases x with
  | newline t => cases hblock
  | emptyLine t =>
    have ht : t.kind = .emptyLine := hx
    obtain ⟨hhead, hattrs, hpar⟩ := refuses_of_next ([t] ++ rest) (by simp [Token.next?, ht])
    exact ⟨_, rfl, ((hhead.orElse hattrs).orElse hpar).orElse_reads ((reads_token ht).map _)⟩
  | headline opening marker body =>
    exact ⟨_, rfl, (((reads_headline hx hrest).orElse _).orElse _).orElse _⟩
  | attributes opening list =>
    have hreads := reads_attributeBlock rest hx hwalk hq
    obtain ⟨ho, t, ts, rfl, ht, -⟩ := hx
    have hhead : headline.Refuses (opening :: t :: ts ++ rest) :=
      refuses_headline ho (by simp [Token.next?, ht])
    exact ⟨_, rfl, ((hhead.orElse_reads hreads).orElse _).orElse _⟩
  | paragraph rows =>
    have hreads := reads_paragraph hx hrest (hstop rfl)
    obtain ⟨r, rows, rfl⟩ := List.exists_cons_of_ne_nil hx.1
    obtain ⟨ho, hline⟩ := hx.2 r List.mem_cons_self
    have hbody := next_line hline (rows.flatMap Row.tokens ++ rest)
    have hhead : headline.Refuses ((r :: rows).flatMap Row.tokens ++ rest) := by
      rw [List.flatMap_cons, List.append_assoc]
      exact refuses_headline ho (by rcases hbody with h | h <;> simp [h])
    have hattrs : attributeBlock.Refuses ((r :: rows).flatMap Row.tokens ++ rest) := by
      rw [List.flatMap_cons, List.append_assoc]
      exact refuses_attributeBlock ho (by rcases hbody with h | h <;> simp [h])
    exact ⟨_, rfl, ((hhead.orElse hattrs).orElse_reads hreads).orElse _⟩

theorem refuses_block_nil : block.Refuses [] := by
  obtain ⟨hhead, hattrs, hpar⟩ := refuses_of_next [] (by simp [Token.next?])
  exact ((hhead.orElse hattrs).orElse hpar).orElse ((refuses_token (by simp [Token.next?])).map _)

theorem refuses_block_newline {t : Token} (ht : t.kind = .newline) : block.Refuses [t] := by
  have hline : line.Refuses [t] := refuses_line (Or.inr ⟨t, [], rfl, ht, by simp [EndsText, Token.next?]⟩)
  exact (((refuses_headline ht (by simp [Token.next?])).orElse
    (refuses_attributeBlock ht (by simp [Token.next?]))).orElse
      (hline.several.map _)).orElse ((refuses_token (by simp [Token.next?, ht])).map _)

theorem reads_parts {parts : List Part} (h : ∀ x ∈ parts, x.Valid) (hapart : parts.IsChain Part.Apart)
    (hblocks : ∀ x ∈ parts.dropLast, x.block?.isSome)
    (hwalk : p.walk ((parts.flatMap Part.tokens).map Token.kind) = some q) (hq : q.isEnd = true) :
    ∃ ns us last, parts.map Part.child = ns.map .node ++ last.toList.map .token ∧
      parts.flatMap Part.tokens = us ++ last.toList ∧ block.repeated.Reads us ns last.toList ∧
        (token .newline).optional.Reads last.toList last [] := by
  induction parts generalizing p with
  | nil => exact ⟨[], [], none, rfl, rfl, refuses_block_nil.repeated, (refuses_token (by simp [Token.next?])).optional⟩
  | cons x parts ih =>
    obtain ⟨hx, hparts⟩ := List.forall_mem_cons.mp h
    obtain ⟨hfirst, hchain⟩ := List.isChain_cons.mp hapart
    rw [List.flatMap_cons, List.map_append, Place.walk_append] at hwalk
    obtain ⟨s, hs, hrest⟩ := Option.bind_eq_some_iff.mp hwalk
    cases hsome : x.block?.isSome with
    | false =>
      -- Only the newline at the end makes no block.
      obtain rfl : parts = [] := by
        cases parts with
        | nil => rfl
        | cons y parts =>
          rw [List.dropLast_cons_cons] at hblocks
          rw [hblocks x List.mem_cons_self] at hsome
          cases hsome
      cases x with
      | newline t =>
        exact ⟨[], [], some t, rfl, rfl, (refuses_block_newline hx).repeated, (reads_token hx).optional⟩
      | _ => cases hsome
    | true =>
      have hbefore : ∀ y ∈ parts.dropLast, y.block?.isSome := by
        cases parts with
        | nil => simp
        | cons y parts =>
          rw [List.dropLast_cons_cons] at hblocks
          exact (List.forall_mem_cons.mp hblocks).2
      have hstop (hpar : x.isParagraph = true) : line.Refuses (parts.flatMap Part.tokens) := by
        cases parts with
        | nil => exact refuses_line (Or.inl (by simp [Token.next?]))
        | cons y parts =>
          obtain ⟨hy, hmore⟩ := List.forall_mem_cons.mp hparts
          exact refuses_line_part hy (hfirst y rfl hpar) (endsText_parts hmore)
      obtain ⟨ns, us, last, hchildren, htokens, hreads, hlast⟩ := ih hparts hchain hbefore hrest
      obtain ⟨n, hn, hblock⟩ :=
        reads_block hx hsome hs (Part.isEnd_before hparts hrest hq) (endsText_parts hparts) hstop
      rw [htokens] at hblock
      refine ⟨n :: ns, x.tokens ++ us, last, ?_, ?_, ?_, hlast⟩
      · rw [List.map_cons, hn, hchildren, List.map_cons, List.cons_append]
      · rw [List.flatMap_cons, htokens, List.append_assoc]
      · exact Reads.repeated lawful_block nil_notMem_blocks hblock hreads

theorem reads_blocks {ts : List Token} (h : Place.Accepts (ts.map Token.kind)) :
    blocks.Reads ts (Node.ofTokens ts) [] := by
  obtain ⟨hvalid, htokens, hblocks⟩ := Part.ofRows_split h
  obtain ⟨q, hwalk, hq⟩ := h
  rw [← htokens] at hwalk
  obtain ⟨ns, us, last, hchildren, hsplit, hreads, hlast⟩ :=
    reads_parts hvalid (Part.ofRows_apart _) hblocks hwalk hq
  have htree : Node.ofTokens ts =
      .ofChildren .document (ns.map .node ++ last.toList.map .token) := by
    rw [Node.ofTokens, hchildren]
  rw [htree, ← htokens, hsplit]
  exact (Reads.andThen (by rwa [List.append_nil]) hlast).map _

theorem blocks_ne_fail {i : Nat} {ts : List Token} {m : Miss} : blocks i ts ≠ .fail m := by
  intro h
  rcases andThen_eq_fail (map_eq_fail h) with hblocks | ⟨_, _, _, _, _, -, hnewline, -⟩
  · exact repeated_ne_fail hblocks
  · exact optional_ne_fail hnewline

end Blocks

end Grammar

namespace Node

theorem parse_of_accepts {ts : List Token} (h : Place.Accepts (ts.map Token.kind)) :
    Node.parse ts = .ok (Node.ofTokens ts) := by
  obtain ⟨o, ho⟩ := Grammar.reads_blocks h 0
  rw [List.append_nil] at ho
  simp only [parse, Parser.run, Grammar.document, Parser.map, Parser.andThen, ho, Parser.endOfInput]
  rfl

theorem blocks_of_parse {ts : List Token} {n : Node} (h : Node.parse ts = .ok n) :
    ∃ j o, Grammar.blocks 0 ts = .ok n j [] o := by
  cases hrun : Grammar.document 0 ts with
  | fail m =>
    rw [parse, Parser.run, hrun] at h
    cases h
  | ok a j rest o =>
    rw [parse, Parser.run, hrun] at h
    cases h
    obtain ⟨⟨_, u⟩, hboth, rfl⟩ := map_eq_ok hrun
    obtain ⟨k, us, l, l', hblocks, hend, -⟩ := andThen_eq_ok hboth
    cases us with
    | nil => exact ⟨k, l, hblocks⟩
    | cons t us => cases hend

theorem derives_of_parse {ts : List Token} {n : Node} (h : Node.parse ts = .ok n) :
    Derives .document (ts.map Token.kind) := by
  obtain ⟨j, o, hblocks⟩ := blocks_of_parse h
  obtain ⟨us, rfl, -, hus, -⟩ := Grammar.lawful_blocks.ok hblocks
  rwa [List.append_nil]

theorem parse_eq_ok_iff {ts : List Token} {n : Node} :
    Node.parse ts = .ok n ↔ Place.Accepts (ts.map Token.kind) ∧ n = Node.ofTokens ts := by
  constructor
  · intro h
    have haccepts := (Place.accepts_iff_derives _).mpr (derives_of_parse h)
    rw [parse_of_accepts haccepts] at h
    exact ⟨haccepts, (Except.ok.inj h).symm⟩
  · rintro ⟨h, rfl⟩
    exact parse_of_accepts h

theorem exists_parse_iff (ts : List Token) :
    (∃ n, Node.parse ts = .ok n) ↔ Place.Accepts (ts.map Token.kind) := by
  simp [parse_eq_ok_iff]

theorem parse_succeeds_iff_derives (ts : List Token) :
    (∃ n, Node.parse ts = .ok n) ↔ Derives .document (ts.map Token.kind) := by
  rw [exists_parse_iff, Place.accepts_iff_derives]

end Node

end AsciiDoc
