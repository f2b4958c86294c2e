import AsciiDoc.Proofs.Canonical
import AsciiDoc.Proofs.Parts
import AsciiDoc.Proofs.Reading

namespace AsciiDoc

namespace Token

def bare (t : Token) : Token := ⟨t.kind, t.text, ⟨0, 0⟩⟩

theorem texts_bare (k : Kind) (ts : List Token) : texts k (ts.map bare) = texts k ts := by
  rw [texts, texts, List.filter_map, List.map_map]
  rfl

theorem values_bare (ts : List Token) : values (ts.map bare) = values ts := by
  rw [values, values, texts_bare, List.any_map]
  rfl

end Token

theorem Piece.map_bare_place (ps : List Piece) (offset other : Nat) :
    (place offset ps).map Token.bare = (place other ps).map Token.bare := by
  induction ps generalizing offset other with
  | nil => rfl
  | cons p ps ih =>
    rw [place, place, List.map_cons, List.map_cons, ih _ (other + Text.bytes p.text)]
    rfl

def Gathered.bare (g : Gathered) : Gathered := ⟨g.mark, g.built.bare⟩

namespace Item

def bare : Item → Item
  | punctuation t => punctuation t.bare
  | legacyId a b c => legacyId a.bare b.bare c.bare
  | marked pairs => marked (pairs.map fun p => (p.1.bare, p.2.bare))
  | entry key value => entry (key.map fun p => (p.1.bare, p.2.bare)) (value.map Token.bare)

theorem tokens_bare (i : Item) : i.bare.tokens = i.tokens.map Token.bare := by
  match i with
  | punctuation t => rfl
  | legacyId a b c => rfl
  | marked pairs => rw [bare, tokens, tokens, List.flatMap_map, List.map_flatMap]; rfl
  | entry none value => rfl
  | entry (some (k, a)) value => rfl

theorem mark?_bare (i : Item) : i.bare.mark? = i.mark? := by
  cases i with
  | punctuation t => rfl
  | legacyId a b c => rfl
  | marked pairs => cases pairs <;> rfl
  | entry key value => rfl

theorem addPair_bare (p : Token × Token) (items : List Item) :
    addPair (p.1.bare, p.2.bare) (items.map bare) = (addPair p items).map bare := by
  match items with
  | [] => rfl
  | marked [] :: items => rfl
  | marked (q :: qs) :: items =>
    rw [List.map_cons, bare, List.map_cons, addPair, addPair]
    change (if q.1.kind = p.1.kind then _ else _) = _
    split <;> rfl
  | punctuation t :: items => rfl
  | legacyId a b c :: items => rfl
  | entry key value :: items => rfl

theorem ValidValue.bare {v : List Token} (h : ValidValue v) : ValidValue (v.map Token.bare) := by
  rcases h with ⟨t, rfl, ht⟩ | ⟨a, words, b, rfl, ha, hb, hwords⟩
  · exact Or.inl ⟨t.bare, rfl, ht⟩
  · refine Or.inr ⟨a.bare, words.map Token.bare, b.bare, by simp, ha, hb, ?_⟩
    exact List.forall_mem_map.mpr hwords

theorem ListTail.ofTokens_bare {ts : List Token} (h : ListTail ts) :
    ofTokens (ts.map Token.bare) = (ofTokens ts).map bare := by
  induction h with
  | @close t h =>
    rw [List.map_singleton, ofTokens_punctuation (t := t.bare) (Or.inr (Or.inl h)),
      ofTokens_punctuation (Or.inr (Or.inl h)), ofTokens]
    rfl
  | @comma t ts h _ ih =>
    rw [List.map_cons, ofTokens_punctuation (t := t.bare) (Or.inr (Or.inr h)),
      ofTokens_punctuation (Or.inr (Or.inr h)), ih]
    rfl
  | @legacyId a b c ts h _ ih =>
    rw [List.map_cons, List.map_cons, List.map_cons, ofTokens_legacyId (a := a.bare) h.1,
      ofTokens_legacyId h.1, ih]
    rfl
  | @pair m a b ts ha _ _ ih =>
    rw [List.map_cons, List.map_cons, ofTokens_pair (a := a.bare) ha, ofTokens_pair ha, ih]
    exact addPair_bare (a, b) _
  | @keyed k a v ts hk ha hv _ ih =>
    rw [List.map_cons, List.map_cons, List.map_append, ofTokens_keyed (k := k.bare) (a := a.bare) hk ha hv.bare,
      ofTokens_keyed hk ha hv, ih]
    rfl
  | @value v ts hv hhead _ ih =>
    have hhead' : (ts.map Token.bare).head?.map Token.kind ≠ some .assignment := by
      rwa [List.head?_map, Option.map_map]
    rw [List.map_append, ofTokens_value hv.bare hhead', ofTokens_value hv hhead, ih]
    rfl

theorem any_mark {gs hs : List Gathered} (h : gs.map Gathered.bare = hs.map Gathered.bare) (m : Mark) :
    (gs.any fun g => g.mark = some m) = hs.any fun g => g.mark = some m := by
  have hany (gs : List Gathered) : (gs.any fun g => g.mark = some m) =
      (gs.map Gathered.bare).any fun g => g.mark = some m := by
    rw [List.any_map]
    rfl
  rw [hany gs, hany hs, h]

theorem extendMark_bare (m : Mark) (values : List Text) (gs : List Gathered) :
    (Gathered.extendMark m values gs).map Gathered.bare =
      Gathered.extendMark m values (gs.map Gathered.bare) := by
  rw [Gathered.extendMark, Gathered.extendMark, List.map_map, List.map_map]
  apply List.map_congr_left
  intro g _
  dsimp only [Function.comp]
  rw [show g.bare.mark = g.mark from rfl]
  split <;> rfl

theorem gather_bare {gs hs : List Gathered} (h : gs.map Gathered.bare = hs.map Gathered.bare) (i : Item) :
    (gather gs i.bare).map Gathered.bare = (gather hs i).map Gathered.bare := by
  have hshorthand (m : Mark) (ts : List Token) : (Gathered.shorthand m (ts.map Token.bare) gs).map Gathered.bare =
      (Gathered.shorthand m ts hs).map Gathered.bare := by
    rw [Gathered.shorthand, Gathered.shorthand, any_mark h, Token.texts_bare]
    split
    · rw [extendMark_bare, extendMark_bare, h]
    · rw [List.map_append, List.map_append, h]
      rfl
  have hmarked (i : Item) : ((i.bare.mark?.map fun m => Gathered.shorthand m i.bare.tokens gs).getD gs).map
      Gathered.bare = ((i.mark?.map fun m => Gathered.shorthand m i.tokens hs).getD hs).map Gathered.bare := by
    rw [mark?_bare, tokens_bare]
    cases i.mark? with
    | none => exact h
    | some m => exact hshorthand m i.tokens
  cases i with
  | punctuation t => exact h
  | legacyId a b c => exact hmarked (legacyId a b c)
  | marked pairs => exact hmarked (marked pairs)
  | entry key value =>
    rw [bare, gather, gather, List.map_append, List.map_append, h, Token.values_bare]
    cases key <;> rfl

theorem foldl_gather_bare (items : List Item) {gs hs : List Gathered}
    (h : gs.map Gathered.bare = hs.map Gathered.bare) :
    ((items.map bare).foldl gather gs).map Gathered.bare = (items.foldl gather hs).map Gathered.bare := by
  induction items generalizing gs hs with
  | nil => exact h
  | cons i items ih => exact ih (gather_bare h i)

end Item

theorem Part.foldl_gather_bare {opening : Token} {list : List Token} (h : (attributes opening list).Valid) :
    ((Item.ofTokens (list.map Token.bare)).foldl Item.gather []).map Gathered.bare =
      ((Item.ofTokens list).foldl Item.gather []).map Gathered.bare := by
  obtain ⟨-, t, ts, rfl, ht, hts⟩ := h
  rw [List.map_cons, Item.ofTokens_punctuation (t := t.bare) (Or.inl ht), Item.ofTokens_punctuation (Or.inl ht),
    hts.ofTokens_bare]
  exact Item.foldl_gather_bare (.punctuation t :: Item.ofTokens ts) rfl

theorem Part.bare_attributes {opening other : Token} {list list' : List Token}
    (h : (attributes opening list).Valid) (h' : (attributes other list').Valid)
    (hbare : list.map Token.bare = list'.map Token.bare) :
    (attributes opening list).block?.map Block.bare = (attributes other list').block?.map Block.bare := by
  have hgathered : ((Item.ofTokens list).foldl Item.gather []).map Gathered.bare =
      ((Item.ofTokens list').foldl Item.gather []).map Gathered.bare := by
    rw [← foldl_gather_bare h, hbare, foldl_gather_bare h']
  have hbuilt := congrArg (List.map Gathered.built) hgathered
  rw [List.map_map, List.map_map] at hbuilt
  simp only [block?, Option.map_some, Block.bare, AttributeList.bare, List.map_map]
  exact congrArg (fun as => some (Block.attributes ⟨⟨as, .unresolved⟩, .unresolved⟩)) hbuilt

end AsciiDoc
