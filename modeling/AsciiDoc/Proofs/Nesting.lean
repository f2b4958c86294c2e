import AsciiDoc.Proofs.DocumentNodes
import AsciiDoc.Proofs.ParsedDocuments
import Mathlib.Order.Defs.Unbundled

namespace AsciiDoc

theorem Location.ofExtent_eq {a b : Nat} (hab : a ≤ b) (hb : b < Nat.pow 2 63) :
    ofExtent ⟨a, b⟩ = ⟨a, b⟩ := by
  have hsame {n half : Nat} (hn : n < half) : Int.bmod n (half * 2) = n := by
    apply Int.bmod_eq_of_le <;> omega
  have hstart : Int.bmod a (Nat.pow 2 64) = a := hsame (Nat.lt_of_le_of_lt hab hb)
  have hstop : Int.bmod b (Nat.pow 2 64) = b := hsame hb
  exact congr_arg₂ Location.mk hstart hstop

namespace Outline

inductive Nested : Outline → Prop
  | mk {o : Outline} (hresolved : o.location.isResolved = true)
      (hlt : o.location.start < o.location.stop)
      (hinside : ∀ p ∈ o.parts,
        o.location.start ≤ p.location.start ∧ p.location.stop ≤ o.location.stop)
      (hordered : o.parts.IsChain fun p q => p.location.stop ≤ q.location.start)
      (hparts : ∀ p ∈ o.parts, Nested p) : Nested o

theorem Nested.located {o : Outline} (h : o.Nested) (lasts : List Bool) : ∀ x ∈ o.placed lasts,
    x.2.location.isResolved = true ∧ x.2.location.start < x.2.location.stop := by
  induction h generalizing lasts with
  | mk hresolved hlt _ _ _ ih =>
    rw [placed_eq, List.forall_mem_cons]
    refine ⟨⟨hresolved, hlt⟩, fun x hx => ?_⟩
    obtain ⟨p, hp, marks, hx⟩ := exists_of_mem_placedAll hx
    exact ih p hp marks x hx

def Fills (a b : Nat) (o : Outline) : Prop := o.location = ⟨a, b⟩ ∧ a < b ∧ o.Nested

end Outline

inductive Spread (gap : Nat → Nat → Prop) : Nat → Nat → List Outline → Prop
  | nil {a b : Nat} (h : gap a b) : Spread gap a b []
  | cons {a m n b : Nat} {o : Outline} {os : List Outline} (hgap : gap a m) (ho : o.Fills m n)
      (hos : Spread gap n b os) : Spread gap a b (o :: os)

namespace Spread

variable {gap : Nat → Nat → Prop} {a b m n : Nat} {os ps : List Outline}

theorem append [IsPreorder Nat gap] (h : Spread gap a m os) (hps : Spread gap m b ps) :
    Spread gap a b (os ++ ps) := by
  induction h with
  | nil hgap =>
    cases hps with
    | nil h => exact .nil (IsTrans.trans _ _ _ hgap h)
    | cons h ho hos => exact .cons (IsTrans.trans _ _ _ hgap h) ho hos
  | cons hgap ho _ ih => exact .cons hgap ho (ih hps)

theorem flatMap [IsPreorder Nat gap] {α : Type} (tokens : α → List Token) (f : α → List Outline)
    {xs : List α} (h : Tiles a b ((xs.flatMap tokens).map .token))
    (hf : ∀ x ∈ xs, ∀ m n, n ≤ b → Tiles m n ((tokens x).map .token) → Spread gap m n (f x)) :
    Spread gap a b (xs.flatMap f) := by
  induction xs generalizing a with
  | nil =>
    cases h
    exact .nil (Std.Refl.refl _)
  | cons x xs ih =>
    rw [List.flatMap_cons, List.map_append] at h
    obtain ⟨m, hfirst, hrest⟩ := Tiles.append_iff.mp h
    obtain ⟨hx, hxs⟩ := List.forall_mem_cons.mp hf
    exact (hx a m hrest.le hfirst).append (ih hrest hxs)

theorem map_congr {α : Type} {f g : α → Outline} {xs : List α} (h : Spread gap a b (xs.map f))
    (hfg : ∀ x ∈ xs, ∀ m n, (f x).Fills m n → (g x).Fills m n) : Spread gap a b (xs.map g) := by
  induction xs generalizing a with
  | nil =>
    cases h with
    | nil h => exact .nil h
  | cons x xs ih =>
    obtain ⟨hx, hxs⟩ := List.forall_mem_cons.mp hfg
    cases h with
    | cons hgap ho hos => exact .cons hgap (hx _ _ ho) (ih hos hxs)

theorem le_of_eq (h : Spread (· = ·) a b os) : Spread (· ≤ ·) a b os := by
  induction h with
  | nil h => exact .nil (Nat.le_of_eq h)
  | cons hgap ho _ ih => exact .cons (Nat.le_of_eq hgap) ho ih

theorem nested (h : Spread gap a b os) : ∀ o ∈ os, o.Nested := by
  induction h with
  | nil => simp
  | cons _ ho _ ih => exact List.forall_mem_cons.mpr ⟨ho.2.2, ih⟩

theorem isChain (h : Spread gap a b os) : os.IsChain fun o p =>
    ∃ m n : Nat, o.location.stop = (m : Int) ∧ p.location.start = (n : Int) ∧ gap m n := by
  induction h with
  | nil => exact .nil
  | cons _ ho hos ih =>
    refine List.isChain_cons.mpr ⟨?_, ih⟩
    intro p hp
    cases hos with
    | nil => cases hp
    | cons hgap hq _ =>
      cases hp
      exact ⟨_, _, congrArg Location.stop ho.1, congrArg Location.start hq.1, hgap⟩

theorem le (h : Spread (· ≤ ·) a b os) : a ≤ b := by
  induction h with
  | nil h => exact h
  | cons hgap ho _ ih =>
    have := ho.2.1
    omega

theorem inside (h : Spread (· ≤ ·) a b os) :
    ∀ o ∈ os, (a : Int) ≤ o.location.start ∧ o.location.stop ≤ (b : Int) := by
  induction h with
  | nil => simp
  | @cons a m n b o os hgap ho hos ih =>
    obtain ⟨hlocation, hlt, -⟩ := ho
    have hle := hos.le
    refine List.forall_mem_cons.mpr ⟨?_, fun p hp => ?_⟩
    · rw [hlocation]
      exact ⟨Int.ofNat_le.mpr hgap, Int.ofNat_le.mpr hle⟩
    · have := ih p hp
      omega

theorem head?_start (h : Spread (· = ·) a b os) : ∀ o ∈ os.head?, o.location.start = a := by
  cases h with
  | nil => simp
  | cons hgap ho _ =>
    rintro o ⟨⟩
    rw [ho.1, hgap]

theorem getLast?_stop (h : Spread (· = ·) a b os) : ∀ o ∈ os.getLast?, o.location.stop = b := by
  induction h with
  | nil => simp
  | @cons a m n b o os hgap ho hos ih =>
    cases hos with
    | nil h =>
      intro p hp
      obtain rfl : o = p := Option.some.inj hp
      rw [ho.1, h]
    | cons _ _ _ =>
      rw [List.getLast?_cons_cons]
      exact ih

end Spread

theorem Outline.fills_mk {a b : Nat} {o : Outline} (hlocation : o.location = ⟨a, b⟩) (hlt : a < b)
    (hparts : Spread (· ≤ ·) a b o.parts) : o.Fills a b := by
  refine ⟨hlocation, hlt, ?_, ?_, ?_, ?_, hparts.nested⟩
  · simp [hlocation, Location.isResolved]
  · simpa [hlocation] using hlt
  · rw [hlocation]
    exact hparts.inside
  · apply hparts.isChain.imp
    rintro p q ⟨m, n, hm, hn, hle⟩
    omega

namespace Token

variable {a b : Nat} {ts : List Token}

theorem location_eq (h : Tiles a b (ts.map .token)) (hts : ts ≠ []) (hb : b < Nat.pow 2 63) :
    Token.location ts = ⟨a, b⟩ := by
  have hspan : Token.span? ts = some ⟨a, b⟩ := by
    rw [← Node.extents_tokens]
    exact h.span_ofChildren (by simpa using hts) .document
  rw [Token.location, hspan]
  exact Location.ofExtent_eq h.le hb

theorem fills {e : Element} {label : Text} {parts : List Outline} (h : Tiles a b (ts.map .token))
    (hts : ts ≠ []) (hb : b < Nat.pow 2 63) (hparts : Spread (· ≤ ·) a b parts) :
    Outline.Fills a b ⟨e, label, Token.location ts, parts⟩ :=
  Outline.fills_mk (location_eq h hts hb) (h.lt (by simpa using hts)) hparts

theorem foldl_textLocation {x y : Nat} (hxy : x ≤ y) (hy : y ≤ a) (h : Tiles a b (ts.map .token))
    (hb : b < Nat.pow 2 63) :
    ∃ z, y ≤ z ∧ z ≤ b ∧ (ts.filter fun t => t.kind = .listText).foldl
      (fun l t => l.union (.ofExtent t.extent)) (⟨x, y⟩ : Location) = ⟨x, z⟩ := by
  induction ts generalizing a y with
  | nil => exact ⟨y, Nat.le_refl y, Nat.le_trans hy h.le, rfl⟩
  | cons t ts ih =>
    cases h with
    | @cons _ m _ _ _ ht hlt hrest =>
      by_cases hkind : t.kind = .listText
      · have hextent : t.extent = ⟨a, m⟩ := Option.some.inj ht
        have hunion : Location.union ⟨x, y⟩ (.ofExtent t.extent) = ⟨x, m⟩ := by
          have hm := hrest.le
          rw [hextent, Location.ofExtent_eq (by omega) (by omega)]
          simp only [Location.union, Location.isResolved]
          simp
          omega
        rw [List.filter_cons_of_pos (by simpa using hkind), List.foldl_cons, hunion]
        obtain ⟨z, hz, hzb, heq⟩ := ih (by omega) (Nat.le_refl m) hrest
        exact ⟨z, by omega, hzb, heq⟩
      · rw [List.filter_cons_of_neg (by simpa using hkind)]
        exact ih hxy (by omega) hrest

theorem textLocation_eq (h : Tiles a b (ts.map .token)) (hb : b < Nat.pow 2 63)
    (htext : ∃ t ∈ ts, t.kind = .listText) :
    ∃ x y : Nat, a ≤ x ∧ x < y ∧ y ≤ b ∧ Token.textLocation ts = ⟨x, y⟩ := by
  induction ts generalizing a with
  | nil => simp at htext
  | cons t ts ih =>
    cases h with
    | @cons _ m _ _ _ ht hlt hrest =>
      have hm := hrest.le
      by_cases hkind : t.kind = .listText
      · have hextent : t.extent = ⟨a, m⟩ := Option.some.inj ht
        obtain ⟨z, hz, hzb, heq⟩ := foldl_textLocation (Nat.le_of_lt hlt) (Nat.le_refl m) hrest hb
        refine ⟨a, z, Nat.le_refl a, by omega, hzb, ?_⟩
        rw [Token.textLocation, List.filter_cons_of_pos (by simpa using hkind), List.foldl_cons, hextent,
          Location.ofExtent_eq (by omega) (by omega)]
        exact heq
      · have hrest' : ∃ u ∈ ts, u.kind = .listText := by simpa [hkind] using htext
        obtain ⟨x, y, hx, hxy, hy, heq⟩ := ih hrest hrest'
        refine ⟨x, y, by omega, hxy, hy, ?_⟩
        rw [Token.textLocation, List.filter_cons_of_neg (by simpa using hkind)]
        exact heq

end Token

namespace Gathered

def outline (g : Gathered) : Outline := g.built.outline

theorem fills_built {a b x y : Nat} {g : Gathered} (hlocation : g.built.location = ⟨a, b⟩) (hlt : a < b)
    (hvalue : g.built.value.location = ⟨x, y⟩) (hx : a ≤ x) (hxy : x < y) (hy : y ≤ b) :
    g.outline.Fills a b := by
  have hfills : g.built.value.outline.Fills x y := Outline.fills_mk hvalue hxy (.nil (Nat.le_of_lt hxy))
  exact Outline.fills_mk hlocation hlt (.cons hx hfills (.nil hy))

theorem fills_extend {a b : Nat} {g : Gathered} (values : List Text) (h : g.outline.Fills a b) :
    (g.extend values).outline.Fills a b := by
  obtain ⟨hlocation, hlt, hnested⟩ := h
  refine ⟨hlocation, hlt, ?_⟩
  cases hnested with
  | mk hresolved hlt hinside _ hparts =>
    have hvalue : g.built.value.outline.Nested := hparts _ List.mem_cons_self
    have hextended : (g.extend values).built.value.outline.Nested := by
      cases hvalue with
      | mk hresolved hlt hinside hordered hparts => exact ⟨hresolved, hlt, hinside, hordered, hparts⟩
    have hbounds := hinside g.built.value.outline List.mem_cons_self
    exact ⟨hresolved, hlt, List.forall_mem_singleton.mpr hbounds, List.isChain_singleton _,
      List.forall_mem_singleton.mpr hextended⟩

variable {a m n : Nat} {gs : List Gathered}

theorem spread_extendMark (mark : Mark) (values : List Text) (h : Spread (· ≤ ·) a m (gs.map outline)) :
    Spread (· ≤ ·) a m ((extendMark mark values gs).map outline) := by
  rw [extendMark, List.map_map]
  apply h.map_congr
  intro g _ x y hg
  rw [Function.comp_apply]
  split
  · exact fills_extend values hg
  · exact hg

theorem spread_shorthand {mark : Mark} {ts : List Token} (hts : ∃ t ∈ ts, t.kind = .listText)
    (htiles : Tiles m n (ts.map .token)) (hn : n < Nat.pow 2 63)
    (h : Spread (· ≤ ·) a m (gs.map outline)) :
    Spread (· ≤ ·) a n ((shorthand mark ts gs).map outline) := by
  have hgap : Spread (· ≤ ·) m n [] := .nil htiles.le
  unfold shorthand
  split
  · simpa using (spread_extendMark mark _ h).append hgap
  · have hne : ts ≠ [] := by
      obtain ⟨t, ht, -⟩ := hts
      exact List.ne_nil_of_mem ht
    obtain ⟨x, y, hx, hxy, hy, hvalue⟩ := Token.textLocation_eq htiles hn hts
    rw [List.map_append]
    apply h.append
    apply Spread.cons (Nat.le_refl m) _ (.nil (Nat.le_refl n))
    exact fills_built (Token.location_eq htiles hne hn) (htiles.lt (by simpa using hne)) hvalue hx hxy hy

end Gathered

namespace Item

theorem exists_listText {i : Item} (hi : i.Valid) {m : Mark} (hm : i.mark? = some m) :
    ∃ t ∈ i.tokens, t.kind = .listText := by
  cases i with
  | punctuation t => cases hm
  | entry key value => cases hm
  | legacyId x y z => exact ⟨y, by simp [tokens], hi.2.1⟩
  | marked pairs =>
    obtain ⟨hne, l, hl⟩ := hi
    obtain ⟨p, ps, rfl⟩ := List.exists_cons_of_ne_nil hne
    exact ⟨p.2, by simp [tokens], (hl p List.mem_cons_self).2⟩

theorem exists_tokens_entry (key : Option (Token × Token)) (value : List Token) :
    ∃ ts, (entry key value).tokens = ts ++ value := by
  match key with
  | none => exact ⟨[], rfl⟩
  | some (k, a) => exact ⟨[k, a], rfl⟩

variable {a m n : Nat} {gs : List Gathered}

theorem spread_gather {i : Item} (hi : i.Valid) (htiles : Tiles m n (i.tokens.map .token))
    (hn : n < Nat.pow 2 63) (h : Spread (· ≤ ·) a m (gs.map Gathered.outline)) :
    Spread (· ≤ ·) a n ((gather gs i).map Gathered.outline) := by
  have hne := hi.tokens_ne_nil
  rcases exists_mark? hi with ⟨t, rfl⟩ | ⟨key, value, rfl⟩ | ⟨mark, hm, hgather⟩
  · have hgap : Spread (· ≤ ·) m n [] := .nil htiles.le
    simpa [gather] using h.append hgap
  · obtain ⟨ts, hts⟩ := exists_tokens_entry key value
    have hsplit := htiles
    rw [hts, List.map_append] at hsplit
    obtain ⟨x, hfirst, hvalue⟩ := Tiles.append_iff.mp hsplit
    have hvalues := hi.2.ne_nil
    rw [gather, List.map_append]
    apply h.append
    apply Spread.cons (Nat.le_refl m) _ (.nil (Nat.le_refl n))
    exact Gathered.fills_built (Token.location_eq htiles hne hn) (htiles.lt (by simpa using hne))
      (Token.location_eq hvalue hvalues hn) hfirst.le (hvalue.lt (by simpa using hvalues)) (Nat.le_refl n)
  · rw [hgather]
    exact Gathered.spread_shorthand (exists_listText hi hm) htiles hn h

theorem spread_foldl {items : List Item} (hi : ∀ i ∈ items, i.Valid)
    (htiles : Tiles m n ((items.flatMap tokens).map .token)) (hn : n < Nat.pow 2 63)
    (h : Spread (· ≤ ·) a m (gs.map Gathered.outline)) :
    Spread (· ≤ ·) a n ((items.foldl gather gs).map Gathered.outline) := by
  induction items generalizing m gs with
  | nil =>
    cases htiles
    exact h
  | cons i items ih =>
    obtain ⟨hfirst, hrest⟩ := List.forall_mem_cons.mp hi
    rw [List.flatMap_cons, List.map_append] at htiles
    obtain ⟨x, hitem, hitems⟩ := Tiles.append_iff.mp htiles
    exact ih hrest hitems (spread_gather hfirst hitem (Nat.lt_of_le_of_lt hitems.le hn) h)

end Item

theorem Row.IsLine.spread {ts : List Token} (hline : IsLine ts) {a b : Nat} (h : Tiles a b (ts.map .token))
    (hb : b < Nat.pow 2 63) : Spread (· ≤ ·) a b [(line ts).outline] := by
  obtain ⟨w, rest, hdrop, -⟩ := hline
  rw [← List.takeWhile_append_dropWhile (p := isSpace) (l := ts), List.map_append] at h
  obtain ⟨m, hindent, hwords⟩ := Tiles.append_iff.mp h
  have hne : ts.dropWhile isSpace ≠ [] := by
    rw [hdrop]
    exact List.cons_ne_nil _ _
  exact .cons hindent.le (Token.fills hwords hne hb (.nil hwords.le)) (.nil (Nat.le_refl b))

namespace Part

variable {a b : Nat}

theorem fills_block {p : Part} (hp : p.Valid) (h : Tiles a b (p.tokens.map .token)) (hb : b < Nat.pow 2 63)
    {d : Block} (hd : p.block? = some d) : d.outline.Fills a b := by
  have hne := hp.tokens_ne_nil
  cases p with
  | newline t => cases hd
  | emptyLine t =>
    cases hd
    exact Token.fills h hne hb (.nil h.le)
  | headline opening marker rest =>
    cases hd
    obtain ⟨m, hfirst, hrest⟩ := Tiles.append_iff.mp
      (show Tiles a b ([.token opening, .token marker] ++ rest.map .token) from h)
    have hgap : Spread (· ≤ ·) a m [] := .nil hfirst.le
    exact Token.fills h hne hb (hgap.append (hp.2.2.spread hrest hb))
  | attributes opening list =>
    cases hd
    obtain ⟨hitems, htokens⟩ := items_attributes hp
    obtain ⟨m, hfirst, hrest⟩ := Tiles.append_iff.mp
      (show Tiles a b ([.token opening] ++ list.map .token) from h)
    have hlist : list ≠ [] := by
      obtain ⟨-, t, ts, rfl, -⟩ := hp
      exact List.cons_ne_nil _ _
    have hattributes : Spread (· ≤ ·) m b
        ((((Item.ofTokens list).foldl Item.gather []).map Gathered.built).map Attribute.outline) := by
      rw [List.map_map]
      exact Item.spread_foldl hitems (htokens.symm ▸ hrest) hb (.nil (Nat.le_refl m))
    exact Token.fills h hne hb (.cons hfirst.le (Token.fills hrest hlist hb hattributes) (.nil (Nat.le_refl b)))
  | paragraph rows =>
    cases hd
    have hlines : Spread (· ≤ ·) a b (rows.flatMap fun r => [(Row.line r.body).outline]) := by
      apply Spread.flatMap Row.tokens _ h
      intro r hr x y hy htiles
      obtain ⟨m, hfirst, hrest⟩ := Tiles.append_iff.mp
        (show Tiles x y ([.token r.opening] ++ r.body.map .token) from htiles)
      have hgap : Spread (· ≤ ·) x m [] := .nil hfirst.le
      exact hgap.append ((hp.2 r hr).2.spread hrest (Nat.lt_of_le_of_lt hy hb))
    rw [← List.map_eq_flatMap] at hlines
    refine Token.fills h hne hb ?_
    rwa [List.map_map]

theorem spread_blocks {parts : List Part} (hvalid : ∀ p ∈ parts, p.Valid)
    (hblocks : ∀ p ∈ parts, p.block?.isSome) (h : Tiles a b ((parts.flatMap tokens).map .token))
    (hb : b < Nat.pow 2 63) : Spread (· = ·) a b ((parts.filterMap block?).map Block.outline) := by
  have hspread : Spread (· = ·) a b (parts.flatMap fun p => p.block?.toList.map Block.outline) := by
    apply Spread.flatMap tokens _ h
    intro p hp m n hn htiles
    obtain ⟨d, hd⟩ := Option.isSome_iff_exists.mp (hblocks p hp)
    rw [hd]
    exact .cons rfl (fills_block (hvalid p hp) htiles (Nat.lt_of_le_of_lt hn hb) hd) (.nil rfl)
  rwa [List.filterMap_eq_flatMap_toList, List.map_flatMap]

end Part

theorem Block.location_outline (b : Block) : b.outline.location = b.location := by cases b <;> rfl

namespace Document

variable {legacyIds : Bool} {ps : List Piece} {b : Lexer.State}

theorem spread_ofPieces {s : Text} (h : Lexer.Reads legacyIds (.root false) s ps b []) (hs : s.EndsInk)
    (haccepts : Place.Accepts (ps.map Piece.kind)) (hsize : Text.bytes s < Nat.pow 2 63) :
    Spread (· = ·) 0 (Text.bytes s) ((ofPieces ps).blocks.map Block.outline) := by
  have htiles := Tiles.place h.text_ne_nil 0
  rw [← Piece.map_kind_place 0] at haccepts
  obtain ⟨hvalid, htokens, hblocks⟩ := Part.ofRows_split haccepts
  have hlast := h.getLast?_place hs
  rw [← htokens] at hlast htiles
  have hsource : 0 + Text.bytes (Piece.source ps) = Text.bytes s := by
    rw [h.source_eq, List.append_nil, Nat.zero_add]
  exact Part.spread_blocks hvalid (Part.isSome_block? hvalid hblocks hlast) (hsource ▸ htiles) hsize

theorem fills_ofPieces {s : Text} (h : Lexer.Reads legacyIds (.root false) s ps b []) (hs : s ≠ [])
    (hsize : Text.bytes s < Nat.pow 2 63)
    (hblocks : Spread (· ≤ ·) 0 (Text.bytes s) ((ofPieces ps).blocks.map Block.outline)) :
    (ofPieces ps).outline.Fills 0 (Text.bytes s) := by
  have htiles := Tiles.place h.text_ne_nil 0
  have hsource : Piece.source ps = s := by rw [h.source_eq, List.append_nil]
  rw [Nat.zero_add, hsource] at htiles
  refine Token.fills htiles ?_ hsize hblocks
  intro hnil
  cases ps with
  | nil => exact hs hsource.symm
  | cons p ps => cases hnil

theorem located_of_nested {d : Document} (h : d.outline.Nested) : ∀ n ∈ d.placedNodes,
    n.node.location.isResolved = true ∧ n.node.location.start < n.node.location.stop := by
  intro n hn
  have hmem : n.outline ∈ d.outline.placed [] := by
    rw [placed_outline]
    exact List.mem_map_of_mem hn
  have hlocated := h.located [] n.outline hmem
  rwa [PlacedNode.outline, DocumentNode.location_outline] at hlocated

/-- The nodes of a document are nested and follow one another, and its blocks leave nothing out. -/
theorem locations_nested {c : Config} {text : Text} {d : Document} (h : parse c text = .ok d)
    (hsize : Text.bytes (normalize text) < Nat.pow 2 63) :
    d.location = ⟨0, Text.bytes (normalize text)⟩ ∧ d.outline.Nested ∧
      (∀ n ∈ d.placedNodes,
        n.node.location.isResolved = true ∧ n.node.location.start < n.node.location.stop) ∧
      (∀ b ∈ d.blocks.head?, b.location.start = 0) ∧
      d.blocks.IsChain (fun b b' => b.location.stop = b'.location.start) ∧
      ∀ b ∈ d.blocks.getLast?, b.location.stop = Text.bytes (normalize text) := by
  obtain ⟨ps, state, hreads, haccepts, rfl⟩ := (parse_eq_ok_iff c text d).mp h
  have hne : normalize text ≠ [] := List.cons_ne_nil _ _
  rcases normalize_ends text with hnewline | hink
  · have hempty := ofPieces_newline (hnewline ▸ hreads)
    obtain ⟨hlocation, -, hnested⟩ := fills_ofPieces hreads hne hsize (by
      rw [hempty]
      exact .nil (Nat.zero_le _))
    rw [hempty]
    exact ⟨hlocation, hnested, located_of_nested hnested, by simp, .nil, by simp⟩
  · have hspread := spread_ofPieces hreads hink haccepts hsize
    obtain ⟨hlocation, -, hnested⟩ := fills_ofPieces hreads hne hsize hspread.le_of_eq
    refine ⟨hlocation, hnested, located_of_nested hnested, ?_, ?_, ?_⟩
    · intro b hb
      rw [← b.location_outline]
      apply hspread.head?_start
      rw [List.head?_map, hb]
      rfl
    · have hchain := (List.isChain_map _).mp hspread.isChain
      apply hchain.imp
      rintro b b' ⟨m, n, hm, hn, rfl⟩
      rw [← b.location_outline, ← b'.location_outline, hm, hn]
    · intro b hb
      rw [← b.location_outline]
      apply hspread.getLast?_stop
      rw [List.getLast?_map, hb]
      rfl

theorem locations_nested_gathered :
    ∃ d, parse {} "\n[a,b=\"c d\".é[i].r#k]\n= T x\n\n  p  q\nr".toList = .ok d ∧
      (d.attributeBlocks.flatMap fun b => b.list.attributes.map Attribute.location) =
        [⟨2, 3⟩, ⟨4, 11⟩, ⟨11, 14⟩, ⟨14, 17⟩] ∧
      d.blocks.map Block.location = [⟨0, 22⟩, ⟨22, 28⟩, ⟨28, 29⟩, ⟨29, 38⟩] ∧
      d.location = ⟨0, 38⟩ ∧ d.outline.Nested := by
  have hparse : (parse {} "\n[a,b=\"c d\".é[i].r#k]\n= T x\n\n  p  q\nr".toList).toOption.any
      (fun d => (d.attributeBlocks.flatMap fun b => b.list.attributes.map Attribute.location) =
          [⟨2, 3⟩, ⟨4, 11⟩, ⟨11, 14⟩, ⟨14, 17⟩] ∧
        d.blocks.map Block.location = [⟨0, 22⟩, ⟨22, 28⟩, ⟨28, 29⟩, ⟨29, 38⟩]) = true := by
    decide +kernel
  have hbytes : Text.bytes (normalize "\n[a,b=\"c d\".é[i].r#k]\n= T x\n\n  p  q\nr".toList) = 38 := by
    decide +kernel
  generalize htext : parse {} _ = result at hparse ⊢
  cases result with
  | error e => cases hparse
  | ok d =>
    obtain ⟨hattributes, hblocks⟩ := of_decide_eq_true hparse
    obtain ⟨hlocation, hnested, -⟩ := locations_nested htext (by rw [hbytes]; decide)
    rw [hbytes] at hlocation
    exact ⟨d, rfl, hattributes, hblocks, hlocation, hnested⟩

end Document

end AsciiDoc
