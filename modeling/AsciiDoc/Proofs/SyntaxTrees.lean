import AsciiDoc.Proofs.OrderedChoice
import AsciiDoc.Proofs.Reading

namespace AsciiDoc

theorem Document.ofTokens_eq {ts : List Token} {a b : Nat} (h : Place.Accepts (ts.map Token.kind))
    (htiles : Tiles a b (ts.map .token)) : Document.ofTokens ts =
      .ok ⟨(Part.ofRows (Row.split ts).2).filterMap Part.block?, Token.location ts⟩ := by
  rw [Document.ofTokens, Node.parse_of_accepts h]
  exact congrArg (Except.mapError _) (Node.toDocument_ofTokens h htiles)

theorem Tiles.place {ps : List Piece} (h : ∀ p ∈ ps, p.text ≠ []) (offset : Nat) :
    Tiles offset (offset + Text.bytes (Piece.source ps)) ((Piece.place offset ps).map .token) := by
  induction ps generalizing offset with
  | nil => exact .nil offset
  | cons p ps ih =>
    obtain ⟨hp, hps⟩ := List.forall_mem_cons.mp h
    have hpos := Text.bytes_pos hp
    rw [Piece.source_cons, Text.bytes_append, ← Nat.add_assoc]
    exact .cons rfl (by omega) (ih hps _)

def Document.ofPieces (ps : List Piece) : Document :=
  ⟨(Part.ofRows (Row.split (Piece.place 0 ps)).2).filterMap Part.block?, Token.location (Piece.place 0 ps)⟩

theorem parse_eq_ok_iff (c : Config) (text : Text) (d : Document) :
    parse c text = .ok d ↔ ∃ ps b, Lexer.Reads c.legacyIds (.root false) (normalize text) ps b [] ∧
      Place.Accepts (ps.map Piece.kind) ∧ d = .ofPieces ps := by
  constructor
  · intro h
    cases htokens : tokenize c.legacyIds (normalize text) with
    | error e =>
      rw [parse, htokens] at h
      cases h
    | ok ts =>
      rw [parse, htokens] at h
      obtain ⟨ps, b, hps, rfl⟩ := (tokenize_eq_ok_iff _ _ _).mp htokens
      change Document.ofTokens (Piece.place 0 ps) = .ok d at h
      have haccepts : Place.Accepts ((Piece.place 0 ps).map Token.kind) := by
        rw [← Node.exists_parse_iff]
        cases htree : Node.parse (Piece.place 0 ps) with
        | ok n => exact ⟨n, rfl⟩
        | error e =>
          rw [Document.ofTokens, htree] at h
          cases h
      rw [Document.ofTokens_eq haccepts (Tiles.place hps.text_ne_nil 0)] at h
      refine ⟨ps, b, hps, ?_, (Except.ok.inj h).symm⟩
      rwa [Piece.map_kind_place] at haccepts
  · rintro ⟨ps, b, hps, haccepts, rfl⟩
    have htokens := (tokenize_eq_ok_iff c.legacyIds (normalize text) _).mpr ⟨ps, b, hps, rfl⟩
    rw [← Piece.map_kind_place 0] at haccepts
    rw [parse, htokens]
    exact Document.ofTokens_eq haccepts (Tiles.place hps.text_ne_nil 0)

/-- The tree of a source holds its tokens in order. Every node of it spans its tokens and has the children
that its rule asks for. -/
theorem Node.parse_faithful {legacyIds : Bool} {source : Text} {ts : List Token} {n : Node}
    (hts : tokenize legacyIds source = .ok ts) (hn : Node.parse ts = .ok n) :
    n.rule = .document ∧ n.leaves = ts ∧ ∀ m, n.Contains m → m.Spans ∧ m.Follows := by
  obtain ⟨haccepts, rfl⟩ := Node.parse_eq_ok_iff.mp hn
  obtain ⟨ps, b, hps, rfl⟩ := (tokenize_eq_ok_iff legacyIds source ts).mp hts
  have htiles := Tiles.place hps.text_ne_nil 0
  obtain ⟨hvalid, htokens, hblocks⟩ := Part.ofRows_split haccepts
  obtain ⟨q, hwalk, hq⟩ := haccepts
  have hforest := Part.forest_children hvalid (htokens.symm ▸ hwalk) hq
  rw [htokens] at hforest
  obtain ⟨hleaves, hroot⟩ := hforest.ofChildren (Part.slots_document hvalid hblocks) htiles
  refine ⟨rfl, hleaves, ?_⟩
  intro m hm
  cases hm with
  | self => exact hroot
  | child hl hm =>
    rw [Node.ofTokens, (hforest.tiles htiles).orderedChildren_ofChildren] at hl
    exact hforest.sound htiles hl hm

theorem Node.parse_faithful_mixed :
    let source := "\n= Tí tle \n \t\n[[top]k=\"v w\",x%o.b.c]\n  two\nlines".toList
    ∃ ts n, tokenize true source = .ok ts ∧ Node.parse ts = .ok n ∧ ts.length = 35 ∧
      n.rule = .document ∧ n.leaves = ts ∧ ∀ m, n.Contains m → m.Spans ∧ m.Follows := by
  intro source
  have hrun : (tokenize true source).toOption.any (fun ts =>
      ts.length = 35 && (Node.parse ts).toOption.isSome) = true := by
    decide +kernel
  generalize htokens : tokenize true source = result at hrun ⊢
  cases result with
  | error e => cases hrun
  | ok ts =>
    obtain ⟨hlength, hparses⟩ := (Bool.and_eq_true _ _).mp hrun
    cases hparse : Node.parse ts with
    | error e =>
      rw [hparse] at hparses
      cases hparses
    | ok n => exact ⟨ts, n, rfl, hparse, of_decide_eq_true hlength, Node.parse_faithful htokens hparse⟩

end AsciiDoc
