import AsciiDoc.Proofs.SyntaxTrees
import Mathlib.Data.List.Perm.Basic

namespace AsciiDoc

theorem Child.eq_node {c : Child Node} {n : Node} (h : c.node? = some n) : c = .node n := by
  cases c with
  | token t => cases h
  | node m =>
    cases h
    rfl

namespace Node

theorem exists_orderedNodes {α : Type} (child : α → Child Node) (r : Rule) (xs : List α) :
    ∃ ys : List α, ys.Perm xs ∧
      (ofChildren r (xs.map child)).orderedNodes = (ys.map child).filterMap Child.node? := by
  have hperm : (ofChildren r (xs.map child)).orderedChildren.Perm (xs.map child) := orderedChildren_perm _
  obtain ⟨ys, hordered, hys⟩ := (congrFun₂ (List.eq_map_comp_perm child) _ xs).mpr hperm
  refine ⟨ys, hys, ?_⟩
  rw [orderedNodes, hordered]

theorem exists_mapM_toBlock {ns : List Node} (h : ∀ n ∈ ns, ∃ b, n.toBlock = .ok b) :
    ∃ bs, ns.mapM toBlock = .ok bs := by
  induction ns with
  | nil => exact ⟨[], rfl⟩
  | cons n ns ih =>
    obtain ⟨hfirst, hrest⟩ := List.forall_mem_cons.mp h
    obtain ⟨b, hb⟩ := hfirst
    obtain ⟨bs, hbs⟩ := ih hrest
    refine ⟨b :: bs, ?_⟩
    rw [List.mapM_cons, hb, hbs]
    rfl

end Node

theorem Item.exists_toAttributeList {items : List Item} (h : ∀ i ∈ items, i.Valid) (hne : items ≠ []) :
    ∃ l, (Node.ofChildren .attributeList (items.map child)).toAttributeList = .ok l := by
  obtain ⟨ordered, hperm, hnodes⟩ := Node.exists_orderedNodes child .attributeList items
  have hvalid : ∀ i ∈ ordered, i.Valid := by
    intro i hi
    exact h i (hperm.subset hi)
  rw [Node.toAttributeList_eq, hnodes, foldlM_addItem _ hvalid, location_attributeList h hne]
  exact ⟨_, rfl⟩

namespace Part

theorem exists_toBlock {p : Part} (h : p.Valid) {n : Node} (hn : p.child = .node n) :
    ∃ b, n.toBlock = .ok b := by
  cases p with
  | newline t => cases hn
  | emptyLine t =>
    cases hn
    exact ⟨_, rfl⟩
  | headline opening marker rest =>
    have hheadline := toHeadline_child h hn
    cases hn
    exact ⟨_, congrArg (Except.map Block.headline) hheadline⟩
  | attributes opening list =>
    obtain ⟨l, hl⟩ := Item.exists_toAttributeList (items_attributes h).1 (items_ne_nil h)
    have hblock := toAttributeBlock_of_list h hn hl
    cases hn
    exact ⟨_, congrArg (Except.map Block.attributes) hblock⟩
  | paragraph rows =>
    have hparagraph := toParagraph_child h hn
    cases hn
    exact ⟨_, congrArg (Except.map Block.paragraph) hparagraph⟩

end Part

namespace Node

theorem exists_toDocument {ts : List Token} (h : Place.Accepts (ts.map Token.kind)) :
    ∃ d, (ofTokens ts).toDocument = .ok d := by
  obtain ⟨hvalid, -, -⟩ := Part.ofRows_split h
  obtain ⟨ordered, hperm, hnodes⟩ := exists_orderedNodes Part.child .document (Part.ofRows (Row.split ts).2)
  have hblocks : ∀ n ∈ (ordered.map Part.child).filterMap Child.node?, ∃ b, n.toBlock = .ok b := by
    intro n hn
    obtain ⟨child, hchild, hnode⟩ := List.mem_filterMap.mp hn
    obtain ⟨p, hp, rfl⟩ := List.mem_map.mp hchild
    exact Part.exists_toBlock (hvalid p (hperm.subset hp)) (Child.eq_node hnode)
  obtain ⟨bs, hbs⟩ := exists_mapM_toBlock hblocks
  have hordered : (ofTokens ts).orderedNodes.mapM toBlock = .ok bs := by
    rw [ofTokens, hnodes, hbs]
  have hrule : (ofTokens ts).rule = .document := rfl
  rw [toDocument, if_pos hrule, hordered]
  exact ⟨_, rfl⟩

end Node

theorem Document.ofTokens_eq_error {ts : List Token} {e : Error} (h : Document.ofTokens ts = .error e) :
    ∃ s, Node.parse ts = .error s ∧ e = .syntactic s := by
  cases htree : Node.parse ts with
  | error s =>
    rw [Document.ofTokens, htree] at h
    cases h
    exact ⟨s, rfl, rfl⟩
  | ok n =>
    obtain ⟨haccepts, rfl⟩ := Node.parse_eq_ok_iff.mp htree
    obtain ⟨d, hd⟩ := Node.exists_toDocument haccepts
    rw [Document.ofTokens, htree] at h
    change (Node.ofTokens ts).toDocument.mapError Error.structural = _ at h
    rw [hd] at h
    cases h

theorem exists_of_parse_eq_error {c : Config} {text : Text} {e : Error} (h : parse c text = .error e) :
    (∃ l, tokenize c.legacyIds (normalize text) = .error l ∧ e = .lexical l) ∨
      ∃ ts s, tokenize c.legacyIds (normalize text) = .ok ts ∧ Node.parse ts = .error s ∧ e = .syntactic s := by
  cases htokens : tokenize c.legacyIds (normalize text) with
  | error l =>
    rw [parse, htokens] at h
    cases h
    exact Or.inl ⟨l, rfl, rfl⟩
  | ok ts =>
    rw [parse, htokens] at h
    obtain ⟨s, hs, he⟩ := Document.ofTokens_eq_error h
    exact Or.inr ⟨ts, s, rfl, hs, he⟩

theorem parse_of_format_eq_error {c : Config} {text : Text} {e : Error} (h : format c text = .error e) :
    parse c text = .error e := by
  cases hparse : parse c text with
  | ok d =>
    rw [format, hparse] at h
    cases h
  | error f =>
    rw [format, hparse] at h
    cases h
    rfl

/-- A tree that is parsed makes a document, whatever the extents of its tokens. So there is no text that
fails for any other reason than a lexical error or a syntax error. -/
theorem parsed_tree_is_document :
    (∀ ts n, Node.parse ts = .ok n → ∃ d, n.toDocument = .ok d) ∧
      ∀ (c : Config) (text : Text) (e : TreeError),
        parse c text ≠ .error (.structural e) ∧ format c text ≠ .error (.structural e) := by
  constructor
  · intro ts n h
    obtain ⟨haccepts, rfl⟩ := Node.parse_eq_ok_iff.mp h
    exact Node.exists_toDocument haccepts
  · intro c text e
    have hparse : parse c text ≠ .error (.structural e) := by
      intro h
      rcases exists_of_parse_eq_error h with ⟨l, -, he⟩ | ⟨ts, s, -, -, he⟩ <;> cases he
    exact ⟨hparse, fun h => hparse (parse_of_format_eq_error h)⟩

theorem parsed_tree_is_document_backwards :
    let pieces : List Piece := [⟨.newline, []⟩, ⟨.listStart, []⟩, ⟨.idMark, []⟩, ⟨.listText, ['a']⟩,
      ⟨.listText, ['b']⟩, ⟨.assignment, []⟩, ⟨.stringStart, []⟩, ⟨.stringEnd, []⟩, ⟨.legacyIdStart, []⟩,
      ⟨.listText, ['c']⟩, ⟨.legacyIdEnd, []⟩, ⟨.listEnd, []⟩, ⟨.emptyLine, []⟩, ⟨.newline, []⟩,
      ⟨.headline, []⟩, ⟨.inlineText, ['d']⟩, ⟨.newline, []⟩]
    let ts := pieces.zipIdx.map fun p => (⟨p.1.kind, p.1.text, ⟨20 - p.2, 0⟩⟩ : Token)
    ∃ n, Node.parse ts = .ok n ∧ ∃ d, n.toDocument = .ok d ∧
      d.blocks.map Block.isEmptyLine = [false, true, false] ∧
      (d.attributeBlocks.flatMap fun b => b.list.attributes.map fun a => a.value.values) =
        [[['c'], ['a']], []] := by
  intro pieces ts
  have hparse : Node.parse ts = .ok (Node.ofTokens ts) := Node.parse_of_accepts ⟨_, rfl, rfl⟩
  obtain ⟨d, hd⟩ := parsed_tree_is_document.1 ts _ hparse
  have hdocument : (Node.ofTokens ts).toDocument.toOption.any (fun d =>
      d.blocks.map Block.isEmptyLine = [false, true, false] ∧
        (d.attributeBlocks.flatMap fun b => b.list.attributes.map fun a => a.value.values) =
          [[['c'], ['a']], []]) = true := by
    decide +kernel
  rw [hd] at hdocument
  exact ⟨_, hparse, d, hd, of_decide_eq_true hdocument⟩

end AsciiDoc
