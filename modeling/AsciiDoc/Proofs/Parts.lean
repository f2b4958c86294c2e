import AsciiDoc.Format
import AsciiDoc.Proofs.Gathering
import Mathlib.Data.List.TakeWhile

namespace AsciiDoc

def Line.ofTokens (ts : List Token) : Line := ⟨Token.texts .inlineText ts, Token.location ts⟩

namespace Row

def tokens (r : Row) : List Token := r.opening :: r.body

def IsLine (ts : List Token) : Prop :=
  ∃ w rest, ts.dropWhile isSpace = w :: rest ∧ w.kind = .inlineText ∧
    ∀ t ∈ rest, t.kind = .inlineText ∨ t.kind = .space

def line (ts : List Token) : Line := .ofTokens (ts.dropWhile isSpace)

theorem extents_lineChildren (ts : List Token) :
    ((lineChildren ts).map Child.extent?).foldl Node.widen none = Token.span? ts := by
  have htext : (Child.node (.ofChildren .text ((ts.dropWhile isSpace).map .token))).extent? =
      Token.span? (ts.dropWhile isSpace) := Node.extents_tokens _
  rw [lineChildren, List.map_append, List.foldl_append, Node.extents_tokens, List.map_singleton,
    List.foldl_cons, List.foldl_nil, htext, ← Node.span?_append, List.takeWhile_append_dropWhile]

theorem toLine_ofTokens {ts : List Token} (h : ts ≠ []) :
    (Node.ofChildren .text (ts.map .token)).toLine = .ok (Line.ofTokens ts) := by
  rw [Node.toLine, Node.location_ofTokens .text h, Node.texts_ofTokens]
  rfl

theorem IsLine.toLine {ts : List Token} (h : IsLine ts) :
    (Node.ofChildren .text ((ts.dropWhile isSpace).map .token)).toLine = .ok (line ts) := by
  obtain ⟨w, rest, hts, -⟩ := h
  apply toLine_ofTokens
  rw [hts]
  exact List.cons_ne_nil _ _

theorem filterMap_node?_lineChildren (ts : List Token) : (lineChildren ts).filterMap Child.node? =
    [.ofChildren .text ((ts.dropWhile isSpace).map .token)] := by
  rw [lineChildren, List.filterMap_append, Node.filterMap_node?]
  rfl

theorem filterMap_token?_lineChildren (ts : List Token) :
    (lineChildren ts).filterMap Child.token? = ts.takeWhile isSpace := by
  rw [lineChildren, List.filterMap_append, Node.filterMap_token?]
  exact List.append_nil _

end Row

namespace Part

def tokens : Part → List Token
  | newline t => [t]
  | emptyLine t => [t]
  | headline opening marker rest => opening :: marker :: rest
  | attributes opening list => opening :: list
  | paragraph rows => rows.flatMap Row.tokens

def Valid : Part → Prop
  | newline t => t.kind = .newline
  | emptyLine t => t.kind = .emptyLine
  | headline opening marker rest =>
    opening.kind = .newline ∧ marker.kind = .headline ∧ Row.IsLine rest
  | attributes opening list =>
    opening.kind = .newline ∧ ∃ t ts, list = t :: ts ∧ t.kind = .listStart ∧ Item.ListTail ts
  | paragraph rows => rows ≠ [] ∧ ∀ r ∈ rows, r.opening.kind = .newline ∧ Row.IsLine r.body

def block? : Part → Option Block
  | newline _ => none
  | emptyLine t => some (.emptyLine (Token.location [t]))
  | headline opening marker rest =>
    some (.headline ⟨Headline.levelOf marker.text.length, Row.line rest,
      Token.location (opening :: marker :: rest)⟩)
  | attributes opening list =>
    some (.attributes ⟨⟨((Item.ofTokens list).foldl Item.gather []).map Gathered.built,
      Token.location list⟩, Token.location (opening :: list)⟩)
  | paragraph rows =>
    some (.paragraph ⟨rows.map fun r => Row.line r.body,
      rows.any fun r => !(r.body.takeWhile Row.isSpace).isEmpty, Token.location (rows.flatMap Row.tokens)⟩)

theorem Valid.tokens_ne_nil {p : Part} (h : p.Valid) : p.tokens ≠ [] := by
  cases p with
  | newline t => exact List.cons_ne_nil _ _
  | emptyLine t => exact List.cons_ne_nil _ _
  | headline opening marker rest => exact List.cons_ne_nil _ _
  | attributes opening list => exact List.cons_ne_nil _ _
  | paragraph rows =>
    obtain ⟨r, rest, rfl⟩ := List.exists_cons_of_ne_nil h.1
    exact List.cons_ne_nil _ _

theorem items_attributes {opening : Token} {list : List Token} (h : (attributes opening list).Valid) :
    (∀ i ∈ Item.ofTokens list, i.Valid) ∧ (Item.ofTokens list).flatMap Item.tokens = list := by
  obtain ⟨-, t, ts, rfl, ht, hts⟩ := h
  rw [Item.ofTokens_punctuation (Or.inl ht)]
  constructor
  · exact List.forall_mem_cons.mpr ⟨Or.inl ht, hts.valid⟩
  · rw [List.flatMap_cons, hts.flatMap_tokens]
    rfl

theorem extents_attributeList {opening : Token} {list : List Token}
    (h : (attributes opening list).Valid) :
    (((Item.ofTokens list).map Item.child).map Child.extent?).foldl Node.widen none = Token.span? list := by
  rw [Node.extents_flatMap Item.child Item.tokens fun i _ => Item.extent_child i, (items_attributes h).2]

theorem extents_paragraph (rows : List Row) :
    ((rows.flatMap fun r => .token r.opening :: Row.lineChildren r.body).map Child.extent?).foldl
      Node.widen none = Token.span? (rows.flatMap Row.tokens) := by
  induction rows with
  | nil => rfl
  | cons r rows ih =>
    have hrow : ((Child.token r.opening :: Row.lineChildren r.body).map Child.extent?).foldl
        Node.widen none = Token.span? r.tokens := by
      rw [List.map_cons, List.foldl_cons, Node.foldl_widen, Row.extents_lineChildren]
      exact (Node.span?_append [r.opening] r.body).symm
    rw [List.flatMap_cons, List.map_append, List.foldl_append, hrow, Node.foldl_widen, ih,
      List.flatMap_cons, Node.span?_append]

theorem extent_child {p : Part} (h : p.Valid) : p.child.extent? = Token.span? p.tokens := by
  cases p with
  | newline t => rfl
  | emptyLine t => rfl
  | headline opening marker rest =>
    change (Row.lineChildren rest |>.map Child.extent?).foldl Node.widen
      (some (opening.extent.union marker.extent)) = _
    rw [Node.foldl_widen, Row.extents_lineChildren]
    exact (Node.span?_append [opening, marker] rest).symm
  | attributes opening list =>
    have hlist := extents_attributeList h
    change Node.widen (some opening.extent) ((((Item.ofTokens list).map Item.child).map
      Child.extent?).foldl Node.widen none) = _
    rw [hlist]
    exact (Node.span?_append [opening] list).symm
  | paragraph rows => exact extents_paragraph rows

theorem location_child {p : Part} (h : p.Valid) {n : Node} (hn : p.child = .node n) :
    n.location = .ok (Token.location p.tokens) := by
  obtain ⟨e, he⟩ := Node.span?_ne_none h.tokens_ne_nil
  have hspan : n.span = some e := by
    rw [← he, ← extent_child h, hn]
    rfl
  rw [Node.location, hspan, Token.location, he]
  rfl

theorem toHeadline_child {opening marker : Token} {rest : List Token}
    (h : (headline opening marker rest).Valid) {n : Node}
    (hn : (headline opening marker rest).child = .node n) :
    n.toHeadline =
      .ok ⟨Headline.levelOf marker.text.length, Row.line rest, Token.location (opening :: marker :: rest)⟩ := by
  have hlocation := location_child h hn
  cases hn
  obtain ⟨ho, hm, hline⟩ := h
  have hmarker : (Node.ofChildren .headline
      (.token opening :: .token marker :: Row.lineChildren rest)).tokens .headline = [marker] := by
    have hspaces : (rest.takeWhile Row.isSpace).filter (fun t => t.kind = .headline) = [] := by
      rw [List.filter_eq_nil_iff]
      intro t ht
      have hspace : t.kind = .space := by simpa [Row.isSpace] using List.mem_takeWhile_imp ht
      simp [hspace]
    rw [Node.tokens, Node.ofChildren]
    change ((opening :: marker :: (Row.lineChildren rest).filterMap Child.token?).filter _) = _
    rw [Row.filterMap_token?_lineChildren, List.filter_cons_of_neg (by simp [ho]),
      List.filter_cons_of_pos (by simp [hm]), hspaces]
  have htext : (Node.ofChildren .headline
      (.token opening :: .token marker :: Row.lineChildren rest)).nodes .text =
        [.ofChildren .text ((rest.dropWhile Row.isSpace).map .token)] := by
    rw [Node.nodes, Node.ofChildren]
    change ((Row.lineChildren rest).filterMap Child.node?).filter _ = _
    rw [Row.filterMap_node?_lineChildren]
    rfl
  rw [Node.toHeadline, hmarker, Node.child, htext]
  simp only [hline.toLine, hlocation, bind, Except.bind, pure, Except.pure]
  rfl

theorem nodes_paragraph (rows : List Row) :
    (Node.ofChildren .paragraph
      (rows.flatMap fun r => .token r.opening :: Row.lineChildren r.body)).nodes .text =
        rows.map fun r => .ofChildren .text ((r.body.dropWhile Row.isSpace).map .token) := by
  have hnodes : (rows.flatMap fun r => .token r.opening :: Row.lineChildren r.body).filterMap
      Child.node? = rows.map fun r => .ofChildren .text ((r.body.dropWhile Row.isSpace).map .token) := by
    induction rows with
    | nil => rfl
    | cons r rows ih =>
      rw [List.flatMap_cons, List.filterMap_append, ih]
      change (Row.lineChildren r.body).filterMap Child.node? ++ _ = _
      rw [Row.filterMap_node?_lineChildren]
      rfl
  rw [Node.nodes, Node.ofChildren, hnodes, List.filter_eq_self]
  intro n hn
  obtain ⟨r, -, rfl⟩ := List.mem_map.mp hn
  rfl

theorem hasToken_paragraph {rows : List Row} (h : ∀ r ∈ rows, r.opening.kind = .newline) :
    (Node.ofChildren .paragraph
      (rows.flatMap fun r => .token r.opening :: Row.lineChildren r.body)).hasToken .space =
        rows.any fun r => !(r.body.takeWhile Row.isSpace).isEmpty := by
  have htokens : (rows.flatMap fun r => .token r.opening :: Row.lineChildren r.body).filterMap
      Child.token? = rows.flatMap fun r => r.opening :: r.body.takeWhile Row.isSpace := by
    induction rows with
    | nil => rfl
    | cons r rows ih =>
      rw [List.flatMap_cons, List.filterMap_append, ih fun q hq => h q (List.mem_cons_of_mem r hq),
        List.flatMap_cons]
      change (r.opening :: (Row.lineChildren r.body).filterMap Child.token?) ++ _ = _
      rw [Row.filterMap_token?_lineChildren]
  rw [Bool.eq_iff_iff, Node.hasToken_iff, Node.ofChildren, htokens, List.any_eq_true]
  constructor
  · rintro ⟨t, ht, hspace⟩
    obtain ⟨r, hr, ht⟩ := List.mem_flatMap.mp ht
    refine ⟨r, hr, ?_⟩
    rcases List.mem_cons.mp ht with rfl | ht
    · rw [h r hr] at hspace
      cases hspace
    · simp [List.ne_nil_of_mem ht]
  · rintro ⟨r, hr, hindent⟩
    obtain ⟨t, ht⟩ : ∃ t, t ∈ r.body.takeWhile Row.isSpace := by
      apply List.exists_mem_of_ne_nil
      simpa using hindent
    refine ⟨t, List.mem_flatMap.mpr ⟨r, hr, List.mem_cons_of_mem _ ht⟩, ?_⟩
    simpa [Row.isSpace] using List.mem_takeWhile_imp ht

theorem toParagraph_child {rows : List Row} (h : (paragraph rows).Valid) {n : Node}
    (hn : (paragraph rows).child = .node n) :
    n.toParagraph = .ok ⟨rows.map fun r => Row.line r.body,
      rows.any fun r => !(r.body.takeWhile Row.isSpace).isEmpty,
      Token.location (rows.flatMap Row.tokens)⟩ := by
  have hlocation := location_child h hn
  cases hn
  obtain ⟨-, hrows⟩ := h
  have hlines : (rows.map fun r => Node.ofChildren .text
      ((r.body.dropWhile Row.isSpace).map .token)).mapM Node.toLine =
        .ok (rows.map fun r => Row.line r.body) := by
    clear hlocation
    induction rows with
    | nil => rfl
    | cons r rows ih =>
      rw [List.map_cons, List.mapM_cons, (hrows r List.mem_cons_self).2.toLine,
        ih fun q hq => hrows q (List.mem_cons_of_mem r hq)]
      rfl
  rw [Node.toParagraph, nodes_paragraph, hlines, hasToken_paragraph fun r hr => (hrows r hr).1, hlocation]
  rfl

theorem items_ne_nil {opening : Token} {list : List Token} (h : (attributes opening list).Valid) :
    Item.ofTokens list ≠ [] := by
  obtain ⟨-, t, ts, rfl, ht, -⟩ := h
  rw [Item.ofTokens_punctuation (Or.inl ht)]
  exact List.cons_ne_nil _ _

theorem toAttributeBlock_of_list {opening : Token} {list : List Token} (h : (attributes opening list).Valid)
    {n : Node} (hn : (attributes opening list).child = .node n) {l : AttributeList}
    (hl : (Node.ofChildren .attributeList ((Item.ofTokens list).map Item.child)).toAttributeList = .ok l) :
    n.toAttributeBlock = .ok ⟨l, Token.location (opening :: list)⟩ := by
  have hlocation := location_child h hn
  cases hn
  have hchild : (Node.ofChildren .attributeBlock [.token opening, .node
      (.ofChildren .attributeList ((Item.ofTokens list).map Item.child))]).child .attributeList =
        .ok (.ofChildren .attributeList ((Item.ofTokens list).map Item.child)) := rfl
  rw [Node.toAttributeBlock]
  simp only [hchild, hl, bind, Except.bind, pure, Except.pure]
  exact congrArg (Except.map _) hlocation

theorem toAttributeBlock_child {opening : Token} {list : List Token} {a b : Nat}
    (h : (attributes opening list).Valid)
    (htiles : Tiles a b ((attributes opening list).tokens.map .token)) {n : Node}
    (hn : (attributes opening list).child = .node n) :
    n.toAttributeBlock = .ok ⟨⟨((Item.ofTokens list).foldl Item.gather []).map Gathered.built,
      Token.location list⟩, Token.location (opening :: list)⟩ := by
  obtain ⟨hvalid, htokens⟩ := items_attributes h
  obtain ⟨m, -, htail⟩ := Tiles.append_iff.mp
    (show Tiles a b ([Child.token opening] ++ list.map .token) from htiles)
  have hlist := Item.toAttributeList_ofChildren hvalid (items_ne_nil h) (htokens.symm ▸ htail)
  rw [htokens] at hlist
  exact toAttributeBlock_of_list h hn hlist

theorem toBlock_child {p : Part} {a b : Nat} (h : p.Valid) (htiles : Tiles a b (p.tokens.map .token)) :
    (p.child.node? = none ∧ p.block? = none) ∨
      ∃ n block, p.child = .node n ∧ p.block? = some block ∧ n.toBlock = .ok block := by
  cases p with
  | newline t => exact Or.inl ⟨rfl, rfl⟩
  | emptyLine t => exact Or.inr ⟨_, _, rfl, rfl, rfl⟩
  | headline opening marker rest =>
    refine Or.inr ⟨_, _, rfl, rfl, ?_⟩
    exact congrArg (Except.map Block.headline) (toHeadline_child h rfl)
  | attributes opening list =>
    refine Or.inr ⟨_, _, rfl, rfl, ?_⟩
    exact congrArg (Except.map Block.attributes) (toAttributeBlock_child h htiles rfl)
  | paragraph rows =>
    refine Or.inr ⟨_, _, rfl, rfl, ?_⟩
    exact congrArg (Except.map Block.paragraph) (toParagraph_child h rfl)

end Part

end AsciiDoc
