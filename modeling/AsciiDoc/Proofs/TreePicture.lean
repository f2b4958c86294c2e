import AsciiDoc.Document.Picture
import AsciiDoc.Proofs.DocumentNodes
import AsciiDoc.Proofs.ParsedDocuments
import AsciiDoc.Proofs.Printing

namespace AsciiDoc

namespace DocumentNode

def icon : DocumentNode → Char
  | root _ => '⧉'
  | headline _ => '§'
  | paragraph _ => '¶'
  | text _ => '↵'
  | emptyLine _ => '␤'
  | attributeBlock _ => '▣'
  | attributeList _ => '☰'
  | attributeItem _ => '•'
  | attributeValue _ => '◦'

def caption (n : DocumentNode) : Text :=
  if n.label = [] then [n.icon]
  else n.icon :: ' ' :: if 30 < n.label.length then n.label.take 30 ++ ['.', '.', '.'] else n.label

end DocumentNode

namespace Picture

def margin (lasts : List Bool) : Text :=
  lasts.flatMap fun last => if last then [' ', ' ', ' '] else ['│', ' ', ' ']

def front (lasts : List Bool) : Text :=
  match lasts.getLast? with
  | none => []
  | some last => margin lasts.dropLast ++ (if last then ['└', '─'] else ['├', '─']) ++ [' ']

def isMargin (c : Char) : Bool := c = ' ' || c = '│'

def depthOf (l : Text) : Nat :=
  if (l.dropWhile isMargin).head? = some '└' ∨ (l.dropWhile isMargin).head? = some '├' then
    Text.run isMargin l / 3 + 1
  else 0

def depths (picture : Text) : List Nat := (picture.splitOn '\n').dropLast.map depthOf

end Picture

def PlacedNode.line (n : PlacedNode) : Text := Picture.front n.lasts ++ n.node.caption

namespace Picture

section Lines

theorem margin_concat (lasts : List Bool) (last : Bool) :
    margin (lasts ++ [last]) = margin lasts ++ column last := by
  rw [margin, List.flatMap_append, List.flatMap_singleton]
  rfl

theorem front_concat (lasts : List Bool) (last : Bool) :
    front (lasts ++ [last]) = margin lasts ++ connector last ++ [' '] := by
  rw [front, List.getLast?_concat, List.dropLast_concat]
  rfl

def lineOf (x : List Bool × Outline) : Text := front x.1 ++ caption x.2.element x.2.label

mutual

theorem node_eq_lines : (o : Outline) → (lasts : List Bool) → (last : Bool) →
    node (margin lasts) last o = (o.placed (lasts ++ [last])).flatMap fun x => lineOf x ++ ['\n']
  | ⟨element, label, location, parts⟩, lasts, last => by
    have hparts := nodes_eq_lines parts (lasts ++ [last])
    rw [margin_concat] at hparts
    rw [node, hparts, Outline.placed, List.flatMap_cons, lineOf, front_concat]
    simp only [List.append_assoc, List.cons_append, List.nil_append]

theorem nodes_eq_lines : (os : List Outline) → (lasts : List Bool) →
    nodes (margin lasts) os = (Outline.placedAll lasts os).flatMap fun x => lineOf x ++ ['\n']
  | [], _ => rfl
  | o :: os, lasts => by
    rw [nodes, Outline.placedAll, List.flatMap_append, node_eq_lines o, nodes_eq_lines os]

end

theorem picture_eq_lines (o : Outline) : o.picture = (o.placed []).flatMap fun x => lineOf x ++ ['\n'] := by
  have hparts := nodes_eq_lines o.parts []
  have hfront : front [] = [] := rfl
  rw [Outline.picture, Outline.placed_eq, List.flatMap_cons, ← hparts, lineOf, hfront, List.append_assoc]
  rfl

theorem caption_eq (n : DocumentNode) : caption n.element n.label = n.caption := by
  have hicon : n.element.icon = n.icon := by cases n <;> rfl
  unfold caption DocumentNode.caption
  rw [hicon]
  by_cases hlabel : n.label = []
  · rw [if_pos hlabel, hlabel]
    rfl
  · rw [if_neg hlabel]
    split
    · rename_i hclip
      -- Nothing is cut off a label down to nothing.
      rw [Text.clip] at hclip
      split at hclip
      · simp at hclip
      · exact absurd hclip hlabel
    · rfl

end Lines

section Depths

theorem margin_chars (lasts : List Bool) : ∀ c ∈ margin lasts, isMargin c = true := by
  intro c hc
  obtain ⟨last, -, hc⟩ := List.mem_flatMap.mp hc
  split at hc
  · exact (by decide : ∀ c ∈ [' ', ' ', ' '], isMargin c = true) c hc
  · exact (by decide : ∀ c ∈ ['│', ' ', ' '], isMargin c = true) c hc

theorem length_margin (lasts : List Bool) : (margin lasts).length = 3 * lasts.length := by
  induction lasts with
  | nil => rfl
  | cons last lasts ih =>
    have hcolumn : (if last then [' ', ' ', ' '] else ['│', ' ', ' '] : Text).length = 3 := by cases last <;> rfl
    rw [margin, List.flatMap_cons, List.length_append, hcolumn, ← margin, ih, List.length_cons]
    omega

theorem exists_connector_cons (last : Bool) : ∃ c s, connector last = c :: s ∧ isMargin c = false ∧
    (c = '└' ∨ c = '├') := by
  cases last <;> exact ⟨_, _, rfl, by decide, by decide⟩

theorem exists_caption_cons (n : DocumentNode) : ∃ s, n.caption = n.icon :: s := by
  unfold DocumentNode.caption
  split <;> exact ⟨_, rfl⟩

theorem depthOf_line (n : PlacedNode) : depthOf n.line = n.depth := by
  obtain ⟨lasts, n⟩ := n
  obtain ⟨s, hs⟩ := exists_caption_cons n
  rcases List.eq_nil_or_concat' lasts with rfl | ⟨lasts, last, rfl⟩
  · have hicon : isMargin n.icon = false ∧ n.icon ≠ '└' ∧ n.icon ≠ '├' := by
      cases n <;> simp [DocumentNode.icon, isMargin]
    have hline : PlacedNode.line ⟨[], n⟩ = n.icon :: s := hs
    rw [hline, depthOf, List.dropWhile_cons_of_neg (by simp [hicon.1]), if_neg (by simp [hicon.2])]
    rfl
  · obtain ⟨c, t, ht, hc, hconnector⟩ := exists_connector_cons last
    have hline : PlacedNode.line ⟨lasts ++ [last], n⟩ = margin lasts ++ c :: (t ++ ' ' :: n.caption) := by
      rw [PlacedNode.line, front_concat, ht]
      simp
    rw [hline, depthOf, Text.run, List.dropWhile_append_of_pos (margin_chars lasts),
      List.takeWhile_append_of_pos (margin_chars lasts), List.dropWhile_cons_of_neg (by simp [hc]),
      List.takeWhile_cons_of_neg (by simp [hc]), if_pos (by simpa using hconnector), List.append_nil,
      length_margin, Nat.mul_div_cancel_left _ (by decide), PlacedNode.depth, List.length_append]
    rfl

end Depths

section Unbroken

theorem newline_notMem_line {n : PlacedNode} (h : '\n' ∉ n.node.label) : '\n' ∉ n.line := by
  have hmargin (lasts : List Bool) : '\n' ∉ margin lasts := by
    intro hnewline
    exact absurd (margin_chars lasts _ hnewline) (by decide)
  have hfront : '\n' ∉ front n.lasts := by
    rcases List.eq_nil_or_concat' n.lasts with hnil | ⟨lasts, last, hlasts⟩
    · rw [hnil]
      exact List.not_mem_nil
    · have hconnector : '\n' ∉ connector last := by cases last <;> decide
      rw [hlasts, front_concat]
      simp [hmargin, hconnector]
  have hicon : '\n' ≠ n.node.icon := by cases n.node <;> simp [DocumentNode.icon]
  have hcaption : '\n' ∉ n.node.caption := by
    unfold DocumentNode.caption
    split
    · simpa using hicon
    · have hshown : '\n' ∉ n.node.label.take 30 := fun hnewline => h (List.mem_of_mem_take hnewline)
      split <;> simp [hicon, hshown, h]
  exact List.not_mem_append hfront hcaption

theorem splitOn_lines {ls : List Text} (h : ∀ l ∈ ls, '\n' ∉ l) :
    (ls.flatMap fun l => l ++ ['\n']).splitOn '\n' = ls ++ [[]] := by
  induction ls with
  | nil => rfl
  | cons l ls ih =>
    obtain ⟨hl, hls⟩ := List.forall_mem_cons.mp h
    rw [List.flatMap_cons, List.append_assoc, List.singleton_append, List.splitOn_eq_splitOnP,
      List.splitOnP_append_cons _ _ (by decide), ← List.splitOn_eq_splitOnP, ← List.splitOn_eq_splitOnP,
      List.splitOn_eq_singleton hl, ih hls]
    rfl

end Unbroken

end Picture

namespace Text

theorem newline_notMem_toDigits {b : Nat} (hb : 1 < b) (n : Nat) : '\n' ∉ Nat.toDigits b n := by
  have hdigit (v : Nat) : '\n' ≠ v.digitChar := (Nat.digitChar_ne '\n' (by decide)).symm
  induction n using Nat.strongRecOn with
  | ind n ih =>
    by_cases hn : n < b
    · rw [Nat.toDigits_of_lt_base hn, List.mem_singleton]
      exact hdigit n
    · have hrest := ih (n / b) (Nat.div_lt_self (by omega) hb)
      rw [Nat.toDigits_of_base_le hb (by omega)]
      simp [hrest, hdigit]

theorem newline_notMem_decimal (n : Nat) : '\n' ∉ decimal n := newline_notMem_toDigits (by decide) n

theorem newline_notMem_escape (c : Char) : '\n' ∉ escape c := by
  unfold escape
  split_ifs with hquote hback hnewline hreturn htab hzero hunprintable
  · decide
  · decide
  · decide
  · decide
  · decide
  · decide
  · simp [codePointEscape, newline_notMem_toDigits]
  · simpa using Ne.symm hnewline

theorem newline_notMem_quotedList (texts : List Text) : '\n' ∉ quotedList texts := by
  have hitems : '\n' ∉ [',', ' '].intercalate (texts.map quoted) := by
    apply notMem_intercalate (by decide)
    intro s hs
    obtain ⟨u, -, rfl⟩ := List.mem_map.mp hs
    simp [quoted, newline_notMem_escape]
  simp [quotedList, hitems]

theorem newline_notMem_clip (n : Nat) {mark s : Text} (hmark : '\n' ∉ mark) (hs : '\n' ∉ s) :
    '\n' ∉ clip n mark s := by
  unfold clip
  split
  · rw [List.mem_append, not_or]
    exact ⟨fun h => hs (List.mem_of_mem_take h), hmark⟩
  · exact hs

end Text

namespace Line

def Unbroken (l : Line) : Prop := ∀ w ∈ l.words, '\n' ∉ w

instance (l : Line) : Decidable l.Unbroken := inferInstanceAs (Decidable (∀ w ∈ l.words, '\n' ∉ w))

theorem Unbroken.joined {l : Line} (h : l.Unbroken) : '\n' ∉ l.joined :=
  Text.notMem_intercalate (by decide) h

theorem Unbroken.label {l : Line} (h : l.Unbroken) : '\n' ∉ l.label :=
  Text.newline_notMem_clip _ (by decide) h.joined

theorem WellFormed.unbroken {l : Line} (h : l.WellFormed) : l.Unbroken := by
  intro w hw hnewline
  have hblank := (h.2 w hw).2.1 '\n' hnewline
  rw [Text.isBlank_newline] at hblank
  cases hblank

end Line

namespace DocumentNode

variable {h : Headline} {p : Paragraph} {a : Attribute} {l : AttributeList}

theorem newline_notMem_headline (ht : h.title.Unbroken) : '\n' ∉ h.label := by
  have hmarker : '\n' ∉ h.marker := by simp [Headline.marker]
  simp [Headline.label, hmarker, ht.label]

theorem newline_notMem_paragraph (hlines : ∀ l ∈ p.lines, l.Unbroken) : '\n' ∉ p.label := by
  have hfirst : '\n' ∉ (p.lines.head?.map Line.joined).getD [] := by
    cases hhead : p.lines.head? with
    | none => simp
    | some l => exact (hlines l (List.mem_of_mem_head? hhead)).joined
  have hclip : '\n' ∉ Text.clip Paragraph.labelLength ['…'] ((p.lines.head?.map Line.joined).getD []) :=
    Text.newline_notMem_clip _ (by decide) hfirst
  have hkind : '\n' ∉ if p.isLiteral then "literal, ".toList else [] := by split <;> decide
  have hcount := Text.newline_notMem_decimal p.lines.length
  exact List.not_mem_append (List.not_mem_append (List.not_mem_append (List.not_mem_append hclip (by decide)) hkind)
    hcount) (by decide)

theorem newline_notMem_attribute (hkey : ∀ k ∈ a.key, '\n' ∉ k) : '\n' ∉ a.label := by
  have hvalue : '\n' ∉ a.value.label := Text.newline_notMem_quotedList a.value.values
  unfold Attribute.label
  split
  · rename_i key hsome
    simp [hkey key hsome, hvalue]
  · exact hvalue

theorem newline_notMem_attributeList (h : ∀ a ∈ l.attributes, ∀ k ∈ a.key, '\n' ∉ k) : '\n' ∉ l.label := by
  have hkeys : '\n' ∉ [',', ' '].intercalate (l.attributes.map fun a => a.key.getD ['_']) := by
    apply Text.notMem_intercalate (by decide)
    intro s hs
    obtain ⟨a, ha, rfl⟩ := List.mem_map.mp hs
    cases hkey : a.key with
    | none => decide
    | some key => exact h a ha key hkey
  simp [AttributeList.label, hkeys]

end DocumentNode

namespace Block

def Unbroken : Block → Prop
  | headline h => h.title.Unbroken
  | paragraph p => ∀ l ∈ p.lines, l.Unbroken
  | emptyLine _ => True
  | attributes b => ∀ a ∈ b.list.attributes, ∀ k ∈ a.key, '\n' ∉ k

instance (b : Block) : Decidable b.Unbroken :=
  match b with
  | .headline h => inferInstanceAs (Decidable h.title.Unbroken)
  | .paragraph p => inferInstanceAs (Decidable (∀ l ∈ p.lines, l.Unbroken))
  | .emptyLine _ => inferInstanceAs (Decidable True)
  | .attributes b => inferInstanceAs (Decidable (∀ a ∈ b.list.attributes, ∀ k ∈ a.key, '\n' ∉ k))

open DocumentNode in
theorem Unbroken.label {b : Block} (h : b.Unbroken) {last : Bool} :
    ∀ n ∈ b.placedNodes last, '\n' ∉ n.node.label := by
  cases b with
  | headline x =>
    simp only [placedNodes, List.forall_mem_cons]
    exact ⟨newline_notMem_headline h, Line.Unbroken.label h, by simp⟩
  | paragraph p =>
    simp only [placedNodes, List.forall_mem_cons, List.forall_mem_map]
    exact ⟨newline_notMem_paragraph h, fun x hx => Line.Unbroken.label (h x.1 (mem_of_mem_markLast hx))⟩
  | emptyLine l =>
    simp only [placedNodes, List.forall_mem_cons]
    exact ⟨List.not_mem_nil, by simp⟩
  | attributes x =>
    simp only [placedNodes, List.forall_mem_cons, List.forall_mem_flatMap]
    refine ⟨List.not_mem_append (Text.newline_notMem_decimal _) (by decide), newline_notMem_attributeList h,
      fun y hy => ⟨newline_notMem_attribute (h y.1 (mem_of_mem_markLast hy)), ?_, by simp⟩⟩
    exact Text.newline_notMem_quotedList y.1.value.values

theorem Lexical.unbroken {b : Block} (h : b.Lexical) : b.Unbroken := by
  cases b with
  | headline x => exact Line.WellFormed.unbroken h
  | paragraph p => exact fun l hl => Line.WellFormed.unbroken (h.2.1 l hl)
  | emptyLine l => trivial
  | attributes x =>
    intro a ha k hk hnewline
    have hlexical : a.Lexical := h a ha
    have hblank := ((hlexical.1 k hk).2 '\n' hnewline).1
    rw [Text.isBlank_newline] at hblank
    cases hblank

end Block

namespace Document

def Unbroken (d : Document) : Prop := ∀ b ∈ d.blocks, b.Unbroken

instance (d : Document) : Decidable d.Unbroken := inferInstanceAs (Decidable (∀ b ∈ d.blocks, b.Unbroken))

theorem Unbroken.label {d : Document} (h : d.Unbroken) : ∀ n ∈ d.placedNodes, '\n' ∉ n.node.label := by
  have hcount := Text.newline_notMem_decimal d.blocks.length
  have hlabel : '\n' ∉ d.label := List.not_mem_append (List.not_mem_append (by decide) hcount) (by decide)
  rw [placedNodes, List.forall_mem_cons, List.forall_mem_flatMap]
  exact ⟨hlabel, fun x hx => Block.Unbroken.label (h x.1 (mem_of_mem_markLast hx))⟩

theorem unbroken_of_parse {c : Config} {text : Text} {d : Document} (h : parse c text = .ok d) : d.Unbroken :=
  fun b hb => ((lexical_of_parse h).1 b hb).unbroken

theorem picture_outline (d : Document) :
    d.outline.picture = (d.placedNodes.map PlacedNode.line).flatMap fun l => l ++ ['\n'] := by
  rw [Picture.picture_eq_lines, placed_outline, List.flatMap_map, List.flatMap_map]
  apply List.flatMap_congr
  intro n _
  rw [Picture.lineOf, PlacedNode.outline, DocumentNode.element_outline, DocumentNode.label_outline,
    Picture.caption_eq]
  rfl

theorem splitOn_picture {d : Document} (h : d.Unbroken) :
    d.outline.picture.splitOn '\n' = d.placedNodes.map PlacedNode.line ++ [[]] := by
  rw [picture_outline, Picture.splitOn_lines]
  intro l hl
  obtain ⟨n, hn, rfl⟩ := List.mem_map.mp hl
  exact Picture.newline_notMem_line (h.label n hn)

theorem depths_picture {d : Document} (h : d.Unbroken) :
    Picture.depths d.outline.picture = d.placedNodes.map PlacedNode.depth := by
  rw [Picture.depths, splitOn_picture h, List.dropLast_concat, List.map_map]
  exact List.map_congr_left fun n _ => Picture.depthOf_line n

/-- The picture of a document without newlines in words and keys, so of any document that is read, has one
line for each node of the document, in preorder, and ends with the last of them. The lines are those stated
from the nodes, and the depths of the nodes are read off the picture, so documents with the same picture
have the same shape. -/
theorem picture_faithful :
    (∀ c text d, parse c text = .ok d → d.Unbroken) ∧
    ∀ d : Document, d.Unbroken →
      d.outline.preorder 0 =
        d.placedNodes.map (fun n => ⟨n.depth, n.node.element, n.node.label, n.node.location⟩) ∧
      d.outline.picture.splitOn '\n' = d.placedNodes.map PlacedNode.line ++ [[]] ∧
      Picture.depths d.outline.picture = d.placedNodes.map PlacedNode.depth ∧
      ∀ d' : Document, d'.Unbroken → d'.outline.picture = d.outline.picture →
        d'.placedNodes.map PlacedNode.depth = d.placedNodes.map PlacedNode.depth := by
  refine ⟨fun c text d h => unbroken_of_parse h, fun d h => ⟨?_, splitOn_picture h, depths_picture h, ?_⟩⟩
  · exact d.preorder_outline
  · intro d' h' hpicture
    rw [← depths_picture h', hpicture, depths_picture h]

theorem picture_faithful_connectors :
    let d : Document := ⟨
      [.headline ⟨0, ⟨["└─".toList, "│".toList], ⟨2, 9⟩⟩, ⟨0, 9⟩⟩,
        .paragraph ⟨[⟨["one".toList, "├─".toList], .unresolved⟩, ⟨["two".toList], .unresolved⟩], true, .unresolved⟩,
        .emptyLine ⟨9, 10⟩,
        .attributes ⟨⟨
          [⟨none, ⟨["a\nb".toList], .unresolved⟩, .unresolved⟩,
            ⟨some "k".toList, ⟨[List.replicate 40 'x'], .unresolved⟩, .unresolved⟩], .unresolved⟩, .unresolved⟩],
      .unresolved⟩
    d.Unbroken ∧ Picture.depths d.outline.picture = [0, 1, 2, 1, 2, 2, 1, 1, 2, 3, 4, 3, 4] ∧
      d.outline.picture.splitOn '\n' = d.placedNodes.map PlacedNode.line ++ [[]] ∧
      d.placedNodes.map PlacedNode.line = [
        "⧉ Document (4 blocks)", "├─ § = └─ │", "│  └─ ↵ └─ │", "├─ ¶ one ├─ (literal, 2 lines)",
        "│  ├─ ↵ one ├─", "│  └─ ↵ two", "├─ ␤", "└─ ▣ 2 attributes", "   └─ ☰ [_, k]",
        "      ├─ • [\"a\\nb\"]", "      │  └─ ◦ [\"a\\nb\"]",
        "      └─ • k=[\"xxxxxxxxxxxxxxxxxxxxxxxxxx...", "         └─ ◦ [\"xxxxxxxxxxxxxxxxxxxxxxxxxxxx..."
        ].map String.toList := by
  intro d
  have hd : d.Unbroken := by decide
  obtain ⟨-, hlines, hdepths, -⟩ := picture_faithful.2 d hd
  refine ⟨hd, ?_, hlines, by decide +kernel⟩
  rw [hdepths]
  decide +kernel

end Document

end AsciiDoc
