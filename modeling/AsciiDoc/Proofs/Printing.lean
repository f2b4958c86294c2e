import AsciiDoc.Document.Printer
import AsciiDoc.Proofs.Items
import AsciiDoc.Proofs.Reading

namespace AsciiDoc

theorem Text.intercalate_cons (sep s : Text) (ss : List Text) :
    sep.intercalate (s :: ss) = s ++ ss.flatMap fun t => sep ++ t := by
  induction ss generalizing s with
  | nil => rw [List.intercalate_singleton, List.flatMap_nil, List.append_nil]
  | cons t ss ih => rw [List.intercalate_cons_cons, ih, List.flatMap_cons, List.append_assoc, List.append_assoc]

theorem Text.mem_intercalate {sep : Text} {ss : List Text} {c : Char} (h : c ∈ sep.intercalate ss) :
    c ∈ sep ∨ ∃ s ∈ ss, c ∈ s := by
  cases ss with
  | nil => cases h
  | cons s ss =>
    rw [intercalate_cons, List.mem_append, List.mem_flatMap] at h
    rcases h with h | ⟨t, ht, h⟩
    · exact Or.inr ⟨s, List.mem_cons_self, h⟩
    · rcases List.mem_append.mp h with h | h
      · exact Or.inl h
      · exact Or.inr ⟨t, List.mem_cons_of_mem s ht, h⟩

theorem Text.notMem_intercalate {sep : Text} {ss : List Text} {c : Char} (hsep : c ∉ sep) (h : ∀ s ∈ ss, c ∉ s) :
    c ∉ sep.intercalate ss := by
  intro hc
  rcases mem_intercalate hc with hc | ⟨s, hs, hc⟩
  · exact hsep hc
  · exact h s hs hc

namespace Piece

def newline : Piece := ⟨.newline, ['\n']⟩

def space : Piece := ⟨.space, [' ']⟩

def comma : Piece := ⟨.comma, [',']⟩

def separate (sep : Piece) : List (List Piece) → List Piece
  | [] => []
  | ps :: pss => ps ++ pss.flatMap fun qs => sep :: qs

def phrase (k : Kind) (ss : List Text) : List Piece := separate space (ss.map fun s => [⟨k, s⟩])

def short (m : Mark) (s : Text) : List Piece := [⟨m.kind, [m.symbol]⟩, ⟨.listText, s⟩]

def isListWord (p : Piece) : Bool := decide (p.kind = .stringText ∨ p.kind = .listText)

theorem mem_separate {sep p : Piece} {pss : List (List Piece)} (h : p ∈ separate sep pss) :
    p = sep ∨ ∃ ps ∈ pss, p ∈ ps := by
  cases pss with
  | nil => cases h
  | cons ps pss =>
    rcases List.mem_append.mp h with h | h
    · exact Or.inr ⟨ps, List.mem_cons_self, h⟩
    · obtain ⟨qs, hqs, h⟩ := List.mem_flatMap.mp h
      rcases List.mem_cons.mp h with h | h
      · exact Or.inl h
      · exact Or.inr ⟨qs, List.mem_cons_of_mem ps hqs, h⟩

theorem mem_phrase {k : Kind} {ss : List Text} {p : Piece} (h : p ∈ phrase k ss) :
    p = space ∨ ∃ s ∈ ss, p = ⟨k, s⟩ := by
  rcases mem_separate h with h | ⟨_, hps, hp⟩
  · exact Or.inl h
  · obtain ⟨s, hs, rfl⟩ := List.mem_map.mp hps
    exact Or.inr ⟨s, hs, List.mem_singleton.mp hp⟩

theorem mem_phrase_of_mem {k : Kind} {ss : List Text} {s : Text} (h : s ∈ ss) : ⟨k, s⟩ ∈ phrase k ss := by
  cases ss with
  | nil => cases h
  | cons t ss =>
    rcases List.mem_cons.mp h with rfl | h
    · exact List.mem_cons_self
    · refine List.mem_append_right _ (List.mem_flatMap.mpr ⟨[⟨k, s⟩], List.mem_map_of_mem h, ?_⟩)
      exact List.mem_cons_of_mem _ List.mem_cons_self

theorem source_flatMap {α : Type} (f : α → List Piece) (xs : List α) :
    source (xs.flatMap f) = xs.flatMap fun x => source (f x) := by
  induction xs with
  | nil => rfl
  | cons x xs ih => rw [List.flatMap_cons, source_append, ih, List.flatMap_cons]

theorem source_separate (sep : Piece) (pss : List (List Piece)) :
    source (separate sep pss) = sep.text.intercalate (pss.map source) := by
  cases pss with
  | nil => rfl
  | cons ps pss =>
    rw [separate, source_append, source_flatMap, List.map_cons, Text.intercalate_cons, List.flatMap_map]
    rfl

theorem source_phrase (k : Kind) (ss : List Text) : source (phrase k ss) = Text.unwords ss := by
  have htexts : (ss.map fun s => [(⟨k, s⟩ : Piece)]).map source = ss := by
    rw [List.map_map]
    conv_rhs => rw [← List.map_id ss]
    apply List.map_congr_left
    intro s _
    exact List.append_nil s
  rw [phrase, source_separate, htexts]
  rfl

end Piece

open Piece

namespace AttributeValue

def pieces (c : Config) (v : AttributeValue) : List Piece :=
  if v.needsQuotes c then ⟨.stringStart, ['"']⟩ :: phrase .stringText v.values ++ [⟨.stringEnd, ['"']⟩]
  else v.values.map fun s => ⟨.listText, s⟩

theorem eq_singleton_of_not_needsQuotes {c : Config} {v : AttributeValue} (h : v.needsQuotes c = false) :
    ∃ s, v.values = [s] ∧ (s.contains '"' = true ∨ s.any Text.isDelimiter = false) := by
  unfold needsQuotes at h
  split at h
  · rename_i s hs
    refine ⟨s, hs, ?_⟩
    split at h
    · exact Or.inl ‹_›
    · exact Or.inr (Bool.or_eq_false_iff.mp h).2
  · cases h

theorem source_pieces (c : Config) (v : AttributeValue) : source (v.pieces c) = v.print c := by
  unfold pieces print
  cases h : v.needsQuotes c with
  | true =>
    simp only [if_true, source_append, source_cons, source_phrase, source_nil, List.append_nil,
      List.cons_append, List.nil_append]
  | false =>
    obtain ⟨s, hs, -⟩ := eq_singleton_of_not_needsQuotes h
    have hone : Text.unwords [s] = s := List.intercalate_singleton
    simp only [Bool.false_eq_true, if_false, hs, hone]
    exact List.append_nil s

theorem mem_pieces {c : Config} {v : AttributeValue} {p : Piece} (hp : p ∈ v.pieces c) :
    p.kind ≠ .legacyIdStart ∧ (p.isListWord = true → p.text ∈ v.values) := by
  unfold pieces at hp
  split at hp
  · rw [List.cons_append, List.mem_cons, List.mem_append, List.mem_singleton] at hp
    rcases hp with rfl | hp | rfl
    · exact ⟨nofun, nofun⟩
    · rcases mem_phrase hp with rfl | ⟨s, hs, rfl⟩
      · exact ⟨nofun, nofun⟩
      · exact ⟨nofun, fun _ => hs⟩
    · exact ⟨nofun, nofun⟩
  · obtain ⟨s, hs, rfl⟩ := List.mem_map.mp hp
    exact ⟨nofun, fun _ => hs⟩

end AttributeValue

namespace Attribute

def pieces (c : Config) (a : Attribute) : List Piece :=
  match a.key with
  | some key => ⟨.listText, key⟩ :: ⟨.assignment, ['=']⟩ :: a.value.pieces c
  | none => a.value.pieces c

theorem source_pieces (c : Config) (a : Attribute) : source (a.pieces c) = a.printEntry c := by
  obtain ⟨_ | key, value, location⟩ := a
  · exact value.source_pieces c
  · rw [pieces, source_cons, source_cons, value.source_pieces]
    rfl

theorem mem_pieces {c : Config} {a : Attribute} {p : Piece} (hp : p ∈ a.pieces c) :
    p.kind ≠ .legacyIdStart ∧ (p.isListWord = true → p.text ∈ a.key ∨ p.text ∈ a.value.values) := by
  obtain ⟨_ | key, value, location⟩ := a
  · obtain ⟨hkind, hword⟩ := AttributeValue.mem_pieces hp
    exact ⟨hkind, fun h => Or.inr (hword h)⟩
  · rw [pieces, List.mem_cons, List.mem_cons] at hp
    rcases hp with rfl | rfl | hp
    · exact ⟨nofun, fun _ => Or.inl rfl⟩
    · exact ⟨nofun, nofun⟩
    · obtain ⟨hkind, hword⟩ := AttributeValue.mem_pieces hp
      exact ⟨hkind, fun h => Or.inr (hword h)⟩

end Attribute

namespace AttributeList

def pieces (c : Config) (l : AttributeList) : List Piece :=
  ⟨.listStart, ['[']⟩ :: separate comma ((l.entries c).map (Attribute.pieces c)) ++
    (l.marked c .id).flatMap (Piece.short .id) ++ (l.marked c .role).flatMap (Piece.short .role) ++
    (l.marked c .option).flatMap (Piece.short .option) ++ [⟨.listEnd, [']']⟩]

theorem source_pieces (c : Config) (l : AttributeList) : source (l.pieces c) = l.print c := by
  have hentries : ((l.entries c).map (Attribute.pieces c)).map source =
      (l.entries c).map (Attribute.printEntry c) := by
    rw [List.map_map]
    apply List.map_congr_left
    intro a _
    exact a.source_pieces c
  have hmarked (m : Mark) : source ((l.marked c m).flatMap (Piece.short m)) = l.printMarked c m := by
    rw [source_flatMap, printMarked]
    apply List.flatMap_congr
    intro s _
    simp [Piece.short]
  unfold pieces print
  simp only [source_append, source_cons, source_separate, hentries, hmarked, source_nil, List.append_nil]
  rfl

theorem mem_marked {l : AttributeList} {c : Config} {m : Mark} {t : Text} (ht : t ∈ l.marked c m) :
    ∃ a ∈ l.attributes, t ∈ a.value.values := by
  obtain ⟨a, ha, ht⟩ := List.mem_flatMap.mp ht
  exact ⟨a, List.mem_of_mem_filter ha, ht⟩

theorem mem_pieces {c : Config} {l : AttributeList} {p : Piece} (hp : p ∈ l.pieces c) :
    p.kind ≠ .legacyIdStart ∧
      (p.isListWord = true → ∃ a ∈ l.attributes, p.text ∈ a.key ∨ p.text ∈ a.value.values) := by
  have hshorts {m : Mark} (hp : p ∈ (l.marked c m).flatMap (Piece.short m)) : p.kind ≠ .legacyIdStart ∧
      (p.isListWord = true → ∃ a ∈ l.attributes, p.text ∈ a.key ∨ p.text ∈ a.value.values) := by
    obtain ⟨t, ht, hp⟩ := List.mem_flatMap.mp hp
    obtain ⟨a, ha, ht⟩ := mem_marked ht
    rcases List.mem_cons.mp hp with rfl | hp
    · cases m <;> exact ⟨nofun, nofun⟩
    · rw [List.mem_singleton.mp hp]
      exact ⟨nofun, fun _ => ⟨a, ha, Or.inr ht⟩⟩
  simp only [pieces, List.cons_append, List.append_assoc, List.mem_cons, List.mem_append, List.not_mem_nil,
    or_false] at hp
  rcases hp with rfl | hp | hp | hp | hp | rfl
  · exact ⟨nofun, nofun⟩
  · rcases mem_separate hp with rfl | ⟨_, hps, hp⟩
    · exact ⟨nofun, nofun⟩
    · obtain ⟨a, ha, rfl⟩ := List.mem_map.mp hps
      obtain ⟨hkind, hword⟩ := Attribute.mem_pieces hp
      exact ⟨hkind, fun h => ⟨a, List.mem_of_mem_filter ha, hword h⟩⟩
  · exact hshorts hp
  · exact hshorts hp
  · exact hshorts hp
  · exact ⟨nofun, nofun⟩

end AttributeList

namespace Paragraph

def linePieces (c : Config) (p : Paragraph) (l : Line) : List Piece :=
  newline :: ((p.indent c l.joined).map fun ch => ⟨.space, [ch]⟩) ++ phrase .inlineText l.words

end Paragraph

namespace Block

def pieces (c : Config) : Block → List Piece
  | headline h => newline :: ⟨.headline, h.marker⟩ :: space :: phrase .inlineText h.title.words
  | paragraph p => p.lines.flatMap (p.linePieces c)
  | emptyLine _ => [⟨.emptyLine, ['\n']⟩]
  | attributes b => newline :: b.list.pieces c

theorem source_pieces (c : Config) (b : Block) : source (b.pieces c) = b.print c := by
  cases b with
  | headline h =>
    change '\n' :: (h.marker ++ ' ' :: source (phrase .inlineText h.title.words)) = _
    rw [source_phrase]
    rfl
  | paragraph p =>
    rw [pieces, source_flatMap]
    apply List.flatMap_congr
    intro l _
    have hindent (s : Text) : source (s.map fun ch => (⟨.space, [ch]⟩ : Piece)) = s := by
      rw [source, List.flatMap_map, List.flatMap_singleton']
    rw [Paragraph.linePieces, source_append, source_cons, hindent, source_phrase]
    rfl
  | emptyLine l => rfl
  | attributes b => exact congrArg ('\n' :: ·) (b.list.source_pieces c)

end Block

end AsciiDoc
