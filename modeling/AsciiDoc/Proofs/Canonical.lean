import AsciiDoc.Document.Printer
import Mathlib.Data.List.Chain
import Mathlib.Data.List.DropRight

namespace AsciiDoc

namespace Line

def bare (l : Line) : Line := ⟨l.words, .unresolved⟩

def WellFormed (l : Line) : Prop :=
  l.words ≠ [] ∧ ∀ w ∈ l.words, w ≠ [] ∧ (∀ c ∈ w, Text.isBlank c = false) ∧ w.head? ≠ some '['

end Line

namespace Paragraph

def bare (p : Paragraph) : Paragraph := ⟨p.lines.map Line.bare, p.isLiteral, .unresolved⟩

def WellFormed (p : Paragraph) : Prop :=
  p.lines ≠ [] ∧ (∀ l ∈ p.lines, l.WellFormed) ∧
    (p.isLiteral = false → ∀ l ∈ p.lines, l.joined.head? ≠ some '=')

/-- Without an indent a paragraph is literal only for the sake of a line that begins with `=`. -/
def canonical (c : Config) (p : Paragraph) : Paragraph :=
  { p with isLiteral := p.isLiteral &&
      (decide (0 < c.literalIndent) || p.lines.any fun l => l.joined.head? = some '=') }

end Paragraph

namespace Attribute

def bare (a : Attribute) : Attribute := ⟨a.key, ⟨a.value.values, .unresolved⟩, .unresolved⟩

def WellFormed (a : Attribute) : Prop :=
  (∀ k ∈ a.key, k ≠ [] ∧ ∀ c ∈ k, Text.isBlank c = false ∧ c ≠ '"' ∧ Text.isDelimiter c = false) ∧
    ∀ s ∈ a.value.values, s ≠ [] ∧ ∀ c ∈ s, Text.isBlank c = false ∧ c ≠ '"'

def isShort (c : Config) (m : Mark) (a : Attribute) : Bool :=
  decide (a.key = some m.key ∧ c.style m = .shorthand) &&
    a.value.values.all fun s => s.all fun ch => !Text.isDelimiter ch

end Attribute

namespace AttributeList

def bare (l : AttributeList) : AttributeList := ⟨l.attributes.map Attribute.bare, .unresolved⟩

def formal (c : Config) (l : AttributeList) : List Attribute :=
  l.attributes.filter fun a => !(a.isShort c .id || a.isShort c .role || a.isShort c .option)

def short (c : Config) (l : AttributeList) (m : Mark) : List Text :=
  (l.attributes.filter fun a => a.isShort c m).flatMap fun a => a.value.values

def gathered (c : Config) (l : AttributeList) (m : Mark) : List Attribute :=
  if l.short c m = [] then []
  else [⟨some m.key, ⟨l.short c m, .unresolved⟩, .unresolved⟩]

def canonical (c : Config) (l : AttributeList) : AttributeList :=
  { l with attributes :=
      l.formal c ++ l.gathered c .id ++ l.gathered c .role ++ l.gathered c .option }

end AttributeList

namespace Block

def bare : Block → Block
  | headline h => headline ⟨h.level, h.title.bare, .unresolved⟩
  | paragraph p => paragraph p.bare
  | emptyLine _ => emptyLine .unresolved
  | attributes b => attributes ⟨b.list.bare, .unresolved⟩

def WellFormed : Block → Prop
  | headline h => h.title.WellFormed
  | paragraph p => p.WellFormed
  | emptyLine _ => True
  | attributes b => ∀ a ∈ b.list.attributes, a.WellFormed

/-- A headline has a marker: its level is not the greatest 64-bit number. -/
def Marked : Block → Prop
  | headline h => h.level ≠ Extent.lastOffset
  | _ => True

def canonical (c : Config) : Block → Block
  | headline h => headline h
  | paragraph p => paragraph (p.canonical c)
  | emptyLine l => emptyLine l
  | attributes b => attributes { b with list := b.list.canonical c }

def isParagraph : Block → Bool
  | paragraph _ => true
  | _ => false

def Apart (a b : Block) : Prop := a.isParagraph = true → b.isParagraph = false

end Block

namespace Document

def bare (d : Document) : Document := ⟨d.blocks.map Block.bare, .unresolved⟩

structure WellFormed (d : Document) : Prop where
  blocks : ∀ b ∈ d.blocks, b.WellFormed
  apart : d.blocks.IsChain Block.Apart

def core (d : Document) : List Block :=
  (d.blocks.dropWhile Block.isEmptyLine).rdropWhile Block.isEmptyLine

def canonical (c : Config) (d : Document) : Document :=
  { d with blocks := d.core.map (Block.canonical c) }

end Document

section Decidable

/-- Decided on the characters of the text, not by going through all characters. -/
instance (priority := high) Text.decidableForallMem (p : Char → Prop) [DecidablePred p] (s : Text) :
    Decidable (∀ c ∈ s, p c) := List.decidableBAll p s

instance (l : Line) : Decidable l.WellFormed := inferInstanceAs (Decidable (_ ∧ _))

instance (p : Paragraph) : Decidable p.WellFormed := inferInstanceAs (Decidable (_ ∧ _ ∧ _))

instance (a : Attribute) : Decidable a.WellFormed := inferInstanceAs (Decidable (_ ∧ _))

instance (b : Block) : Decidable b.WellFormed :=
  match b with
  | .headline h => inferInstanceAs (Decidable h.title.WellFormed)
  | .paragraph p => inferInstanceAs (Decidable p.WellFormed)
  | .emptyLine _ => inferInstanceAs (Decidable True)
  | .attributes b => inferInstanceAs (Decidable (∀ a ∈ b.list.attributes, a.WellFormed))

instance (b : Block) : Decidable b.Marked :=
  match b with
  | .headline h => inferInstanceAs (Decidable (h.level ≠ Extent.lastOffset))
  | .paragraph _ => inferInstanceAs (Decidable True)
  | .emptyLine _ => inferInstanceAs (Decidable True)
  | .attributes _ => inferInstanceAs (Decidable True)

instance (a b : Block) : Decidable (a.Apart b) :=
  inferInstanceAs (Decidable (a.isParagraph = true → b.isParagraph = false))

instance (d : Document) : Decidable d.WellFormed :=
  decidable_of_iff ((∀ b ∈ d.blocks, b.WellFormed) ∧ d.blocks.IsChain Block.Apart)
    ⟨fun h => ⟨h.1, h.2⟩, fun h => ⟨h.blocks, h.apart⟩⟩

end Decidable

namespace Headline

theorem levelOf_signs {level : Nat} (h : level ≠ Extent.lastOffset) : levelOf (signs level) = level := by
  by_cases hlevel : level < Nat.pow 2 64
  · rw [signs, if_pos hlevel, levelOf, if_pos (Nat.mod_lt _ (by decide))]
    simp only [Extent.lastOffset, Nat.pow_eq] at h hlevel ⊢
    omega
  · rw [signs, if_neg hlevel, levelOf, if_neg hlevel]

theorem signs_levelOf {n : Nat} (h : 0 < n) : signs (levelOf n) = n := by
  by_cases hn : n < Nat.pow 2 64
  · rw [levelOf, if_pos hn, signs, if_pos (Nat.sub_lt_of_lt hn), Nat.sub_add_cancel h, Nat.mod_eq_of_lt hn]
  · rw [levelOf, if_neg hn, signs, if_neg hn]

theorem signs_pos {level : Nat} (h : level ≠ Extent.lastOffset) : 0 < signs level := by
  simp only [Extent.lastOffset, Nat.pow_eq] at h
  simp only [signs, Nat.pow_eq]
  split <;> omega

theorem levelOf_ne_lastOffset (n : Nat) : levelOf n ≠ Extent.lastOffset := by
  simp only [levelOf, Extent.lastOffset, Nat.pow_eq]
  split <;> omega

end Headline

/-- A text that can be read as a value. Where a quote stands in it, it was read without quotes around it
and holds no delimiter. -/
def Text.IsValue (s : Text) : Prop :=
  s ≠ [] ∧ (∀ c ∈ s, isBlank c = false) ∧ ('"' ∈ s → ∀ c ∈ s, isDelimiter c = false)

namespace Attribute

def Lexical (a : Attribute) : Prop :=
  (∀ k ∈ a.key, k ≠ [] ∧ ∀ c ∈ k, Text.isBlank c = false ∧ Text.isDelimiter c = false) ∧
    ∀ s ∈ a.value.values, s.IsValue

def QuoteFree (a : Attribute) : Prop := (∀ k ∈ a.key, '"' ∉ k) ∧ ∀ s ∈ a.value.values, '"' ∉ s

theorem WellFormed.lexical {a : Attribute} (h : a.WellFormed) : a.Lexical := by
  constructor
  · intro k hk
    obtain ⟨hne, hchars⟩ := h.1 k hk
    exact ⟨hne, fun c hc => ⟨(hchars c hc).1, (hchars c hc).2.2⟩⟩
  · intro s hs
    obtain ⟨hne, hchars⟩ := h.2 s hs
    exact ⟨hne, fun c hc => (hchars c hc).1, fun hquote => absurd rfl (hchars '"' hquote).2⟩

theorem WellFormed.quoteFree {a : Attribute} (h : a.WellFormed) : a.QuoteFree :=
  ⟨fun k hk hquote => ((h.1 k hk).2 '"' hquote).2.1 rfl, fun s hs hquote => ((h.2 s hs).2 '"' hquote).2 rfl⟩

theorem Lexical.wellFormed {a : Attribute} (h : a.Lexical) (hquotes : a.QuoteFree) : a.WellFormed := by
  constructor
  · intro k hk
    obtain ⟨hne, hchars⟩ := h.1 k hk
    refine ⟨hne, ?_⟩
    intro c hc
    obtain ⟨hblank, hdelimiter⟩ := hchars c hc
    exact ⟨hblank, fun hquote => hquotes.1 k hk (hquote ▸ hc), hdelimiter⟩
  · intro s hs
    obtain ⟨hne, hchars, -⟩ := h.2 s hs
    exact ⟨hne, fun c hc => ⟨hchars c hc, fun hquote => hquotes.2 s hs (hquote ▸ hc)⟩⟩

end Attribute

namespace Line

def Inked (l : Line) : Prop := l.words ≠ [] ∧ ∀ w ∈ l.words, w ≠ [] ∧ ∀ c ∈ w, Text.isBlank c = false

instance (l : Line) : Decidable l.Inked := inferInstanceAs (Decidable (_ ∧ _))

theorem WellFormed.inked {l : Line} (h : l.WellFormed) : l.Inked :=
  ⟨h.1, fun w hw => ⟨(h.2 w hw).1, (h.2 w hw).2.1⟩⟩

end Line

namespace Block

def Inked : Block → Prop
  | headline h => h.title.Inked
  | paragraph p => p.lines ≠ [] ∧ ∀ l ∈ p.lines, l.Inked
  | _ => True

def Lexical : Block → Prop
  | headline h => h.title.WellFormed
  | paragraph p => p.WellFormed
  | emptyLine _ => True
  | attributes b => ∀ a ∈ b.list.attributes, a.Lexical

def QuoteFree : Block → Prop
  | attributes b => ∀ a ∈ b.list.attributes, a.QuoteFree
  | _ => True

theorem WellFormed.lexical {b : Block} (h : b.WellFormed) : b.Lexical := by
  cases b with
  | attributes b => exact fun a ha => Attribute.WellFormed.lexical (h a ha)
  | _ => exact h

instance (b : Block) : Decidable b.Inked :=
  match b with
  | .headline h => inferInstanceAs (Decidable h.title.Inked)
  | .paragraph p => inferInstanceAs (Decidable (p.lines ≠ [] ∧ ∀ l ∈ p.lines, l.Inked))
  | .emptyLine _ => inferInstanceAs (Decidable True)
  | .attributes _ => inferInstanceAs (Decidable True)

theorem Lexical.inked {b : Block} (h : b.Lexical) : b.Inked := by
  cases b with
  | headline head => exact Line.WellFormed.inked h
  | paragraph p => exact ⟨h.1, fun l hl => Line.WellFormed.inked (h.2.1 l hl)⟩
  | emptyLine l => trivial
  | attributes b => trivial

theorem Lexical.wellFormed {b : Block} (h : b.Lexical) (hquotes : b.QuoteFree) : b.WellFormed := by
  cases b with
  | attributes b => exact fun a ha => Attribute.Lexical.wellFormed (h a ha) (hquotes a ha)
  | _ => exact h

end Block

theorem Mark.key_plain (m : Mark) : m.key ≠ [] ∧
    ∀ c ∈ m.key, Text.isBlank c = false ∧ c ≠ '"' ∧ Text.isDelimiter c = false := by
  cases m <;> decide

theorem Mark.ofKey?_eq_some_iff (key : Text) (m : Mark) : Mark.ofKey? key = some m ↔ key = m.key := by
  unfold Mark.ofKey?
  constructor
  · intro h
    have hfound := List.find?_some h
    exact (of_decide_eq_true hfound).symm
  · rintro rfl
    cases m <;> decide

namespace Attribute

theorem shorthand?_eq_some_iff (c : Config) (a : Attribute) (m : Mark) :
    a.shorthand? c = some m ↔
      a.key = some m.key ∧ c.style m = .shorthand ∧ a.value.fitsShorthand = true := by
  simp only [shorthand?, bind, Option.bind_eq_some_iff, guard, Mark.ofKey?_eq_some_iff]
  constructor
  · rintro ⟨key, hkey, n, rfl, u, hguard, hn⟩
    cases hn
    split at hguard
    · rename_i h
      exact ⟨hkey, h⟩
    · cases hguard
  · rintro ⟨hkey, hstyle, hfits⟩
    exact ⟨m.key, hkey, m, rfl, (), by simp [hstyle, hfits], rfl⟩

theorem fitsShorthand_iff {a : Attribute} (h : a.WellFormed) : a.value.fitsShorthand = true ↔
    (a.value.values.all fun s => s.all fun ch => !Text.isDelimiter ch) = true := by
  simp only [AttributeValue.fitsShorthand, List.all_eq_true]
  refine forall₂_congr ?_
  intro s hs
  obtain ⟨hne, hchars⟩ := h.2 s hs
  have hempty : s.isEmpty = false := by simpa using hne
  simp only [hempty, Bool.not_false, Bool.true_and, List.all_eq_true]
  refine forall₂_congr ?_
  intro ch hch
  obtain ⟨hblank, hquote⟩ := hchars ch hch
  simp [hblank, hquote]

theorem shorthand?_eq_some_iff_isShort {a : Attribute} (h : a.WellFormed) (c : Config) (m : Mark) :
    a.shorthand? c = some m ↔ a.isShort c m = true := by
  rw [shorthand?_eq_some_iff, fitsShorthand_iff h, isShort, Bool.and_eq_true, decide_eq_true_eq, and_assoc]

theorem shorthand?_eq_none_iff_isShort {a : Attribute} (h : a.WellFormed) (c : Config) :
    a.shorthand? c = none ↔
      (!(a.isShort c .id || a.isShort c .role || a.isShort c .option)) = true := by
  have hsome := shorthand?_eq_some_iff_isShort h c
  cases hshort : a.shorthand? c with
  | none =>
    have hnot (m : Mark) : a.isShort c m = false := by
      rw [Bool.eq_false_iff, ne_eq, ← hsome, hshort]
      exact nofun
    simp [hnot]
  | some m =>
    have hm := (hsome m).mp hshort
    cases m <;> simp [hm]

end Attribute

namespace AttributeList

theorem entries_eq {l : AttributeList} (h : ∀ a ∈ l.attributes, a.WellFormed) (c : Config) :
    l.entries c = l.formal c := by
  apply List.filter_congr
  intro a ha
  rw [Bool.eq_iff_iff, decide_eq_true_eq]
  exact Attribute.shorthand?_eq_none_iff_isShort (h a ha) c

theorem marked_eq {l : AttributeList} (h : ∀ a ∈ l.attributes, a.WellFormed) (c : Config) (m : Mark) :
    l.marked c m = l.short c m := by
  rw [marked, short]
  congr 1
  apply List.filter_congr
  intro a ha
  rw [Bool.eq_iff_iff, decide_eq_true_eq]
  exact Attribute.shorthand?_eq_some_iff_isShort (h a ha) c m

theorem mem_short {l : AttributeList} {c : Config} {m : Mark} {s : Text} :
    s ∈ l.short c m ↔ ∃ a ∈ l.attributes, a.isShort c m = true ∧ s ∈ a.value.values := by
  simp only [short, List.mem_flatMap, List.mem_filter, and_assoc]

theorem isShort_gathered {l : AttributeList} {c : Config} {m : Mark} {a : Attribute}
    (h : a ∈ l.gathered c m) (n : Mark) : a.isShort c n = true ↔ n = m := by
  by_cases hshort : l.short c m = []
  · simp [gathered, hshort] at h
  · obtain rfl : a = ⟨some m.key, ⟨l.short c m, .unresolved⟩, .unresolved⟩ := by
      simpa [gathered, hshort] using h
    constructor
    · intro hn
      simp only [Attribute.isShort, Bool.and_eq_true, decide_eq_true_eq, Option.some.injEq] at hn
      have hkey := hn.1.1
      revert hkey
      cases n <;> cases m <;> decide
    · rintro rfl
      obtain ⟨s, hs⟩ := List.exists_mem_of_ne_nil _ hshort
      obtain ⟨b, -, hb, -⟩ := mem_short.mp hs
      simp only [Attribute.isShort, Bool.and_eq_true, decide_eq_true_eq] at hb ⊢
      refine ⟨⟨trivial, hb.1.2⟩, List.all_eq_true.mpr ?_⟩
      intro t ht
      obtain ⟨b, -, hb, htb⟩ := mem_short.mp ht
      simp only [Attribute.isShort, Bool.and_eq_true] at hb
      exact List.all_eq_true.mp hb.2 t htb

theorem filter_gathered (l : AttributeList) (c : Config) (m n : Mark) :
    (l.gathered c m).filter (fun a => a.isShort c n) = if n = m then l.gathered c m else [] := by
  split
  · rw [List.filter_eq_self]
    intro a ha
    exact (isShort_gathered ha n).mpr ‹_›
  · rw [List.filter_eq_nil_iff]
    intro a ha hn
    exact absurd ((isShort_gathered ha n).mp hn) ‹_›

theorem flatMap_gathered (l : AttributeList) (c : Config) (m : Mark) :
    ((l.gathered c m).flatMap fun a => a.value.values) = l.short c m := by
  by_cases hshort : l.short c m = [] <;> simp [gathered, hshort]

theorem isShort_formal {l : AttributeList} {c : Config} {a : Attribute} (h : a ∈ l.formal c) (m : Mark) :
    a.isShort c m = false := by
  have hnot := List.of_mem_filter h
  simp only [Bool.not_eq_true', Bool.or_eq_false_iff] at hnot
  cases m with
  | id => exact hnot.1.1
  | role => exact hnot.1.2
  | option => exact hnot.2

theorem short_canonical (l : AttributeList) (c : Config) (m : Mark) :
    (l.canonical c).short c m = l.short c m := by
  have hformal : (l.formal c).filter (fun a => a.isShort c m) = [] := by
    rw [List.filter_eq_nil_iff]
    intro a ha
    simp [isShort_formal ha m]
  rw [short, canonical]
  simp only [List.filter_append, hformal, filter_gathered]
  cases m <;> simp [flatMap_gathered]

theorem formal_canonical (l : AttributeList) (c : Config) : (l.canonical c).formal c = l.formal c := by
  have hgathered (m : Mark) : (l.gathered c m).filter
      (fun a => !(a.isShort c .id || a.isShort c .role || a.isShort c .option)) = [] := by
    rw [List.filter_eq_nil_iff]
    intro a ha
    have hm := (isShort_gathered ha m).mpr rfl
    cases m <;> simp [hm]
  have hformal : (l.formal c).filter
      (fun a => !(a.isShort c .id || a.isShort c .role || a.isShort c .option)) = l.formal c := by
    rw [List.filter_eq_self]
    intro a ha
    simp [isShort_formal ha]
  rw [formal, canonical]
  simp only [List.filter_append, hformal, hgathered, List.append_nil]

theorem wellFormed_gathered {l : AttributeList} (h : ∀ a ∈ l.attributes, a.WellFormed) {c : Config}
    {m : Mark} : ∀ a ∈ l.gathered c m, a.WellFormed := by
  intro a ha
  by_cases hshort : l.short c m = []
  · simp [gathered, hshort] at ha
  · obtain rfl : a = ⟨some m.key, ⟨l.short c m, .unresolved⟩, .unresolved⟩ := by
      simpa [gathered, hshort] using ha
    constructor
    · intro k hk
      cases hk
      exact m.key_plain
    · intro s hs
      obtain ⟨b, hb, -, hsb⟩ := mem_short.mp hs
      exact (h b hb).2 s hsb

theorem wellFormed_canonical {l : AttributeList} (h : ∀ a ∈ l.attributes, a.WellFormed) (c : Config) :
    ∀ a ∈ (l.canonical c).attributes, a.WellFormed := by
  have hgathered (m : Mark) := wellFormed_gathered h (c := c) (m := m)
  refine List.forall_mem_append.mpr ⟨List.forall_mem_append.mpr ⟨List.forall_mem_append.mpr
    ⟨?_, hgathered .id⟩, hgathered .role⟩, hgathered .option⟩
  intro a ha
  exact h a (List.mem_of_mem_filter ha)

theorem print_canonical {l : AttributeList} (h : ∀ a ∈ l.attributes, a.WellFormed) (c : Config) :
    (l.canonical c).print c = l.print c := by
  have hcanonical := wellFormed_canonical h c
  have hmarked (m : Mark) : (l.canonical c).printMarked c m = l.printMarked c m := by
    rw [printMarked, printMarked, marked_eq hcanonical, marked_eq h, short_canonical]
  rw [print, print, entries_eq hcanonical, entries_eq h, formal_canonical, hmarked, hmarked, hmarked]

theorem print_bare (l : AttributeList) (c : Config) : l.bare.print c = l.print c := by
  have hentries : l.bare.entries c = (l.entries c).map Attribute.bare := List.filter_map
  have hmarked (m : Mark) : l.bare.marked c m = l.marked c m := by
    rw [marked, bare, List.filter_map, List.flatMap_map]
    rfl
  rw [print, hentries, List.map_map, printMarked, printMarked, printMarked, hmarked, hmarked, hmarked]
  rfl

end AttributeList

namespace Paragraph

theorem print_bare (p : Paragraph) (c : Config) : p.bare.print c = p.print c := by
  rw [print, bare, List.flatMap_map]
  rfl

theorem print_canonical (p : Paragraph) (c : Config) : (p.canonical c).print c = p.print c := by
  rw [print, print]
  apply List.flatMap_congr
  intro l hl
  have hindent : (p.canonical c).indent c l.joined = p.indent c l.joined := by
    cases hkeeps : decide (0 < c.literalIndent) || p.lines.any fun l => l.joined.head? = some '=' with
    | true => simp only [indent, canonical, hkeeps, Bool.and_true]
    | false =>
      -- A paragraph that is no longer literal had no indent to lose.
      obtain ⟨hzero, hhead⟩ := Bool.or_eq_false_iff.mp hkeeps
      have hzero : c.literalIndent = 0 := by simpa using hzero
      have hhead : l.joined.head? ≠ some '=' := by simpa using List.any_eq_false.mp hhead l hl
      simp [indent, canonical, hzero, hhead]
  rw [hindent]

end Paragraph

namespace Block

theorem print_bare (b : Block) (c : Config) : b.bare.print c = b.print c := by
  cases b with
  | headline h => rfl
  | paragraph p => exact p.print_bare c
  | emptyLine l => rfl
  | attributes b => exact congrArg ('\n' :: ·) (b.list.print_bare c)

theorem print_canonical {b : Block} (h : b.WellFormed) (c : Config) :
    (b.canonical c).print c = b.print c := by
  cases b with
  | headline _ => rfl
  | paragraph p => exact p.print_canonical c
  | emptyLine l => rfl
  | attributes b => exact congrArg ('\n' :: ·) (AttributeList.print_canonical h c)

@[simp] theorem isEmptyLine_bare (b : Block) : b.bare.isEmptyLine = b.isEmptyLine := by cases b <;> rfl

@[simp] theorem isEmptyLine_canonical (c : Config) (b : Block) :
    (b.canonical c).isEmptyLine = b.isEmptyLine := by
  cases b <;> rfl

end Block

namespace Document

theorem print_map {bs : List Block} {f : Block → Block} {c : Config}
    (h : ∀ b ∈ bs, (f b).print c = b.print c ∧ (f b).isEmptyLine = b.isEmptyLine) (l l' : Location) :
    print c ⟨bs.map f, l⟩ = print c ⟨bs, l'⟩ := by
  have hdrop : (bs.map f).dropWhile Block.isEmptyLine = (bs.dropWhile Block.isEmptyLine).map f := by
    induction bs with
    | nil => rfl
    | cons b bs ih =>
      obtain ⟨⟨-, hb⟩, hbs⟩ := List.forall_mem_cons.mp h
      rw [List.map_cons, List.dropWhile_cons, List.dropWhile_cons, hb]
      split
      · exact ih hbs
      · rfl
  have hblocks : ((bs.dropWhile Block.isEmptyLine).map f).flatMap (Block.print c) =
      (bs.dropWhile Block.isEmptyLine).flatMap (Block.print c) := by
    rw [List.flatMap_map]
    apply List.flatMap_congr
    intro b hb
    exact (h b ((List.dropWhile_suffix _).subset hb)).1
  rw [print, print, hdrop, hblocks]

theorem print_bare (d : Document) (c : Config) : d.bare.print c = d.print c :=
  print_map (fun b _ => ⟨b.print_bare c, b.isEmptyLine_bare⟩) _ _

theorem print_canonical {d : Document} (h : d.WellFormed) (hcore : d.core = d.blocks) (c : Config) :
    (d.canonical c).print c = d.print c := by
  rw [canonical, hcore]
  exact print_map (fun b hb => ⟨Block.print_canonical (h.blocks b hb) c, b.isEmptyLine_canonical c⟩) _ _

end Document

end AsciiDoc
