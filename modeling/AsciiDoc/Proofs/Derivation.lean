import AsciiDoc.Tree.Basic
import Mathlib.Computability.RegularExpressions
import Mathlib.Order.CompletePartialOrder

/-!
The rules of the grammar and what can be derived from them. The body of a rule is a regular
expression over token kinds and other rules; a derivation replaces each rule that occurs in a word
of the body by something derived from that rule. The language of a pattern is computed through sums,
products and stars, so that statements about derivations become inequalities of languages.
-/

namespace AsciiDoc

open Computability

abbrev Pattern := RegularExpression Slot

namespace Pattern

def kind (k : Kind) : Pattern := .char (.token k)

def rule (r : Rule) : Pattern := .char (.rule r)

def many (p : Pattern) : Pattern := p.star

def several (p : Pattern) : Pattern := p * p.many

def optional (p : Pattern) : Pattern := 1 + p

def pairs (mark : Kind) : Pattern := (kind mark * kind .listText).several

end Pattern

namespace Rule

open Pattern

def body : Rule → Pattern
  | text => (kind .inlineText * (kind .space).many).several
  | headline => kind .newline * kind .headline * (kind .space).many * rule text
  | emptyLine => kind .emptyLine
  | paragraph => (kind .newline * (kind .space).many * rule text).several
  | attributeValue =>
    kind .stringStart * (kind .stringText * (kind .space * kind .stringText).many).optional *
      kind .stringEnd + kind .listText
  | attributeEntry => (kind .listText * kind .assignment).optional * rule attributeValue
  | shorthand =>
    kind .legacyIdStart * kind .listText * kind .legacyIdEnd + pairs .idMark + pairs .roleMark +
      pairs .optionMark
  | attributeList =>
    kind .listStart *
      (rule shorthand + rule attributeEntry * (kind .comma * rule attributeEntry).many).many *
      kind .listEnd
  | attributeBlock => kind .newline * rule attributeList
  | document =>
    (rule headline + rule attributeBlock + rule paragraph + rule emptyLine).many *
      (kind .newline).optional

end Rule

mutual

inductive Derives : Rule → List Kind → Prop
  | expand {r : Rule} {slots : List Slot} {ks : List Kind} (hbody : slots ∈ r.body.matches')
      (hks : Yields slots ks) : Derives r ks

inductive Yields : List Slot → List Kind → Prop
  | nil : Yields [] []
  | token (k : Kind) {slots : List Slot} {ks : List Kind} (h : Yields slots ks) :
      Yields (.token k :: slots) (k :: ks)
  | rule {r : Rule} {slots : List Slot} {ks ls : List Kind} (hr : Derives r ks)
      (h : Yields slots ls) : Yields (.rule r :: slots) (ks ++ ls)

end

theorem Yields.append {s t : List Slot} {ks ls : List Kind} (hs : Yields s ks) (ht : Yields t ls) :
    Yields (s ++ t) (ks ++ ls) := by
  induction s generalizing ks with
  | nil => cases hs; exact ht
  | cons slot s ih =>
    cases hs with
    | token k h => exact .token k (ih h)
    | rule hr h =>
      rw [List.append_assoc]
      exact .rule hr (ih h)

theorem Yields.split {s t : List Slot} {ks : List Kind} (h : Yields (s ++ t) ks) :
    ∃ us vs, Yields s us ∧ Yields t vs ∧ us ++ vs = ks := by
  induction s generalizing ks with
  | nil => exact ⟨[], ks, .nil, h, rfl⟩
  | cons slot s ih =>
    cases h with
    | token k h =>
      obtain ⟨us, vs, hs, ht, rfl⟩ := ih h
      exact ⟨k :: us, vs, .token k hs, ht, rfl⟩
    | @rule r _ ws _ hr h =>
      obtain ⟨us, vs, hs, ht, rfl⟩ := ih h
      exact ⟨ws ++ us, vs, .rule hr hs, ht, List.append_assoc ws us vs⟩

def Rule.language (r : Rule) : Language Kind := {ks | Derives r ks}

namespace Pattern

def language (p : Pattern) : Language Kind := {ks | ∃ slots ∈ p.matches', Yields slots ks}

theorem language_kind (k : Kind) : (kind k).language = {[k]} := by
  ext ks
  constructor
  · rintro ⟨_, rfl, h⟩
    cases h with
    | token _ h => cases h; rfl
  · rintro rfl
    exact ⟨_, rfl, .token k .nil⟩

theorem language_rule (r : Rule) : (rule r).language = r.language := by
  ext ks
  constructor
  · rintro ⟨_, rfl, h⟩
    cases h with
    | rule hr h =>
      cases h
      rw [List.append_nil]
      exact hr
  · intro hr
    exact ⟨_, rfl, List.append_nil ks ▸ Yields.rule hr .nil⟩

theorem language_one : (1 : Pattern).language = 1 := by
  ext ks
  constructor
  · rintro ⟨_, rfl, h⟩
    cases h
    rfl
  · rintro rfl
    exact ⟨[], rfl, .nil⟩

theorem language_add (p q : Pattern) : (p + q).language = p.language + q.language := by
  ext ks
  constructor
  · rintro ⟨slots, hp | hq, h⟩
    · exact Or.inl ⟨slots, hp, h⟩
    · exact Or.inr ⟨slots, hq, h⟩
  · rintro (⟨slots, hp, h⟩ | ⟨slots, hq, h⟩)
    · exact ⟨slots, Or.inl hp, h⟩
    · exact ⟨slots, Or.inr hq, h⟩

theorem language_mul (p q : Pattern) : (p * q).language = p.language * q.language := by
  ext ks
  rw [Language.mem_mul]
  constructor
  · rintro ⟨_, ⟨s, hs, t, ht, rfl⟩, h⟩
    obtain ⟨us, vs, hus, hvs, rfl⟩ := h.split
    exact ⟨us, ⟨s, hs, hus⟩, vs, ⟨t, ht, hvs⟩, rfl⟩
  · rintro ⟨us, ⟨s, hs, hus⟩, vs, ⟨t, ht, hvs⟩, rfl⟩
    exact ⟨s ++ t, Language.append_mem_mul hs ht, hus.append hvs⟩

theorem language_many (p : Pattern) : p.many.language = p.language∗ := by
  ext ks
  constructor
  · rintro ⟨_, ⟨words, rfl, hwords⟩, h⟩
    induction words generalizing ks with
    | nil => cases h; exact Language.nil_mem_kstar _
    | cons w words ih =>
      rw [List.flatten_cons] at h
      obtain ⟨us, vs, hus, hvs, rfl⟩ := h.split
      rw [← Language.one_add_self_mul_kstar_eq_kstar]
      refine Or.inr (Language.append_mem_mul ⟨w, hwords w (by simp), hus⟩ ?_)
      exact ih vs (fun y hy => hwords y (List.mem_cons_of_mem w hy)) hvs
  · rintro ⟨parts, rfl, hparts⟩
    induction parts with
    | nil => exact ⟨[], Language.nil_mem_kstar _, .nil⟩
    | cons us parts ih =>
      obtain ⟨s, hs, hus⟩ := hparts us (by simp)
      obtain ⟨t, ht, hvs⟩ := ih (fun y hy => hparts y (List.mem_cons_of_mem us hy))
      refine ⟨s ++ t, ?_, hus.append hvs⟩
      change s ++ t ∈ p.matches'∗
      rw [← Language.one_add_self_mul_kstar_eq_kstar]
      exact Or.inr (Language.append_mem_mul hs ht)

theorem language_several (p : Pattern) : p.several.language = p.language * p.language∗ := by
  rw [several, language_mul, language_many]

theorem language_optional (p : Pattern) : p.optional.language = 1 + p.language := by
  rw [optional, language_add, language_one]

end Pattern

theorem Rule.language_eq (r : Rule) : r.language = r.body.language := by
  ext ks
  constructor
  · rintro ⟨hbody, hks⟩
    exact ⟨_, hbody, hks⟩
  · rintro ⟨slots, hbody, hks⟩
    exact .expand hbody hks

end AsciiDoc
