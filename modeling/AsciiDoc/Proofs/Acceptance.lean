import AsciiDoc.Proofs.Derivation
import AsciiDoc.Proofs.Places

/-!
The places accept the language of the grammar. One direction bounds the language of every rule by the
kinds that lead from some places to others; the other direction says for every place which prefixes of
documents end there, a language that each single step keeps.
-/

namespace AsciiDoc

open Computability

namespace Place

def Leads (P Q : List Place) : Language Kind := {ks | ∀ p ∈ P, ∃ q ∈ Q, p.walk ks = some q}

theorem one_leads (P : List Place) : 1 ≤ Leads P P := by
  rintro _ rfl p hp
  exact ⟨p, hp, rfl⟩

theorem kind_leads {P Q : List Place} {k : Kind} (h : ∀ p ∈ P, ∃ q ∈ Q, p.next? k = some q) :
    {[k]} ≤ Leads P Q := by
  rintro _ rfl p hp
  obtain ⟨q, hq, hk⟩ := h p hp
  exact ⟨q, hq, by rw [walk_cons, hk]; rfl⟩

theorem mul_leads {P Q R : List Place} {L M : Language Kind} (hL : L ≤ Leads P Q)
    (hM : M ≤ Leads Q R) : L * M ≤ Leads P R := by
  rintro _ ⟨ks, hks, ls, hls, rfl⟩ p hp
  obtain ⟨q, hq, hpq⟩ := hL hks p hp
  obtain ⟨r, hr, hqr⟩ := hM hls q hq
  refine ⟨r, hr, ?_⟩
  rw [walk_append, hpq]
  exact hqr

theorem kstar_leads {P : List Place} {L : Language Kind} (h : L ≤ Leads P P) : L∗ ≤ Leads P P :=
  kstar_le_of_mul_le_left (one_leads P) (mul_leads le_rfl h)

theorem leads_mono {P Q R S : List Place} {L : Language Kind} (h : L ≤ Leads P Q)
    (hP : R ⊆ P) (hQ : Q ⊆ S) : L ≤ Leads R S := by
  intro ks hks p hp
  obtain ⟨q, hq, hpq⟩ := h hks p (hP hp)
  exact ⟨q, hQ hq, hpq⟩

def closed : List Place := [between, inText]

def itemEnds : List Place := [item, keyOrValue, entryEnd]

def entryEnds : List Place := [keyOrValue, entryEnd]

end Place

namespace Rule

open Pattern Place

theorem text_eq : text.language = ({[.inlineText]} * {[.space]}∗) * ({[.inlineText]} * {[.space]}∗)∗ := by
  rw [language_eq, body, language_several, language_mul, language_many, language_kind, language_kind]

theorem headline_eq :
    headline.language = {[.newline]} * {[.headline]} * {[.space]}∗ * text.language := by
  rw [language_eq, body]
  simp only [language_mul, language_many, language_kind, language_rule]

theorem emptyLine_eq : emptyLine.language = {[.emptyLine]} := by
  rw [language_eq, body, language_kind]

theorem paragraph_eq : paragraph.language =
    ({[.newline]} * {[.space]}∗ * text.language) * ({[.newline]} * {[.space]}∗ * text.language)∗ := by
  rw [language_eq, body, language_several]
  simp only [language_mul, language_many, language_kind, language_rule]

theorem attributeValue_eq : attributeValue.language =
    {[.stringStart]} * (1 + {[.stringText]} * ({[.space]} * {[.stringText]})∗) * {[.stringEnd]} +
      {[.listText]} := by
  rw [language_eq, body]
  simp only [language_add, language_mul, language_many, language_optional, language_kind]

theorem attributeEntry_eq :
    attributeEntry.language = (1 + {[.listText]} * {[.assignment]}) * attributeValue.language := by
  rw [language_eq, body]
  simp only [language_mul, language_optional, language_kind, language_rule]

theorem shorthand_eq : shorthand.language =
    {[.legacyIdStart]} * {[.listText]} * {[.legacyIdEnd]} +
      ({[.idMark]} * {[.listText]}) * ({[.idMark]} * {[.listText]})∗ +
      ({[.roleMark]} * {[.listText]}) * ({[.roleMark]} * {[.listText]})∗ +
      ({[.optionMark]} * {[.listText]}) * ({[.optionMark]} * {[.listText]})∗ := by
  rw [language_eq, body]
  simp only [language_add, language_mul, pairs, language_several, language_kind]

def items : Language Kind :=
  shorthand.language + attributeEntry.language * ({[.comma]} * attributeEntry.language)∗

theorem attributeList_eq : attributeList.language = {[.listStart]} * items∗ * {[.listEnd]} := by
  rw [language_eq, body]
  simp only [language_mul, language_many, language_add, language_kind, language_rule, items]

theorem attributeBlock_eq : attributeBlock.language = {[.newline]} * attributeList.language := by
  rw [language_eq, body]
  simp only [language_mul, language_kind, language_rule]

def blocks : Language Kind :=
  headline.language + attributeBlock.language + paragraph.language + emptyLine.language

theorem document_eq : document.language = blocks∗ * (1 + {[.newline]}) := by
  rw [language_eq, body]
  simp only [language_mul, language_many, language_add, language_optional, language_kind,
    language_rule, blocks]

theorem text_leads : text.language ≤ Leads [lineStart, beforeText, inText] [inText] := by
  have hspaces : ({[.space]} : Language Kind)∗ ≤ Leads [inText] [inText] :=
    kstar_leads (kind_leads (by decide))
  have hword (P : List Place) (hP : ∀ p ∈ P, ∃ q ∈ [inText], p.next? .inlineText = some q) :
      ({[.inlineText]} * {[.space]}∗ : Language Kind) ≤ Leads P [inText] :=
    mul_leads (kind_leads hP) hspaces
  rw [text_eq]
  exact mul_leads (hword _ (by decide)) (kstar_leads (hword _ (by decide)))

theorem line_leads : {[.space]}∗ * text.language ≤ Leads [lineStart, beforeText] [inText] := by
  have hspaces : ({[.space]} : Language Kind)∗ ≤
      Leads [lineStart, beforeText] [lineStart, beforeText] :=
    kstar_leads (kind_leads (by decide))
  exact mul_leads hspaces (leads_mono text_leads (by decide) (by decide))

theorem newline_leads : {[.newline]} ≤ Leads closed [lineStart] := kind_leads (by decide)

theorem headline_leads : headline.language ≤ Leads closed closed := by
  have hmarker : ({[.headline]} : Language Kind) ≤ Leads [lineStart] [beforeText] :=
    kind_leads (by decide)
  rw [headline_eq, mul_assoc]
  exact mul_leads (mul_leads newline_leads hmarker) (leads_mono line_leads (by decide) (by decide))

theorem paragraph_leads : paragraph.language ≤ Leads closed closed := by
  have hline : {[.newline]} * {[.space]}∗ * text.language ≤ Leads closed closed := by
    rw [mul_assoc]
    exact mul_leads newline_leads (leads_mono line_leads (by decide) (by decide))
  rw [paragraph_eq]
  exact mul_leads hline (kstar_leads hline)

theorem attributeValue_leads :
    attributeValue.language ≤ Leads [beforeValue] [entryEnd] ∧
      attributeValue.language ≤ Leads (beforeEntry :: itemEnds) entryEnds := by
  have hwords : (1 + {[.stringText]} * ({[.space]} * {[.stringText]})∗ : Language Kind) ≤
      Leads [stringOpen] [stringOpen, stringWord] := by
    have hnext : ({[.space]} * {[.stringText]} : Language Kind) ≤ Leads [stringWord] [stringWord] :=
      mul_leads (Q := [stringGap]) (kind_leads (by decide)) (kind_leads (by decide))
    have hfirst : ({[.stringText]} : Language Kind) ≤ Leads [stringOpen] [stringWord] :=
      kind_leads (by decide)
    apply add_le
    · exact leads_mono (one_leads [stringOpen]) (by decide) (by decide)
    · exact leads_mono (mul_leads hfirst (kstar_leads hnext)) (by decide) (by decide)
  have hstring (P : List Place) (hP : ∀ p ∈ P, ∃ q ∈ [stringOpen], p.next? .stringStart = some q) :
      ({[.stringStart]} * (1 + {[.stringText]} * ({[.space]} * {[.stringText]})∗) * {[.stringEnd]} :
        Language Kind) ≤ Leads P [entryEnd] :=
    mul_leads (mul_leads (kind_leads hP) hwords) (kind_leads (by decide))
  rw [attributeValue_eq]
  constructor
  · exact add_le (hstring _ (by decide)) (kind_leads (by decide))
  · exact add_le (leads_mono (hstring (beforeEntry :: itemEnds) (by decide)) (by decide) (by decide))
      (kind_leads (by decide))

theorem attributeEntry_leads : attributeEntry.language ≤ Leads (beforeEntry :: itemEnds) entryEnds := by
  have hkey : ({[.listText]} * {[.assignment]} : Language Kind) ≤
      Leads (beforeEntry :: itemEnds) [beforeValue] :=
    mul_leads (Q := [keyOrValue]) (kind_leads (by decide)) (kind_leads (by decide))
  rw [attributeEntry_eq, add_mul, one_mul]
  apply add_le attributeValue_leads.2
  exact leads_mono (mul_leads hkey attributeValue_leads.1) (by decide) (by decide)

theorem shorthand_leads : shorthand.language ≤ Leads itemEnds itemEnds := by
  have hpairs (k : Kind) (hk : ∀ p ∈ itemEnds, ∃ q ∈ [afterMark], p.next? k = some q) :
      ({[k]} * {[.listText]}) * ({[k]} * {[.listText]})∗ ≤ Leads itemEnds itemEnds := by
    have hpair : {[k]} * {[.listText]} ≤ Leads itemEnds itemEnds :=
      mul_leads (kind_leads hk) (kind_leads (by decide))
    exact mul_leads hpair (kstar_leads hpair)
  have hlegacy : ({[.legacyIdStart]} * {[.listText]} * {[.legacyIdEnd]} : Language Kind) ≤
      Leads itemEnds itemEnds :=
    mul_leads (Q := [legacyText]) (mul_leads (Q := [legacyOpen]) (kind_leads (by decide))
      (kind_leads (by decide))) (kind_leads (by decide))
  rw [shorthand_eq]
  exact add_le (add_le (add_le hlegacy (hpairs _ (by decide))) (hpairs _ (by decide)))
    (hpairs _ (by decide))

theorem items_leads : items ≤ Leads itemEnds itemEnds := by
  have hmore : {[.comma]} * attributeEntry.language ≤ Leads entryEnds entryEnds :=
    mul_leads (Q := [beforeEntry]) (kind_leads (by decide))
      (leads_mono attributeEntry_leads (by decide) (by decide))
  have hentries : attributeEntry.language * ({[.comma]} * attributeEntry.language)∗ ≤
      Leads (beforeEntry :: itemEnds) entryEnds := mul_leads attributeEntry_leads (kstar_leads hmore)
  exact add_le shorthand_leads (leads_mono hentries (by decide) (by decide))

theorem attributeBlock_leads : attributeBlock.language ≤ Leads closed closed := by
  have hstart : ({[.listStart]} : Language Kind) ≤ Leads [lineStart] itemEnds := kind_leads (by decide)
  have hstop : ({[.listEnd]} : Language Kind) ≤ Leads itemEnds closed := kind_leads (by decide)
  rw [attributeBlock_eq, attributeList_eq]
  exact mul_leads newline_leads (mul_leads (mul_leads hstart (kstar_leads items_leads)) hstop)

theorem blocks_leads : blocks ≤ Leads closed closed := by
  have hempty : emptyLine.language ≤ Leads closed closed := by
    rw [emptyLine_eq]
    exact kind_leads (by decide)
  exact add_le (add_le (add_le headline_leads attributeBlock_leads) paragraph_leads) hempty

theorem document_leads : document.language ≤ Leads [between] [between, inText, lineStart] := by
  rw [document_eq, mul_add, mul_one]
  apply add_le
  · exact leads_mono (kstar_leads blocks_leads) (by decide) (by decide)
  · exact leads_mono (mul_leads (kstar_leads blocks_leads) newline_leads) (by decide) (by decide)

end Rule

namespace Place

open Rule

def openLine : Language Kind := blocks∗ * {[.newline]} * (1 + {[.headline]}) * {[.space]}∗

def openList : Language Kind := blocks∗ * {[.newline]} * {[.listStart]} * items∗

def openEntry : Language Kind := openList * (attributeEntry.language * {[.comma]})∗

def openValue : Language Kind := openEntry * (1 + {[.listText]} * {[.assignment]})

def prefixes : Place → Language Kind
  | between => blocks∗
  | inText => openLine * text.language
  | lineStart => blocks∗ * {[.newline]}
  | beforeText => openLine
  | item => openList
  | keyOrValue => openEntry * {[.listText]}
  | entryEnd => openEntry * attributeEntry.language
  | beforeEntry => openEntry
  | beforeValue => openEntry * {[.listText]} * {[.assignment]}
  | stringOpen => openValue * {[.stringStart]}
  | stringWord => openValue * {[.stringStart]} * ({[.stringText]} * ({[.space]} * {[.stringText]})∗)
  | stringGap =>
    openValue * {[.stringStart]} * ({[.stringText]} * ({[.space]} * {[.stringText]})∗) * {[.space]}
  | afterMark => openList * ({[.idMark]} + {[.roleMark]} + {[.optionMark]})
  | legacyOpen => openList * {[.legacyIdStart]}
  | legacyText => openList * {[.legacyIdStart]} * {[.listText]}

theorem text_mul_inlineText : text.language * {[.inlineText]} ≤ text.language := by
  have hword : ({[.inlineText]} : Language Kind) ≤ {[.inlineText]} * {[.space]}∗ :=
    le_mul_of_one_le_right' one_le_kstar
  rw [text_eq, mul_assoc]
  gcongr
  exact (mul_le_mul_right hword _).trans kstar_mul_le_kstar

theorem text_mul_space : text.language * {[.space]} ≤ text.language := by
  have hword : ({[.inlineText]} * {[.space]}∗ * {[.space]} : Language Kind) ≤
      {[.inlineText]} * {[.space]}∗ := by
    rw [mul_assoc]
    gcongr
    exact kstar_mul_le_kstar
  rw [text_eq, ← Language.mul_self_kstar_comm, mul_assoc]
  gcongr

theorem blocks_mul_le {L : Language Kind} (h : L ≤ blocks) : blocks∗ * L ≤ blocks∗ :=
  (mul_le_mul_right h _).trans kstar_mul_le_kstar

theorem openLine_mul_text : openLine * text.language ≤ blocks∗ := by
  have hparagraph : {[.newline]} * {[.space]}∗ * text.language ≤ blocks := by
    have h : {[.newline]} * {[.space]}∗ * text.language ≤ paragraph.language := by
      rw [paragraph_eq]
      exact le_mul_of_one_le_right' one_le_kstar
    exact h.trans (le_add_right (le_add_left le_rfl))
  have hheadline : {[.newline]} * {[.headline]} * {[.space]}∗ * text.language ≤ blocks := by
    rw [← headline_eq]
    exact le_add_right (le_add_right (le_add_right le_rfl))
  simp only [openLine, mul_add, add_mul, mul_one]
  apply add_le
  · simpa only [mul_assoc] using blocks_mul_le hparagraph
  · simpa only [mul_assoc] using blocks_mul_le hheadline

theorem openList_mul_listEnd : openList * {[.listEnd]} ≤ blocks∗ := by
  have hblock : {[.newline]} * ({[.listStart]} * items∗ * {[.listEnd]}) ≤ blocks := by
    rw [← attributeList_eq, ← attributeBlock_eq]
    exact le_add_right (le_add_right (le_add_left le_rfl))
  simpa only [openList, mul_assoc] using blocks_mul_le hblock

theorem openList_mul_le {L : Language Kind} (h : L ≤ items) : openList * L ≤ openList := by
  rw [openList, mul_assoc _ items∗]
  gcongr
  exact (mul_le_mul_right h _).trans kstar_mul_le_kstar

theorem openEntry_mul_entry : openEntry * attributeEntry.language ≤ openList := by
  have hslide : (attributeEntry.language * {[.comma]})∗ * attributeEntry.language ≤
      attributeEntry.language * ({[.comma]} * attributeEntry.language)∗ := by
    apply kstar_mul_le
    · exact le_mul_of_one_le_right' one_le_kstar
    · rw [mul_assoc, ← mul_assoc {[Kind.comma]}]
      gcongr
      exact mul_kstar_le_kstar
  rw [openEntry, mul_assoc]
  exact openList_mul_le (hslide.trans (le_add_left le_rfl))

theorem openEntry_mul_comma : openEntry * attributeEntry.language * {[.comma]} ≤ openEntry := by
  rw [openEntry, mul_assoc, mul_assoc]
  gcongr
  exact kstar_mul_le_kstar

theorem openList_le_openEntry : openList ≤ openEntry := le_mul_of_one_le_right' one_le_kstar

theorem openEntry_le_openValue : openEntry ≤ openValue :=
  le_mul_of_one_le_right' (le_add_right le_rfl)

theorem openValue_mul_value :
    openValue * attributeValue.language = openEntry * attributeEntry.language := by
  rw [openValue, attributeEntry_eq, mul_assoc]

theorem listText_le_value : {[.listText]} ≤ attributeValue.language := by
  rw [attributeValue_eq]
  exact le_add_left le_rfl

theorem listText_le_entry : {[.listText]} ≤ attributeEntry.language := by
  rw [attributeEntry_eq]
  exact listText_le_value.trans (le_mul_of_one_le_left' (le_add_right le_rfl))

theorem itemStart_prefixes {k : Kind} {q : Place} (h : itemStart? k = some q) :
    openList * {[k]} ≤ q.prefixes := by
  cases k <;> cases h
  case listEnd => exact openList_mul_listEnd
  case legacyIdStart => exact le_rfl
  case stringStart =>
    exact mul_le_mul_left (openList_le_openEntry.trans openEntry_le_openValue) _
  case listText => exact mul_le_mul_left openList_le_openEntry _
  case idMark => exact mul_le_mul_right (le_add_right (le_add_right le_rfl)) _
  case roleMark => exact mul_le_mul_right (le_add_right (le_add_left le_rfl)) _
  case optionMark => exact mul_le_mul_right (le_add_left le_rfl) _

theorem openValue_mul_string {L : Language Kind}
    (h : L ≤ 1 + {[.stringText]} * ({[.space]} * {[.stringText]})∗) :
    openValue * {[.stringStart]} * L * {[.stringEnd]} ≤ entryEnd.prefixes := by
  have hvalue : {[.stringStart]} * L * {[.stringEnd]} ≤ attributeValue.language := by
    rw [attributeValue_eq]
    refine le_add_right ?_
    gcongr
  rw [prefixes, ← openValue_mul_value]
  simpa only [mul_assoc] using mul_le_mul_right hvalue openValue

theorem lineEnd_prefixes {L : Language Kind} (h : L ≤ blocks∗) :
    L * {[.newline]} ≤ lineStart.prefixes ∧ L * {[.emptyLine]} ≤ between.prefixes := by
  refine ⟨mul_le_mul_left h _, (mul_le_mul_left h _).trans (blocks_mul_le ?_)⟩
  rw [← emptyLine_eq]
  exact le_add_left le_rfl

theorem inText_prefixes {k : Kind} {q : Place} (h : inText.next? k = some q) :
    inText.prefixes * {[k]} ≤ q.prefixes := by
  cases k <;> cases h
  case inlineText =>
    rw [prefixes, mul_assoc]
    exact mul_le_mul_right text_mul_inlineText _
  case space =>
    rw [prefixes, mul_assoc]
    exact mul_le_mul_right text_mul_space _
  case newline => exact (lineEnd_prefixes openLine_mul_text).1
  case emptyLine => exact (lineEnd_prefixes openLine_mul_text).2

theorem openLine_mul_space : openLine * {[.space]} ≤ openLine := by
  rw [openLine, mul_assoc]
  exact mul_le_mul_right kstar_mul_le_kstar _

theorem openLine_mul_inlineText : openLine * {[.inlineText]} ≤ inText.prefixes := by
  apply mul_le_mul_right
  rw [text_eq, mul_assoc]
  exact le_mul_of_one_le_right' (one_le_mul one_le_kstar one_le_kstar)

theorem lineStart_prefixes {k : Kind} {q : Place} (h : lineStart.next? k = some q) :
    lineStart.prefixes * {[k]} ≤ q.prefixes := by
  have hopen : lineStart.prefixes ≤ openLine := by
    rw [openLine, mul_assoc]
    exact le_mul_of_one_le_right' (one_le_mul (le_add_right le_rfl) one_le_kstar)
  cases k <;> cases h
  case headline =>
    rw [prefixes, prefixes, openLine]
    exact (mul_le_mul_right (le_add_left le_rfl) _).trans (le_mul_of_one_le_right' one_le_kstar)
  case listStart => exact le_mul_of_one_le_right' one_le_kstar
  case space => exact (mul_le_mul_left hopen _).trans openLine_mul_space
  case inlineText => exact (mul_le_mul_left hopen _).trans openLine_mul_inlineText

theorem entry_prefixes {L : Language Kind} (h : L ≤ openEntry * attributeEntry.language) :
    (∀ {k q}, itemStart? k = some q → L * {[k]} ≤ q.prefixes) ∧ L * {[.comma]} ≤ beforeEntry.prefixes := by
  constructor
  · intro k q hq
    exact (mul_le_mul_left (h.trans openEntry_mul_entry) _).trans (itemStart_prefixes hq)
  · exact (mul_le_mul_left h _).trans openEntry_mul_comma

theorem beforeValue_prefixes {k : Kind} {q : Place} (h : beforeValue.next? k = some q) :
    beforeValue.prefixes * {[k]} ≤ q.prefixes := by
  have hvalue : beforeValue.prefixes ≤ openValue := by
    rw [prefixes, mul_assoc]
    exact mul_le_mul_right (le_add_left le_rfl) _
  cases k <;> cases h
  case listText =>
    change _ ≤ openEntry * attributeEntry.language
    rw [← openValue_mul_value]
    exact mul_le_mul' hvalue listText_le_value
  case stringStart => exact mul_le_mul_left hvalue _

theorem stringOpen_prefixes {k : Kind} {q : Place} (h : stringOpen.next? k = some q) :
    stringOpen.prefixes * {[k]} ≤ q.prefixes := by
  cases k <;> cases h
  case stringText =>
    rw [prefixes, prefixes]
    gcongr
    exact le_mul_of_one_le_right' one_le_kstar
  case stringEnd =>
    have hempty := openValue_mul_string (L := 1) (le_add_right le_rfl)
    rwa [mul_one] at hempty

theorem stringGap_prefixes : stringGap.prefixes * {[.stringText]} ≤ stringWord.prefixes := by
  rw [prefixes, prefixes]
  simp only [mul_assoc]
  gcongr
  simpa only [mul_assoc] using kstar_mul_le_kstar (a := ({[.space]} * {[.stringText]} : Language Kind))

theorem afterMark_prefixes : afterMark.prefixes * {[.listText]} ≤ item.prefixes := by
  have hpair (k : Kind) (hk : {[k]} * {[.listText]} ≤ shorthand.language) :
      openList * {[k]} * {[.listText]} ≤ openList := by
    rw [mul_assoc]
    exact openList_mul_le (hk.trans (le_add_right le_rfl))
  have hone {L : Language Kind} : L ≤ L * L∗ := le_mul_of_one_le_right' one_le_kstar
  simp only [prefixes, mul_add, add_mul]
  refine add_le (add_le (hpair _ ?_) (hpair _ ?_)) (hpair _ ?_) <;> rw [shorthand_eq]
  · exact le_add_right (le_add_right (le_add_left hone))
  · exact le_add_right (le_add_left hone)
  · exact le_add_left hone

theorem legacyText_prefixes : legacyText.prefixes * {[.legacyIdEnd]} ≤ item.prefixes := by
  have hlegacy : {[.legacyIdStart]} * {[.listText]} * {[.legacyIdEnd]} ≤ items := by
    refine le_add_right ?_
    rw [shorthand_eq]
    exact le_add_right (le_add_right (le_add_right le_rfl))
  simpa only [prefixes, mul_assoc] using openList_mul_le hlegacy

theorem next_prefixes {p q : Place} {k : Kind} (h : p.next? k = some q) :
    p.prefixes * {[k]} ≤ q.prefixes := by
  cases p with
  | between =>
    cases k <;> cases h
    case newline.refl => exact le_rfl
    case emptyLine.refl => exact (lineEnd_prefixes le_rfl).2
  | inText => exact inText_prefixes h
  | lineStart => exact lineStart_prefixes h
  | beforeText =>
    cases k <;> cases h
    case space.refl => exact openLine_mul_space
    case inlineText.refl => exact openLine_mul_inlineText
  | item => exact itemStart_prefixes h
  | keyOrValue =>
    have hentry := entry_prefixes (mul_le_mul_right listText_le_entry openEntry)
    cases k
    case assignment =>
      cases h
      exact le_rfl
    case comma =>
      cases h
      exact hentry.2
    all_goals exact hentry.1 h
  | entryEnd =>
    cases k
    case comma =>
      cases h
      exact (entry_prefixes le_rfl).2
    all_goals exact (entry_prefixes le_rfl).1 h
  | beforeEntry =>
    cases k <;> cases h
    case listText.refl => exact le_rfl
    case stringStart.refl => exact mul_le_mul_left openEntry_le_openValue _
  | beforeValue => exact beforeValue_prefixes h
  | stringOpen => exact stringOpen_prefixes h
  | stringWord =>
    cases k <;> cases h
    case space.refl => exact le_rfl
    case stringEnd.refl => exact openValue_mul_string (le_add_left le_rfl)
  | stringGap =>
    cases k <;> cases h
    exact stringGap_prefixes
  | afterMark =>
    cases k <;> cases h
    exact afterMark_prefixes
  | legacyOpen =>
    cases k <;> cases h
    exact le_rfl
  | legacyText =>
    cases k <;> cases h
    exact legacyText_prefixes

theorem walk_prefixes {p q : Place} {ks us : List Kind} (h : p.walk ks = some q)
    (hus : us ∈ p.prefixes) : us ++ ks ∈ q.prefixes := by
  induction ks generalizing p us with
  | nil =>
    cases h
    rwa [List.append_nil]
  | cons k ks ih =>
    rw [walk_cons] at h
    obtain ⟨r, hr, hq⟩ := Option.bind_eq_some_iff.mp h
    have hstep : us ++ [k] ∈ r.prefixes := next_prefixes hr (Language.append_mem_mul hus rfl)
    simpa only [List.append_assoc, List.singleton_append] using ih hq hstep

theorem prefixes_le_document {q : Place} (h : q.isEnd = true) : q.prefixes ≤ document.language := by
  have hblocks : blocks∗ ≤ document.language := by
    rw [document_eq]
    exact le_mul_of_one_le_right' (le_add_right le_rfl)
  cases q <;> simp only [isEnd, Bool.false_eq_true] at h
  case between => exact hblocks
  case inText => exact openLine_mul_text.trans hblocks
  case lineStart =>
    rw [document_eq]
    exact mul_le_mul_right (le_add_left le_rfl) _

theorem accepts_iff_derives (ks : List Kind) : Accepts ks ↔ Derives .document ks := by
  constructor
  · rintro ⟨q, hq, hend⟩
    have hnil : [] ∈ between.prefixes := Language.nil_mem_kstar blocks
    exact prefixes_le_document hend (walk_prefixes hq hnil)
  · intro h
    obtain ⟨q, hq, hwalk⟩ := document_leads h between (by simp)
    refine ⟨q, hwalk, ?_⟩
    simp only [List.mem_cons, List.not_mem_nil, or_false] at hq
    rcases hq with rfl | rfl | rfl <;> rfl

end Place

end AsciiDoc
