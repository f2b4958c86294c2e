import AsciiDoc.Proofs.Idempotence

namespace AsciiDoc

variable {c f : Config}

theorem AttributeList.canonical_of_formal (hstyle : ∀ m, f.style m = .formal) (l : AttributeList) :
    l.canonical f = l := by
  have hlong (a : Attribute) (m : Mark) : a.isShort f m = false := by simp [Attribute.isShort, hstyle m]
  have hformal : l.formal f = l.attributes := by
    apply List.filter_eq_self.mpr
    intro a _
    simp only [hlong, Bool.or_self, Bool.not_false]
  have hnone (m : Mark) : l.gathered f m = [] := by simp [gathered, short, hlong]
  simp only [canonical, hformal, hnone, List.append_nil]

theorem Block.print_canonical_of_formal (hstyle : ∀ m, f.style m = .formal)
    (hindent : f.literalIndent = c.literalIndent) (b : Block) : (b.canonical f).print c = b.print c := by
  cases b with
  | headline h => rfl
  | emptyLine l => rfl
  | paragraph p =>
    have hcanonical : p.canonical f = p.canonical c := by rw [Paragraph.canonical, Paragraph.canonical, hindent]
    rw [canonical, hcanonical]
    exact p.print_canonical c
  | attributes b => rw [canonical, AttributeList.canonical_of_formal hstyle]

namespace Document

theorem print_canonical_of_formal (hstyle : ∀ m, f.style m = .formal)
    (hindent : f.literalIndent = c.literalIndent) {d : Document} (hcore : d.core = d.blocks) :
    (d.canonical f).print c = d.print c := by
  rw [canonical, hcore]
  apply print_map
  intro b _
  exact ⟨b.print_canonical_of_formal hstyle hindent, b.isEmptyLine_canonical f⟩

/-- A text that is first formatted with all attributes as entries, and then in another style, becomes what it
would have become at once. -/
theorem format_after_formal_pass (hstyle : ∀ m, f.style m = .formal)
    (hindent : f.literalIndent = c.literalIndent) (hlegacy : f.legacyIds = c.legacyIds) {text : Text}
    {d : Document} (h : parse c text = .ok d) (hquotes : d.QuoteFree) :
    ∃ out, format f text = .ok out ∧ format c out = format c text := by
  have hwf := wellFormed_of_parse h hquotes
  have hparse : parse f text = .ok d := by
    rw [← h, parse, parse, hlegacy]
  refine ⟨d.print f, ?_, ?_⟩
  · rw [format, hparse]
    rfl
  · rw [format_print_eq hwf (marked_of_parse h), print_canonical_of_formal hstyle hindent (core_of_parse h), format, h]
    rfl

theorem format_after_formal_pass_gathering :
    let text := "[role=\"s t\",x=\"y, z\",id=h,role=\"u.v\",role=w#a.r%p#b]\n[[b]]\n  =q  q\n".toList
    let f : Config := { idStyle := .formal, roleStyle := .formal, optionStyle := .formal, alwaysQuote := true }
    format {} text = .ok "[x=\"y, z\",role=\"u.v\"#h#a#b.s.t.w.r%p]\n[#b]\n  =q q\n".toList ∧
      ∃ d out, parse {} text = .ok d ∧ d.QuoteFree ∧ format f text = .ok out ∧
        format {} out = format {} text := by
  intro text f
  have hparse : (parse {} text).toOption.any (fun d => d.QuoteFree) = true := by decide +kernel
  refine ⟨by decide +kernel, ?_⟩
  generalize htext : parse {} text = result at hparse ⊢
  cases result with
  | error e => cases hparse
  | ok d =>
    have hquotes : d.QuoteFree := of_decide_eq_true hparse
    have hstyle (m : Mark) : f.style m = .formal := by cases m <;> rfl
    obtain ⟨out, hout, heq⟩ := format_after_formal_pass (c := {}) hstyle rfl rfl htext hquotes
    exact ⟨d, out, rfl, hquotes, hout, heq⟩

end Document

end AsciiDoc
