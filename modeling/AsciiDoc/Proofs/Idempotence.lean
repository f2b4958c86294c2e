import AsciiDoc.Proofs.ParsedDocuments
import AsciiDoc.Proofs.RoundTrip

namespace AsciiDoc

namespace Document

def QuoteFree (d : Document) : Prop := ∀ b ∈ d.attributeBlocks, ∀ a ∈ b.list.attributes, a.QuoteFree

instance (d : Document) : Decidable d.QuoteFree := by
  unfold QuoteFree Attribute.QuoteFree
  infer_instance

theorem mem_attributeBlocks {d : Document} {b : AttributeBlock} :
    b ∈ d.attributeBlocks ↔ .attributes b ∈ d.blocks := by
  rw [attributeBlocks, List.mem_filterMap]
  constructor
  · rintro ⟨e, he, heq⟩
    cases e <;> cases heq
    exact he
  · intro hb
    exact ⟨_, hb, rfl⟩

theorem QuoteFree.block {d : Document} (h : d.QuoteFree) : ∀ b ∈ d.blocks, b.QuoteFree := by
  intro b hb
  cases b with
  | attributes b => exact h b (mem_attributeBlocks.mpr hb)
  | _ => trivial

theorem wellFormed_of_parse {c : Config} {text : Text} {d : Document} (h : parse c text = .ok d)
    (hquotes : d.QuoteFree) : d.WellFormed := by
  obtain ⟨hlexical, hapart⟩ := lexical_of_parse h
  exact ⟨fun b hb => (hlexical b hb).wellFormed (hquotes.block b hb), hapart⟩

theorem format_print_eq {d : Document} (h : d.WellFormed) (hmarked : ∀ b ∈ d.blocks, b.Marked) (c f : Config) :
    format c (d.print f) = .ok ((d.canonical f).print c) := by
  have hparse : parse c (d.print f) = .ok (ofPieces (d.printedPieces f)) := parse_print h hmarked f c.legacyIds
  have hprint : (ofPieces (d.printedPieces f)).print c = (d.canonical f).print c := calc
    _ = (ofPieces (d.printedPieces f)).bare.print c := (print_bare _ c).symm
    _ = (d.canonical f).bare.print c := by rw [bare_printedPieces h hmarked f]
    _ = (d.canonical f).print c := print_bare _ c
  rw [format, hparse]
  exact congrArg Except.ok hprint

theorem format_print {d : Document} (h : d.WellFormed) (hmarked : ∀ b ∈ d.blocks, b.Marked)
    (hcore : d.core = d.blocks) (c : Config) (legacyIds : Bool) :
    format { c with legacyIds } (d.print c) = .ok (d.print c) := by
  rw [format_print_eq h hmarked]
  exact congrArg Except.ok (print_canonical h hcore c)

/-- Formatting is idempotent, and a formatted text stays as it is when ids in brackets are no longer
read. -/
theorem format_idempotent {c : Config} {text : Text} {d : Document} (h : parse c text = .ok d)
    (hquotes : d.QuoteFree) :
    format c (d.print c) = .ok (d.print c) ∧
      format { c with legacyIds := false } (d.print c) = .ok (d.print c) := by
  have hwf := wellFormed_of_parse h hquotes
  have hmarked := marked_of_parse h
  have hcore := core_of_parse h
  exact ⟨format_print hwf hmarked hcore c c.legacyIds, format_print hwf hmarked hcore c false⟩

theorem format_idempotent_indented :
    ∃ d, parse {} "\n[[i]]\n[b=\"c, d\",role=g#j.k]\n   = x  z\ny\n".toList = .ok d ∧ d.QuoteFree ∧
      d.print {} = "[#i]\n[b=\"c, d\"#j.g.k]\n  = x z\n  y\n".toList ∧
      format {} (d.print {}) = .ok (d.print {}) ∧
      format { legacyIds := false } (d.print {}) = .ok (d.print {}) := by
  have hparse : (parse {} "\n[[i]]\n[b=\"c, d\",role=g#j.k]\n   = x  z\ny\n".toList).toOption.any
      (fun d => d.QuoteFree ∧ d.print {} = "[#i]\n[b=\"c, d\"#j.g.k]\n  = x z\n  y\n".toList) = true := by
    decide +kernel
  generalize htext : parse {} _ = result at hparse ⊢
  cases result with
  | error e => cases hparse
  | ok d =>
    obtain ⟨hquotes, hprint⟩ := of_decide_eq_true hparse
    exact ⟨d, rfl, hquotes, hprint, format_idempotent htext hquotes⟩

end Document

end AsciiDoc
