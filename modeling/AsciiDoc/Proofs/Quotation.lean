import AsciiDoc.Proofs.Idempotence
import AsciiDoc.Proofs.PrintedLines

/-!
Whether a formatted text can be read. There is no way to write a quote between quotes, so a value that
holds one may be printed as a text that is read otherwise or not at all. Headlines, paragraphs and empty
lines can always be read, hence it depends on the attribute lists alone; a list is read as the tokens that
were printed exactly if its quotes are safe.
-/

namespace AsciiDoc

open LineClass Piece

section Decidable

instance (p : Piece) (rest : Text) : Decidable (p.Safe rest) := inferInstanceAs (Decidable (_ ∧ _))

instance decidableQuoteSafe (s : Text) : (ps : List Piece) → Decidable (QuoteSafe s ps)
  | [] => isTrue trivial
  | _ :: ps => @instDecidableAnd _ _ inferInstance (decidableQuoteSafe s ps)

end Decidable

namespace Lexer

theorem legacyId_notMem_shift {modes : ModeStack} {k : Kind} (h : Mode.legacyId ∉ modes.entered)
    (hk : k ≠ .legacyIdStart) : Mode.legacyId ∉ (modes.shift (Lexeme.shiftOf k)).entered := by
  obtain ⟨entered⟩ := modes
  have hpop : Mode.legacyId ∉ (ModeStack.pop ⟨entered⟩).2.entered := by
    cases entered with
    | nil => exact h
    | cons m rest => exact fun hmem => h (List.mem_cons_of_mem m hmem)
  cases k with
  | listStart | stringStart => simpa [Lexeme.shiftOf, ModeStack.shift, ModeStack.push] using h
  | legacyIdStart => exact absurd rfl hk
  | listEnd | legacyIdEnd | stringEnd => exact hpop
  | _ => exact h

theorem current_ne_legacyId {modes : ModeStack} (h : Mode.legacyId ∉ modes.entered) :
    modes.current ≠ .legacyId := by
  obtain ⟨_ | ⟨m, rest⟩⟩ := modes
  · nofun
  · exact fun hm => h (hm ▸ List.mem_cons_self)

theorem closesOnLine_of_listText {mode : Mode} {lineStart : Bool} {cs : Text} {l : Lexeme}
    (hmode : mode ≠ .legacyId) (h : Lexeme.next? mode lineStart '"' cs = some l) (hk : l.kind = .listText) :
    Lexeme.closesOnLine cs = false := by
  cases mode with
  | root =>
    cases Lexeme.next_of_eq h
    cases hk
  | legacyId => exact absurd rfl hmode
  | string => cases Lexeme.next_of_eq h <;> cases hk
  | attributeList =>
    cases hcloses : Lexeme.closesOnLine cs with
    | false => rfl
    | true =>
      simp only [Lexeme.next?, Lexeme.inList, hcloses] at h
      cases h
      cases hk

theorem Reads.quoteSafe {legacyIds : Bool} {a b : State} {s t : Text} {ps : List Piece}
    (h : Reads legacyIds a s ps b t) (hmodes : Mode.legacyId ∉ a.modes.entered)
    (hkinds : ∀ p ∈ ps, p.kind ≠ .legacyIdStart) : QuoteSafe t ps := by
  induction h with
  | done => trivial
  | @step a b c cs s l ps hread hrest ih =>
    obtain ⟨hk, hkinds⟩ := List.forall_mem_cons.mp hkinds
    have hnext := next_of_read hread
    have hafter : Mode.legacyId ∉ (a.after l.shift (c :: cs.take l.extra)).modes.entered := by
      rw [State.after, (Lexeme.next_of_eq hnext).shift_eq]
      exact legacyId_notMem_shift hmodes hk
    refine ⟨⟨?_, ?_⟩, ih hafter hkinds⟩
    · intro hstring hquote
      have hproper := (Lexeme.found_next hnext).proper
      rw [Proper, show l.kind = .stringText from hstring] at hproper
      exact (hproper.2 '"' hquote).2 rfl
    · intro hlist hhead
      obtain rfl : c = '"' := Option.some.inj hhead
      rw [← hrest.source_eq, List.tail_cons, List.take_append_drop]
      exact closesOnLine_of_listText (current_ne_legacyId hmodes) hnext hlist

end Lexer

namespace AttributeList

/-- As the list is printed, no value between quotes holds a quote, and no key or bare value that begins with
a quote has another one behind it. -/
def QuoteSafe (c : Config) (l : AttributeList) : Prop := Piece.QuoteSafe [] (l.pieces c)

instance (c : Config) (l : AttributeList) : Decidable (l.QuoteSafe c) :=
  inferInstanceAs (Decidable (Piece.QuoteSafe [] (l.pieces c)))

variable {l : AttributeList} {c : Config}

theorem normalize_print (l : AttributeList) (c : Config) :
    normalize (l.print c) = source (newline :: l.pieces c) := by
  have hclass : of (l.print c) = .attributes := rfl
  rw [normalize_attributes hclass (l.endsInk_print c), source_cons, l.source_pieces c]
  exact List.append_nil _

theorem reads_print (h : ∀ a ∈ l.attributes, a.Lexical) (hsafe : l.QuoteSafe c) (legacyIds : Bool) :
    Lexer.Reads legacyIds (.root false) (normalize (l.print c)) (newline :: l.pieces c) (.root false) [] := by
  rw [normalize_print, ← List.append_nil (source _)]
  exact Lexer.reads_attributes h c false hsafe

theorem tokenize_print_iff (h : ∀ a ∈ l.attributes, a.Lexical) (legacyIds : Bool) :
    tokenize legacyIds (normalize (l.print c)) = .ok (place 0 (newline :: l.pieces c)) ↔ l.QuoteSafe c := by
  rw [tokenize_eq_ok_iff]
  constructor
  · rintro ⟨ps, b, hreads, hplace⟩
    obtain rfl : newline :: l.pieces c = ps := by
      rw [← map_piece_place 0 (newline :: l.pieces c), hplace, map_piece_place]
    have hkinds : ∀ p ∈ newline :: l.pieces c, p.kind ≠ .legacyIdStart :=
      List.forall_mem_cons.mpr ⟨nofun, fun p hp => (mem_pieces hp).1⟩
    exact (hreads.quoteSafe nofun hkinds).2
  · intro hsafe
    exact ⟨_, _, reads_print h hsafe legacyIds, rfl⟩

theorem exists_parse_print (h : ∀ a ∈ l.attributes, a.Lexical) (hsafe : l.QuoteSafe c) :
    ∃ d, parse c (l.print c) = .ok d := by
  obtain ⟨q, hq, hwalk⟩ := Place.list_mem_leads c l .lineStart (by simp)
  have haccepts : Place.Accepts ((newline :: l.pieces c).map Piece.kind) := by
    refine ⟨q, hwalk, ?_⟩
    rw [List.mem_singleton.mp hq]
    rfl
  exact ⟨_, (parse_eq_ok_iff c _ _).mpr ⟨_, _, reads_print h hsafe c.legacyIds, haccepts, rfl⟩⟩

theorem fine_print_iff (l : AttributeList) (c : Config) :
    Fine c (l.print c) ↔ ∃ d, parse c (l.print c) = .ok d :=
  and_iff_right (l.endsInk_print c)

end AttributeList

namespace Document

theorem exists_parse_print_iff_fine {d : Document} (h : ∀ b ∈ d.blocks, b.Lexical) (hcore : d.core = d.blocks)
    (hne : d.blocks ≠ []) (c : Config) :
    (∃ e, parse c (d.print c) = .ok e) ↔ ∀ m ∈ d.printedLines c, Fine c m := by
  have hnormal : normalize (d.print c) = Text.ofLines (d.printedLines c) := by
    rw [normalize_print h (hcore ▸ hne), hcore, ofLines_printedLines]
  apply exists_parse_iff_fine hnormal (newline_notMem_printedLines h c)
  intro hnewline
  obtain ⟨ch, hch, hblank⟩ := endsInk_core h (hcore ▸ hne) c
  rw [hcore, ofLines_printedLines, ← hnormal, hnewline] at hch
  cases hch
  cases hblank

end Document

namespace Block

theorem fine_of_wellFormed {b : Block} (h : b.WellFormed) (hmarked : b.Marked)
    (hempty : b.isEmptyLine = false) (c : Config) : ∀ m ∈ b.printedLines c, Fine c m := by
  -- The block alone is a document that is read back.
  let d : Document := ⟨[b], .unresolved⟩
  have hd : d.WellFormed := ⟨List.forall_mem_singleton.mpr h, List.isChain_singleton _⟩
  have hcore : d.core = d.blocks := by simp [d, Document.core, hempty]
  have hlines : d.printedLines c = b.printedLines c := List.flatMap_singleton _ _
  have hlexical : ∀ b ∈ d.blocks, b.Lexical := fun b hb => (hd.blocks b hb).lexical
  have hfine := Document.exists_parse_print_iff_fine hlexical hcore (by simp [d]) c
  rw [← hlines]
  exact hfine.mp ⟨_, Document.parse_print hd (List.forall_mem_singleton.mpr hmarked) c c.legacyIds⟩

theorem fine_printedLines_iff {b : Block} (h : b.Lexical) (hmarked : b.Marked) (c : Config) :
    (∀ m ∈ b.printedLines c, Fine c m) ↔
    ∀ block, b = .attributes block → ∃ d, parse c (block.list.print c) = .ok d := by
  cases b with
  | headline head => exact iff_of_true (fine_of_wellFormed (b := .headline head) h hmarked rfl c) nofun
  | paragraph p => exact iff_of_true (fine_of_wellFormed (b := .paragraph p) h trivial rfl c) nofun
  | emptyLine l => exact iff_of_true (List.forall_mem_singleton.mpr trivial) nofun
  | attributes block =>
    rw [printedLines, List.forall_mem_singleton, AttributeList.fine_print_iff]
    simp

end Block

namespace Document

variable {c : Config} {text : Text} {d : Document}

theorem exists_parse_print_iff (h : parse c text = .ok d) : (∃ e, parse c (d.print c) = .ok e) ↔
    ∀ b ∈ d.attributeBlocks, ∃ e, parse c (b.list.print c) = .ok e := by
  obtain ⟨hlexical, hapart⟩ := lexical_of_parse h
  have hmarked := marked_of_parse h
  by_cases hne : d.blocks = []
  · have hwf : d.WellFormed := ⟨by simp [hne], hapart⟩
    exact iff_of_true ⟨_, parse_print hwf hmarked c c.legacyIds⟩ (by simp [attributeBlocks, hne])
  · rw [exists_parse_print_iff_fine hlexical (core_of_parse h) hne, printedLines, List.forall_mem_flatMap]
    simp only [mem_attributeBlocks]
    constructor
    · intro hfine block hblock
      exact (Block.fine_printedLines_iff (hlexical _ hblock) (hmarked _ hblock) c).mp (hfine _ hblock) block rfl
    · intro hparse b hb
      rw [Block.fine_printedLines_iff (hlexical b hb) (hmarked b hb) c]
      rintro block rfl
      exact hparse block hb

end Document

/-- A formatted text can be formatted again if the quotes in its attribute lists are safe, and in any case
exactly if each list alone can be read. The lists with safe quotes are those that are read as the tokens
that were printed. -/
theorem format_reads_again {c : Config} {text out : Text} (h : format c text = .ok out) :
    ∃ d, parse c text = .ok d ∧ d.print c = out ∧
      ((∀ b ∈ d.attributeBlocks, b.list.QuoteSafe c) → ∃ again, format c out = .ok again) ∧
      ((∃ again, format c out = .ok again) ↔ ∀ b ∈ d.attributeBlocks, ∃ e, parse c (b.list.print c) = .ok e) ∧
      ∀ b ∈ d.attributeBlocks, b.list.QuoteSafe c ↔
        tokenize c.legacyIds (normalize (b.list.print c)) = .ok (place 0 (newline :: b.list.pieces c)) := by
  obtain ⟨d, hd, rfl⟩ := format_eq_ok_iff.mp h
  have hlexical : ∀ b ∈ d.attributeBlocks, ∀ a ∈ b.list.attributes, a.Lexical := by
    intro b hb
    exact (Document.lexical_of_parse hd).1 _ (Document.mem_attributeBlocks.mp hb)
  have hagain : (∃ again, format c (d.print c) = .ok again) ↔
      ∀ b ∈ d.attributeBlocks, ∃ e, parse c (b.list.print c) = .ok e := by
    rw [← Document.exists_parse_print_iff hd]
    simp only [format_eq_ok_iff]
    exact ⟨fun ⟨_, e, he, _⟩ => ⟨e, he⟩, fun ⟨e, he⟩ => ⟨_, e, he, rfl⟩⟩
  refine ⟨d, hd, rfl, ?_, hagain, ?_⟩
  · intro hsafe
    rw [hagain]
    intro b hb
    exact AttributeList.exists_parse_print (hlexical b hb) (hsafe b hb)
  · intro b hb
    exact (AttributeList.tokenize_print_iff (hlexical b hb) c.legacyIds).symm

theorem format_reads_again_bare :
    let text := "[id=i,k=\"v w\",x=a\"b,\"q.r]\n  y".toList
    let out := "[k=\"v w\",x=a\"b,\"q#i.r]\n  y\n".toList
    format {} text = .ok out ∧ ∃ d, parse {} text = .ok d ∧
      (∀ b ∈ d.attributeBlocks, b.list.QuoteSafe {}) ∧ ∃ again, format {} out = .ok again := by
  intro text out
  have hformat : format {} text = .ok out := by decide +kernel
  obtain ⟨d, hd, -, hagain, -⟩ := format_reads_again hformat
  have hsafe : (parse {} text).toOption.any (fun d => ∀ b ∈ d.attributeBlocks, b.list.QuoteSafe {}) = true := by
    decide +kernel
  rw [hd] at hsafe
  have hsafe := of_decide_eq_true hsafe
  exact ⟨hformat, d, hd, hsafe, hagain hsafe⟩

/-- Two ids are written between quotes although one of them holds a quote, or behind a value that begins with
one. -/
theorem format_fails_again :
    format {} "[#a\"b#c]".toList = .ok "[id=\"a\"b c\"]\n".toList ∧
      (∃ e, format {} "[id=\"a\"b c\"]\n".toList = .error e) ∧
      format { idStyle := .formal } "[\"a#b#c]".toList = .ok "[\"a,id=\"b c\"]\n".toList ∧
      ∃ e, format { idStyle := .formal } "[\"a,id=\"b c\"]\n".toList = .error e := by
  have hfails {c : Config} {text : Text} (h : (parse c text).toOption.isSome = false) :
      ∃ e, format c text = .error e := by
    rw [format_eq_error_iff]
    rintro ⟨d, hd⟩
    rw [hd] at h
    cases h
  exact ⟨by decide +kernel, hfails (by decide +kernel), by decide +kernel, hfails (by decide +kernel)⟩

end AsciiDoc
