import AsciiDoc.Proofs.Normalization

namespace AsciiDoc

theorem Text.suffix_two_newlines_iff (s : Text) : ['\n', '\n'] <:+ s ++ ['\n'] ↔ s.getLast? = some '\n' := by
  rw [List.getLast?_eq_some_iff]
  constructor
  · rintro ⟨t, ht⟩
    have hs : t ++ ['\n'] ++ ['\n'] = s ++ ['\n'] := by rw [← ht, List.append_assoc]; rfl
    exact ⟨t, (List.append_cancel_right hs).symm⟩
  · rintro ⟨t, rfl⟩
    exact ⟨t, by rw [List.append_assoc]; rfl⟩

namespace Block

theorem getLast?_print_iff {b : Block} (h : b.Inked) (c : Config) :
    (b.print c).getLast? = some '\n' ↔ b.isEmptyLine = true := by
  cases hempty : b.isEmptyLine with
  | true =>
    cases b <;> cases hempty
    simp [print]
  | false =>
    obtain ⟨ch, hch, hink⟩ := b.endsInk h hempty c
    simp only [hch, Option.some.injEq, Bool.false_eq_true, iff_false]
    rintro rfl
    rw [Text.isBlank_newline] at hink
    cases hink

theorem print_ne_nil {b : Block} (h : b.Inked) (c : Config) : b.print c ≠ [] := by
  cases hempty : b.isEmptyLine with
  | true => cases b <;> cases hempty; exact List.cons_ne_nil _ _
  | false =>
    obtain ⟨indent, ch, s, hprint, -⟩ := b.print_eq_cons h hempty c
    rw [hprint]
    exact List.cons_ne_nil _ _

end Block

namespace Document

variable {d : Document}

theorem print_cases (h : ∀ b ∈ d.blocks, b.Inked) (c : Config) :
    d.print c = ['\n'] ∨ ∃ body : Text, d.print c = body ++ ['\n'] ∧ body ≠ [] ∧ body.head? ≠ some '\n' ∧
      (body.getLast? = some '\n' ↔ ∃ b ∈ d.blocks.getLast?, b.isEmptyLine = true) := by
  have hsuffix := List.dropWhile_suffix Block.isEmptyLine (l := d.blocks)
  have hfirst := List.head?_dropWhile_not Block.isEmptyLine d.blocks
  cases hblocks : d.blocks.dropWhile Block.isEmptyLine with
  | nil =>
    left
    rw [print, hblocks]
    rfl
  | cons b bs =>
    right
    rw [hblocks] at hsuffix hfirst
    have hinked : ∀ e ∈ b :: bs, e.Inked := fun e he => h e (hsuffix.subset he)
    obtain ⟨indent, ch, s, hprint, hindent, hink⟩ := b.print_eq_cons (hinked b List.mem_cons_self) hfirst c
    have hall : (b :: bs).flatMap (Block.print c) = '\n' :: (indent ++ ch :: (s ++ bs.flatMap (Block.print c))) := by
      rw [List.flatMap_cons, hprint]
      simp
    have hne : indent ++ ch :: (s ++ bs.flatMap (Block.print c)) ≠ [] := by simp
    refine ⟨_, by rw [print, hblocks, hall]; rfl, hne, ?_, ?_⟩
    · intro hnewline
      cases indent with
      | nil =>
        cases hnewline
        cases hink
      | cons e indent =>
        cases hnewline
        cases hindent '\n' List.mem_cons_self
    · obtain ⟨init, e, hlast⟩ := (List.eq_nil_or_concat' (b :: bs)).resolve_left (List.cons_ne_nil b bs)
      have he : e.Inked := hinked e (by simp [hlast])
      obtain ⟨front, hfront⟩ := hsuffix
      rw [← List.getLast?_cons_of_ne_nil (x := '\n') hne, ← hall, hlast, List.flatMap_append,
        List.flatMap_singleton, List.getLast?_append_of_ne_nil _ (e.print_ne_nil he c), e.getLast?_print_iff he,
        ← hfront, hlast, ← List.append_assoc, List.getLast?_concat]
      simp

/-- A printed document ends with a newline. Unless that is all, it does not begin with one, and it ends with two
exactly if its last block is an empty line. -/
theorem ends_of_print (h : ∀ b ∈ d.blocks, b.Inked) (c : Config) :
    (d.print c).getLast? = some '\n' ∧
      (d.print c ≠ ['\n'] → (d.print c).head? ≠ some '\n' ∧
        (['\n', '\n'] <:+ d.print c ↔ ∃ b ∈ d.blocks.getLast?, b.isEmptyLine = true)) := by
  rcases print_cases h c with hnewline | ⟨body, hbody, hne, hhead, hlast⟩
  · rw [hnewline]
    exact ⟨rfl, fun hnot => absurd rfl hnot⟩
  · rw [hbody, List.getLast?_concat, List.head?_append_of_ne_nil _ hne, Text.suffix_two_newlines_iff]
    exact ⟨rfl, fun _ => ⟨hhead, hlast⟩⟩

theorem ends_of_print_indented :
    let d : Document := ⟨[.emptyLine .unresolved, .headline ⟨1, ⟨["Té".toList, "[x".toList], .unresolved⟩, .unresolved⟩,
      .emptyLine .unresolved, .paragraph ⟨[⟨["=".toList, "y".toList], .unresolved⟩], true, .unresolved⟩], .unresolved⟩
    (∀ b ∈ d.blocks, b.Inked) ∧ d.print { literalIndent := 0 } = "== Té [x\n\n = y\n".toList ∧
      (d.print { literalIndent := 0 }).getLast? = some '\n' ∧
      (d.print { literalIndent := 0 }).head? ≠ some '\n' ∧ ¬['\n', '\n'] <:+ d.print { literalIndent := 0 } := by
  intro d
  have hinked : ∀ b ∈ d.blocks, b.Inked := by decide
  obtain ⟨hlast, hends⟩ := ends_of_print hinked { literalIndent := 0 }
  obtain ⟨hhead, htwo⟩ := hends (by decide)
  exact ⟨hinked, by decide, hlast, hhead, htwo.not.mpr (by decide)⟩

/-- An empty line at the end of a document is printed, and then the text ends with two newlines. -/
theorem ends_of_print_fails_blank :
    let d : Document :=
      ⟨[.paragraph ⟨[⟨["a".toList], .unresolved⟩], false, .unresolved⟩, .emptyLine .unresolved], .unresolved⟩
    (∀ b ∈ d.blocks, b.Inked) ∧ d.print {} = "a\n\n".toList ∧ d.print {} ≠ ['\n'] ∧
      ['\n', '\n'] <:+ d.print {} := by
  decide

end Document

end AsciiDoc
