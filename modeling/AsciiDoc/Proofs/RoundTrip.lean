import AsciiDoc.Proofs.Normalization
import AsciiDoc.Proofs.Reassembly

namespace AsciiDoc

open Piece

namespace Document

theorem bare_ofPieces (c : Config) {bs : List Block} (h : ∀ b ∈ bs, b.WellFormed)
    (hmarked : ∀ b ∈ bs, b.Marked) (hapart : bs.IsChain Block.Apart) :
    (ofPieces (bs.flatMap (Block.pieces c))).bare = ⟨(bs.map (Block.canonical c)).map Block.bare, .unresolved⟩ := by
  have hparts := (Part.ofRows_place c h hmarked hapart 0).2
  have hblocks (parts : List Part) :
      (parts.filterMap Part.block?).map Block.bare = (parts.map fun p => p.block?.map Block.bare).filterMap id := by
    rw [List.map_filterMap, List.filterMap_map]
    rfl
  have hsome : (bs.map fun b => some (b.canonical c).bare).filterMap id =
      (bs.map (Block.canonical c)).map Block.bare := by
    simp [List.filterMap_map, Function.comp_def]
  rw [bare, ofPieces, hblocks, hparts, hsome]

def printedPieces (c : Config) (d : Document) : List Piece :=
  if d.core = [] then [newline] else d.core.flatMap (Block.pieces c)

theorem apart_core {d : Document} (h : d.WellFormed) : d.core.IsChain Block.Apart := by
  have hsuffix := h.apart.suffix (List.dropWhile_suffix Block.isEmptyLine)
  exact hsuffix.prefix (List.rdropWhile_prefix _ _)

theorem wellFormed_core {d : Document} (h : d.WellFormed) : ∀ b ∈ d.core, b.WellFormed :=
  fun b hb => h.blocks b (d.core_subset b hb)

theorem accepts_print {d : Document} (h : d.WellFormed) (c : Config) :
    Place.Accepts ((d.printedPieces c).map Piece.kind) := by
  unfold printedPieces
  split
  · exact ⟨.lineStart, rfl, rfl⟩
  · exact Place.accepts_blocks (wellFormed_core h) c

section Marked

variable {d : Document} (h : d.WellFormed) (hmarked : ∀ b ∈ d.blocks, b.Marked) (c : Config)
include h hmarked

theorem reads_print (legacyIds : Bool) :
    ∃ b, Lexer.Reads legacyIds (.root false) (normalize (d.print c)) (d.printedPieces c) (.root b) [] := by
  unfold printedPieces
  by_cases hcore : d.core = []
  · rw [if_pos hcore, normalize_print_of_blank hcore]
    exact ⟨true, Lexer.reads_newline (by simp)⟩
  · have hsource : source (d.core.flatMap (Block.pieces c)) = d.core.flatMap (Block.print c) := by
      rw [source_flatMap]
      apply List.flatMap_congr
      intro b _
      exact b.source_pieces c
    rw [if_neg hcore, normalize_print (fun b hb => (h.blocks b hb).lexical) hcore, ← hsource]
    exact Lexer.reads_blocks (wellFormed_core h) (fun b hb => hmarked b (d.core_subset b hb)) d.getLast?_core c false

theorem bare_printedPieces :
    (ofPieces (d.printedPieces c)).bare = (d.canonical c).bare := by
  unfold printedPieces
  split
  · rename_i hcore
    rw [canonical, hcore]
    rfl
  · rw [bare_ofPieces c (wellFormed_core h) (fun b hb => hmarked b (d.core_subset b hb)) (apart_core h)]
    rfl

theorem parse_print (legacyIds : Bool) :
    parse { c with legacyIds } (d.print c) = .ok (ofPieces (d.printedPieces c)) := by
  obtain ⟨b, hreads⟩ := reads_print h hmarked c legacyIds
  rw [parse_eq_ok_iff]
  exact ⟨_, _, hreads, accepts_print h c, rfl⟩

end Marked

end Document

end AsciiDoc
