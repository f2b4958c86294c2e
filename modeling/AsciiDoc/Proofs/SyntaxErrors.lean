import AsciiDoc.Proofs.OrderedChoice
import AsciiDoc.Proofs.Position
import AsciiDoc.Proofs.Reading
import Mathlib.Data.String.Basic

/-!
Syntax errors are exact. The blocks are read up to some token, and the furthest tests that failed on the
way tell what could have stood there. If anything else goes on with the tokens before, the blocks would
be read just the same and could not reach its end.
-/

namespace AsciiDoc

open AsciiDoc.Parser

def Node.Parses (ts : List Token) : Prop := ∃ n, Node.parse ts = .ok n

def Node.Extends (ts : List Token) : Prop := ∃ more, Node.Parses (ts ++ more)

namespace SyntaxError

theorem eraseReps_loop {a : String} {as acc : List String} (has : (a :: as).Pairwise (· ≤ ·))
    (hacc : (a :: acc).Pairwise (· > ·)) :
    (List.eraseRepsBy.loop (· == ·) a as acc).Pairwise (· < ·) ∧
      ∀ b, b ∈ List.eraseRepsBy.loop (· == ·) a as acc ↔ b ∈ acc ∨ b ∈ a :: as := by
  induction as generalizing a acc with
  | nil =>
    rw [List.eraseRepsBy.loop]
    exact ⟨List.pairwise_reverse.mpr hacc, fun b => by simp [or_comm]⟩
  | cons a' as ih =>
    obtain ⟨hle, hrest⟩ := List.pairwise_cons.mp has
    rw [List.eraseRepsBy.loop]
    split
    · rename_i heq
      obtain rfl : a = a' := eq_of_beq heq
      obtain ⟨hsorted, hmem⟩ := ih hrest hacc
      exact ⟨hsorted, fun b => by simp [hmem]⟩
    · rename_i hne
      have hlt : a < a' := lt_of_le_of_ne (hle a' List.mem_cons_self) (ne_of_beq_false hne)
      have hdown : (a' :: a :: acc).Pairwise (· > ·) := by
        refine List.pairwise_cons.mpr ⟨List.forall_mem_cons.mpr ⟨hlt, fun b hb => ?_⟩, hacc⟩
        exact lt_trans (List.rel_of_pairwise_cons hacc hb) hlt
      obtain ⟨hsorted, hmem⟩ := ih hrest hdown
      refine ⟨hsorted, fun b => ?_⟩
      rw [hmem, List.mem_cons, List.mem_cons (b := a), or_assoc, or_left_comm]

theorem eraseReps_mergeSort (names : List String) :
    names.mergeSort.eraseReps.Pairwise (· < ·) ∧ ∀ name, name ∈ names.mergeSort.eraseReps ↔ name ∈ names := by
  have hsorted : names.mergeSort.Pairwise (· ≤ ·) := by
    have htrans (a b c : String) (hab : decide (a ≤ b) = true) (hbc : decide (b ≤ c) = true) :
        decide (a ≤ c) = true := by
      simpa using le_trans (of_decide_eq_true hab) (of_decide_eq_true hbc)
    have htotal (a b : String) : (decide (a ≤ b) || decide (b ≤ a)) = true := by simpa using le_total a b
    simpa using List.pairwise_mergeSort htrans htotal names
  have hmem (name : String) : name ∈ names.mergeSort ↔ name ∈ names := List.mem_mergeSort
  simp only [← hmem]
  generalize names.mergeSort = sorted at hsorted
  cases sorted with
  | nil => simp [List.eraseReps, List.eraseRepsBy]
  | cons a as =>
    have hone : [a].Pairwise (· > ·) := List.pairwise_singleton _ _
    obtain ⟨hpairwise, hmem⟩ := eraseReps_loop hsorted hone
    exact ⟨hpairwise, fun name => (hmem name).trans (by simp)⟩

end SyntaxError

namespace Kind

theorem name_injective : Function.Injective name := by
  have hnodup : (all.map name).Nodup := by decide
  intro k l h
  exact List.inj_on_of_nodup_map hnodup (mem_all k) (mem_all l) h

theorem name_ne_endOfInput (k : Kind) : k.name ≠ "end of input" := by
  cases k <;> decide

end Kind

namespace Node

theorem parses_iff_derives (ts : List Token) : Parses ts ↔ Derives .document (ts.map Token.kind) :=
  (exists_parse_iff ts).trans (Place.accepts_iff_derives _)

def GoesOn (us : List Token) : Option Kind → Prop
  | some k => ∃ t : Token, t.kind = k ∧ Extends (us ++ [t])
  | none => Parses us

theorem goesOn_some {us : List Token} {k : Kind} {ls : List Kind}
    (h : us.map Token.kind ++ k :: ls ∈ Rule.document.language) : GoesOn us (some k) := by
  let tokenOf (l : Kind) : Token := ⟨l, [], ⟨0, 0⟩⟩
  refine ⟨tokenOf k, rfl, ls.map tokenOf, ?_⟩
  have hkinds : ([tokenOf k] ++ ls.map tokenOf).map Token.kind = k :: ls := by
    simp [tokenOf, Function.comp_def]
  rwa [parses_iff_derives, List.append_assoc, List.map_append, hkinds]

theorem exists_parses_of_goesOn {us : List Token} {x : Option Kind} (h : GoesOn us x) :
    ∃ ts, Token.next? ts = x ∧ Parses (us ++ ts) := by
  cases x with
  | none => exact ⟨[], rfl, by rwa [List.append_nil]⟩
  | some k =>
    obtain ⟨t, rfl, more, hmore⟩ := h
    exact ⟨t :: more, rfl, by rwa [List.append_assoc] at hmore⟩

theorem GoesOn.extends {us : List Token} {x : Option Kind} (h : GoesOn us x) : Extends us := by
  obtain ⟨ts, -, hts⟩ := exists_parses_of_goesOn h
  exact ⟨ts, hts⟩

theorem mem_names {us : List Token} {m : Miss} (h : ∀ x, x ∈ m.expected ↔ GoesOn us x) (name : String) :
    name ∈ m.names ↔ (∃ t : Token, t.kind.name = name ∧ Extends (us ++ [t])) ∨
      (name = "end of input" ∧ Parses us) := by
  rw [Miss.names, List.mem_map]
  constructor
  · rintro ⟨x, hx, rfl⟩
    cases x with
    | none => exact Or.inr ⟨rfl, (h none).mp hx⟩
    | some k =>
      obtain ⟨t, rfl, ht⟩ := (h (some k)).mp hx
      exact Or.inl ⟨t, rfl, ht⟩
  · rintro (⟨t, rfl, ht⟩ | ⟨rfl, hparses⟩)
    · exact ⟨some t.kind, (h _).mpr ⟨t, rfl, ht⟩, rfl⟩
    · exact ⟨none, (h _).mpr hparses, rfl⟩

theorem mem_of_name {m : Miss} {k : Kind} (h : k.name ∈ m.names) : some k ∈ m.expected := by
  obtain ⟨x, hx, hname⟩ := List.mem_map.mp h
  cases x with
  | none => exact absurd hname.symm k.name_ne_endOfInput
  | some l => rwa [← Kind.name_injective hname]

theorem parse_eq_error {ts : List Token} {e : SyntaxError} (h : Node.parse ts = .error e) :
    ∃ n j rest o, Grammar.blocks 0 ts = .ok n j rest o ∧ rest ≠ [] ∧
      e = .ofMisses ts [(⟨j, [none]⟩ : Miss).furthestOf o] := by
  cases hrun : Grammar.blocks 0 ts with
  | fail m => exact absurd hrun Grammar.blocks_ne_fail
  | ok n j rest o =>
    refine ⟨n, j, rest, o, rfl, ?_⟩
    simp only [parse, Parser.run, Grammar.document, Parser.map, Parser.andThen, hrun] at h
    cases rest with
    | nil => cases h
    | cons t rest =>
      cases h
      exact ⟨List.cons_ne_nil _ _, rfl⟩

section Collected

variable {ts rest : List Token} {n : Node} {j : Nat} {o : Option Miss}
  (hrun : Grammar.blocks 0 ts = .ok n j rest o)
include hrun

theorem expected_goesOn (hrest : rest ≠ []) : ((⟨j, [none]⟩ : Miss).furthestOf o).At
    (fun us rest x => x ≠ Token.next? rest ∧ GoesOn us x) 0 ts := by
  obtain ⟨us, rfl, rfl, hus, hsound⟩ := Grammar.lawful_blocks.ok hrun
  apply Miss.At.furthestOf
  · refine ⟨us, rest, rfl, rfl, by simp, ?_⟩
    obtain ⟨t, rest, rfl⟩ := List.exists_cons_of_ne_nil hrest
    rintro _ (_ | ⟨_, ⟨⟩⟩)
    exact ⟨by simp [Token.next?], (parses_iff_derives us).mpr hus⟩
  · refine fun l hl => Miss.At.imp (hsound l hl) ?_
    rintro us rest _ ⟨hne, k, ls, rfl, hmem⟩
    exact ⟨hne, goesOn_some hmem⟩

/-- Whatever goes on with the tokens before the furthest tests was looked for there. With anything else
behind these tokens the blocks end at the same place, short of the end of the input. -/
theorem mem_expected_of_goesOn {us rest' : List Token} (hts : ts = us ++ rest')
    (hindex : ((⟨j, [none]⟩ : Miss).furthestOf o).index = us.length) {x : Option Kind} (hx : GoesOn us x) :
    x ∈ ((⟨j, [none]⟩ : Miss).furthestOf o).expected := by
  by_contra hnone
  obtain ⟨ts', rfl, n', hparse⟩ := exists_parses_of_goesOn hx
  obtain ⟨⟨hj, hend⟩, ho⟩ := Miss.furthestOf_spares.mp ⟨hindex.le, fun _ => hnone⟩
  subst hts
  have hspares : ∀ l ∈ o, l.Spares (0 + us.length) (Token.next? ts') := by simpa using ho
  obtain ⟨vs, ws, rfl, rfl, -, hrun'⟩ := Grammar.lawful_blocks.ok_agrees hrun (by simpa using hj) hspares
  obtain ⟨k, l, hall⟩ := blocks_of_parse hparse
  have hleft : ws ++ ts' = [] := by
    rw [hall] at hrun'
    exact (Outcome.ok.inj hrun').2.2.1.symm
  obtain ⟨rfl, rfl⟩ := List.append_eq_nil_iff.mp hleft
  exact hend (by simp) (by simp [Token.next?])

end Collected

theorem offset_of_tokenize {legacyIds : Bool} {source : Text} {us unread : List Token}
    (h : tokenize legacyIds source = .ok (us ++ unread)) :
    ∃ before after, source = before ++ after ∧
      (unread.head?.map fun t => t.extent.start).getD (Token.lastStop (us ++ unread)) = Text.bytes before := by
  obtain ⟨ps, b, hps, hplace⟩ := (tokenize_eq_ok_iff legacyIds source _).mp h
  have hpieces : ps = us.map Token.piece ++ unread.map Token.piece := by
    rw [← List.map_append, hplace, Piece.map_piece_place]
  refine ⟨Piece.source (us.map Token.piece), Piece.source (unread.map Token.piece), ?_, ?_⟩
  · rw [hps.source_eq, hpieces, Piece.source_append, List.append_nil]
  · cases unread with
    | nil =>
      change Token.lastStop (us ++ []) = _
      rw [lastStop_of_tokenize h, hps.source_eq, hpieces]
      simp
    | cons t unread =>
      rw [hpieces, Piece.place_append, List.map_cons, Piece.place] at hplace
      have hlength : us.length = (Piece.place 0 (us.map Token.piece)).length := by
        simpa using congrArg List.length (Piece.map_piece_place 0 (us.map Token.piece)).symm
      have ht := (List.cons.inj (List.append_inj_right hplace hlength)).1
      change t.extent.start = _
      rw [ht, Nat.zero_add]

/-- A syntax error names the first token with which nothing goes on, and all that could go on. -/
theorem syntaxError_exact {ts : List Token} {e : SyntaxError} (h : Node.parse ts = .error e) :
    ∃ k ≤ ts.length, e.found = ts[k]? ∧ Extends (ts.take k) ∧ e.expected.Pairwise (· < ·) ∧
      (∀ name, name ∈ e.expected ↔
        (∃ t : Token, t.kind.name = name ∧ Extends (ts.take k ++ [t])) ∨
          (name = "end of input" ∧ Parses (ts.take k))) ∧
      (∀ t ∈ e.found, t.kind.name ∉ e.expected ∧ ¬ Extends (ts.take (k + 1))) ∧
      ∀ legacyIds source, tokenize legacyIds source = .ok ts →
        e.offset = (e.found.map fun t => t.extent.start).getD (Text.bytes source) ∧
          ∃ before after, source = before ++ after ∧ e.offset = Text.bytes before ∧
            e.position = ⟨before.count '\n', Text.bytes (Text.lastLine before)⟩ := by
  obtain ⟨n, j, rest, o, hrun, hrest, rfl⟩ := parse_eq_error h
  obtain ⟨us, unread, rfl, hindex, hne, hgoes⟩ := expected_goesOn hrun hrest
  rw [Nat.zero_add] at hindex
  have hexpected (x : Option Kind) : x ∈ ((⟨j, [none]⟩ : Miss).furthestOf o).expected ↔ GoesOn us x :=
    ⟨fun hx => (hgoes x hx).2, mem_expected_of_goesOn hrun rfl hindex⟩
  generalize (⟨j, [none]⟩ : Miss).furthestOf o = m at hindex hne hgoes hexpected
  obtain ⟨hsorted, hnames⟩ := SyntaxError.eraseReps_mergeSort m.names
  have hfound : (SyntaxError.ofMisses (us ++ unread) [m]).found = unread.head? := by
    change (us ++ unread)[m.index]? = unread.head?
    rw [hindex, List.getElem?_append_right le_rfl, Nat.sub_self, List.head?_eq_getElem?]
  refine ⟨us.length, by simp, ?_, ?_⟩
  · rw [hfound, List.getElem?_append_right le_rfl, Nat.sub_self, ← List.head?_eq_getElem?]
  rw [List.take_left, hfound]
  refine ⟨?_, hsorted, fun name => (hnames name).trans (mem_names hexpected name), ?_, ?_⟩
  · obtain ⟨x, hx⟩ := List.exists_mem_of_ne_nil _ hne
    exact (hgoes x hx).2.extends
  · intro t ht
    have hnone : some t.kind ∉ m.expected := by
      intro hmem
      exact (hgoes _ hmem).1 (congrArg (Option.map Token.kind) ht).symm
    have htake : (us ++ unread).take (us.length + 1) = us ++ [t] := by
      obtain ⟨rest, rfl⟩ := List.head?_eq_some_iff.mp ht
      rw [List.take_append, List.take_of_length_le (Nat.le_succ _), Nat.add_sub_cancel_left]
      rfl
    refine ⟨fun hname => hnone (mem_of_name ((hnames _).mp hname)), fun hextends => hnone ?_⟩
    rw [htake] at hextends
    exact (hexpected _).mpr ⟨t, rfl, hextends⟩
  · intro legacyIds source hts
    have hoffset : (SyntaxError.ofMisses (us ++ unread) [m]).offset =
        (unread.head?.map fun t => t.extent.start).getD (Token.lastStop (us ++ unread)) := by
      rw [← hfound]
      rfl
    obtain ⟨before, after, rfl, hbefore⟩ := offset_of_tokenize hts
    refine ⟨by rw [hoffset, lastStop_of_tokenize hts], before, after, rfl, hoffset.trans hbefore, ?_⟩
    change Text.locate (Token.source (us ++ unread)) (SyntaxError.ofMisses (us ++ unread) [m]).offset = _
    rw [source_of_tokenize hts, hoffset, hbefore, Text.locate_append]

theorem syntaxError_at_comma :
    let ts : List Token := [⟨.newline, ['\n'], ⟨0, 1⟩⟩, ⟨.listStart, ['['], ⟨1, 2⟩⟩,
      ⟨.idMark, ['#'], ⟨2, 3⟩⟩, ⟨.listText, ['a'], ⟨3, 4⟩⟩, ⟨.comma, [','], ⟨4, 5⟩⟩]
    ∃ k ≤ 5, ts[k]? = some ⟨.comma, [','], ⟨4, 5⟩⟩ ∧ Extends (ts.take k) ∧
      ¬ Extends (ts.take (k + 1)) := by
  intro ts
  cases herror : Node.parse ts with
  | ok n => cases herror
  | error e =>
    have hcomma : e.found = some ⟨.comma, [','], ⟨4, 5⟩⟩ := by
      cases herror
      rfl
    obtain ⟨k, hk, hfound, hextends, -, -, hstop, -⟩ := syntaxError_exact herror
    exact ⟨k, hk, hfound.symm.trans hcomma, hextends, (hstop _ hcomma).2⟩

end Node

end AsciiDoc
