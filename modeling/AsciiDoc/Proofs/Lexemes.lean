import AsciiDoc.Proofs.Reading
import Mathlib.Data.List.Chain
import Mathlib.Data.List.TakeWhile

namespace AsciiDoc

namespace Piece

def Proper (p : Piece) : Prop :=
  match p.kind with
  | .inlineText => p.text ≠ [] ∧ (∀ c ∈ p.text, Text.isBlank c = false) ∧ p.text.head? ≠ some '['
  | .listText => p.text ≠ [] ∧ ∀ c ∈ p.text, Text.isBlank c = false ∧ Text.isDelimiter c = false
  | .stringText => p.text ≠ [] ∧ ∀ c ∈ p.text, Text.isBlank c = false ∧ c ≠ '"'
  | .newline => p.text = ['\n']
  | .emptyLine => ∃ s, p.text = '\n' :: s ∧ ∀ c ∈ s, Text.isIndent c = true
  | _ => True

end Piece

namespace Lexeme

open Piece

theorem take_run (q : Char → Bool) (cs : Text) : cs.take (Text.run q cs) = cs.takeWhile q :=
  (List.prefix_iff_eq_take.mp (List.takeWhile_prefix q)).symm

theorem running_chars {q : Char → Bool} {c : Char} (hc : q c = true) (cs : Text) :
    ∀ d ∈ c :: cs.take (Text.run q cs), q d = true := by
  rw [take_run]
  exact List.forall_mem_cons.mpr ⟨hc, fun d hd => List.mem_takeWhile_imp hd⟩

theorem notMem_running {q : Char → Bool} {c d : Char} (hc : q c = true) (hd : q d = false) (cs : Text) :
    d ∉ c :: cs.take (Text.run q cs) := by
  intro hmem
  rw [running_chars hc cs d hmem] at hd
  cases hd

structure Found (lineStart : Bool) (c : Char) (cs : Text) (l : Lexeme) : Prop where
  proper : Proper ⟨l.kind, c :: cs.take l.extra⟩
  word : lineStart = true → l.kind = .inlineText → c ≠ '='

section Found

variable {lineStart : Bool} {c : Char} {cs : Text} {l : Lexeme}

theorem found_newline (cs : Text) : Found lineStart '\n' cs (newline cs) := by
  unfold newline
  split
  · refine ⟨⟨cs.takeWhile Text.isIndent, ?_, fun c hc => List.mem_takeWhile_imp hc⟩, nofun⟩
    exact congrArg ('\n' :: ·) (take_run _ _)
  · exact ⟨rfl, nofun⟩

theorem found_listText (hc : isListText c = true) (cs : Text) :
    Found lineStart c cs (running .listText isListText cs) := by
  refine ⟨⟨List.cons_ne_nil _ _, ?_⟩, nofun⟩
  intro d hd
  simpa [isListText] using running_chars hc cs d hd

theorem found_ite {p : Prop} [Decidable p] {k : Lexeme} {o : Option Lexeme}
    (h : (if p then some k else o) = some l) (hk : p → Found lineStart c cs k)
    (ho : ¬p → o = some l → Found lineStart c cs l) : Found lineStart c cs l := by
  split at h
  · cases h
    exact hk ‹_›
  · exact ho ‹_› h

theorem found_inRoot (h : inRoot lineStart c cs = some l) : Found lineStart c cs l := by
  refine found_ite h (fun _ => ⟨trivial, nofun⟩) fun hmarker h => ?_
  refine found_ite h (fun _ => ⟨trivial, nofun⟩) fun hbracket h => ?_
  refine found_ite h (fun _ => ⟨trivial, nofun⟩) fun _ h => ?_
  refine found_ite h (fun hnewline => hnewline ▸ found_newline cs) fun _ h => ?_
  refine found_ite h (fun _ => ⟨trivial, nofun⟩) fun _ h => ?_
  refine found_ite h (fun hword => ?_) fun _ h => nomatch h
  refine ⟨⟨List.cons_ne_nil _ _, ?_, by simpa using hbracket⟩, fun hstart _ hc => hmarker ⟨hc, hstart⟩⟩
  intro d hd
  simpa [isWord] using running_chars hword cs d hd

theorem found_inList (h : inList c cs = some l) : Found lineStart c cs l := by
  refine found_ite h (fun _ => ⟨trivial, nofun⟩) fun _ h => ?_
  refine found_ite h (fun _ => ⟨trivial, nofun⟩) fun _ h => ?_
  refine found_ite h (fun _ => ⟨trivial, nofun⟩) fun _ h => ?_
  refine found_ite h (fun _ => ⟨trivial, nofun⟩) fun _ h => ?_
  refine found_ite h (fun _ => ⟨trivial, nofun⟩) fun _ h => ?_
  refine found_ite h (fun _ => ⟨trivial, nofun⟩) fun _ h => ?_
  refine found_ite h (fun _ => ⟨trivial, nofun⟩) fun _ h => ?_
  refine found_ite h (fun _ => ⟨trivial, nofun⟩) fun _ h => ?_
  exact found_ite h (fun hclass => found_listText hclass cs) fun _ h => nomatch h

theorem found_inLegacyId (h : inLegacyId c cs = some l) : Found lineStart c cs l := by
  refine found_ite h (fun _ => ⟨trivial, nofun⟩) fun _ h => ?_
  exact found_ite h (fun hclass => found_listText hclass cs) fun _ h => nomatch h

theorem found_inString (h : inString c cs = some l) : Found lineStart c cs l := by
  refine found_ite h (fun _ => ⟨trivial, nofun⟩) fun _ h => ?_
  refine found_ite h (fun _ => ⟨trivial, nofun⟩) fun _ h => ?_
  refine found_ite h (fun hclass => ⟨⟨List.cons_ne_nil _ _, ?_⟩, nofun⟩) fun _ h => nomatch h
  intro d hd
  simpa [isStringText] using running_chars hclass cs d hd

theorem found_next {mode : Mode} (h : next? mode lineStart c cs = some l) : Found lineStart c cs l := by
  cases mode with
  | root => exact found_inRoot h
  | attributeList => exact found_inList h
  | legacyId => exact found_inLegacyId h
  | string => exact found_inString h

end Found

end Lexeme

namespace Lexer

theorem next_of_read {legacyIds : Bool} {mode : Mode} {lineStart : Bool} {c : Char} {cs : Text} {l : Lexeme}
    (h : read legacyIds mode lineStart c cs = .ok l) : Lexeme.next? mode lineStart c cs = some l := by
  unfold read at h
  split at h
  · cases h
  · rename_i hnext
    split at h
    · cases h
    · cases h
      exact hnext

def Behind (p q : Piece) : Prop :=
  p.text.getLast? = some '\n' → q.kind = .inlineText → q.text.head? ≠ some '='

theorem Reads.proper {legacyIds : Bool} {a b : State} {s t : Text} {ps : List Piece}
    (h : Reads legacyIds a s ps b t) : ∀ p ∈ ps, p.Proper := by
  induction h with
  | done => simp
  | step hread _ ih => exact List.forall_mem_cons.mpr ⟨(Lexeme.found_next (next_of_read hread)).proper, ih⟩

theorem Reads.behind {legacyIds : Bool} {a b : State} {s t : Text} {ps : List Piece}
    (h : Reads legacyIds a s ps b t) : ps.IsChain Behind ∧
      ∀ p ∈ ps.head?, a.lineStart = true → p.kind = .inlineText → p.text.head? ≠ some '=' := by
  induction h with
  | done => exact ⟨.nil, by simp⟩
  | @step a b c cs s l ps hread _ ih =>
    obtain ⟨hchain, hfirst⟩ := ih
    have hword := (Lexeme.found_next (next_of_read hread)).word
    refine ⟨List.isChain_cons.mpr ⟨?_, hchain⟩, ?_⟩
    · intro q hq hlast hkind
      exact hfirst q hq (by simpa [State.after] using hlast) hkind
    · rintro p ⟨⟩ hstart hkind
      simpa using hword hstart hkind

end Lexer

end AsciiDoc
