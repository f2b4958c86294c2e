import AsciiDoc.Proofs.LineReading

namespace AsciiDoc

open Lexeme

namespace ModeStack

def reachable : List ModeStack :=
  [start, ⟨[.attributeList]⟩, ⟨[.legacyId, .attributeList]⟩, ⟨[.string, .attributeList]⟩]

theorem shift_mem_reachable :
    ∀ m ∈ reachable, ∀ k ∈ m.current.kinds, m.shift (shiftOf k) ∈ reachable := by decide

theorem shiftOf_root : ∀ k ∈ start.current.kinds, shiftOf k ≠ .pop := by decide

theorem eq_start_of_root : ∀ m ∈ reachable, m.current = .root → m = start := by decide

theorem string_of_shift : ∀ m ∈ reachable, ∀ k ∈ m.current.kinds,
    (m.shift (shiftOf k)).current = .string → k = .stringStart ∨ m.current = .string ∧ k ≠ .stringEnd := by
  decide

end ModeStack

namespace Lexeme

theorem closesOnLine_append_of_plain {w : Text} (hw : ∀ c ∈ w, c ≠ '"' ∧ c ≠ '\n') (s : Text) :
    closesOnLine (w ++ s) = closesOnLine s := by
  have htake : (w ++ s).takeWhile (· != '\n') = w ++ s.takeWhile (· != '\n') := by
    apply List.takeWhile_append_of_pos
    intro c hc
    simpa using (hw c hc).2
  have hquote : '"' ∉ w := fun hmem => (hw '"' hmem).1 rfl
  simp [closesOnLine, htake, hquote]

namespace Next

variable {mode : Mode} {lineStart : Bool} {c : Char} {cs : Text} {l : Lexeme}

theorem kind_mem (h : Next mode lineStart c cs l) : l.kind ∈ mode.kinds := by
  cases h <;> simp [Mode.kinds, single, opening, closing, running]

theorem newline_mem (h : Next mode lineStart c cs l) (hmem : '\n' ∈ c :: cs.take l.extra) :
    mode = .root ∧ (l.kind = .newline ∨ l.kind = .emptyLine) := by
  cases h with
  | newline => exact ⟨rfl, .inl rfl⟩
  | emptyLine => exact ⟨rfl, .inr rfl⟩
  | marker => exact absurd hmem (notMem_running (by decide) (by decide) cs)
  | word hc | listText hc | legacyText hc | stringText hc =>
    exact absurd hmem (notMem_running hc (by decide) cs)
  | _ => simp [single, opening, closing] at hmem

theorem closesOnLine_of_stringStart (h : Next mode lineStart c cs l) (hk : l.kind = .stringStart) :
    l.extra = 0 ∧ closesOnLine cs = true := by
  cases h with
  | stringStart hcloses => exact ⟨rfl, hcloses⟩
  | _ => cases hk

theorem of_string (h : Next .string lineStart c cs l) :
    l = closing .stringEnd ∧ c = '"' ∨
      (l.kind = .stringText ∨ l.kind = .space) ∧ l.shift = .stay ∧
        ∀ d ∈ c :: cs.take l.extra, d ≠ '"' ∧ d ≠ '\n' := by
  cases h with
  | stringEnd => exact .inl ⟨rfl, rfl⟩
  | stringSpace =>
    refine .inr ⟨.inr rfl, rfl, ?_⟩
    simp [single]
  | stringText hc =>
    refine .inr ⟨.inl rfl, rfl, ?_⟩
    intro d hd
    constructor
    · rintro rfl
      exact notMem_running hc (by decide) cs hd
    · rintro rfl
      exact notMem_running hc (by decide) cs hd

end Next

end Lexeme

namespace ModeStack

/-- The modes can stand before the text: in a string the closing quote is ahead. -/
structure Fits (m : ModeStack) (s : Text) : Prop where
  reachable : m ∈ reachable
  closes : m.current = .string → closesOnLine s = true

theorem Fits.shift {m : ModeStack} {lineStart : Bool} {c : Char} {cs : Text} {l : Lexeme} (h : m.Fits (c :: cs))
    (hnext : Next m.current lineStart c cs l) : (m.shift l.shift).Fits (cs.drop l.extra) := by
  have hk := hnext.kind_mem
  rw [hnext.shift_eq]
  refine ⟨shift_mem_reachable m h.reachable _ hk, ?_⟩
  intro hstring
  rcases string_of_shift m h.reachable _ hk hstring with hstart | ⟨hcurrent, hend⟩
  · obtain ⟨hextra, hcloses⟩ := hnext.closesOnLine_of_stringStart hstart
    rwa [hextra]
  · have hcloses := h.closes hcurrent
    rw [hcurrent] at hnext
    rcases hnext.of_string with ⟨rfl, -⟩ | ⟨-, -, hplain⟩
    · exact absurd rfl hend
    · rwa [← List.take_append_drop l.extra cs, ← List.cons_append, closesOnLine_append_of_plain hplain] at hcloses

end ModeStack

namespace Lexer

structure Step.Sound (x : Step) : Prop where
  reachable : x.modes ∈ ModeStack.reachable
  pop : x.shift = .pop → x.modes ≠ .start
  kind : x.token.kind ∈ x.modes.current.kinds
  newline : '\n' ∈ x.token.text → x.modes = .start ∧ (x.token.kind = .newline ∨ x.token.kind = .emptyLine)

def Run.final (r : Run) : ModeStack := r.steps.foldl (fun m x => m.shift x.shift) .start

variable {legacyIds : Bool}

theorem Step.sound_of_next {m : ModeStack} {lineStart : Bool} {c : Char} {cs : Text} {l : Lexeme}
    (hm : m ∈ ModeStack.reachable) (hnext : Next m.current lineStart c cs l) (e : Extent) :
    Step.Sound ⟨m, ⟨l.kind, c :: cs.take l.extra, e⟩, l.shift⟩ := by
  refine ⟨hm, ?_, hnext.kind_mem, ?_⟩
  · rintro hpop rfl
    exact ModeStack.shiftOf_root _ hnext.kind_mem (hnext.shift_eq.symm.trans hpop)
  · intro hmem
    obtain ⟨hroot, hkind⟩ := hnext.newline_mem hmem
    exact ⟨ModeStack.eq_start_of_root m hm hroot, hkind⟩

theorem sound_runFrom {m : ModeStack} {lineStart : Bool} {offset : Nat} {s : Text} (h : m.Fits s) :
    (∀ x ∈ (runFrom legacyIds m lineStart offset s).steps, x.Sound) ∧
      (runFrom legacyIds m lineStart offset s).steps.foldl (fun m x => m.shift x.shift) m ∈
        ModeStack.reachable := by
  fun_induction runFrom legacyIds m lineStart offset s with
  | case1 => exact ⟨by simp, h.reachable⟩
  | case2 => exact ⟨by simp, h.reachable⟩
  | case3 m lineStart offset c cs l hread text stop rest ih =>
    have hnext := next_of_eq (next_of_read hread)
    obtain ⟨hsteps, hfinal⟩ := ih (h.shift hnext)
    exact ⟨List.forall_mem_cons.mpr ⟨Step.sound_of_next h.reachable hnext _, hsteps⟩, hfinal⟩

namespace Reads

variable {a b : State} {s t : Text} {ps : List Piece}

theorem fits (h : Reads legacyIds a s ps b t) (ha : a.modes.Fits s) : b.modes.Fits t := by
  induction h with
  | done => exact ha
  | step hread _ ih => exact ih (ha.shift (next_of_eq (next_of_read hread)))

theorem foldl_shift (h : Reads legacyIds a s ps b []) (offset : Nat) :
    (runFrom legacyIds a.modes a.lineStart offset s).steps.foldl (fun m x => m.shift x.shift) a.modes =
      b.modes := by
  generalize hend : ([] : Text) = t at h
  induction h generalizing offset with
  | done =>
    subst hend
    rw [runFrom]
    rfl
  | @step a b c cs s l ps hread _ ih =>
    rw [runFrom, hread]
    exact ih (offset + Text.bytes (c :: cs.take l.extra)) hend

end Reads

end Lexer

def Token.ClosesString (ts : List Token) : Prop :=
  ∃ words close rest, ts = words ++ close :: rest ∧
    (∀ w ∈ words, w.kind = .stringText ∨ w.kind = .space) ∧ close.kind = .stringEnd ∧
      '\n' ∉ Token.source (words ++ [close])

namespace Lexer

variable {legacyIds : Bool}

namespace Reads

variable {a b : State} {s : Text} {ps : List Piece}

theorem closesString (h : Reads legacyIds a s ps b []) (ha : a.modes.Fits s)
    (hstring : a.modes.current = .string) (offset : Nat) : Token.ClosesString (Piece.place offset ps) := by
  generalize hend : ([] : Text) = t at h
  induction h generalizing offset with
  | done =>
    -- Nothing is ahead here, while the closing quote should be.
    subst hend
    exact absurd (ha.closes hstring) (by decide)
  | @step a b c cs s l ps hread h ih =>
    have hnext := next_of_eq (next_of_read hread)
    have hfits := ha.shift hnext
    rw [hstring] at hnext
    rcases hnext.of_string with ⟨rfl, rfl⟩ | ⟨hkind, hstay, hplain⟩
    · exact ⟨[], _, _, rfl, by simp, rfl, by simp [Token.source, closing]⟩
    · rw [hstay] at hfits
      have hmodes : (a.after l.shift (c :: cs.take l.extra)).modes = a.modes := by
        rw [hstay]
        rfl
      obtain ⟨words, close, rest, hplace, hwords, hclose, hline⟩ := ih (hmodes ▸ hfits) (hmodes ▸ hstring)
        (offset + Text.bytes (c :: cs.take l.extra)) hend
      refine ⟨_ :: words, close, rest, congrArg _ hplace, List.forall_mem_cons.mpr ⟨hkind, hwords⟩, hclose, ?_⟩
      intro hmem
      rcases List.mem_append.mp hmem with htext | hrest
      · exact (hplain '\n' htext).2 rfl
      · exact hline hrest

theorem strings_close (h : Reads legacyIds a s ps b []) (ha : a.modes.Fits s) (offset : Nat)
    {before after : List Token} {t : Token} (hplace : Piece.place offset ps = before ++ t :: after)
    (ht : t.kind = .stringStart) : Token.ClosesString after := by
  generalize hend : ([] : Text) = r at h
  induction h generalizing offset before with
  | done => simp at hplace
  | @step a b c cs s l ps hread h ih =>
    subst hend
    have hnext := next_of_eq (next_of_read hread)
    have hfits := ha.shift hnext
    cases before with
    | nil =>
      -- This is the token that begins the string, and the rest is read in it.
      obtain ⟨rfl, rfl⟩ := List.cons.inj hplace
      apply h.closesString hfits
      rw [State.after, hnext.shift_eq, show l.kind = .stringStart from ht]
      rfl
    | cons u before => exact ih hfits _ (List.cons.inj hplace).2 rfl

end Reads

theorem fits_start (source : Text) : ModeStack.start.Fits source :=
  ⟨by decide, fun hstring => by cases hstring⟩

/-- Every run keeps to the reachable stacks and never leaves the root mode. It reads newlines in the root mode
only. A source that is read to its end has all strings closed on their lines, and all lists too if the grammar
accepts its tokens. -/
theorem modes_of_run (legacyIds : Bool) (source : Text) :
    (∀ x ∈ (run legacyIds source).steps, x.Sound) ∧ (run legacyIds source).final ∈ ModeStack.reachable ∧
      ∀ ts, tokenize legacyIds source = .ok ts →
        (∀ before t after, ts = before ++ t :: after → t.kind = .stringStart → Token.ClosesString after) ∧
          (run legacyIds source).final.current ≠ .string ∧
            ∀ n, Node.parse ts = .ok n → (run legacyIds source).final = .start := by
  obtain ⟨hsteps, hfinal⟩ := sound_runFrom (fits_start source)
  refine ⟨hsteps, hfinal, ?_⟩
  intro ts hts
  obtain ⟨ps, b, hreads, rfl⟩ := (tokenize_eq_ok_iff legacyIds source ts).mp hts
  have hmodes : (run legacyIds source).final = b.modes := hreads.foldl_shift 0
  rw [hmodes]
  refine ⟨?_, ?_, ?_⟩
  · intro before t after hsplit ht
    exact hreads.strings_close (fits_start source) 0 hsplit ht
  · intro hstring
    exact absurd ((hreads.fits (fits_start source)).closes hstring) (by decide)
  · intro n hparse
    obtain ⟨⟨q, hwalk, hq⟩, -⟩ := Node.parse_eq_ok_iff.mp hparse
    rw [Piece.map_kind_place] at hwalk
    rw [hreads.modes_eq (p := .between) rfl hwalk, Place.modes_of_isEnd hq]
    rfl

theorem modes_of_run_string :
    let source := "\n[[a]b=\"c d\"]\ne".toList
    (run true source).steps.map Step.modes ⊆ ModeStack.reachable ∧
      ModeStack.reachable ⊆ (run true source).steps.map Step.modes ∧
        ∃ ts n before t after, tokenize true source = .ok ts ∧ Node.parse ts = .ok n ∧
          ts = before ++ t :: after ∧ t.kind = .stringStart ∧ Token.ClosesString after ∧
            (run true source).final = .start := by
  intro source
  obtain ⟨hsteps, -, hrun⟩ := modes_of_run true source
  refine ⟨?_, by decide +kernel, ?_⟩
  · intro m hm
    obtain ⟨x, hx, rfl⟩ := List.mem_map.mp hm
    exact (hsteps x hx).reachable
  have htokens : (tokenize true source).toOption.any (fun ts =>
      ts.any (fun t => t.kind = .stringStart) && (Node.parse ts).toOption.isSome) = true := by decide +kernel
  generalize htext : tokenize true source = result at htokens
  cases result with
  | error e => cases htokens
  | ok ts =>
    obtain ⟨hstring, hparse⟩ := (Bool.and_eq_true _ _).mp htokens
    obtain ⟨t, hmem, ht⟩ := List.any_eq_true.mp hstring
    obtain ⟨before, after, hsplit⟩ := List.append_of_mem hmem
    cases hnode : Node.parse ts with
    | error e =>
      rw [hnode] at hparse
      cases hparse
    | ok n =>
      obtain ⟨hclose, -, hfinal⟩ := hrun ts htext
      have ht : t.kind = .stringStart := of_decide_eq_true ht
      exact ⟨ts, n, before, t, after, rfl, hnode, hsplit, ht, hclose before t after hsplit ht, hfinal n hnode⟩

end Lexer

end AsciiDoc
