import AsciiDoc.Token.Lexer
import Mathlib.Data.List.Basic

/-!
Readings of a text. A reading cuts a text into pieces, kinds with their texts, and leaves a rest; it
does not speak of offsets, so readings of neighbouring texts compose. The tokens of a source are the
pieces of its reading to the end, placed one behind the other.
-/

namespace AsciiDoc

structure Piece where
  kind : Kind
  text : Text
  deriving DecidableEq, Repr

def Token.piece (t : Token) : Piece := ⟨t.kind, t.text⟩

namespace Piece

def source (ps : List Piece) : Text := ps.flatMap text

def place (offset : Nat) : List Piece → List Token
  | [] => []
  | p :: ps =>
    ⟨p.kind, p.text, ⟨offset, offset + Text.bytes p.text⟩⟩ :: place (offset + Text.bytes p.text) ps

@[simp] theorem source_nil : source [] = [] := rfl

@[simp] theorem source_cons (p : Piece) (ps : List Piece) : source (p :: ps) = p.text ++ source ps := rfl

@[simp] theorem source_append (ps qs : List Piece) : source (ps ++ qs) = source ps ++ source qs :=
  List.flatMap_append

@[simp] theorem place_nil (offset : Nat) : place offset [] = [] := rfl

theorem place_append (offset : Nat) (ps qs : List Piece) :
    place offset (ps ++ qs) = place offset ps ++ place (offset + Text.bytes (source ps)) qs := by
  induction ps generalizing offset with
  | nil => rfl
  | cons p ps ih =>
    simp only [List.cons_append, place, ih, source_cons, Text.bytes_append, Nat.add_assoc]

theorem map_piece_place (offset : Nat) (ps : List Piece) : (place offset ps).map Token.piece = ps := by
  induction ps generalizing offset with
  | nil => rfl
  | cons p ps ih =>
    rw [place, List.map_cons, ih]
    rfl

theorem piece_of_mem_place {offset : Nat} {ps : List Piece} {t : Token} (h : t ∈ place offset ps) :
    t.piece ∈ ps := by
  rw [← map_piece_place offset ps]
  exact List.mem_map_of_mem h

theorem map_kind_place (offset : Nat) (ps : List Piece) :
    (place offset ps).map Token.kind = ps.map Piece.kind := by
  conv_rhs => rw [← map_piece_place offset ps, List.map_map]
  rfl

theorem source_place (offset : Nat) (ps : List Piece) : Token.source (place offset ps) = source ps := by
  conv_rhs => rw [← map_piece_place offset ps, source, List.flatMap_map]
  rfl

theorem lastStop_place (offset : Nat) (ps : List Piece) (h : ps ≠ []) :
    Token.lastStop (place offset ps) = offset + Text.bytes (source ps) := by
  induction ps generalizing offset with
  | nil => exact absurd rfl h
  | cons p ps ih =>
    cases ps with
    | nil => simp [Token.lastStop, place]
    | cons q qs =>
      have hlast := ih (offset + Text.bytes p.text) (by simp)
      rw [Token.lastStop] at hlast ⊢
      rw [place, List.getLast?_cons_of_ne_nil (by simp [place]), hlast, source_cons p,
        Text.bytes_append, Nat.add_assoc]

end Piece

namespace Lexer

structure State where
  modes : ModeStack
  lineStart : Bool
  deriving DecidableEq, Repr

namespace State

def root (lineStart : Bool) : State := ⟨⟨[]⟩, lineStart⟩

def list : State := ⟨⟨[.attributeList]⟩, false⟩

def string : State := ⟨⟨[.string, .attributeList]⟩, false⟩

def after (s : State) (shift : Shift) (text : Text) : State :=
  ⟨s.modes.shift shift, text.getLast? = some '\n'⟩

end State

inductive Reads (legacyIds : Bool) : State → Text → List Piece → State → Text → Prop
  | done (a : State) (s : Text) : Reads legacyIds a s [] a s
  | step {a b : State} {c : Char} {cs s : Text} {l : Lexeme} {ps : List Piece}
      (hread : read legacyIds a.modes.current a.lineStart c cs = .ok l)
      (h : Reads legacyIds (a.after l.shift (c :: cs.take l.extra)) (cs.drop l.extra) ps b s) :
      Reads legacyIds a (c :: cs) (⟨l.kind, c :: cs.take l.extra⟩ :: ps) b s

variable {legacyIds : Bool}

theorem Reads.trans {a b d : State} {s t u : Text} {ps qs : List Piece}
    (h : Reads legacyIds a s ps b t) (h' : Reads legacyIds b t qs d u) :
    Reads legacyIds a s (ps ++ qs) d u := by
  induction h with
  | done => exact h'
  | step hread _ ih => exact .step hread (ih h')

theorem Reads.source_eq {a b : State} {s t : Text} {ps : List Piece} (h : Reads legacyIds a s ps b t) :
    s = Piece.source ps ++ t := by
  induction h with
  | done => rfl
  | @step a b c cs s l ps _ _ ih =>
    rw [Piece.source_cons, List.append_assoc, ← ih, List.cons_append, List.take_append_drop]

theorem Reads.text_ne_nil {a b : State} {s t : Text} {ps : List Piece} (h : Reads legacyIds a s ps b t) :
    ∀ p ∈ ps, p.text ≠ [] := by
  induction h with
  | done => simp
  | step _ _ ih => exact List.forall_mem_cons.mpr ⟨List.cons_ne_nil _ _, ih⟩

theorem runFrom_of_reads {a b : State} {s t : Text} {ps : List Piece} (h : Reads legacyIds a s ps b t)
    (offset : Nat) :
    (runFrom legacyIds a.modes a.lineStart offset s).steps.map Step.token =
        Piece.place offset ps ++
          (runFrom legacyIds b.modes b.lineStart (offset + Text.bytes (Piece.source ps)) t).steps.map
            Step.token ∧
      (runFrom legacyIds a.modes a.lineStart offset s).stop =
        (runFrom legacyIds b.modes b.lineStart (offset + Text.bytes (Piece.source ps)) t).stop := by
  induction h generalizing offset with
  | done => simp
  | @step a b c cs s l ps hread h ih =>
    have hrest := ih (offset + Text.bytes (c :: cs.take l.extra))
    rw [runFrom, hread, Piece.source_cons, Text.bytes_append, ← Nat.add_assoc]
    exact ⟨congrArg _ hrest.1, hrest.2⟩

theorem exists_reads_of_runFrom {a : State} {s : Text} {offset : Nat}
    (h : (runFrom legacyIds a.modes a.lineStart offset s).stop = none) :
    ∃ ps b, Reads legacyIds a s ps b [] := by
  induction hn : s.length using Nat.strongRecOn generalizing a s offset with
  | ind n ih =>
    subst hn
    cases s with
    | nil => exact ⟨[], a, .done a []⟩
    | cons c cs =>
      rw [runFrom] at h
      cases hread : read legacyIds a.modes.current a.lineStart c cs with
      | error cause => simp [hread] at h
      | ok l =>
        simp only [hread] at h
        have hlength : (cs.drop l.extra).length < (c :: cs).length := by
          rw [List.length_drop, List.length_cons]
          omega
        obtain ⟨ps, b, hps⟩ := ih _ hlength (a := a.after l.shift (c :: cs.take l.extra)) h rfl
        exact ⟨_, b, .step hread hps⟩

end Lexer

open Lexer

theorem tokenize_eq_ok_iff (legacyIds : Bool) (source : Text) (ts : List Token) :
    tokenize legacyIds source = .ok ts ↔
      ∃ ps b, Reads legacyIds (.root false) source ps b [] ∧ ts = Piece.place 0 ps := by
  constructor
  · intro h
    unfold tokenize Run.tokens at h
    cases hstop : (run legacyIds source).stop with
    | some stop => simp [hstop] at h
    | none =>
      simp only [hstop, Except.ok.injEq] at h
      obtain ⟨ps, b, hps⟩ := exists_reads_of_runFrom (a := .root false) hstop
      refine ⟨ps, b, hps, ?_⟩
      rw [← h]
      have hrun := (runFrom_of_reads hps 0).1
      rwa [runFrom, List.map_nil, List.append_nil] at hrun
  · rintro ⟨ps, b, hps, rfl⟩
    have hrun := runFrom_of_reads hps 0
    have hstop : (run legacyIds source).stop = none := by
      refine hrun.2.trans ?_
      rw [runFrom]
    unfold tokenize Run.tokens
    have hsteps := hrun.1
    rw [runFrom, List.map_nil, List.append_nil] at hsteps
    rw [hstop]
    exact congrArg _ hsteps

theorem source_of_tokenize {legacyIds : Bool} {source : Text} {ts : List Token}
    (h : tokenize legacyIds source = .ok ts) : Token.source ts = source := by
  obtain ⟨ps, b, hps, rfl⟩ := (tokenize_eq_ok_iff legacyIds source ts).mp h
  rw [Piece.source_place, hps.source_eq, List.append_nil]

theorem lastStop_of_tokenize {legacyIds : Bool} {source : Text} {ts : List Token}
    (h : tokenize legacyIds source = .ok ts) : Token.lastStop ts = Text.bytes source := by
  obtain ⟨ps, b, hps, rfl⟩ := (tokenize_eq_ok_iff legacyIds source ts).mp h
  rw [hps.source_eq, List.append_nil]
  cases ps with
  | nil => rfl
  | cons p ps => rw [Piece.lastStop_place 0 _ (by simp), Nat.zero_add]

end AsciiDoc
