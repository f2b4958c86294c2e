import AsciiDoc.Grammar.Parser
import Mathlib.Computability.Language
import Mathlib.Order.CompletePartialOrder

/-!
Laws of parsers. A parser belongs to a language: it reads words of the language only, and every test that
it reports as failed was for a kind with which some word goes on there. What it does is settled by the
tokens before the furthest of these tests, as long as the next token is none of those looked for. All
combinators keep the laws, so each rule of a grammar has them by the way it is put together.
-/

namespace AsciiDoc

open Computability

def Token.next? (ts : List Token) : Option Kind := ts.head?.map Token.kind

namespace Miss

def At (P : List Token → List Token → Option Kind → Prop) (i : Nat) (ts : List Token) (m : Miss) : Prop :=
  ∃ us rest, ts = us ++ rest ∧ m.index = i + us.length ∧ m.expected ≠ [] ∧ ∀ x ∈ m.expected, P us rest x

def Sound (L : Language Kind) : Nat → List Token → Miss → Prop :=
  At fun us rest x => x ≠ Token.next? rest ∧ ∃ k ls, x = some k ∧ us.map Token.kind ++ k :: ls ∈ L

def Spares (n : Nat) (x : Option Kind) (m : Miss) : Prop :=
  m.index ≤ n ∧ (m.index = n → x ∉ m.expected)

section Furthest

variable {n i : Nat} {x : Option Kind} {L M : Language Kind} {ts us : List Token} {m m' : Miss}
  {o o' : Option Miss} {P Q : List Token → List Token → Option Kind → Prop}

theorem furthest_spares : (m.furthest m').Spares n x ↔ m.Spares n x ∧ m'.Spares n x := by
  unfold furthest
  split
  · rename_i hlt
    refine ⟨fun h => ⟨?_, h⟩, fun h => h.2⟩
    have hle := h.1
    exact ⟨by omega, by omega⟩
  · split
    · rename_i hlt
      refine ⟨fun h => ⟨h, ?_⟩, fun h => h.1⟩
      have hle := h.1
      exact ⟨by omega, by omega⟩
    · have heq : m.index = m'.index := by omega
      simp only [Spares, heq, List.mem_append, not_or]
      exact ⟨fun h => ⟨⟨h.1, fun hn => (h.2 hn).1⟩, h.1, fun hn => (h.2 hn).2⟩,
        fun h => ⟨h.1.1, fun hn => ⟨h.1.2 hn, h.2.2 hn⟩⟩⟩

theorem furthestOf_spares :
    (m.furthestOf o).Spares n x ↔ m.Spares n x ∧ ∀ l ∈ o, l.Spares n x := by
  cases o with
  | none => simp [furthestOf]
  | some l => simp [furthestOf, furthest_spares]

theorem merge_spares : (∀ l ∈ o.merge furthest o', l.Spares n x) ↔
    (∀ l ∈ o, l.Spares n x) ∧ ∀ l ∈ o', l.Spares n x := by
  cases o <;> cases o' <;> simp [Option.merge, furthest_spares]

theorem At.furthest (hm : m.At P i ts) (hm' : m'.At P i ts) : (m.furthest m').At P i ts := by
  unfold Miss.furthest
  split
  · exact hm'
  · split
    · exact hm
    · obtain ⟨us, rest, rfl, hindex, hne, hm⟩ := hm
      obtain ⟨us', rest', hts, hindex', -, hm'⟩ := hm'
      obtain ⟨rfl, rfl⟩ := List.append_inj hts (by omega)
      refine ⟨us, rest, rfl, hindex, by simp [hne], fun x hx => ?_⟩
      exact (List.mem_append.mp hx).elim (hm x) (hm' x)

theorem At.furthestOf (hm : m.At P i ts) (ho : ∀ l ∈ o, l.At P i ts) : (m.furthestOf o).At P i ts := by
  cases o with
  | none => exact hm
  | some l => exact hm.furthest (ho l rfl)

theorem At.merge (ho : ∀ l ∈ o, l.At P i ts) (ho' : ∀ l ∈ o', l.At P i ts) :
    ∀ l ∈ o.merge Miss.furthest o', l.At P i ts := by
  cases o with
  | none =>
    cases o' with
    | none => simp [Option.merge]
    | some l => simpa [Option.merge] using ho'
  | some l =>
    cases o' with
    | none => simpa [Option.merge] using ho
    | some l' => simpa [Option.merge] using (ho l rfl).furthest (ho' l' rfl)

theorem At.imp (hm : m.At P i ts) (h : ∀ us rest x, P us rest x → Q us rest x) : m.At Q i ts := by
  obtain ⟨us, rest, hts, hindex, hne, hm⟩ := hm
  exact ⟨us, rest, hts, hindex, hne, fun x hx => h us rest x (hm x hx)⟩

theorem Sound.mono (hm : m.Sound L i ts) (h : L ≤ M) : m.Sound M i ts := by
  refine At.imp hm fun us rest x hx => ?_
  obtain ⟨hne, k, ls, hk, hmem⟩ := hx
  exact ⟨hne, k, ls, hk, h hmem⟩

theorem Sound.before (hm : m.Sound L i ts) (hM : ∃ ks, ks ∈ M) : m.Sound (L * M) i ts := by
  obtain ⟨ks, hks⟩ := hM
  obtain ⟨us, rest, hts, hindex, hne, hm⟩ := hm
  refine ⟨us, rest, hts, hindex, hne, fun x hx => ?_⟩
  obtain ⟨hx, k, ls, rfl, hmem⟩ := hm x hx
  refine ⟨hx, k, ls ++ ks, rfl, ?_⟩
  rw [← List.cons_append, ← List.append_assoc]
  exact Language.append_mem_mul hmem hks

theorem Sound.behind (hm : m.Sound M (i + us.length) ts) (hus : us.map Token.kind ∈ L) :
    m.Sound (L * M) i (us ++ ts) := by
  obtain ⟨vs, rest, rfl, hindex, hne, hm⟩ := hm
  refine ⟨us ++ vs, rest, by simp, by simp [hindex, Nat.add_assoc], hne, fun x hx => ?_⟩
  obtain ⟨hx, k, ls, rfl, hmem⟩ := hm x hx
  refine ⟨hx, k, ls, rfl, ?_⟩
  rw [List.map_append, List.append_assoc]
  exact Language.append_mem_mul hus hmem

theorem Sound.le_index (hm : m.Sound L i ts) : i ≤ m.index := by
  obtain ⟨us, rest, -, hindex, -⟩ := hm
  omega

end Furthest

end Miss

namespace Parser

variable {α β : Type} {p : Parser α} {q : Parser β} {L M : Language Kind} {i : Nat} {ts : List Token}

section Inversion

variable {a : α} {b : β} {j : Nat} {rest : List Token} {o : Option Miss} {m : Miss}

theorem map_eq_ok {f : α → β} (h : p.map f i ts = .ok b j rest o) :
    ∃ a, p i ts = .ok a j rest o ∧ f a = b := by
  unfold map at h
  split at h
  · cases h
    exact ⟨_, ‹_›, rfl⟩
  · cases h

theorem map_eq_fail {f : α → β} (h : p.map f i ts = .fail m) : p i ts = .fail m := by
  unfold map at h
  split at h
  · cases h
  · cases h
    assumption

theorem andThen_eq_ok (h : p.andThen q i ts = .ok (a, b) j rest o) :
    ∃ k us l l', p i ts = .ok a k us l ∧ q k us = .ok b j rest l' ∧ o = l.merge Miss.furthest l' := by
  unfold andThen at h
  split at h
  · split at h
    · cases h
      exact ⟨_, _, _, _, ‹_›, ‹_›, rfl⟩
    · cases h
  · cases h

theorem andThen_eq_fail (h : p.andThen q i ts = .fail m) :
    p i ts = .fail m ∨
      ∃ a k us l l', p i ts = .ok a k us l ∧ q k us = .fail l' ∧ m = l'.furthestOf l := by
  unfold andThen at h
  split at h
  · split at h
    · cases h
    · cases h
      exact Or.inr ⟨_, _, _, _, _, ‹_›, ‹_›, rfl⟩
  · cases h
    exact Or.inl ‹_›

theorem orElse_eq_ok {q : Parser α} (h : p.orElse q i ts = .ok a j rest o) :
    p i ts = .ok a j rest o ∨
      ∃ l l', p i ts = .fail l ∧ q i ts = .ok a j rest l' ∧ o = some (l.furthestOf l') := by
  unfold orElse at h
  split at h
  · cases h
    exact Or.inl ‹_›
  · split at h
    · cases h
      exact Or.inr ⟨_, _, ‹_›, ‹_›, rfl⟩
    · cases h

theorem orElse_eq_fail {q : Parser α} (h : p.orElse q i ts = .fail m) :
    ∃ l l', p i ts = .fail l ∧ q i ts = .fail l' ∧ m = l.furthest l' := by
  unfold orElse at h
  split at h
  · cases h
  · split at h
    · cases h
    · cases h
      exact ⟨_, _, ‹_›, ‹_›, rfl⟩

theorem optional_ne_fail : p.optional i ts ≠ .fail m := by
  unfold optional
  split <;> simp

theorem optional_eq_ok {x : Option α} (h : p.optional i ts = .ok x j rest o) :
    (∃ a, x = some a ∧ p i ts = .ok a j rest o) ∨
      ∃ m, x = none ∧ j = i ∧ rest = ts ∧ o = some m ∧ p i ts = .fail m := by
  unfold optional at h
  split at h
  · cases h
    exact Or.inl ⟨_, rfl, ‹_›⟩
  · cases h
    exact Or.inr ⟨_, rfl, rfl, rfl, rfl, ‹_›⟩

end Inversion

/-- The parser keeps to the language, and its outcome is the same on tokens that agree up to the furthest
test and do not go on there with what was looked for. -/
structure Lawful (p : Parser α) (L : Language Kind) : Prop where
  inhabited : ∃ ks, ks ∈ L
  ok {i : Nat} {ts rest : List Token} {a : α} {j : Nat} {o : Option Miss} (h : p i ts = .ok a j rest o) :
    ∃ us, ts = us ++ rest ∧ j = i + us.length ∧ us.map Token.kind ∈ L ∧ ∀ l ∈ o, l.Sound L i ts
  fail {i : Nat} {ts : List Token} {m : Miss} (h : p i ts = .fail m) : m.Sound L i ts
  ok_agrees {i : Nat} {us ts ts' rest : List Token} {a : α} {j : Nat} {o : Option Miss}
    (h : p i (us ++ ts) = .ok a j rest o) (hj : j ≤ i + us.length)
    (ho : ∀ l ∈ o, l.Spares (i + us.length) (Token.next? ts')) :
    ∃ vs ws, us = vs ++ ws ∧ j = i + vs.length ∧ rest = ws ++ ts ∧
      p i (us ++ ts') = .ok a j (ws ++ ts') o
  fail_agrees {i : Nat} {us ts ts' : List Token} {m : Miss} (h : p i (us ++ ts) = .fail m)
    (hm : m.Spares (i + us.length) (Token.next? ts')) : p i (us ++ ts') = .fail m

theorem Lawful.token (k : Kind) : (token k).Lawful {[k]} where
  inhabited := ⟨[k], rfl⟩
  ok {i ts rest a j o} h := by
    cases ts with
    | nil => cases h
    | cons t ts =>
      by_cases hk : t.kind = k
      · simp only [Parser.token, hk, if_true, Outcome.ok.injEq] at h
        obtain ⟨rfl, rfl, rfl, rfl⟩ := h
        exact ⟨[t], rfl, rfl, congrArg ([·]) hk, nofun⟩
      · simp [Parser.token, hk] at h
  fail {i ts m} h := by
    have hmiss : m = ⟨i, [some k]⟩ ∧ Token.next? ts ≠ some k := by
      cases ts with
      | nil => cases h; exact ⟨rfl, nofun⟩
      | cons t ts =>
        by_cases hk : t.kind = k
        · simp [Parser.token, hk] at h
        · simp only [Parser.token, hk, if_false, Outcome.fail.injEq] at h
          exact ⟨h.symm, by simpa [Token.next?] using hk⟩
    obtain ⟨rfl, hne⟩ := hmiss
    refine ⟨[], ts, rfl, rfl, by simp, fun x hx => ?_⟩
    obtain rfl := List.mem_singleton.mp hx
    exact ⟨hne.symm, k, [], rfl, rfl⟩
  ok_agrees {i us ts ts' rest a j o} h hj ho := by
    cases us with
    | nil =>
      cases ts with
      | nil => cases h
      | cons t ts =>
        by_cases hk : t.kind = k
        · simp only [List.nil_append, Parser.token, hk, if_true, Outcome.ok.injEq] at h
          simp only [List.length_nil] at hj
          omega
        · simp [Parser.token, hk] at h
    | cons t us =>
      by_cases hk : t.kind = k
      · simp only [List.cons_append, Parser.token, hk, if_true, Outcome.ok.injEq] at h
        obtain ⟨rfl, rfl, rfl, rfl⟩ := h
        exact ⟨[t], us, rfl, rfl, rfl, by simp [Parser.token, hk]⟩
      · simp [Parser.token, hk] at h
  fail_agrees {i us ts ts' m} h hm := by
    cases us with
    | nil =>
      have hmiss : m = ⟨i, [some k]⟩ := by
        cases ts with
        | nil => cases h; rfl
        | cons t ts =>
          by_cases hk : t.kind = k
          · simp [Parser.token, hk] at h
          · simpa [Parser.token, hk] using h.symm
      subst hmiss
      have hne : Token.next? ts' ≠ some k := by simpa using hm.2 rfl
      cases ts' with
      | nil => rfl
      | cons t ts' =>
        have hk : t.kind ≠ k := by simpa [Token.next?] using hne
        simp [Parser.token, hk]
    | cons t us =>
      by_cases hk : t.kind = k
      · simp [Parser.token, hk] at h
      · simpa [Parser.token, hk] using h

theorem Lawful.map (hp : p.Lawful L) (f : α → β) : (p.map f).Lawful L where
  inhabited := hp.inhabited
  ok h := by
    obtain ⟨a, hrun, rfl⟩ := map_eq_ok h
    exact hp.ok hrun
  fail h := hp.fail (map_eq_fail h)
  ok_agrees h hj ho := by
    obtain ⟨a, hrun, rfl⟩ := map_eq_ok h
    obtain ⟨vs, ws, hus, hj, hrest, hrun'⟩ := hp.ok_agrees hrun hj ho
    exact ⟨vs, ws, hus, hj, hrest, by simp only [Parser.map, hrun']⟩
  fail_agrees h hm := by simp only [Parser.map, hp.fail_agrees (map_eq_fail h) hm]

theorem Lawful.andThen (hp : p.Lawful L) (hq : q.Lawful M) : (p.andThen q).Lawful (L * M) where
  inhabited := by
    obtain ⟨ks, hks⟩ := hp.inhabited
    obtain ⟨ls, hls⟩ := hq.inhabited
    exact ⟨ks ++ ls, Language.append_mem_mul hks hls⟩
  ok h := by
    obtain ⟨k, us, l, l', h₁, h₂, rfl⟩ := andThen_eq_ok h
    obtain ⟨vs, rfl, rfl, hvs, hl⟩ := hp.ok h₁
    obtain ⟨ws, rfl, rfl, hws, hl'⟩ := hq.ok h₂
    refine ⟨vs ++ ws, by simp, by simp [Nat.add_assoc], ?_, ?_⟩
    · rw [List.map_append]
      exact Language.append_mem_mul hvs hws
    · exact Miss.At.merge (fun m hm => (hl m hm).before hq.inhabited) fun m hm => (hl' m hm).behind hvs
  fail h := by
    rcases andThen_eq_fail h with h | ⟨a, k, us, l, l', h₁, h₂, rfl⟩
    · exact (hp.fail h).before hq.inhabited
    · obtain ⟨vs, rfl, rfl, hvs, hl⟩ := hp.ok h₁
      exact ((hq.fail h₂).behind hvs).furthestOf fun m hm => (hl m hm).before hq.inhabited
  ok_agrees {i us ts ts' rest a j o} h hj ho := by
    obtain ⟨k, mid, l, l', h₁, h₂, rfl⟩ := andThen_eq_ok h
    obtain ⟨hl, hl'⟩ := Miss.merge_spares.mp ho
    have hk : k ≤ j := by
      obtain ⟨_, -, rfl, -⟩ := hq.ok h₂
      omega
    obtain ⟨vs, ws, rfl, rfl, rfl, h₁'⟩ := hp.ok_agrees h₁ (hk.trans hj) hl
    rw [List.length_append, ← Nat.add_assoc] at hj hl'
    obtain ⟨vs', ws', rfl, rfl, rfl, h₂'⟩ := hq.ok_agrees h₂ hj hl'
    refine ⟨vs ++ vs', ws', by simp, by simp [Nat.add_assoc], rfl, ?_⟩
    simp only [Parser.andThen, h₁', h₂']
  fail_agrees {i us ts ts' m} h hm := by
    rcases andThen_eq_fail h with h | ⟨a, k, mid, l, l', h₁, h₂, rfl⟩
    · simp only [Parser.andThen, hp.fail_agrees h hm]
    · obtain ⟨hl', hl⟩ := Miss.furthestOf_spares.mp hm
      obtain ⟨vs, ws, rfl, rfl, rfl, h₁'⟩ :=
        hp.ok_agrees h₁ ((hq.fail h₂).le_index.trans hl'.1) hl
      rw [List.length_append, ← Nat.add_assoc] at hl'
      simp only [Parser.andThen, h₁', hq.fail_agrees h₂ hl']

theorem Lawful.orElse {q : Parser α} (hp : p.Lawful L) (hq : q.Lawful M) : (p.orElse q).Lawful (L + M) where
  inhabited := hp.inhabited.imp fun _ => Or.inl
  ok h := by
    rcases orElse_eq_ok h with h | ⟨l, l', h₁, h₂, rfl⟩
    · obtain ⟨us, rfl, rfl, hus, hl⟩ := hp.ok h
      exact ⟨us, rfl, rfl, Or.inl hus, fun m hm => (hl m hm).mono le_self_add⟩
    · obtain ⟨us, rfl, rfl, hus, hl'⟩ := hq.ok h₂
      refine ⟨us, rfl, rfl, Or.inr hus, ?_⟩
      rintro _ ⟨⟩
      exact ((hp.fail h₁).mono le_self_add).furthestOf fun m hm => (hl' m hm).mono le_add_self
  fail h := by
    obtain ⟨l, l', h₁, h₂, rfl⟩ := orElse_eq_fail h
    exact ((hp.fail h₁).mono le_self_add).furthest ((hq.fail h₂).mono le_add_self)
  ok_agrees h hj ho := by
    rcases orElse_eq_ok h with h | ⟨l, l', h₁, h₂, rfl⟩
    · obtain ⟨vs, ws, hus, hj, hrest, h'⟩ := hp.ok_agrees h hj ho
      exact ⟨vs, ws, hus, hj, hrest, by simp only [Parser.orElse, h']⟩
    · obtain ⟨hl, hl'⟩ := Miss.furthestOf_spares.mp (ho _ rfl)
      obtain ⟨vs, ws, hus, hj, hrest, h'⟩ := hq.ok_agrees h₂ hj hl'
      exact ⟨vs, ws, hus, hj, hrest, by simp only [Parser.orElse, hp.fail_agrees h₁ hl, h']⟩
  fail_agrees h hm := by
    obtain ⟨l, l', h₁, h₂, rfl⟩ := orElse_eq_fail h
    obtain ⟨hl, hl'⟩ := Miss.furthest_spares.mp hm
    simp only [Parser.orElse, hp.fail_agrees h₁ hl, hq.fail_agrees h₂ hl']

theorem Lawful.optional (hp : p.Lawful L) : p.optional.Lawful (1 + L) where
  inhabited := ⟨[], Or.inl Language.nil_mem_one⟩
  ok h := by
    rcases optional_eq_ok h with ⟨a, rfl, hrun⟩ | ⟨m, rfl, rfl, rfl, rfl, hrun⟩
    · obtain ⟨us, rfl, rfl, hus, hl⟩ := hp.ok hrun
      exact ⟨us, rfl, rfl, Or.inr hus, fun m hm => (hl m hm).mono le_add_self⟩
    · refine ⟨[], rfl, rfl, Or.inl rfl, ?_⟩
      simpa using (hp.fail hrun).mono le_add_self
  fail h := absurd h optional_ne_fail
  ok_agrees {i us ts ts' rest a j o} h hj ho := by
    rcases optional_eq_ok h with ⟨a, rfl, hrun⟩ | ⟨m, rfl, rfl, rfl, rfl, hrun⟩
    · obtain ⟨vs, ws, hus, hj, hrest, hrun'⟩ := hp.ok_agrees hrun hj ho
      exact ⟨vs, ws, hus, hj, hrest, by simp only [Parser.optional, hrun']⟩
    · exact ⟨[], us, rfl, rfl, rfl, by simp only [Parser.optional, hp.fail_agrees hrun (ho m rfl)]⟩
  fail_agrees h := absurd h optional_ne_fail

theorem Lawful.mono (hp : p.Lawful L) (h : L ≤ M) : p.Lawful M where
  inhabited := hp.inhabited.imp fun _ hks => h hks
  ok hrun := by
    obtain ⟨us, hts, hj, hus, hl⟩ := hp.ok hrun
    exact ⟨us, hts, hj, h hus, fun m hm => (hl m hm).mono h⟩
  fail hrun := (hp.fail hrun).mono h
  ok_agrees := hp.ok_agrees
  fail_agrees := hp.fail_agrees

section Repetition

theorem rounds_of_fail {m : Miss} (h : p i ts = .fail m) (bound : List Token) :
    p.rounds bound i ts = .ok [] i ts (some m) := by
  cases bound <;> simp only [rounds, map, optional, andThen, h, Option.toList_none]

theorem repeated_ne_fail {m : Miss} : p.repeated i ts ≠ .fail m := by
  cases ts with
  | nil => exact fun h => optional_ne_fail (map_eq_fail h)
  | cons t ts => exact fun h => optional_ne_fail (map_eq_fail h)

theorem Lawful.length_lt (hp : p.Lawful L) (hL : [] ∉ L) {a : α} {j : Nat} {us : List Token}
    {o : Option Miss} (h : p i ts = .ok a j us o) : us.length < ts.length := by
  obtain ⟨vs, rfl, -, hvs, -⟩ := hp.ok h
  cases vs with
  | nil => exact absurd hvs hL
  | cons v vs =>
    simp only [List.cons_append, List.length_cons, List.length_append]
    omega

theorem Lawful.rounds_eq (hp : p.Lawful L) (hL : [] ∉ L) {bound bound' : List Token}
    (h : ts.length ≤ bound.length) (h' : ts.length ≤ bound'.length) :
    p.rounds bound i ts = p.rounds bound' i ts := by
  induction bound generalizing bound' i ts with
  | nil =>
    cases hrun : p i ts with
    | fail m => rw [rounds_of_fail hrun, rounds_of_fail hrun]
    | ok a j us o => exact absurd (hp.length_lt hL hrun) (by simp [Nat.le_zero.mp h])
  | cons t bound ih =>
    cases hrun : p i ts with
    | fail m => rw [rounds_of_fail hrun, rounds_of_fail hrun]
    | ok a j us o =>
      have hlt := hp.length_lt hL hrun
      cases bound' with
      | nil => exact absurd hlt (by simp [Nat.le_zero.mp h'])
      | cons t' bound' =>
        rw [List.length_cons] at h h'
        have hrest : p.rounds bound j us = p.rounds bound' j us := ih (by omega) (by omega)
        simp only [Parser.rounds, Parser.map, Parser.optional, Parser.andThen, hrun, hrest]

theorem Lawful.rounds (hp : p.Lawful L) (bound : List Token) : Lawful (p.rounds bound) L∗ := by
  have hone : 1 + L * L∗ = L∗ := Language.one_add_self_mul_kstar_eq_kstar L
  induction bound with
  | nil =>
    refine (hp.optional.map Option.toList).mono ?_
    rw [← hone]
    exact add_le_add_right (le_mul_of_one_le_right' one_le_kstar) 1
  | cons t bound ih =>
    have hround := (hp.andThen ih).optional
    rw [hone] at hround
    exact hround.map _

theorem Lawful.repeated (hp : p.Lawful L) (hL : [] ∉ L) : p.repeated.Lawful L∗ where
  inhabited := ⟨[], Language.nil_mem_kstar L⟩
  ok h := (hp.rounds _).ok h
  fail h := (hp.rounds _).fail h
  ok_agrees {i us ts ts' rest a j o} h hj ho := by
    -- Both runs are bounded by what covers either list of tokens.
    have hrun : p.rounds (us ++ ts ++ ts') i (us ++ ts) = .ok a j rest o :=
      (hp.rounds_eq hL (by simp) le_rfl).trans h
    obtain ⟨vs, ws, hus, hj, hrest, hrun'⟩ := (hp.rounds _).ok_agrees hrun hj ho
    exact ⟨vs, ws, hus, hj, hrest, (hp.rounds_eq hL le_rfl (by simp)).trans hrun'⟩
  fail_agrees {i us ts ts' m} h hm := by
    have hrun : p.rounds (us ++ ts ++ ts') i (us ++ ts) = .fail m :=
      (hp.rounds_eq hL (by simp) le_rfl).trans h
    exact (hp.rounds_eq hL le_rfl (by simp)).trans ((hp.rounds _).fail_agrees hrun hm)

theorem Lawful.several (hp : p.Lawful L) (hL : [] ∉ L) : p.several.Lawful (L * L∗) :=
  (hp.andThen (hp.repeated hL)).map _

end Repetition

def Reads (p : Parser α) (us : List Token) (a : α) (rest : List Token) : Prop :=
  ∀ i, ∃ o, p i (us ++ rest) = .ok a (i + us.length) rest o

def Refuses (p : Parser α) (ts : List Token) : Prop := ∀ i, ∃ m, p i ts = .fail m

section Reading

variable {us vs rest : List Token} {a : α} {as : List α} {b : β}

theorem reads_token {k : Kind} {t : Token} (h : t.kind = k) : (token k).Reads [t] t rest := by
  intro i
  exact ⟨none, by simp [token, h]⟩

theorem refuses_token {k : Kind} (h : Token.next? ts ≠ some k) : (token k).Refuses ts := by
  intro i
  refine ⟨⟨i, [some k]⟩, ?_⟩
  cases ts with
  | nil => rfl
  | cons t ts =>
    have hk : t.kind ≠ k := by simpa [Token.next?] using h
    simp [token, hk]

theorem Reads.map (h : p.Reads us a rest) (f : α → β) : (p.map f).Reads us (f a) rest := by
  intro i
  obtain ⟨o, ho⟩ := h i
  exact ⟨o, by simp only [Parser.map, ho]⟩

theorem Refuses.map (h : p.Refuses ts) (f : α → β) : (p.map f).Refuses ts := by
  intro i
  obtain ⟨m, hm⟩ := h i
  exact ⟨m, by simp only [Parser.map, hm]⟩

theorem Reads.andThen (hp : p.Reads us a (vs ++ rest)) (hq : q.Reads vs b rest) :
    (p.andThen q).Reads (us ++ vs) (a, b) rest := by
  intro i
  obtain ⟨o, ho⟩ := hp i
  obtain ⟨o', ho'⟩ := hq (i + us.length)
  refine ⟨o.merge Miss.furthest o', ?_⟩
  simp only [List.append_assoc, Parser.andThen, ho, ho', List.length_append, Nat.add_assoc]

theorem Refuses.andThen (hp : p.Refuses ts) (q : Parser β) : (p.andThen q).Refuses ts := by
  intro i
  obtain ⟨m, hm⟩ := hp i
  exact ⟨m, by simp only [Parser.andThen, hm]⟩

theorem Reads.andThen_refuses (hp : p.Reads us a rest) (hq : q.Refuses rest) :
    (p.andThen q).Refuses (us ++ rest) := by
  intro i
  obtain ⟨o, ho⟩ := hp i
  obtain ⟨m, hm⟩ := hq (i + us.length)
  exact ⟨m.furthestOf o, by simp only [Parser.andThen, ho, hm]⟩

theorem Reads.orElse (hp : p.Reads us a rest) (q : Parser α) : (p.orElse q).Reads us a rest := by
  intro i
  obtain ⟨o, ho⟩ := hp i
  exact ⟨o, by simp only [Parser.orElse, ho]⟩

theorem Refuses.orElse_reads {q : Parser α} (hp : p.Refuses (us ++ rest)) (hq : q.Reads us a rest) :
    (p.orElse q).Reads us a rest := by
  intro i
  obtain ⟨m, hm⟩ := hp i
  obtain ⟨o, ho⟩ := hq i
  exact ⟨some (m.furthestOf o), by simp only [Parser.orElse, hm, ho]⟩

theorem Refuses.orElse {q : Parser α} (hp : p.Refuses ts) (hq : q.Refuses ts) : (p.orElse q).Refuses ts := by
  intro i
  obtain ⟨m, hm⟩ := hp i
  obtain ⟨m', hm'⟩ := hq i
  exact ⟨m.furthest m', by simp only [Parser.orElse, hm, hm']⟩

theorem Reads.optional (h : p.Reads us a rest) : p.optional.Reads us (some a) rest := by
  intro i
  obtain ⟨o, ho⟩ := h i
  exact ⟨o, by simp only [Parser.optional, ho]⟩

theorem Refuses.optional (h : p.Refuses rest) : p.optional.Reads [] none rest := by
  intro i
  obtain ⟨m, hm⟩ := h i
  exact ⟨some m, by simp only [Parser.optional, List.nil_append, hm, List.length_nil, Nat.add_zero]⟩

theorem Refuses.repeated (h : p.Refuses rest) : p.repeated.Reads [] [] rest := by
  intro i
  obtain ⟨m, hm⟩ := h i
  exact ⟨some m, rounds_of_fail hm rest⟩

theorem Refuses.several (h : p.Refuses ts) : p.several.Refuses ts := (h.andThen p.repeated).map _

section Lawful

variable (hp : p.Lawful L) (hL : [] ∉ L)
include hp hL

theorem Reads.repeated (h : p.Reads us a (vs ++ rest)) (hr : p.repeated.Reads vs as rest) :
    p.repeated.Reads (us ++ vs) (a :: as) rest := by
  intro i
  obtain ⟨o, ho⟩ := h i
  obtain ⟨o', ho'⟩ := hr (i + us.length)
  have hlt := hp.length_lt hL ho
  rw [List.append_assoc, Parser.repeated]
  cases hts : us ++ (vs ++ rest) with
  | nil =>
    rw [hts] at hlt
    cases hlt
  | cons t bound =>
    have hbound : (vs ++ rest).length ≤ bound.length := by
      rw [hts, List.length_cons] at hlt
      omega
    have hrest : p.rounds bound (i + us.length) (vs ++ rest) = _ := (hp.rounds_eq hL hbound le_rfl).trans ho'
    rw [hts] at ho
    refine ⟨o.merge Miss.furthest o', ?_⟩
    simp only [rounds, Parser.map, Parser.optional, Parser.andThen, ho, hrest, List.length_append,
      Nat.add_assoc]

theorem reads_repeated_flatMap {γ : Type} (f : γ → α) (tokens : γ → List Token) {Q : List Token → Prop}
    {xs : List γ} (h : ∀ x ∈ xs, ∀ ts, Q ts → p.Reads (tokens x) (f x) ts)
    (hQ : ∀ x ∈ xs, ∀ ts, Q (tokens x ++ ts)) (hrest : Q rest) (hstop : p.Refuses rest) :
    p.repeated.Reads (xs.flatMap tokens) (xs.map f) rest := by
  induction xs with
  | nil => exact hstop.repeated
  | cons x xs ih =>
    obtain ⟨hx, hxs⟩ := List.forall_mem_cons.mp h
    obtain ⟨-, hQs⟩ := List.forall_mem_cons.mp hQ
    refine Reads.repeated hp hL (hx _ ?_) (ih hxs hQs)
    cases xs with
    | nil => exact hrest
    | cons y xs =>
      have hnext := hQs y List.mem_cons_self (xs.flatMap tokens ++ rest)
      rwa [← List.append_assoc, ← List.flatMap_cons] at hnext

end Lawful

theorem Reads.several (h : p.Reads us a (vs ++ rest)) (hr : p.repeated.Reads vs as rest) :
    p.several.Reads (us ++ vs) (a :: as) rest := (h.andThen hr).map _

end Reading

end Parser

end AsciiDoc
