import Mathlib.Tactic

/-!
# A feeder that serves the first one

In each round a feeder serves the first consumer that is hungry. A served consumer is not hungry in
the next round, and at least `m` rounds lie between two rounds in which a consumer becomes hungry.
Then the first `m` consumers, once each of them has been served, are never hungry for `m` rounds on end
(`Feeder.fed_soon`).
-/

namespace NnProcessor.Queueing

/-- What becomes true does so at some time. -/
lemma exists_change {P : ℕ → Prop} {a b : ℕ} (le : a ≤ b) (before : ¬P a) (behind : P b) :
    ∃ s, a ≤ s ∧ s < b ∧ ¬P s ∧ P (s + 1) := by
  induction b, le using Nat.le_induction with
  | base => exact absurd behind before
  | succ b le ih =>
    by_cases now : P b
    · obtain ⟨s, lo, hi, change⟩ := ih now
      exact ⟨s, lo, Nat.lt_succ_of_lt hi, change⟩
    · exact ⟨b, le, Nat.lt_succ_self b, now, behind⟩

/-- The rounds of a feeder, those before `n`. -/
structure Feeder (κ : Type*) [LinearOrder κ] (m n : ℕ) where
  hungry : ℕ → κ → Prop
  fed : ℕ → κ → Prop
  first : ∀ c < n, ∀ l, hungry c l → ∃ l' ≤ l, hungry c l' ∧ fed c l'
  only : ∀ c < n, ∀ l l', fed c l → fed c l' → l = l'
  sated : ∀ c, c + 1 < n → ∀ l, fed c l → ¬hungry (c + 1) l
  rest : ∀ l s s', s < s' → s' + 1 < n → ¬hungry s l → hungry (s + 1) l → ¬hungry s' l →
    hungry (s' + 1) l → s + m ≤ s'

namespace Feeder

variable {κ : Type*} [LinearOrder κ] {m n : ℕ} (feeder : Feeder κ m n)

/-- No more than one of the consumers up to `k` is hungry. -/
def Clear (k : κ) (c : ℕ) : Prop :=
  ∀ l l', l ≤ k → l' ≤ k → feeder.hungry c l → feeder.hungry c l' → l = l'

include feeder

/-- When a consumer is served, none before it is hungry. -/
lemma clear_of_fed {k : κ} {c : ℕ} (lt : c < n) (fed : feeder.fed c k) : feeder.Clear k c := by
  have alone : ∀ l ≤ k, feeder.hungry c l → l = k := by
    intro l le hungry
    obtain ⟨l', le', -, fed'⟩ := feeder.first c lt l hungry
    obtain rfl := feeder.only c lt k l' fed fed'
    exact le_antisymm le le'
  intro l l' le le' hungry hungry'
  rw [alone l le hungry, alone l' le' hungry']

/-- A consumer that is hungry and the only one is served. -/
lemma fed_of_clear {k : κ} {c : ℕ} (lt : c < n) (clear : feeder.Clear k c)
    (hungry : feeder.hungry c k) : feeder.fed c k := by
  obtain ⟨l, le, hungry', fed⟩ := feeder.first c lt k hungry
  rwa [clear l k le (le_refl k) hungry' hungry] at fed

/-- A consumer that is hungry behind a clear round has become so since. -/
lemma hungry_since {k l : κ} {c d : ℕ} (hi : d < n) (lt : c < d) (le : l ≤ k)
    (clear : feeder.Clear k c) (hungry : feeder.hungry d l) :
    ∃ s, c ≤ s ∧ s < d ∧ ¬feeder.hungry s l ∧ feeder.hungry (s + 1) l := by
  by_cases before : feeder.hungry c l
  · have fed : feeder.fed c l := by
      obtain ⟨l', le', hungry', fed⟩ := feeder.first c (lt.trans hi) l before
      rwa [clear l' l (le'.trans le) le hungry' before] at fed
    obtain ⟨s, lo, less, change⟩ := exists_change (P := fun d => feeder.hungry d l) lt
      (feeder.sated c (Nat.lt_of_le_of_lt lt hi) l fed) hungry
    exact ⟨s, Nat.le_of_succ_le lo, less, change⟩
  · exact exists_change (P := fun d => feeder.hungry d l) lt.le before hungry

/-- In `m` rounds behind a clear one no consumer is hungry again that has been served. -/
lemma not_hungry {k l : κ} {c d e : ℕ} (hi : e < n) (le : l ≤ k) (clear : feeder.Clear k c)
    (lo : c < d) (lt : d < e) (near : e ≤ c + m) (hungry : feeder.hungry d l)
    (fed : feeder.fed d l) : ¬feeder.hungry e l := by
  intro again
  obtain ⟨s, from_, to_, off, on⟩ := feeder.hungry_since (lt.trans hi) lo le clear hungry
  obtain ⟨s', from', to', off', on'⟩ := exists_change (P := fun d => feeder.hungry d l) lt
    (feeder.sated d (Nat.lt_of_le_of_lt lt hi) l fed) again
  have rest := feeder.rest l s s' (by omega) (by omega) off on off' on'
  omega

/-- In a round that is not clear one of the hungry consumers is served, and another one is left over. -/
lemma left_over {k : κ} {d : ℕ} (lt : d < n) (crowded : ¬feeder.Clear k d) :
    ∃ l ≤ k, feeder.hungry d l ∧ feeder.fed d l ∧ ∃ o ≤ k, feeder.hungry d o ∧ o ≠ l := by
  unfold Clear at crowded
  push Not at crowded
  obtain ⟨l, l', le, le', hungry, hungry', ne⟩ := crowded
  obtain ⟨s, first, hungry₀, fed⟩ := feeder.first d lt l hungry
  refine ⟨s, first.trans le, hungry₀, fed, ?_⟩
  by_cases eq : l = s
  · exact ⟨l', le', hungry', fun eq' => ne (eq.trans eq'.symm)⟩
  · exact ⟨l, le, hungry, eq⟩

/-- In one of `m` rounds behind a clear one no more than one of the first `m` consumers is hungry. -/
lemma clear_soon [LocallyFiniteOrderBot κ] {k : κ} (few : (Finset.Iic k).card ≤ m) {c : ℕ}
    (hi : c + m < n) (clear : feeder.Clear k c) :
    ∃ d, c < d ∧ d ≤ c + m ∧ feeder.Clear k d := by
  by_contra never
  have crowded : ∀ d, c < d → d ≤ c + m → ¬feeder.Clear k d := fun d lo le clear' =>
    never ⟨d, lo, le, clear'⟩
  have served : ∀ d : ℕ, ∃ l, c < d → d ≤ c + m → l ≤ k ∧ feeder.hungry d l ∧ feeder.fed d l ∧
      ∃ o ≤ k, feeder.hungry d o ∧ o ≠ l := by
    intro d
    by_cases inside : c < d ∧ d ≤ c + m
    · obtain ⟨l, le, rest⟩ := feeder.left_over (by omega) (crowded d inside.1 inside.2)
      exact ⟨l, fun _ _ => ⟨le, rest⟩⟩
    · exact ⟨k, fun lo le => absurd ⟨lo, le⟩ inside⟩
  choose who served using served
  have pos : 0 < m := (Finset.card_pos.2 ⟨k, Finset.mem_Iic.2 (le_refl k)⟩).trans_le few
  -- the one that is left over in the last of the rounds
  obtain ⟨-, -, -, o, le, hungry, ne⟩ := served (c + m) (by omega) (le_refl _)
  -- no consumer is served twice
  have differ : ∀ d e, c < d → d < e → e ≤ c + m → who d ≠ who e := by
    intro d e lo lt le same
    obtain ⟨below, hungry, fed, -⟩ := served d lo (by omega)
    have again := (served e (by omega) le).2.1
    rw [← same] at again
    exact feeder.not_hungry (by omega) below clear lo lt le hungry fed again
  have other : o ∉ (Finset.Ioc c (c + m)).image who := by
    intro mem
    obtain ⟨d, inside, rfl⟩ := Finset.mem_image.1 mem
    obtain ⟨lo, hi'⟩ := Finset.mem_Ioc.1 inside
    obtain ⟨below, hungry', fed, -⟩ := served d lo hi'
    cases Nat.eq_or_lt_of_le hi' with
    | inl eq => exact ne (congrArg who eq)
    | inr lt =>
      exact feeder.not_hungry hi below clear lo lt (le_refl _) hungry' fed hungry
  have inj : Set.InjOn who (Finset.Ioc c (c + m)) := by
    intro d mem e mem' same
    obtain ⟨lo, hi⟩ := Finset.mem_Ioc.1 mem
    obtain ⟨lo', hi'⟩ := Finset.mem_Ioc.1 mem'
    rcases Nat.lt_trichotomy d e with lt | eq | gt
    · exact absurd same (differ d e lo lt hi')
    · exact eq
    · exact absurd same.symm (differ e d lo' gt hi)
  have inside : insert o ((Finset.Ioc c (c + m)).image who) ⊆ Finset.Iic k := by
    intro l mem
    rw [Finset.mem_Iic]
    cases Finset.mem_insert.1 mem with
    | inl eq => exact eq ▸ le
    | inr mem =>
      obtain ⟨d, inside, rfl⟩ := Finset.mem_image.1 mem
      obtain ⟨lo, hi⟩ := Finset.mem_Ioc.1 inside
      exact (served d lo hi).1
  have card := (Finset.card_le_card inside).trans few
  rw [Finset.card_insert_of_notMem other, Finset.card_image_of_injOn inj, Nat.card_Ioc] at card
  omega

/-- One of the first `m` consumers that has been served once is never hungry for `m` rounds without
being served in one of them. -/
theorem fed_soon [LocallyFiniteOrderBot κ] {k : κ} (few : (Finset.Iic k).card ≤ m) {c d : ℕ}
    (fed : feeder.fed c k) (le : c ≤ d) (hi : d + m < n)
    (hungry : ∀ e, d < e → e ≤ d + m → feeder.hungry e k) :
    ∃ e, d < e ∧ e ≤ d + m ∧ feeder.fed e k := by
  classical
  have start := feeder.clear_of_fed (by omega) fed
  have to_ := Nat.findGreatest_le (P := feeder.Clear k) d
  have clear := Nat.findGreatest_spec (P := feeder.Clear k) le start
  obtain ⟨e, from_, near, clear'⟩ := feeder.clear_soon few (by omega) clear
  have behind : d < e := by
    by_contra before
    exact Nat.findGreatest_is_greatest from_ (not_lt.1 before) clear'
  exact ⟨e, behind, by omega, feeder.fed_of_clear (by omega) clear' (hungry e behind (by omega))⟩

end Feeder

end NnProcessor.Queueing
