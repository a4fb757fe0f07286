import NnProcessor.Invariant.System

/-!
# The order of the phases in time

The phases of a run come in a fixed order: `Config.rank` grows at every edge except while a layer is
computed and when the simulation has stopped, so every other phase is visited at most once
(`phaseAt_unique`). The computation of a layer ends because `layerWork` decreases
(`compute_ends`), so every phase is reached, up to the last one (`stopped_reached`).
-/

namespace NnProcessor.Model

variable {F : Type} [Binary32Ops F] (cfg : Config F)

namespace Config

/-- The place of a phase in a run: the part of the run and the place in that part. -/
def rank : Phase → Nat ×ₗ Nat
  | .load t => toLex (0, t)
  | .savePrev i => toLex (i + 1, 0)
  | .nextLayer i => toLex (i + 1, 1)
  | .startGenerator i => toLex (i + 1, 2)
  | .settle i => toLex (i + 1, 3)
  | .compute i => toLex (i + 1, 4)
  | .clear i => toLex (i + 1, 5)
  | .startClone i => toLex (i + 1, 6)
  | .copyFirst i => toLex (i + 1, 7)
  | .copying i j => toLex (i + 1, 8 + j)
  | .cloned i => toLex (i + 1, 8 + cfg.width i)
  | .writeOut => toLex (cfg.iterations + 1, 0)
  | .output k => toLex (cfg.iterations + 1, k + 1)
  | .stopped => toLex (cfg.iterations + 1, cfg.resultCount + 2)

/-- The phases in which a run can stay. -/
def Stays (ended : Bool) (ph : Phase) : Prop :=
  ph = .stopped ∨ ended = false ∧ ∃ i, ph = .compute i

/-- Every other phase is left at once, and behind it. -/
lemma rank_next {ph : Phase} (valid : cfg.Valid ph) (ended : Bool) :
    Stays ended ph ∧ cfg.next ended ph = ph ∨ cfg.rank ph < cfg.rank (cfg.next ended ph) := by
  have after : ∀ {i a b : Nat}, i ≤ cfg.iterations → a < i + 1 →
      toLex (a, b) < cfg.rank (cfg.afterLayers i) := by
    intro i a b le lt
    unfold afterLayers
    split
    · exact Prod.Lex.toLex_lt_toLex.2 (.inl lt)
    · exact Prod.Lex.toLex_lt_toLex.2 (.inl (by simp only; omega))
  have inside : ∀ {a b c : Nat}, b < c → toLex (a, b) < toLex (a, c) := fun lt =>
    Prod.Lex.toLex_lt_toLex.2 (.inr ⟨rfl, lt⟩)
  cases ph with
  | load t =>
    right
    simp only [next]
    split
    · exact inside (Nat.lt_succ_self t)
    · exact after (Nat.zero_le _) Nat.one_pos
  | compute i =>
    cases ended with
    | false => exact .inl ⟨.inr ⟨rfl, i, rfl⟩, rfl⟩
    | true => exact .inr (inside (by decide))
  | copyFirst i =>
    right
    simp only [next]
    split
    · exact inside (by omega)
    · exact inside (by omega)
  | copying i j =>
    right
    simp only [next]
    split
    · exact inside (by omega)
    · exact inside (Nat.add_lt_add_left valid.2 8)
  | cloned i => exact .inr (after valid (Nat.lt_succ_self _))
  | output k =>
    right
    simp only [next]
    split
    · exact inside (Nat.lt_succ_self _)
    · next none =>
      have le : k ≤ cfg.resultCount := valid
      exact inside (by omega)
  | stopped => exact .inl ⟨.inl rfl, rfl⟩
  | savePrev | nextLayer | startGenerator | settle | clear | startClone | writeOut =>
    exact .inr (inside (by decide))

end Config

end NnProcessor.Model

namespace NnProcessor.Invariant
open NnProcessor.Arith NnProcessor.Model NnProcessor.Edge

variable {hw : Hw} {F : Type} [Binary32 F] [DecidableEq F] {cfg : Config F} {env : Env hw F}

/-- Every phase of a run is a reachable one. -/
lemma phaseAt_valid (cfg : Config F) (env : Env hw F) (t : Nat) :
    cfg.Valid (phaseAt cfg env t) := by
  induction t with
  | zero => exact Nat.zero_le _
  | succ t ih => exact ih.next cfg _

/-- A run never goes back. -/
lemma rank_monotone (cfg : Config F) (env : Env hw F) :
    Monotone fun t => cfg.rank (phaseAt cfg env t) := by
  refine monotone_nat_of_le_succ fun t => ?_
  rcases cfg.rank_next (phaseAt_valid cfg env t) (run cfg env t).cycleEnded with ⟨-, stay⟩ | lt
  · exact le_of_eq (congrArg cfg.rank stay.symm)
  · exact lt.le

/-- Apart from the computation of a layer and the end, a run is in every phase at most once. -/
lemma phaseAt_unique {t u : Nat} (same : phaseAt cfg env t = phaseAt cfg env u)
    (ns : phaseAt cfg env t ≠ .stopped) (nc : ∀ i, phaseAt cfg env t ≠ .compute i) : t = u := by
  have once : ∀ {t u : Nat}, phaseAt cfg env t = phaseAt cfg env u →
      phaseAt cfg env t ≠ .stopped → (∀ i, phaseAt cfg env t ≠ .compute i) → ¬t < u := by
    intro t u same ns nc lt
    rcases cfg.rank_next (phaseAt_valid cfg env t) (run cfg env t).cycleEnded with
      ⟨st | ⟨-, i, st⟩, -⟩ | less
    · exact ns st
    · exact nc i st
    · have le : cfg.rank (phaseAt cfg env (t + 1)) ≤ cfg.rank (phaseAt cfg env u) :=
        rank_monotone cfg env lt
      rw [← same] at le
      exact absurd le (not_le.2 less)
  rcases lt_trichotomy t u with lt | eq | gt
  · exact absurd lt (once same ns nc)
  · exact eq
  · exact absurd gt (once same.symm (same ▸ ns) (same ▸ nc))

/-- The phase of the next edge is the one behind it. -/
lemma phaseAt_succ {t : Nat} {ph : Phase} (h : phaseAt cfg env t = ph) :
    phaseAt cfg env (t + 1) = cfg.next (run cfg env t).cycleEnded ph := by
  rw [phaseAt, h]

/-- Behind the transmission. -/
lemma phaseAt_loaded (cfg : Config F) (env : Env hw F) :
    phaseAt cfg env (cfg.words.length + 1) = cfg.afterLayers 0 := by
  rw [phaseAt_succ (mainInv_load cfg env (le_refl _)).1]
  exact if_neg (lt_irrefl _)

/-- The computation of a layer ends. -/
lemma compute_ends (finite : ∀ x ∈ cfg.results, ¬IsInfinite x) {t i : Nat}
    (start : phaseAt cfg env t = .compute i) : ∃ u, t < u ∧ phaseAt cfg env u = .clear i := by
  obtain ⟨m, hm⟩ : ∃ m, m = layerWork cfg i (history cfg env t) (run cfg env t) := ⟨_, rfl⟩
  induction m using Nat.strong_induction_on generalizing t with
  | _ m ih =>
    have next := phaseAt_succ start
    cases ended : (run cfg env t).cycleEnded with
    | true =>
      rw [ended] at next
      exact ⟨t + 1, Nat.lt_succ_self t, next⟩
    | false =>
      rw [ended] at next
      have inv := mainInv_run cfg env finite t
      have inv' := mainInv_run cfg env finite (t + 1)
      rw [start] at inv
      rw [next] at inv'
      have less := inv.units.1.progress (env.sched t) (inv.wires (.inr rfl)) inv.units.2 ended
        (by rw [show (run cfg env t).edge cfg (env.sched t) = run cfg env (t + 1) from rfl,
              inv'.controller]; rfl)
      rw [← hm] at less
      obtain ⟨u, lt, clear⟩ := ih _ less next rfl
      exact ⟨u, Nat.lt_of_succ_lt lt, clear⟩

/-- `copy_memory` takes one edge for each word. -/
lemma phaseAt_copying {t i : Nat} (first : phaseAt cfg env t = .copyFirst i) :
    (∀ j < cfg.width i, phaseAt cfg env (t + 1 + j) = .copying i j) ∧
      phaseAt cfg env (t + 1 + cfg.width i) = .cloned i := by
  have words : ∀ j < cfg.width i, phaseAt cfg env (t + 1 + j) = .copying i j := by
    intro j
    induction j with
    | zero =>
      intro pos
      rw [Nat.add_zero, phaseAt_succ first]
      exact if_pos pos
    | succ j ih =>
      intro lt
      rw [← Nat.add_assoc, phaseAt_succ (ih (Nat.lt_of_succ_lt lt))]
      exact if_pos lt
  refine ⟨words, ?_⟩
  rcases Nat.eq_zero_or_pos (cfg.width i) with zero | pos
  · rw [zero, Nat.add_zero, phaseAt_succ first]
    exact if_neg (by omega)
  · obtain ⟨j, hj⟩ : ∃ j, cfg.width i = j + 1 := ⟨cfg.width i - 1, by omega⟩
    rw [hj, ← Nat.add_assoc, phaseAt_succ (words j (by omega))]
    exact if_neg (by omega)

/-- A layer iteration runs through all of its phases and is left behind the clone. -/
lemma iteration_ends (finite : ∀ x ∈ cfg.results, ¬IsInfinite x) {t i : Nat}
    (start : phaseAt cfg env t = .savePrev i) :
    phaseAt cfg env (t + 1) = .nextLayer i ∧ phaseAt cfg env (t + 2) = .startGenerator i ∧
      phaseAt cfg env (t + 3) = .settle i ∧ phaseAt cfg env (t + 4) = .compute i ∧
      ∃ u, t + 4 < u ∧ phaseAt cfg env u = .clear i ∧ phaseAt cfg env (u + 1) = .startClone i ∧
        phaseAt cfg env (u + 2) = .copyFirst i ∧
        phaseAt cfg env (u + 3 + cfg.width i) = .cloned i ∧
        phaseAt cfg env (u + 4 + cfg.width i) = cfg.afterLayers (i + 1) := by
  have h1 : phaseAt cfg env (t + 1) = .nextLayer i := phaseAt_succ start
  have h2 : phaseAt cfg env (t + 2) = .startGenerator i := phaseAt_succ h1
  have h3 : phaseAt cfg env (t + 3) = .settle i := phaseAt_succ h2
  have h4 : phaseAt cfg env (t + 4) = .compute i := phaseAt_succ h3
  obtain ⟨u, lt, clear⟩ := compute_ends finite h4
  have h5 : phaseAt cfg env (u + 1) = .startClone i := phaseAt_succ clear
  have h6 : phaseAt cfg env (u + 2) = .copyFirst i := phaseAt_succ h5
  have h7 := (phaseAt_copying h6).2
  have h8 := phaseAt_succ h7
  refine ⟨h1, h2, h3, h4, u, lt, clear, h5, h6, h7, ?_⟩
  rw [show u + 4 + cfg.width i = u + 2 + 1 + cfg.width i + 1 by omega]
  exact h8

/-- Every layer iteration is reached. -/
lemma savePrev_reached (finite : ∀ x ∈ cfg.results, ¬IsInfinite x) (env : Env hw F) {i : Nat}
    (lt : i < cfg.iterations) : ∃ t, phaseAt cfg env t = .savePrev i := by
  induction i with
  | zero => exact ⟨_, (phaseAt_loaded cfg env).trans (if_pos lt)⟩
  | succ i ih =>
    obtain ⟨t, start⟩ := ih (Nat.lt_of_succ_lt lt)
    obtain ⟨-, -, -, -, u, -, -, -, -, -, next⟩ := iteration_ends finite start
    exact ⟨_, next.trans (if_pos lt)⟩

/-- The results are sent. -/
lemma writeOut_reached (finite : ∀ x ∈ cfg.results, ¬IsInfinite x) (env : Env hw F) :
    ∃ t, phaseAt cfg env t = .writeOut := by
  rcases Nat.eq_zero_or_pos cfg.iterations with zero | pos
  · exact ⟨_, (phaseAt_loaded cfg env).trans (if_neg (by omega))⟩
  · obtain ⟨t, start⟩ := savePrev_reached finite env (Nat.sub_lt pos Nat.one_pos)
    obtain ⟨-, -, -, -, u, -, -, -, -, -, next⟩ := iteration_ends finite start
    exact ⟨_, next.trans (if_neg (by omega))⟩

/-- The run ends. -/
lemma stopped_reached (finite : ∀ x ∈ cfg.results, ¬IsInfinite x) (env : Env hw F) :
    ∃ t, phaseAt cfg env t = .stopped := by
  obtain ⟨t, start⟩ := writeOut_reached finite env
  have out : ∀ k ≤ cfg.resultCount, phaseAt cfg env (t + 1 + k) = .output k := by
    intro k
    induction k with
    | zero => exact fun _ => phaseAt_succ start
    | succ k ih =>
      intro le
      rw [← Nat.add_assoc, phaseAt_succ (ih (Nat.le_of_succ_le le))]
      exact if_pos le
  refine ⟨t + 1 + cfg.resultCount + 1, ?_⟩
  rw [phaseAt_succ (out _ (le_refl _))]
  exact if_neg (lt_irrefl _)

end NnProcessor.Invariant
