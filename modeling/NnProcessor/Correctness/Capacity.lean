import NnProcessor.Correctness.Termination

/-!
# The storage of the result memory

`NEXT_LAYER` reserves `MEM_SIZE` words and checks no index, so a run stays inside of them exactly
when every layer it computes fits (`contained_iff`). An index comes from the numbers the generator
has dispatched or from the read index of a clone, and the invariant of the run bounds both by the
dispatches of the layer iteration (`write_lt`, `read_lt`). A layer that does not fit is not refused:
all of its neurons are stored.
-/

namespace NnProcessor.Correctness
open NnProcessor.Arith NnProcessor.Model NnProcessor.Edge NnProcessor.Invariant

variable {hw : Hw} {F : Type}

/-- Every slot index that `NEXT_LAYER` uses in the run is below `MEM_SIZE`. -/
def Contained [Binary32Ops F] [DecidableEq F] (cfg : Config F) (env : Env hw F) : Prop :=
  ∀ t, (run cfg env t).nextLayer.overrun = false

variable [Binary32 F] [DecidableEq F] {cfg : Config F} {ph : Phase} {h : History hw}
variable {s : System hw F}

omit [DecidableEq F] in
/-- The units rest, or a layer iteration is computed. -/
lemma at_rest_or (inv : MainInv cfg ph h s) :
    UnitsIdle s ∨ ∃ i < cfg.iterations, LayerInv cfg i h s ∧ LayerWires cfg i s := by
  have units := inv.units
  cases ph with
  | settle i => exact .inr ⟨i, inv.valid, units.1, inv.wires (.inl rfl)⟩
  | compute i => exact .inr ⟨i, inv.valid, units.1, inv.wires (.inr rfl)⟩
  | load | savePrev | nextLayer | startGenerator | clear | startClone | copyFirst | copying
  | cloned | writeOut | output | stopped => exact .inl units.1

/-- A slot behind the storage is used in an edge if a neuron of that number is written, or if the
clone reads there. -/
lemma edge_overrun (inv : MainInv cfg ph h s) (go : s.stopped = false)
    (sch : Schedule hw) :
    (s.edge cfg sch).nextLayer.overrun = true ↔ s.nextLayer.overrun = true ∨
      (∃ x ∈ ∑ k, (s.processors k).written, hw.memSize ≤ x) ∨
      (s.previousLayerController.nextO = true ∧ hw.memSize ≤ s.nextLayer.index) := by
  rcases at_rest_or inv with idle | ⟨i, -, layer, wires⟩
  · have eq : (s.edge cfg sch).nextLayer =
        s.nextLayer.issueElement hw.memSize s.previousLayerController.nextO := by
      rw [edge_nextLayer cfg sch go]
      rcases methodPhase_nextLayer sch s with eq | eq <;> rw [eq, idle.addToMemory]
    rw [eq, idle.sum_written]
    unfold NextLayer.issueElement
    cases s.previousLayerController.nextO <;> simp
  · rw [wires.nextLayer sch, addToMemory_overrun, wires.next]
    simp only [Multiset.mem_sum, Finset.mem_univ, true_and, Processor.written, Bool.false_eq_true,
      false_and, or_false]
    refine or_congr_right ⟨?_, ?_⟩
    · rintro ⟨k, write, le⟩
      exact ⟨_, ⟨k, by rw [if_pos write]; exact Multiset.mem_singleton_self _⟩, le⟩
    · rintro ⟨x, ⟨k, mem⟩, le⟩
      cases write : (s.processors k).resmemWO with
      | false => simp [write] at mem
      | true =>
        rw [write, if_pos rfl, Multiset.mem_singleton] at mem
        exact ⟨k, write, mem ▸ le⟩

omit [DecidableEq F] in
/-- Only neurons that have been dispatched are written. -/
lemma write_lt (inv : MainInv cfg ph h s) {x : Nat}
    (mem : x ∈ ∑ k, (s.processors k).written) : ∃ i < cfg.iterations, x < cfg.dispatches i := by
  rcases at_rest_or inv with idle | ⟨i, lt, layer, -⟩
  · rw [idle.sum_written] at mem
    exact absurd mem (Multiset.notMem_zero x)
  · obtain ⟨k, -, mem⟩ := Multiset.mem_sum.1 mem
    have held : x ∈ (s.processors k).held := by
      rw [layer.written] at mem
      unfold Processor.storing at mem
      split at mem
      · next ht =>
        rw [Processor.held_busy (by rw [ht]; rfl), Multiset.mem_singleton.1 mem]
        exact Multiset.mem_cons_self _ _
      · exact absurd mem (Multiset.notMem_zero x)
    have all : x ∈ Multiset.range h.dispatched := by
      rw [← layer.conserved]
      refine Multiset.mem_add.2 (.inl (Multiset.mem_add.2 (.inr ?_)))
      exact Multiset.mem_sum.2 ⟨k, Finset.mem_univ k, held⟩
    exact ⟨i, lt, lt_of_lt_of_le (Multiset.mem_range.1 all) layer.generator.le⟩

omit [DecidableEq F] in
/-- A clone reads no more words than there are neurons. -/
lemma read_lt (inv : MainInv cfg ph h s)
    (next : s.previousLayerController.nextO = true) :
    ∃ i < cfg.iterations, s.nextLayer.index < cfg.dispatches i := by
  obtain ⟨i, valid, -, reads⟩ := inv.clone_reads next
  refine ⟨i, valid, ?_⟩
  rcases reads with zero | lt
  · rw [zero]
    exact lt_of_lt_of_le Nat.one_pos (Nat.le_max_right _ _)
  · exact lt_of_lt_of_le lt (Nat.le_max_left _ _)

/-- Layers that fit keep the run inside of the storage. -/
lemma contained_of_fits (finite : ∀ x ∈ cfg.results, ¬IsInfinite x) (env : Env hw F)
    (fits : ∀ i < cfg.iterations, cfg.dispatches i ≤ hw.memSize) : Contained cfg env := by
  intro t
  induction t with
  | zero =>
    rw [run, initialized_nextLayer]
  | succ t ih =>
    have inv := mainInv_run cfg env finite t
    change ((run cfg env t).edge cfg (env.sched t)).nextLayer.overrun = false
    cases st : (run cfg env t).stopped with
    | true => rwa [edge_stopped cfg (env.sched t) st]
    | false =>
      rw [← Bool.not_eq_true, edge_overrun inv st]
      rintro (before | ⟨x, mem, le⟩ | ⟨next, le⟩)
      · rw [ih] at before
        cases before
      · obtain ⟨i, lt, less⟩ := write_lt inv mem
        exact absurd (lt_of_lt_of_le less (fits i lt)) (not_lt.2 le)
      · obtain ⟨i, lt, less⟩ := read_lt inv next
        exact absurd (lt_of_lt_of_le less (fits i lt)) (not_lt.2 le)

/-- Every neuron stored behind the storage has been recorded. -/
lemma stored_overrun (finite : ∀ x ∈ cfg.results, ¬IsInfinite x) (env : Env hw F) (t : Nat)
    {x : Nat} (mem : x ∈ (history cfg env t).stored) (le : hw.memSize ≤ x) :
    (run cfg env t).nextLayer.overrun = true := by
  induction t with
  | zero => exact absurd mem (Multiset.notMem_zero x)
  | succ t ih =>
    have inv := mainInv_run cfg env finite t
    change x ∈ (if _ then 0 else _ : Multiset Nat) at mem
    change ((run cfg env t).edge cfg (env.sched t)).nextLayer.overrun = true
    split at mem
    · exact absurd mem (Multiset.notMem_zero x)
    · cases st : (run cfg env t).stopped with
      | true =>
        rw [edge_stopped cfg (env.sched t) st]
        rcases at_rest_or inv with idle | ⟨i, -, -, wires⟩
        · rw [idle.sum_written, add_zero] at mem
          exact ih mem
        · rw [wires.go] at st
          cases st
      | false =>
        rw [edge_overrun inv st]
        rcases Multiset.mem_add.1 mem with before | now
        · exact .inl (ih before)
        · exact .inr (.inl ⟨x, now, le⟩)

/-- A run is contained exactly if everything it dispatches is. -/
lemma contained_iff_dispatches (finite : ∀ x ∈ cfg.results, ¬IsInfinite x) (env : Env hw F) :
    Contained cfg env ↔ ∀ i < cfg.iterations, cfg.dispatches i ≤ hw.memSize := by
  refine ⟨?_, contained_of_fits finite env⟩
  intro contained i lt
  obtain ⟨t, start⟩ := savePrev_reached finite env lt
  obtain ⟨-, -, -, -, u, -, clear, -⟩ := iteration_ends finite start
  have units := (mainInv_run cfg env finite u).units
  rw [clear] at units
  refine not_lt.1 fun more => ?_
  -- in front of the clone the neuron behind the storage has been stored
  have mem : hw.memSize ∈ (history cfg env u).stored := by
    rw [units.2.2.1]
    exact Multiset.mem_range.2 more
  have past := stored_overrun finite env u mem (le_refl _)
  rw [contained u] at past
  cases past

/-- A run stays inside of the result memory exactly if every layer that is computed fits, as its
size arrives. For sizes whose address sums overflow this rests on the word that `guardedRead` gives at
a negative address, where the program may also crash. -/
theorem contained_iff (env : Env hw F)
    (picture : cfg.layers.length ≤ 1 → ∀ x ∈ cfg.picture, ¬IsInfinite x) :
    Contained cfg env ↔ ∀ i < cfg.iterations, max (cfg.size (i + 1)) 1 ≤ hw.memSize := by
  rw [contained_iff_dispatches (finite_results cfg picture) env]
  refine forall₂_congr fun i _ => ?_
  unfold Config.dispatches Config.width
  omega

/-- The neuron of the small network fits. -/
theorem contained_iff_small :
    Contained smallNetwork listedEnv ↔
      ∀ i < smallNetwork.iterations, max (smallNetwork.size (i + 1)) 1 ≤ Hw.configH.memSize :=
  contained_iff listedEnv fun one => absurd one (by decide)

/-- A computed layer that is one neuron too large for `NEXT_LAYER`. -/
def wideNetwork : Config Extended where
  layers := [1, 1025]
  weights := []
  picture := [.finite 1]
  layersCount_lt := by decide
  layers_fit := by decide

/-- The neuron 1024 is stored behind the storage. -/
theorem wide_overruns : (∀ l ∈ wideNetwork.layers, 1 ≤ l) ∧
    (∀ x ∈ wideNetwork.picture, ¬IsInfinite x) ∧ ¬Contained wideNetwork listedEnv := by
  refine ⟨by decide, ?_, ?_⟩
  · intro x mem infinite
    obtain ⟨s, rfl⟩ := (Extended.isInfinite_iff x).1 infinite
    cases List.mem_singleton.1 mem
  intro contained
  have finite := finite_results wideNetwork fun one => absurd one (by decide)
  have fits := (contained_iff_dispatches finite listedEnv).1 contained 0 (by decide)
  revert fits
  decide +kernel

end NnProcessor.Correctness
