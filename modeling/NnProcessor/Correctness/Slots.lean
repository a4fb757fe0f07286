import NnProcessor.Invariant.Timeline
import NnProcessor.Network.Reference

/-!
# What NEXT_LAYER holds

The slots of `NEXT_LAYER` are never cleared: behind a narrow layer the results of a wider one in
front of it are still there, and behind them what the heap held. `Config.slotAt` says which word is
in which slot at every moment, and `slots_exact` that no write of a run ever leaves anything else.
-/

namespace NnProcessor.Model

variable {F : Type} [Binary32Ops F] (cfg : Config F)

namespace Config

/-- The word in the slot `x` when `i` layers have been computed: the result of the last one for which
a neuron `x` has been dispatched, or what the heap held. -/
def slotBefore (junk : Nat → F) : Nat → Nat → F
  | 0, x => junk x
  | i + 1, x => if x < cfg.dispatches i then (cfg.job i).result x else slotBefore junk i x

/-- The word in the slot `x` in a phase, in whose layer iteration the neurons `stored` have been
stored. -/
def slotAt (junk : Nat → F) (ph : Phase) (stored : Multiset Nat) (x : Nat) : F :=
  match ph.layer with
  | some i => if x ∈ stored then (cfg.job i).result x else cfg.slotBefore junk i x
  | none =>
    match ph with
    | .load _ => junk x
    | _ => cfg.slotBefore junk cfg.iterations x

/-- The slot of a neuron that has been stored. -/
lemma slotAt_stored (junk : Nat → F) {ph : Phase} {stored : Multiset Nat} {x i : Nat}
    (layer : ph.layer = some i) (mem : x ∈ stored) :
    cfg.slotAt junk ph stored x = (cfg.job i).result x := by
  unfold slotAt
  rw [layer]
  exact if_pos mem

/-- A slot that no neuron has keeps the word of the heap. -/
lemma slotBefore_junk (junk : Nat → F) {i x : Nat} (behind : ∀ j < i, cfg.dispatches j ≤ x) :
    cfg.slotBefore junk i x = junk x := by
  induction i with
  | zero => rfl
  | succ i ih =>
    rw [slotBefore, if_neg (not_lt.2 (behind i (Nat.lt_succ_self i)))]
    exact ih fun j lt => behind j (Nat.lt_succ_of_lt lt)

/-- Between two layers the slots hold the results of the ones in front. -/
lemma slotAt_afterLayers (junk : Nat → F) {i : Nat} (le : i ≤ cfg.iterations) (x : Nat) :
    cfg.slotAt junk (cfg.afterLayers i) 0 x = cfg.slotBefore junk i x := by
  unfold Config.afterLayers
  split
  · simp [slotAt, Phase.layer]
  · next none =>
    obtain rfl : i = cfg.iterations := le_antisymm le (not_lt.1 none)
    rfl

end Config

end NnProcessor.Model

namespace NnProcessor.Invariant
open NnProcessor.Arith NnProcessor.Model NnProcessor.Edge

variable {hw : Hw} {F : Type}

section Idle

variable [Binary32Ops F] [DecidableEq F] {s : System hw F} (idle : UnitsIdle s) (cfg : Config F)
variable (sch : Schedule hw) (go : s.stopped = false)
include idle go

/-- At rest only `copy_memory` moves `NEXT_LAYER`. -/
lemma UnitsIdle.step_nextLayer : (s.edge cfg sch).nextLayer =
    s.nextLayer.issueElement hw.memSize s.previousLayerController.nextO := by
  rw [edge_nextLayer cfg sch go]
  rcases methodPhase_nextLayer sch s with eq | eq <;> rw [eq, idle.addToMemory]

/-- At rest no slot is written. -/
lemma UnitsIdle.step_memory : (s.edge cfg sch).nextLayer.memory = s.nextLayer.memory := by
  rw [idle.step_nextLayer cfg sch go]
  cases s.previousLayerController.nextO <;> rfl

end Idle

variable [Binary32 F] {cfg : Config F} {ph : Phase} {h : History hw} {s : System hw F}

/-- In one phase the units of two states compute the same layer, or rest. -/
lemma MainInv.units_or_rest {h' : History hw} {s' : System hw F} (inv : MainInv cfg ph h s)
    (inv' : MainInv cfg ph h' s') :
    (∃ i, ph.layer = some i ∧ (LayerInv cfg i h s ∧ LayerWires cfg i s) ∧
      LayerInv cfg i h' s' ∧ LayerWires cfg i s') ∨ (UnitsIdle s ∧ UnitsIdle s') := by
  have units := inv.units
  have units' := inv'.units
  cases ph with
  | settle i =>
    exact .inl ⟨i, rfl, ⟨units.1, inv.wires (.inl rfl)⟩, units'.1, inv'.wires (.inl rfl)⟩
  | compute i =>
    exact .inl ⟨i, rfl, ⟨units.1, inv.wires (.inr rfl)⟩, units'.1, inv'.wires (.inr rfl)⟩
  | load | savePrev | nextLayer | startGenerator | clear | startClone | copyFirst | copying
  | cloned | writeOut | output | stopped => exact .inr ⟨units.1, units'.1⟩

/-- In a layer iteration the units are in the computation, in front of it or behind it. -/
lemma units_cases {i : Nat} (layer : ph.layer = some i)
    (inv : MainInv cfg ph h s) :
    (UnitsIdle s ∧ h.dispatched = 0 ∧ h.stored = 0) ∨
      (LayerInv cfg i h s ∧ (ph = .settle i ∨ ph = .compute i)) ∨
      (UnitsIdle s ∧ h.dispatched = cfg.dispatches i ∧
        h.stored = Multiset.range (cfg.dispatches i)) := by
  have units := inv.units
  cases ph with
  | load | writeOut | output | stopped => cases layer
  | savePrev | nextLayer | startGenerator => exact .inl ⟨units.1, units.2.1, units.2.2.1⟩
  | settle j =>
    obtain rfl : j = i := Option.some.inj layer
    exact .inr (.inl ⟨units.1, .inl rfl⟩)
  | compute j =>
    obtain rfl : j = i := Option.some.inj layer
    exact .inr (.inl ⟨units.1, .inr rfl⟩)
  | clear j | startClone j | copyFirst j | copying j _ | cloned j =>
    obtain rfl : j = i := Option.some.inj layer
    exact .inr (.inr ⟨units.1, units.2.1, units.2.2.1⟩)

/-- A neuron that has been stored has been dispatched. -/
lemma stored_lt {i x : Nat} (layer : ph.layer = some i) (inv : MainInv cfg ph h s)
    (mem : x ∈ h.stored) : x < cfg.dispatches i := by
  rcases units_cases layer inv with ⟨-, -, none⟩ | ⟨computing, -⟩ | ⟨-, -, all⟩
  · rw [none] at mem
    exact absurd mem (Multiset.notMem_zero x)
  · have le := computing.generator.le
    have all : x ∈ Multiset.range h.dispatched := by
      rw [← computing.conserved]
      exact Multiset.mem_add.2 (.inr mem)
    exact lt_of_lt_of_le (Multiset.mem_range.1 all) le
  · rw [all] at mem
    exact Multiset.mem_range.1 mem

/-- A clone reads results. -/
lemma MainInv.clone_word (inv : MainInv cfg ph h s) (next : s.previousLayerController.nextO = true) :
    ∃ i, ph.layer = some i ∧
      s.nextLayer.memory s.nextLayer.index = (cfg.job i).result s.nextLayer.index := by
  have slots := inv.slots
  rw [inv.copy] at next
  cases ph with
  | copyFirst i =>
    refine ⟨i, rfl, slots.2 _ ?_⟩
    rw [slots.1]
    exact Nat.lt_of_lt_of_le Nat.one_pos (Nat.le_max_right _ _)
  | copying i j =>
    refine ⟨i, rfl, slots.2.2 _ ?_⟩
    rw [slots.1]
    exact lt_of_lt_of_le (of_decide_eq_true next) (Nat.le_max_left _ _)
  | load t => cases t <;> cases next
  | savePrev | nextLayer | startGenerator | settle | compute | clear | startClone | cloned
  | writeOut | output | stopped => cases next

variable [DecidableEq F] (sch : Schedule hw)

/-- The writes of one edge of a layer iteration. -/
lemma MainInv.step_memory (inv : MainInv cfg ph h s) (go : s.stopped = false) {i : Nat}
    (layer : ph.layer = some i) (x : Nat) :
    (s.edge cfg sch).nextLayer.memory x =
      if x ∈ ∑ k, (s.processors k).written then (cfg.job i).result x else s.nextLayer.memory x := by
  rcases inv.units_or_rest inv with ⟨j, layer', ⟨units, wires⟩, -⟩ | ⟨idle, -⟩
  · obtain rfl : i = j := Option.some.inj (layer.symm.trans layer')
    have wrote : (∃ k, (s.processors k).resmemWO = true ∧ (s.processors k).resmemAddrO = x) ↔
        x ∈ ∑ k, (s.processors k).written := by
      simp only [Multiset.mem_sum, Finset.mem_univ, true_and, Processor.written]
      refine exists_congr fun k => ?_
      cases (s.processors k).resmemWO <;> simp [eq_comm]
    rw [wires.nextLayer sch, addToMemory_memory hw.memSize _ _ _ units.result]
    simp only [wrote]
  · rw [idle.step_memory cfg sch go, idle.sum_written, if_neg (Multiset.notMem_zero x)]

/-- The content of the slots follows the phases. -/
lemma MainInv.step_slotAt (inv : MainInv cfg ph h s) (running : ph ≠ .stopped) {junk : Nat → F}
    (slots : ∀ x, s.nextLayer.memory x = cfg.slotAt junk ph h.stored x)
    (ctrl : (s.edge cfg sch).controller = cfg.controllerAt (cfg.next s.cycleEnded ph)) (x : Nat) :
    (s.edge cfg sch).nextLayer.memory x =
      cfg.slotAt junk (cfg.next s.cycleEnded ph) (h.observe s (s.edge cfg sch)).stored x := by
  have go := inv.go running
  -- an edge inside of a layer iteration
  have inside : ∀ i, ph.layer = some i → (cfg.next s.cycleEnded ph).layer = some i →
      (s.edge cfg sch).controller.thread.begins = false →
      (s.edge cfg sch).nextLayer.memory x =
        cfg.slotAt junk (cfg.next s.cycleEnded ph) (h.observe s (s.edge cfg sch)).stored x := by
    intro i layer layer' stay
    have before := slots x
    simp only [Config.slotAt, layer] at before
    simp only [Config.slotAt, layer', History.observe, stay, Bool.false_eq_true, if_false,
      Multiset.mem_add]
    rw [inv.step_memory sch go layer, before]
    by_cases old : x ∈ h.stored <;> simp [old]
  -- an edge behind which a layer iteration begins, or the results are sent
  have behind : ∀ i ≤ cfg.iterations, UnitsIdle s →
      cfg.next s.cycleEnded ph = cfg.afterLayers i →
      s.nextLayer.memory x = cfg.slotBefore junk i x →
      (s.edge cfg sch).nextLayer.memory x =
        cfg.slotAt junk (cfg.next s.cycleEnded ph) (h.observe s (s.edge cfg sch)).stored x := by
    intro i le idle next before
    rw [idle.step_memory cfg sch go, before, next, ← cfg.slotAt_afterLayers junk le]
    rw [next] at ctrl
    unfold Config.afterLayers at ctrl ⊢
    split_ifs at ctrl ⊢ with more
    · have begins : (s.edge cfg sch).controller.thread.begins = true := by rw [ctrl]; rfl
      rw [History.observe, begins]
      rfl
    · rfl
  -- an edge outside of the layers
  have outside : UnitsIdle s →
      cfg.slotAt junk (cfg.next s.cycleEnded ph) (h.observe s (s.edge cfg sch)).stored x =
        cfg.slotAt junk ph h.stored x →
      (s.edge cfg sch).nextLayer.memory x =
        cfg.slotAt junk (cfg.next s.cycleEnded ph) (h.observe s (s.edge cfg sch)).stored x := by
    intro idle same
    rw [idle.step_memory cfg sch go, same, slots x]
  have units := inv.units
  cases ph with
  | load t =>
    by_cases more : t < cfg.words.length
    · have next : cfg.next s.cycleEnded (.load t) = .load (t + 1) := by simp [Config.next, more]
      rw [next] at outside ⊢
      exact outside units.1 rfl
    · exact behind 0 (Nat.zero_le _) units.1 (by simp [Config.next, more]) (slots x)
  | compute i =>
    cases ended : s.cycleEnded <;> rw [ended] at ctrl inside <;>
      exact inside i rfl rfl (by rw [ctrl]; rfl)
  | copyFirst i =>
    simp only [Config.next] at ctrl inside ⊢
    split_ifs at ctrl inside ⊢ <;> exact inside i rfl rfl (by rw [ctrl]; rfl)
  | copying i j =>
    simp only [Config.next] at ctrl inside ⊢
    split_ifs at ctrl inside ⊢ <;> exact inside i rfl rfl (by rw [ctrl]; rfl)
  | cloned i =>
    refine behind (i + 1) inv.valid units.1 rfl ?_
    have before := slots x
    simp only [Config.slotAt, Phase.layer, units.2.2.1, Multiset.mem_range] at before
    exact before
  | output k =>
    simp only [Config.next] at outside ⊢
    split_ifs at outside ⊢ <;> exact outside units.1 rfl
  | stopped => exact absurd rfl running
  | writeOut => exact outside units.1 rfl
  | savePrev i | nextLayer i | startGenerator i | settle i | clear i | startClone i =>
    exact inside i rfl rfl (by rw [ctrl]; rfl)

end NnProcessor.Invariant

namespace NnProcessor.Correctness
open NnProcessor.Arith NnProcessor.Model NnProcessor.Edge NnProcessor.Invariant

variable {hw : Hw} {F : Type} [Binary32 F] [DecidableEq F] {cfg : Config F}

/-- The slots in front of every edge. -/
lemma slots_run (env : Env hw F) (finite : ∀ x ∈ cfg.results, ¬IsInfinite x) (t x : Nat) :
    (run cfg env t).nextLayer.memory x =
      cfg.slotAt env.junk (phaseAt cfg env t) (history cfg env t).stored x := by
  induction t generalizing x with
  | zero =>
    rw [run, initialized_nextLayer]
    rfl
  | succ t ih =>
    have inv := mainInv_run cfg env finite t
    have inv' := mainInv_run cfg env finite (t + 1)
    by_cases running : phaseAt cfg env t = .stopped
    · have st : (run cfg env t).stopped = true := by
        rw [System.stopped, inv.previous.stopped, running]
        rfl
      have eq : run cfg env (t + 1) = run cfg env t := edge_stopped cfg (env.sched t) st
      have stop : phaseAt cfg env (t + 1) = .stopped := by
        rw [phaseAt, running]
        rfl
      rw [eq, ih x, running, stop]
      rfl
    · exact inv.step_slotAt (env.sched t) running ih inv'.controller x

/-- In front of every edge the slots behind the storage hold what the heap held. -/
lemma slots_behind (env : Env hw F) (finite : ∀ x ∈ cfg.results, ¬IsInfinite x)
    (inside : cfg.Inside hw) (t : Nat) {x : Nat} (le : hw.memSize ≤ x) :
    (run cfg env t).nextLayer.memory x = env.junk x := by
  have inv := mainInv_run cfg env finite t
  have before : ∀ i ≤ cfg.iterations, cfg.slotBefore env.junk i x = env.junk x := fun i most =>
    cfg.slotBefore_junk env.junk fun j lt =>
      (inside.dispatches_le (lt_of_lt_of_le lt most)).trans le
  rw [slots_run env finite t x]
  unfold Config.slotAt
  split
  · next i layer =>
    have lt := Config.Valid.lt cfg inv.valid layer
    have fits := inside.dispatches_le lt
    rw [if_neg fun mem => absurd (stored_lt layer inv mem) (by omega)]
    exact before i lt.le
  · split
    · rfl
    · exact before _ le_rfl

/-- **The slots of `NEXT_LAYER`.** In front of every edge each slot holds the result of the last
neuron with its number that has been stored: one of the layer being computed, or of the last layer
in front of it for which so many neurons have been dispatched. Where there is none, and behind the
`MEM_SIZE` slots, there is what the heap held. When the simulation is stopped, these are the results of
the whole network. -/
theorem slots_exact (env : Env hw F) (inside : cfg.Inside hw)
    (picture : cfg.iterations = 0 → ∀ x ∈ cfg.picture, ¬IsInfinite x) (t x : Nat) :
    (run cfg env t).nextLayer.memory x =
        cfg.slotAt env.junk (phaseAt cfg env t) (history cfg env t).stored x ∧
      ((run cfg env t).stopped = true →
        (run cfg env t).nextLayer.memory x = cfg.slotBefore env.junk cfg.iterations x) ∧
      (hw.memSize ≤ x → (run cfg env t).nextLayer.memory x = env.junk x) := by
  have finite := results_finite cfg picture
  have slots := slots_run env finite t x
  refine ⟨slots, fun stop => ?_, slots_behind env finite inside t⟩
  have stopped := (mainInv_run cfg env finite t).previous.stopped
  rw [slots, of_decide_eq_true (stopped.symm.trans stop)]
  rfl

/-- When three neurons are done, the slot 3 holds what it held before. -/
theorem slots_exact_three :
    (run threeNeurons listedEnv 40).nextLayer.memory 3 =
        threeNeurons.slotAt listedEnv.junk (phaseAt threeNeurons listedEnv 40)
          (history threeNeurons listedEnv 40).stored 3 ∧
      ((run threeNeurons listedEnv 40).stopped = true →
        (run threeNeurons listedEnv 40).nextLayer.memory 3 =
          threeNeurons.slotBefore listedEnv.junk threeNeurons.iterations 3) ∧
      (Hw.configH.memSize ≤ 3 →
        (run threeNeurons listedEnv 40).nextLayer.memory 3 = listedEnv.junk 3) :=
  slots_exact listedEnv ⟨threeNeurons_bounded.domain, by decide, by decide⟩
    (fun one => absurd one (by decide)) 40 3

end NnProcessor.Correctness
