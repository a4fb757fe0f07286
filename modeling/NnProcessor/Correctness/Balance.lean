import NnProcessor.Edge.Modules
import NnProcessor.Invariant.Generator
import NnProcessor.Network.Reference

/-!
# The choice of a processor

`GENERATOR` sends a neuron to the first of the shortest queues, by their registered sizes. A
registered size is that of one edge ago and does not count the neuron that is computed, so it is at
most one below the work of its processor (`Registered.bounds`). From this bound follows what the
choice guarantees in every reachable state (`dispatch_near`). It does not guarantee more: an idle
processor can be passed over (`idle_passed_over`).
-/

namespace NnProcessor.Model

variable {hw : Hw} {F : Type}

/-- The neurons in the queue of a processor, and the one it computes. -/
def Processor.outstanding (m : Processor F) : Nat :=
  m.queueNnNumber.length + if m.isWorking then 1 else 0

/-- The registered size of a queue counts the neuron its processor has just taken, or none but
those in the queue. -/
def Processor.Registered (m : Processor F) : Prop :=
  m.queueSizeO = m.queueNnNumber.length ∨
    m.queueSizeO = m.queueNnNumber.length + 1 ∧ m.isWorking = true

/-- In the edge of `x` the generator dispatches a neuron to the processor `k`. -/
structure Dispatches [Binary32Ops F] [DecidableEq F] (cfg : Config F)
    (sch : Schedule hw) (x : System hw F) (k : Fin hw.countPcUnit) : Prop where
  running : x.stopped = false
  word : (x.edge cfg sch).generator.wO = true
  address : (x.edge cfg sch).generator.addressO = k

/-- The processor `k` is the first with the smallest registered size, and no other one has less
work but for the neuron that `k` computes. -/
structure Near (x : System hw F) (k : Fin hw.countPcUnit) : Prop where
  silent : x.generator.wO = false
  shortest : ∀ j, (x.processors k).queueSizeO ≤ (x.processors j).queueSizeO
  first : ∀ j < k, (x.processors k).queueSizeO < (x.processors j).queueSizeO
  near : ∀ j, (x.processors k).outstanding ≤ (x.processors j).outstanding + 1
  resting : (x.processors k).isWorking = false →
    ∀ j, (x.processors k).outstanding ≤ (x.processors j).outstanding
  idle : ∀ j, (x.processors j).outstanding = 0 →
    k ≤ j ∧ (x.processors k).queueNnNumber = [] ∧ (x.processors k).outstanding ≤ 1

/-- The registered size is the work, or the work without the neuron that is computed. -/
lemma Processor.Registered.bounds {m : Processor F} (registered : m.Registered) :
    m.queueNnNumber.length ≤ m.queueSizeO ∧ m.queueSizeO ≤ m.outstanding ∧
      m.outstanding ≤ m.queueSizeO + if m.isWorking then 1 else 0 := by
  unfold Processor.outstanding
  rcases registered with eq | ⟨eq, working⟩
  · rw [eq]
    exact ⟨le_refl _, Nat.le_add_right _ _, le_refl _⟩
  · rw [eq, if_pos working]
    exact ⟨Nat.le_add_right _ _, le_refl _, Nat.le_add_right _ _⟩

/-- `add_to_queue` registers the size of the queue. -/
lemma Processor.addToQueue_size (queueSize address a d : Nat) (b : Bool) (m : Processor F) :
    (m.addToQueue queueSize address a d b).queueSizeO =
      (m.addToQueue queueSize address a d b).queueNnNumber.length := rfl

variable [Binary32Ops F]

/-- A processor works from the edge on in which it takes a neuron. -/
lemma Processor.takeNeuron_registered {m : Processor F}
    (size : m.queueSizeO = m.queueNnNumber.length) (w : ProcessorIn F) :
    (m.takeNeuron w).Registered := by
  unfold Processor.takeNeuron
  split
  · exact .inl size
  · next queue =>
    refine .inr ⟨?_, ?_⟩
    · simp [size, queue]
    · simp

/-- The thread of a processor, behind the edge's `add_to_queue`. -/
lemma Processor.process_registered {m : Processor F}
    (size : m.queueSizeO = m.queueNnNumber.length) (w : ProcessorIn F) :
    (m.process w).Registered := by
  unfold Processor.process
  cases m.thread with
  | start | waitQueue => exact Processor.takeNeuron_registered size w
  | inputAddr i => exact .inl size
  | inputWait i => exact .inl (by simpa using size)
  | biasAddr | biasWait => exact .inl size
  | store => exact Processor.takeNeuron_registered (by exact size) w

end NnProcessor.Model

namespace NnProcessor.Correctness
open NnProcessor.Model NnProcessor.Edge NnProcessor.Invariant

variable {hw : Hw} {F : Type} [Binary32Ops F] [DecidableEq F] {cfg : Config F} (env : Env hw F)

/-- The sizes are registered in every reachable state. -/
lemma run_registered (cfg : Config F) (env : Env hw F) (t : Nat) (k : Fin hw.countPcUnit) :
    ((run cfg env t).processors k).Registered := by
  induction t with
  | zero =>
    rw [run, initialized_processor]
    exact .inl rfl
  | succ t ih =>
    change (((run cfg env t).edge cfg (env.sched t)).processors k).Registered
    cases st : (run cfg env t).stopped with
    | true => rwa [edge_stopped cfg (env.sched t) st]
    | false =>
      rw [edge_processor cfg (env.sched t) st]
      exact Processor.process_registered (Processor.addToQueue_size _ _ _ _ _ _) _

/-- The generator bus is quiet in every reachable state but those behind an attempt to dispatch. -/
lemma run_quiet (t : Nat) (ht : (run cfg env t).generator.thread ≠ .dispatched) :
    (run cfg env t).generator.wO = false := by
  induction t with
  | zero =>
    rw [run, initialized_generator]
  | succ t ih =>
    change ((run cfg env t).edge cfg (env.sched t)).generator.wO = false
    change ((run cfg env t).edge cfg (env.sched t)).generator.thread ≠ .dispatched at ht
    cases st : (run cfg env t).stopped with
    | true =>
      rw [edge_stopped cfg (env.sched t) st] at ht ⊢
      exact ih ht
    | false =>
      rw [edge_generator cfg (env.sched t) st] at ht ⊢
      exact generate_quiet ih ht

/-- In every reachable state the generator dispatches to a nearly minimal processor. -/
theorem dispatch_near {t : Nat} {k : Fin hw.countPcUnit}
    (dispatches : Dispatches cfg (env.sched t) (run cfg env t) k) : Near (run cfg env t) k := by
  have word := dispatches.word
  have address := dispatches.address
  rw [edge_generator cfg (env.sched t) dispatches.running] at word address
  obtain ⟨choice, -, silent⟩ := generate_choice (run_quiet env t) word
  obtain rfl : k = findMinIndex hw.countPcUnit_pos
      fun j => ((run cfg env t).processors j).queueSizeO := Fin.ext (address.symm.trans choice)
  have shortest := findMinIndex_le hw.countPcUnit_pos
    fun j => ((run cfg env t).processors j).queueSizeO
  have first := fun j => findMinIndex_lt (j := j) hw.countPcUnit_pos
    fun j => ((run cfg env t).processors j).queueSizeO
  generalize findMinIndex hw.countPcUnit_pos
    (fun j => ((run cfg env t).processors j).queueSizeO) = k at shortest first ⊢
  obtain ⟨queue, -, above⟩ := (run_registered cfg env t k).bounds
  have below := fun j => (run_registered cfg env t j).bounds.2.1
  constructor
  · exact silent
  · exact shortest
  · exact first
  · intro j
    have one : (if ((run cfg env t).processors k).isWorking then 1 else 0) ≤ 1 := by
      split <;> decide
    calc ((run cfg env t).processors k).outstanding
        ≤ ((run cfg env t).processors k).queueSizeO + 1 :=
          le_trans above (Nat.add_le_add_left one _)
      _ ≤ ((run cfg env t).processors j).queueSizeO + 1 := Nat.add_le_add_right (shortest j) 1
      _ ≤ ((run cfg env t).processors j).outstanding + 1 := Nat.add_le_add_right (below j) 1
  · intro rest j
    rw [rest] at above
    exact le_trans above (le_trans (shortest j) (below j))
  · intro j none
    have zero : ((run cfg env t).processors j).queueSizeO = 0 :=
      Nat.le_zero.1 (le_of_le_of_eq (below j) none)
    have empty : ((run cfg env t).processors k).queueSizeO = 0 :=
      Nat.le_zero.1 (le_of_le_of_eq (shortest j) zero)
    rw [empty] at queue above
    refine ⟨not_lt.1 fun lt => ?_, List.length_eq_zero_iff.1 (Nat.le_zero.1 queue), ?_⟩
    · exact absurd (first j lt) (by simp [zero])
    · refine le_trans above ?_
      split <;> decide

/-- The third neuron goes to the processor 0, which still computes the first one. -/
lemma threeNeurons_dispatches : Dispatches threeNeurons (.listed .configH)
    (run threeNeurons listedEnv 15) ⟨0, Hw.configH.countPcUnit_pos⟩ := by
  constructor <;> decide +kernel

/-- The dispatch of the third neuron. -/
theorem dispatch_near_three :
    Near (run threeNeurons listedEnv 15) ⟨0, Hw.configH.countPcUnit_pos⟩ :=
  dispatch_near listedEnv threeNeurons_dispatches

/-- The processor 2 is idle when the third neuron is sent behind the first one. -/
theorem idle_passed_over :
    Dispatches threeNeurons (.listed .configH) (run threeNeurons listedEnv 15)
        ⟨0, Hw.configH.countPcUnit_pos⟩ ∧
      ((run threeNeurons listedEnv 15).processors ⟨0, Hw.configH.countPcUnit_pos⟩).outstanding = 1 ∧
      ((run threeNeurons listedEnv 15).processors ⟨2, by decide⟩).outstanding = 0 ∧
      ((run threeNeurons listedEnv 15).processors ⟨2, by decide⟩).isWorking = false ∧
      (run threeNeurons listedEnv 15).generator.wO = false := by
  refine ⟨threeNeurons_dispatches, ?_, ?_, ?_, ?_⟩ <;> decide +kernel

end NnProcessor.Correctness
