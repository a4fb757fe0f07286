import NnProcessor.Invariant.Layer

/-!
# The load of the processors

`Invariant/Layer.lean` bounds the edges a layer still needs; here they are counted. A neuron keeps
a processor busy for `Processor.span` edges, `Processor.load` are the edges a processor is still
busy with the neurons it holds, and in every edge the load goes down by one for each busy processor
(`LayerInv.step_load`). `GenInv.moves` lists what the generator can do in an edge.
-/

namespace NnProcessor.Model

variable {F : Type}

namespace Processor

/-- The edges one neuron keeps a processor busy. -/
def span (job : LayerJob F) : Nat := 2 * job.inputs + 3

/-- The edges a processor is still busy with the neuron it computes. -/
def left (job : LayerJob F) (p : Processor F) : Nat :=
  match p.thread with
  | .start | .waitQueue => 0
  | .inputAddr i => 2 * (job.inputs - i) + 3
  | .inputWait i => 2 * (job.inputs - i) + 2
  | .biasAddr => 3
  | .biasWait => 2
  | .store => 1

/-- The edges a processor is still busy with the neurons it holds. -/
def load (job : LayerJob F) (p : Processor F) : Nat :=
  p.left job + span job * p.queueNnNumber.length

/-- Whether a processor is busy, to be summed up. -/
def busyCount (p : Processor F) : Nat := if p.thread.busy then 1 else 0

/-- A processor counts as one at most. -/
lemma busyCount_le (p : Processor F) : p.busyCount ≤ 1 := by
  unfold busyCount
  split
  · exact le_refl 1
  · exact Nat.zero_le 1

/-- A processor is busy as long as something is left of its neuron. -/
lemma busyCount_le_left (job : LayerJob F) (p : Processor F) : p.busyCount ≤ p.left job := by
  unfold busyCount left
  cases p.thread with
  | start | waitQueue => exact le_refl 0
  | inputAddr | inputWait | biasAddr | biasWait | store => simp

variable [Binary32Ops F] {job : LayerJob F} {w : ProcessorIn F}
variable (size : w.prevmemSizeI = job.size)
include size

omit [Binary32Ops F] in
/-- What is left at the test of the input loop. -/
lemma inputLoop_load (i : Nat) (p : Processor F) :
    (p.inputLoop i w).load job =
      2 * (job.inputs - i) + 3 + span job * p.queueNnNumber.length := by
  rw [load, inputLoop_queueNnNumber, Nat.add_left_inj]
  by_cases lt : (i : Int) < w.prevmemSizeI
  · simp only [inputLoop, if_pos lt, left]
  · have eq : job.inputs - i = 0 := by
      unfold LayerJob.inputs
      rw [size] at lt
      omega
    simp only [inputLoop, if_neg lt, left, eq, Nat.mul_zero, Nat.zero_add]

/-- A processor that takes a neuron is loaded with its queue. -/
lemma takeNeuron_load (p : Processor F) :
    (p.takeNeuron w).load job = span job * p.queueNnNumber.length := by
  unfold takeNeuron
  split
  · next none => simp [load, left, none]
  · next x rest queue =>
    rw [inputLoop_load size, queue, List.length_cons, Nat.mul_succ, Nat.add_comm]
    rfl

end Processor

end NnProcessor.Model

namespace NnProcessor.Invariant
open NnProcessor.Arith NnProcessor.Model NnProcessor.Edge

variable {hw : Hw} {F : Type} [Binary32Ops F]

/-- A processor that is not busy has no load. -/
lemma ProcInv.load_idle {job : LayerJob F} {p : Processor F} {wd pd : F} {f : Int}
    (inv : ProcInv job p wd pd f) (idle : p.thread.busy = false) : p.load job = 0 := by
  have none := (inv.idle idle).1
  unfold Processor.load Processor.left
  cases ht : p.thread with
  | start | waitQueue => simp [none]
  | inputAddr | inputWait | biasAddr | biasWait | store => simp [ht] at idle

/-- In one edge a busy processor loses one edge of its load, and gets a span for each new neuron. -/
lemma ProcInv.step_load {job : LayerJob F} {p q : Processor F} {wd pd : F} {f : Int}
    {new : List Nat} (inv : ProcInv job p wd pd f) (fed : Fed p q new) {w : ProcessorIn F}
    (size : w.prevmemSizeI = job.size) :
    (q.process w).load job + p.busyCount =
      p.load job + Processor.span job * new.length := by
  have stage := inv.stage
  have queue := fed.queue
  unfold Processor.busyCount Processor.process
  rw [fed.thread]
  cases ht : p.thread with
  | start | waitQueue =>
    have none := (inv.idle (by simp [ht])).1
    have load := inv.load_idle (by simp [ht])
    simp [Processor.takeNeuron_load size, load, queue, none]
  | inputAddr i =>
    simp only [Processor.load, Processor.left, queue, ht, List.length_append, Nat.mul_add,
      ProcessThread.busy_inputAddr, if_true]
    omega
  | inputWait i =>
    simp only [Stage, ht] at stage
    have lt := stage.1
    simp only [Processor.inputLoop_load size]
    simp only [Processor.load, Processor.left, queue, ht, List.length_append, Nat.mul_add,
      ProcessThread.busy_inputWait, if_true]
    omega
  | biasAddr | biasWait =>
    simp only [Processor.load, Processor.left, queue, ht, List.length_append, Nat.mul_add,
      ProcessThread.busy_biasAddr, ProcessThread.busy_biasWait, if_true]
    omega
  | store =>
    simp only [Processor.takeNeuron_load size]
    simp only [Processor.load, Processor.left, queue, ht, List.length_append, Nat.mul_add,
      ProcessThread.busy_store, if_true]
    omega

/-- What one edge of a layer iteration can do to the generator: begin, rest behind the last neuron,
dispatch a neuron, find every queue full, or move on to the next attempt or to the end. -/
lemma GenInv.moves {goal k : Nat} {g : Generator} (inv : GenInv goal k g) {n : Nat} (pos : 0 < n)
    (queueSize : Nat) (layerSize : Int) (q : Fin n → Nat) :
    let g' := g.generate pos queueSize false layerSize q
    (g.thread = .idle ∧ g.state = .generate ∧ g'.thread = .generate ∧ g'.wO = false) ∨
    (g.thread = .idle ∧ k = goal ∧ g'.thread = .idle ∧ g'.endGenerateO = true ∧ g'.wO = false) ∨
    (g.thread = .generate ∧ g'.thread = .dispatched ∧ g'.wO = true) ∨
    (g.thread = .generate ∧ g'.thread = .dispatched ∧ g'.wO = false ∧ ∀ j, queueSize ≤ q j) ∨
    (g.thread = .dispatched ∧ g'.thread = .generate ∧ g'.wO = false) ∨
    (g.thread = .dispatched ∧ k = goal ∧ g'.thread = .idle ∧ g'.endGenerateO = true ∧
      g'.wO = false) := by
  unfold GenInv at inv
  intro g'
  cases ht : g.thread with
  | start =>
    rw [ht] at inv
    cases inv
  | idle =>
    rw [ht] at inv
    obtain ⟨quiet, ⟨state, -⟩ | ⟨state, eq, -⟩⟩ := inv
    · left
      simp [g', Generator.generate, Generator.switchState, ht, state, quiet]
    · right; left
      simp [g', Generator.generate, Generator.switchState, ht, state, eq]
  | generate =>
    rw [ht] at inv
    by_cases room : q (findMinIndex pos q) < queueSize
    · right; right; left
      simp [g', Generator.generate, Generator.dispatch, ht, room]
    · right; right; right; left
      have full : ∀ j, queueSize ≤ q j := fun j =>
        le_trans (not_lt.1 room) (findMinIndex_le pos q j)
      simp [g', Generator.generate, Generator.dispatch, ht, room, inv.1, full]
  | dispatched =>
    rw [ht] at inv
    obtain ⟨-, -, ⟨state, -⟩ | ⟨state, eq⟩⟩ := inv
    · right; right; right; right; left
      simp [g', Generator.generate, Generator.switchState, ht, state]
    · right; right; right; right; right
      simp [g', Generator.generate, Generator.switchState, ht, state, eq]

/-- The processors that are busy. -/
def busyTotal (s : System hw F) : Nat := ∑ k, (s.processors k).busyCount

/-- The load of the processors, and of the neuron on the generator bus. -/
def totalLoad (cfg : Config F) (i : Nat) (s : System hw F) : Nat :=
  ∑ k, (s.processors k).load (cfg.job i) + if s.generator.wO then Processor.span (cfg.job i) else 0

variable [DecidableEq F] {cfg : Config F} {i : Nat} {h : History hw} {s : System hw F}
variable (sch : Schedule hw)

omit [DecidableEq F] in
/-- The processor that gets the word on the bus has room for it. -/
lemma LayerInv.fed (inv : LayerInv cfg i h s) (k : Fin hw.countPcUnit) :
    Fed (s.processors k)
      ((s.processors k).addToQueue hw.queueSize k s.generator.addressO s.generator.dataO
        s.generator.wO)
      (pushed k s.generator.addressO s.generator.dataO s.generator.wO) := by
  refine (inv.processor k).fed hw.queueSize k _ _ _ fun address word => ?_
  obtain ⟨j, hj, room⟩ := inv.room word
  obtain rfl : k = j := Fin.ext (address.symm.trans hj)
  exact room

/-- The step of the load of a processor. -/
lemma LayerInv.step_processor_load (inv : LayerInv cfg i h s) (wires : LayerWires cfg i s)
    (k : Fin hw.countPcUnit) :
    ((s.edge cfg sch).processors k).load (cfg.job i) + (s.processors k).busyCount =
      (s.processors k).load (cfg.job i) + Processor.span (cfg.job i) *
        (pushed k s.generator.addressO s.generator.dataO s.generator.wO).length := by
  rw [edge_processor cfg sch wires.go]
  exact (inv.processor k).step_load (inv.fed k) wires.size

omit [DecidableEq F] in
/-- A word on the bus goes to one processor. -/
lemma LayerInv.sum_pushed_length (inv : LayerInv cfg i h s) (c : Nat) :
    ∑ k : Fin hw.countPcUnit,
        c * (pushed k s.generator.addressO s.generator.dataO s.generator.wO).length =
      if s.generator.wO then c else 0 := by
  cases word : s.generator.wO with
  | false => simp [pushed]
  | true =>
    obtain ⟨j, hj, -⟩ := inv.room word
    have eq := congrArg Multiset.card (sum_pushed s.generator j hj)
    rw [word] at eq
    simp only [Multiset.card_sum, Multiset.coe_card, Generator.sent, word, if_true,
      Multiset.card_singleton] at eq
    rw [← Finset.mul_sum, eq]
    simp

/-- In one edge the load goes down by one for each busy processor, and up by a span when a neuron is
dispatched. -/
lemma LayerInv.step_load (inv : LayerInv cfg i h s) (wires : LayerWires cfg i s) :
    totalLoad cfg i (s.edge cfg sch) + busyTotal s =
      totalLoad cfg i s +
        if (s.edge cfg sch).generator.wO then Processor.span (cfg.job i) else 0 := by
  have each := Finset.sum_congr rfl fun k (_ : k ∈ Finset.univ) =>
    inv.step_processor_load sch wires k
  rw [Finset.sum_add_distrib, Finset.sum_add_distrib, inv.sum_pushed_length] at each
  unfold totalLoad busyTotal
  omega

end NnProcessor.Invariant
