import NnProcessor.Network.Reference
import NnProcessor.Edge.Modules
import NnProcessor.Invariant.Processor

/-!
# A processor between its storages

One processor and the two storages it reads, with everything around them left free: other pushes,
the addresses of the other processors, and the order of the processes of an edge. From the edge in
which it takes a neuron, the processor issues one address in every second edge, finds the word for
that address two edges later, and writes the result in a fixed edge (`accumulate_aligned`).
-/

namespace NnProcessor.Model
open NnProcessor.Arith

variable {hw : Hw} {F : Type}

/-- The first `i` products of the previous layer with the weights from `b` on, added up in order.
A missing entry of the previous layer reads -1 and a missing weight 0. -/
def accumulate [Binary32Ops F] (prev weights : List F) (b : Nat) : Nat → F
  | 0 => ofInt 0
  | i + 1 =>
    Binary32Ops.add (accumulate prev weights b i)
      (Binary32Ops.mul (prev.getD i (ofInt (-1))) (weights.getD (b + i) (ofInt 0)))

/-- The processor `p` behind `PROCESSOR::add_to_queue`. -/
def System.push (x : System hw F) (p : Fin hw.countPcUnit) : Processor F :=
  (x.processors p).addToQueue hw.queueSize p x.generator.addressO x.generator.dataO x.generator.wO

/-- In the edge of `x` the processor `p` takes the neuron `k` from its queue. -/
structure Pops (x : System hw F) (p : Fin hw.countPcUnit) (k : Nat) : Prop where
  thread : (x.processors p).thread = .start ∨ (x.processors p).thread = .waitQueue ∨
    (x.processors p).thread = .store
  front : (x.push p).queueNnNumber.head? = some k

/-- In the edge of `x` the processors see the weight base `s` and the layer size `m`, and nothing
changes the two memories. -/
structure Undisturbed (s m : Nat) (x : System hw F) : Prop where
  running : x.stopped = false
  start : x.controller.startWeightAdderessO = s
  size : x.previousLayerSize.dataO = m
  weights : ¬(x.io.addrO = 3 ∧ x.bus.wr = true)
  previous : ¬(x.bus.wr = true ∧ x.io.addrO = 2)
  copy : x.previousLayerController.wrToMemoryFromMemO = false
  clr : x.previousLayerController.clrO = false

/-- A sequence of states in which the processor `p` and the two storages do in every edge what they
do in the system. -/
structure Following [Binary32Ops F] [DecidableEq F] (cfg : Config F) (sch : Nat → Schedule hw)
    (p : Fin hw.countPcUnit) (σ : Nat → System hw F) : Prop where
  initial : (σ 0).processors p = Processor.initial
  processor : ∀ t, (σ (t + 1)).processors p = ((σ t).edge cfg (sch t)).processors p
  weightStorage : ∀ t, (σ (t + 1)).weightStorage = ((σ t).edge cfg (sch t)).weightStorage
  previousLayer : ∀ t, (σ (t + 1)).previousLayer = ((σ t).edge cfg (sch t)).previousLayer

/-- The processor `p` computes the neuron `k`, which it has taken in the edge `c`: one address for
each input and one for the bias, every word the one for the address issued last, and the result in
one edge only. -/
structure Aligned [Binary32Ops F] (p : Fin hw.countPcUnit) (σ : Nat → System hw F)
    (s m k c : Nat) : Prop where
  taken : ((σ (c + 1)).processors p).numberOfNn = k ∧
    ((σ (c + 1)).processors p).queueNnNumber = ((σ c).push p).queueNnNumber.tail
  address : ∀ i < m, ((σ (c + 1 + 2 * i)).processors p).weightAddrO = (s + (m + 1) * k + i : Nat) ∧
    ((σ (c + 1 + 2 * i)).processors p).prevmemAddrO = i
  word : ∀ i < m,
    (σ (c + 2 + 2 * i)).weightStorage.dataOutBusO p =
        (σ c).weightStorage.memory.getD (s + (m + 1) * k + i) (ofInt 0) ∧
      (σ (c + 2 + 2 * i)).previousLayer.dataPcBusO p =
        (σ c).previousLayer.memory.getD i (ofInt (-1))
  product : ∀ i < m, ((σ (c + 3 + 2 * i)).processors p).sumReg =
    Binary32Ops.add ((σ (c + 2 + 2 * i)).processors p).sumReg
      (Binary32Ops.mul ((σ (c + 2 + 2 * i)).previousLayer.dataPcBusO p)
        ((σ (c + 2 + 2 * i)).weightStorage.dataOutBusO p))
  sum : ∀ i ≤ m, ((σ (c + 1 + 2 * i)).processors p).sumReg =
    accumulate (σ c).previousLayer.memory (σ c).weightStorage.memory (s + (m + 1) * k) i
  bias : ((σ (c + 1 + 2 * m)).processors p).weightAddrO = (s + (m + 1) * k + m : Nat) ∧
    (σ (c + 2 + 2 * m)).weightStorage.dataOutBusO p =
      (σ c).weightStorage.memory.getD (s + (m + 1) * k + m) (ofInt 0)
  result : ((σ (c + 2 * m + 3)).processors p).resmemAddrO = k ∧
    ((σ (c + 2 * m + 3)).processors p).resmemDataO =
      sigmoid (Binary32Ops.add
        (accumulate (σ c).previousLayer.memory (σ c).weightStorage.memory (s + (m + 1) * k) m)
        ((σ c).weightStorage.memory.getD (s + (m + 1) * k + m) (ofInt 0)))
  pulse : ∀ t, c < t → t ≤ c + 2 * m + 4 →
    (((σ t).processors p).resmemWO = true ↔ t = c + 2 * m + 3)
  next : ∀ x rest, ((σ (c + 2 * m + 3)).processors p).queueNnNumber = x :: rest →
    Pops (σ (c + 2 * m + 3)) p x ∧ ((σ (c + 2 * m + 4)).processors p).numberOfNn = x

/-- The write port is high with the thread behind the result, and in no other state. -/
lemma Processor.process_write [Binary32Ops F] {m : Processor F}
    (write : m.resmemWO = decide (m.thread = .store)) (w : ProcessorIn F) :
    (m.process w).resmemWO = decide ((m.process w).thread = .store) := by
  have loop : ∀ (i : Nat) (q : Processor F), q.resmemWO = false →
      (q.inputLoop i w).resmemWO = decide ((q.inputLoop i w).thread = .store) := by
    intro i q low
    simp [low]
  have take : ∀ q : Processor F, q.resmemWO = false →
      (q.takeNeuron w).resmemWO = decide ((q.takeNeuron w).thread = .store) := by
    intro q low
    unfold Processor.takeNeuron
    split
    · simp [low]
    · exact loop 0 _ low
  unfold Processor.process
  cases ht : m.thread with
  | start | waitQueue => exact take m (by simp [write, ht])
  | inputAddr i => simp [write, ht]
  | inputWait i => exact loop (i + 1) _ (by simp [write, ht])
  | biasAddr => simp [write, ht]
  | biasWait => simp
  | store => exact take _ rfl

/-- A waiting neuron stays at the front. -/
lemma System.push_front {x : System hw F} {p : Fin hw.countPcUnit} {k : Nat} {rest : List Nat}
    (queue : (x.processors p).queueNnNumber = k :: rest) :
    (x.push p).queueNnNumber.head? = some k := by
  unfold System.push Processor.addToQueue
  split
  · simp [queue]
  · simp [queue]

/-- `add_to_queue` leaves the computation alone. -/
lemma System.push_eq (x : System hw F) (p : Fin hw.countPcUnit) : ∃ queue size contr, x.push p =
    { x.processors p with
      queueNnNumber := queue, queueSizeO := size, contrEmptyO := contr } := by
  unfold System.push Processor.addToQueue
  split
  · exact ⟨_, _, _, rfl⟩
  · exact ⟨_, _, _, rfl⟩

end NnProcessor.Model

namespace NnProcessor.Correctness
open NnProcessor.Arith NnProcessor.Model NnProcessor.Edge NnProcessor.Invariant

variable {hw : Hw} {F : Type} [Binary32Ops F]

/-- The address `i` of the neuron `k` has been issued; behind the inputs it is the one of the
bias. -/
structure Issued (job : LayerJob F) (p : Fin hw.countPcUnit) (k i : Nat) (x : System hw F) :
    Prop where
  thread : (x.processors p).thread = if i < job.inputs then .inputAddr i else .biasAddr
  number : (x.processors p).numberOfNn = k
  sum : (x.processors p).sumReg = job.partialSum k i
  weight : (x.processors p).weightAddrO = job.addr k i
  prevmem : i < job.inputs → (x.processors p).prevmemAddrO = i
  weights : x.weightStorage.memory = job.weights
  memory : x.previousLayer.memory = job.memory

/-- The words for the address `i` of the neuron `k` have arrived. -/
structure Fetched (job : LayerJob F) (p : Fin hw.countPcUnit) (k i : Nat) (x : System hw F) :
    Prop where
  thread : (x.processors p).thread = if i < job.inputs then .inputWait i else .biasWait
  number : (x.processors p).numberOfNn = k
  sum : (x.processors p).sumReg = job.partialSum k i
  weight : x.weightStorage.dataOutBusO p = job.weight (job.addr k i)
  prevmem : i < job.inputs → x.previousLayer.dataPcBusO p = job.input i
  weights : x.weightStorage.memory = job.weights
  memory : x.previousLayer.memory = job.memory

variable [DecidableEq F] {cfg : Config F} {sch : Nat → Schedule hw} {p : Fin hw.countPcUnit}
variable {σ : Nat → System hw F} (follows : Following cfg sch p σ)
include follows

/-- One edge in which nothing changes the memories. -/
lemma undisturbed_edge {s m t : Nat} (quiet : Undisturbed s m (σ t)) :
    (σ (t + 1)).processors p = ((σ t).push p).process ((σ t).wires.processorIn p) ∧
      (σ (t + 1)).weightStorage.memory = (σ t).weightStorage.memory ∧
      (σ (t + 1)).weightStorage.dataOutBusO p =
        guardedRead (σ t).weightStorage.memory ((σ t).processors p).weightAddrO (ofInt 0) ∧
      (σ (t + 1)).previousLayer.memory = (σ t).previousLayer.memory ∧
      (σ (t + 1)).previousLayer.dataPcBusO p =
        guardedRead (σ t).previousLayer.memory ((σ t).processors p).prevmemAddrO (ofInt (-1)) := by
  obtain ⟨memory, data⟩ :=
    methodPhase_previousLayer_reads (sch t) (σ t) quiet.previous quiet.copy quiet.clr
  refine ⟨?_, ?_, ?_, ?_, ?_⟩
  · rw [follows.processor, edge_processor cfg (sch t) quiet.running]
    rfl
  · rw [follows.weightStorage, edge_weightStorage cfg (sch t) quiet.running]
    rcases methodPhase_weightStorage (sch t) (σ t) with h | h <;> rw [h] <;>
      simp [WeightStorage.issueElement, WeightStorage.addToMemory, quiet.weights]
  · rw [follows.weightStorage, edge_weightStorage cfg (sch t) quiet.running]
    rcases methodPhase_weightStorage (sch t) (σ t) with h | h <;> rw [h] <;>
      simp [WeightStorage.issueElement, WeightStorage.addToMemory, quiet.weights]
  · rw [follows.previousLayer, edge_previousLayer cfg (sch t) quiet.running, memory]
  · rw [follows.previousLayer, edge_previousLayer cfg (sch t) quiet.running, data]

/-- The write port at every edge. -/
lemma follows_write (t : Nat) : ((σ t).processors p).resmemWO =
    decide (((σ t).processors p).thread = .store) := by
  induction t with
  | zero =>
    rw [follows.initial]
    rfl
  | succ t ih =>
    rw [follows.processor]
    cases st : (σ t).stopped with
    | true => rwa [edge_stopped cfg (sch t) st]
    | false =>
      rw [edge_processor cfg (sch t) st]
      apply Processor.process_write
      obtain ⟨queue, size, contr, eq⟩ := (σ t).push_eq p
      unfold System.push at eq
      rw [eq]
      exact ih

variable {job : LayerJob F} {s m k i t : Nat}

section Edge

variable (quiet : Undisturbed s m (σ t)) (start : job.start = s) (size : job.size = m)

include quiet in
/-- The words for an address arrive in the edge behind it. -/
lemma issued_fetched (issued : Issued job p k i (σ t)) : Fetched job p k i (σ (t + 1)) := by
  obtain ⟨proc, weights, weight, memory, prevmem⟩ := undisturbed_edge follows quiet
  obtain ⟨queue, length, contr, push⟩ := (σ t).push_eq p
  have step : (σ (t + 1)).processors p =
      { (σ t).push p with thread := if i < job.inputs then .inputWait i else .biasWait } := by
    have thread := issued.thread
    rw [proc, push]
    unfold Processor.process
    split_ifs at thread ⊢
    · simp only [thread]
    · simp only [thread]
  constructor
  · rw [step]
  · rw [step, push]
    exact issued.number
  · rw [step, push]
    exact issued.sum
  · rw [weight, issued.weights, issued.weight]
    rfl
  · intro more
    rw [prevmem, issued.memory, issued.prevmem more]
    rfl
  · rw [weights, issued.weights]
  · rw [memory, issued.memory]

include quiet start size in
/-- The input loop issues the next address. -/
lemma loop_issued (le : i ≤ job.inputs) {q : Processor F} (number : q.numberOfNn = k)
    (sum : q.sumReg = job.partialSum k i)
    (step : (σ (t + 1)).processors p = q.inputLoop i ((σ t).wires.processorIn p))
    (weights : (σ t).weightStorage.memory = job.weights)
    (memory : (σ t).previousLayer.memory = job.memory) : Issued job p k i (σ (t + 1)) := by
  obtain ⟨-, weights', -, memory', -⟩ := undisturbed_edge follows quiet
  rw [← weights'] at weights
  rw [← memory'] at memory
  have base : ((σ t).wires.processorIn p).contrStartWeightAddressI = job.start :=
    quiet.start.trans start.symm
  have inputs : ((σ t).wires.processorIn p).prevmemSizeI = job.size := quiet.size.trans size.symm
  rcases inputLoop_eq base inputs le q with ⟨lt, eq⟩ | ⟨rfl, eq⟩
  · rw [eq] at step
    refine ⟨?_, ?_, ?_, ?_, ?_, weights, memory⟩
    · rw [step, if_pos lt]
    · rw [step]
      exact number
    · rw [step]
      exact sum
    · rw [step, ← number]
    · intro _
      rw [step]
  · rw [eq] at step
    have last : (job.inputs : Int) = job.size := by simp [LayerJob.inputs, size]
    refine ⟨?_, ?_, ?_, ?_, fun lt => absurd lt (lt_irrefl _), weights, memory⟩
    · rw [step, if_neg (lt_irrefl _)]
    · rw [step]
      exact number
    · rw [step]
      exact sum
    · rw [step, ← number, last]

include quiet start size in
/-- A product is added, and the next address issued. -/
lemma fetched_issued (fetched : Fetched job p k i (σ t)) (lt : i < job.inputs) :
    ((σ (t + 1)).processors p).sumReg =
        Binary32Ops.add ((σ t).processors p).sumReg
          (Binary32Ops.mul ((σ t).previousLayer.dataPcBusO p)
            ((σ t).weightStorage.dataOutBusO p)) ∧
      Issued job p k (i + 1) (σ (t + 1)) := by
  obtain ⟨proc, -⟩ := undisturbed_edge follows quiet
  obtain ⟨queue, length, contr, push⟩ := (σ t).push_eq p
  obtain ⟨q, hq⟩ : ∃ q : Processor F, q = { (σ t).push p with
      sumReg := Binary32Ops.add ((σ t).processors p).sumReg
        (Binary32Ops.mul ((σ t).previousLayer.dataPcBusO p)
          ((σ t).weightStorage.dataOutBusO p)) } := ⟨_, rfl⟩
  have step : (σ (t + 1)).processors p =
      q.inputLoop (i + 1) ((σ t).wires.processorIn p) := by
    rw [proc, hq, push]
    unfold Processor.process
    simp only [fetched.thread, if_pos lt]
    rfl
  have number : q.numberOfNn = k := by
    rw [hq, push]
    exact fetched.number
  have sum : q.sumReg = job.partialSum k (i + 1) := by
    rw [hq, LayerJob.partialSum, ← fetched.sum, ← fetched.weight, ← fetched.prevmem lt]
  constructor
  · rw [step, Processor.inputLoop_sumReg, hq]
  · exact loop_issued follows quiet start size lt number sum step fetched.weights fetched.memory

include quiet in
/-- The bias is added, and the result is written. -/
lemma fetched_stored (fetched : Fetched job p k job.inputs (σ t)) (size : job.size = m) :
    ((σ (t + 1)).processors p).thread = .store ∧
      ((σ (t + 1)).processors p).resmemAddrO = k ∧
      ((σ (t + 1)).processors p).resmemDataO = job.result k := by
  obtain ⟨proc, -⟩ := undisturbed_edge follows quiet
  obtain ⟨queue, length, contr, push⟩ := (σ t).push_eq p
  have last : (job.inputs : Int) = job.size := by simp [LayerJob.inputs, size]
  have step : (σ (t + 1)).processors p = { (σ t).push p with
      sumReg := Binary32Ops.add ((σ t).processors p).sumReg
        ((σ t).weightStorage.dataOutBusO p)
      resmemAddrO := ((σ t).processors p).numberOfNn
      resmemDataO := sigmoid (Binary32Ops.add ((σ t).processors p).sumReg
        ((σ t).weightStorage.dataOutBusO p))
      resmemWO := true
      thread := .store } := by
    rw [proc, push]
    unfold Processor.process
    simp only [fetched.thread, if_neg (lt_irrefl job.inputs)]
    rfl
  rw [step]
  refine ⟨rfl, fetched.number, ?_⟩
  simp only [fetched.sum, fetched.weight, last]
  rfl

include quiet start size in
/-- A neuron is taken, and its first address issued. -/
lemma pops_issued (pops : Pops (σ t) p k) (weights : (σ t).weightStorage.memory = job.weights)
    (memory : (σ t).previousLayer.memory = job.memory) :
    ((σ (t + 1)).processors p).queueNnNumber = ((σ t).push p).queueNnNumber.tail ∧
      Issued job p k 0 (σ (t + 1)) := by
  obtain ⟨proc, -⟩ := undisturbed_edge follows quiet
  obtain ⟨rest, queue⟩ : ∃ rest, ((σ t).push p).queueNnNumber = k :: rest := by
    cases eq : ((σ t).push p).queueNnNumber with
    | nil =>
      have front := pops.front
      rw [eq] at front
      cases front
    | cons y rest =>
      have front := pops.front
      rw [eq] at front
      exact ⟨rest, by rw [Option.some.inj front]⟩
  have thread : ((σ t).push p).thread = ((σ t).processors p).thread := by
    obtain ⟨queue, length, contr, push⟩ := (σ t).push_eq p
    rw [push]
  -- the counter and the write port do not matter
  obtain ⟨q, same, step⟩ : ∃ q : Processor F,
      q.queueNnNumber = ((σ t).push p).queueNnNumber ∧
        (σ (t + 1)).processors p = q.takeNeuron ((σ t).wires.processorIn p) := by
    rw [proc]
    unfold Processor.process
    rcases pops.thread with ht | ht | ht <;> simp only [thread, ht]
    · exact ⟨_, rfl, rfl⟩
    · exact ⟨_, rfl, rfl⟩
    · refine ⟨_, ?_, rfl⟩
      rfl
  rw [queue] at same
  obtain ⟨q', hq'⟩ : ∃ q' : Processor F, q' = { q with
      isWorking := true, sumReg := ofInt 0, numberOfNn := k, queueNnNumber := rest } := ⟨_, rfl⟩
  have step' : (σ (t + 1)).processors p = q'.inputLoop 0 ((σ t).wires.processorIn p) := by
    rw [step, hq']
    simp only [Processor.takeNeuron, same]
  constructor
  · rw [step', queue, List.tail_cons, Processor.inputLoop_queueNnNumber, hq']
  · refine loop_issued follows quiet start size (Nat.zero_le _) (q := q') ?_ ?_ step' weights memory
    · rw [hq']
    · rw [hq']
      rfl

include quiet in
/-- The write port is lowered in the edge behind the result. -/
lemma stored_lowers (stored : ((σ t).processors p).thread = .store) :
    ((σ (t + 1)).processors p).thread ≠ .store := by
  obtain ⟨proc, -⟩ := undisturbed_edge follows quiet
  obtain ⟨queue, length, contr, push⟩ := (σ t).push_eq p
  rw [proc, push]
  unfold Processor.process
  simp only [stored]
  exact Processor.takeNeuron_thread _ _

end Edge

section Neuron

variable (start : job.start = s) (size : job.size = m) {c : Nat}
variable (quiet : ∀ t, c ≤ t → t ≤ c + 2 * m + 3 → Undisturbed s m (σ t))
variable (pops : Pops (σ c) p k) (weights : (σ c).weightStorage.memory = job.weights)
variable (memory : (σ c).previousLayer.memory = job.memory)
include start size quiet pops weights memory

/-- The addresses of a neuron are issued one after the other, each in every second edge. -/
lemma issued_at {i : Nat} (le : i ≤ m) : Issued job p k i (σ (c + 1 + 2 * i)) := by
  have inputs : job.inputs = m := by simp [LayerJob.inputs, size]
  induction i with
  | zero =>
    exact (pops_issued follows (quiet c (le_refl _) (by omega)) start size pops weights memory).2
  | succ i ih =>
    have fetched := issued_fetched follows (quiet _ (by omega) (by omega))
      (ih (Nat.le_of_succ_le le))
    have next := (fetched_issued follows (quiet _ (by omega) (by omega)) start size fetched
      (by rwa [inputs])).2
    rwa [show c + 1 + 2 * i + 1 + 1 = c + 1 + 2 * (i + 1) by omega] at next

/-- The words for an address are there one edge later. -/
lemma fetched_at {i : Nat} (le : i ≤ m) : Fetched job p k i (σ (c + 2 + 2 * i)) := by
  have next := issued_fetched follows (quiet _ (by omega) (by omega))
    (issued_at follows start size quiet pops weights memory le)
  rwa [show c + 1 + 2 * i + 1 = c + 2 + 2 * i by omega] at next

/-- The result is written behind the bias. -/
lemma stored_at : ((σ (c + 2 * m + 3)).processors p).thread = .store ∧
    ((σ (c + 2 * m + 3)).processors p).resmemAddrO = k ∧
    ((σ (c + 2 * m + 3)).processors p).resmemDataO = job.result k := by
  have fetched := fetched_at follows start size quiet pops weights memory (le_refl m)
  rw [← show job.inputs = m by simp [LayerJob.inputs, size]] at fetched
  have stored := fetched_stored follows (quiet (c + 2 + 2 * job.inputs) (by omega)
    (by simp [LayerJob.inputs, size]; omega)) fetched size
  rwa [show c + 2 + 2 * job.inputs + 1 = c + 2 * m + 3 by
    simp [LayerJob.inputs, size]; omega] at stored

/-- The write port is high in the edge of the result only. -/
lemma write_at {t : Nat} (lt : c < t) (le : t ≤ c + 2 * m + 4) :
    ((σ t).processors p).resmemWO = true ↔ t = c + 2 * m + 3 := by
  rw [follows_write follows, decide_eq_true_iff]
  obtain ⟨i, hi⟩ : ∃ i, t = c + 1 + 2 * i ∨ t = c + 2 + 2 * i := ⟨(t - c - 1) / 2, by omega⟩
  by_cases inner : i ≤ m
  · have early : t ≠ c + 2 * m + 3 := by omega
    rcases hi with rfl | rfl
    · have thread := (issued_at follows start size quiet pops weights memory inner).thread
      split at thread <;> simp [thread, early]
    · have thread := (fetched_at follows start size quiet pops weights memory inner).thread
      split at thread <;> simp [thread, early]
  · have stored := (stored_at follows start size quiet pops weights memory).1
    obtain rfl | rfl : t = c + 2 * m + 3 ∨ t = c + 2 * m + 4 := by omega
    · simp [stored]
    · have late : c + 2 * m + 4 ≠ c + 2 * m + 3 := by omega
      have low := stored_lowers follows (quiet (c + 2 * m + 3) (by omega) (le_refl _)) stored
      simp [low]

end Neuron

omit follows

omit [Binary32Ops F] [DecidableEq F] in
/-- Below `2 ^ 31` the addresses of a neuron are exact. -/
lemma addr_exact {job : LayerJob F} {s m k i : Nat} (start : job.start = s) (size : job.size = m)
    (bound : s + (m + 1) * (k + 1) < 2 ^ 31) (le : i ≤ m) :
    job.addr k i = (s + (m + 1) * k + i : Nat) := by
  rw [Nat.mul_succ] at bound
  have row : m + 1 ≤ (m + 1) * (k + 1) := Nat.le_mul_of_pos_right _ (Nat.succ_pos k)
  have e : i32 ((m : Int) + 1) = ((m + 1 : Nat) : Int) := by
    exact_mod_cast i32_natCast (n := m + 1) (by rw [Nat.mul_succ] at row; omega)
  rw [LayerJob.addr, weightAddress, start, size, e, ← Nat.cast_mul, i32_natCast (by omega),
    ← Nat.cast_add, i32_natCast (by omega), ← Nat.cast_add, i32_natCast (by omega)]

omit [DecidableEq F] in
/-- The sum a processor builds is the exact one. -/
lemma partialSum_exact {job : LayerJob F} {s m k i : Nat} (start : job.start = s)
    (size : job.size = m) (bound : s + (m + 1) * (k + 1) < 2 ^ 31)
    (weights : job.weights.length < 2 ^ 31) (memory : job.memory.length < 2 ^ 31) (le : i ≤ m) :
    job.partialSum k i = accumulate job.memory job.weights (s + (m + 1) * k) i := by
  induction i with
  | zero => rfl
  | succ i ih =>
    have less : i ≤ m := Nat.le_of_succ_le le
    rw [LayerJob.partialSum, ih less, addr_exact start size bound less, LayerJob.input,
      LayerJob.weight, Config.guardedRead_eq memory, Config.guardedRead_eq weights]
    rfl

/-- A processor is aligned with its storages, whatever happens around them. -/
theorem accumulate_aligned (follows : Following cfg sch p σ) {s m k c : Nat}
    (bound : s + (m + 1) * (k + 1) < 2 ^ 31)
    (weights : (σ c).weightStorage.memory.length < 2 ^ 31)
    (memory : (σ c).previousLayer.memory.length < 2 ^ 31)
    (quiet : ∀ t, c ≤ t → t ≤ c + 2 * m + 3 → Undisturbed s m (σ t)) (pops : Pops (σ c) p k) :
    Aligned p σ s m k c := by
  obtain ⟨job, start, size, hw', hm'⟩ : ∃ job : LayerJob F,
      job.start = s ∧ job.size = m ∧ job.weights = (σ c).weightStorage.memory ∧
        job.memory = (σ c).previousLayer.memory := ⟨⟨s, m, _, _⟩, rfl, rfl, rfl, rfl⟩
  have inputs : job.inputs = m := by simp [LayerJob.inputs, size]
  have issued : ∀ i ≤ m, Issued job p k i (σ (c + 1 + 2 * i)) := fun i =>
    issued_at follows start size quiet pops hw'.symm hm'.symm
  have fetched : ∀ i ≤ m, Fetched job p k i (σ (c + 2 + 2 * i)) := fun i =>
    fetched_at follows start size quiet pops hw'.symm hm'.symm
  have stored := stored_at follows start size quiet pops hw'.symm hm'.symm
  have sums : ∀ i ≤ m, job.partialSum k i = accumulate (σ c).previousLayer.memory
      (σ c).weightStorage.memory (s + (m + 1) * k) i := by
    intro i le
    rw [partialSum_exact start size bound (by rwa [hw']) (by rwa [hm']) le, hw', hm']
  have word : ∀ i ≤ m, job.weight (job.addr k i) =
      (σ c).weightStorage.memory.getD (s + (m + 1) * k + i) (ofInt 0) := by
    intro i le
    rw [LayerJob.weight, addr_exact start size bound le, Config.guardedRead_eq (by rwa [hw']), hw']
  -- the next neuron is taken in the edge that lowers the write port
  have next : ∀ x rest, ((σ (c + 2 * m + 3)).processors p).queueNnNumber = x :: rest →
      Pops (σ (c + 2 * m + 3)) p x := fun x rest queue =>
    ⟨.inr (.inr stored.1), System.push_front queue⟩
  constructor
  · exact ⟨(issued 0 (Nat.zero_le m)).number,
      (pops_issued follows (quiet c (le_refl c) (by omega)) start size pops hw'.symm hm'.symm).1⟩
  · intro i lt
    have now := issued i lt.le
    exact ⟨by rw [now.weight, addr_exact start size bound lt.le],
      now.prevmem (by rw [inputs]; exact lt)⟩
  · intro i lt
    have now := fetched i lt.le
    refine ⟨by rw [now.weight, word i lt.le], ?_⟩
    rw [now.prevmem (by rw [inputs]; exact lt), LayerJob.input,
      Config.guardedRead_eq (by rwa [hm']), hm']
  · intro i lt
    have next := (fetched_issued follows (quiet _ (by omega) (by omega)) start size
      (fetched i lt.le) (by rw [inputs]; exact lt)).1
    rwa [show c + 2 + 2 * i + 1 = c + 3 + 2 * i by omega] at next
  · intro i le
    rw [(issued i le).sum, sums i le]
  · exact ⟨by rw [(issued m (le_refl m)).weight, addr_exact start size bound (le_refl m)],
      by rw [(fetched m (le_refl m)).weight, word m (le_refl m)]⟩
  · refine ⟨stored.2.1, ?_⟩
    rw [stored.2.2, LayerJob.result, inputs, sums m (le_refl m), size, word m (le_refl m)]
  · exact fun t => write_at follows start size quiet pops hw'.symm hm'.symm
  · intro x rest queue
    obtain ⟨job', start', size', weights', memory'⟩ : ∃ job : LayerJob F,
        job.start = s ∧ job.size = m ∧
          job.weights = (σ (c + 2 * m + 3)).weightStorage.memory ∧
          job.memory = (σ (c + 2 * m + 3)).previousLayer.memory :=
      ⟨⟨s, m, _, _⟩, rfl, rfl, rfl, rfl⟩
    have here := quiet (c + 2 * m + 3) (by omega) (le_refl _)
    refine ⟨next x rest queue, ?_⟩
    exact (pops_issued follows here start' size' (next x rest queue) weights'.symm
      memory'.symm).2.number

/-- Every processor of the system follows its storages. -/
lemma run_following (env : Env hw F) : Following cfg env.sched p (run cfg env) where
  initial := initialized_processor env.boot env.junk p
  processor _ := rfl
  weightStorage _ := rfl
  previousLayer _ := rfl

/-- The neuron of the small network. -/
theorem accumulate_aligned_small :
    Aligned ⟨0, Hw.configH.countPcUnit_pos⟩ (run smallNetwork listedEnv) 0 1 0 14 := by
  refine accumulate_aligned (run_following listedEnv) (by decide) (by decide +kernel)
    (by decide +kernel) ?_ ?_
  · have quiet : ∀ i < 6, (run smallNetwork listedEnv (14 + i)).stopped = false ∧
        (run smallNetwork listedEnv (14 + i)).controller.startWeightAdderessO = 0 ∧
        (run smallNetwork listedEnv (14 + i)).previousLayerSize.dataO = 1 ∧
        (run smallNetwork listedEnv (14 + i)).bus.wr = false ∧
        (run smallNetwork listedEnv (14 + i)).previousLayerController.wrToMemoryFromMemO = false ∧
        (run smallNetwork listedEnv (14 + i)).previousLayerController.clrO = false := by
      decide +kernel
    intro t from14 to19
    obtain ⟨running, start, size, low, copy, clr⟩ := quiet (t - 14) (by omega)
    rw [Nat.add_sub_cancel' from14] at running start size low copy clr
    exact ⟨running, start, size, by simp [low], by simp [low], copy, clr⟩
  · exact ⟨by decide +kernel, by decide +kernel⟩

/-- The processors of `config.h` and their storages, with one neuron on its way to the processor 0
and a list of weights that is too long for the `(int)` in the guard of `WEIGHT_STORAGE`. -/
def longStorage : Nat → System .configH Extended
  | 0 =>
    { System.elaborated fun _ => .nan with
      weightStorage :=
        { memory := List.replicate (2 ^ 31) (.finite 1), dataOutBusO := fun _ => ofInt 0 }
      generator := { wO := true }
      processors := fun _ => Processor.initial }
  | t + 1 =>
    let next := (longStorage t).edge smallNetwork (.listed .configH)
    { longStorage t with
      generator := {}
      processors := next.processors
      weightStorage := next.weightStorage
      previousLayer := next.previousLayer }

/-- Every processor follows the storages with the long list. -/
lemma longStorage_following (p : Fin Hw.configH.countPcUnit) :
    Following smallNetwork (fun _ => .listed .configH) p longStorage where
  initial := rfl
  processor _ := rfl
  weightStorage _ := rfl
  previousLayer _ := rfl

/-- Nothing but the processors and their storages takes a step. -/
lemma longStorage_still (t : Nat) : (longStorage t).io = {} ∧
    (longStorage t).bus = { data := ofInt 0, wr := false } ∧ (longStorage t).controller = {} ∧
    (longStorage t).previousLayerController = {} ∧ (longStorage t).previousLayerSize = {} ∧
    (longStorage t).stopped = false := by
  induction t with
  | zero => exact ⟨rfl, rfl, rfl, rfl, rfl, rfl⟩
  | succ t ih =>
    obtain ⟨io, bus, controller, copier, size, running⟩ := ih
    refine ⟨io, bus, controller, copier, size, ?_⟩
    change ((longStorage t).edge smallNetwork (.listed .configH)).previousLayer.stopped = false
    rw [edge_previousLayer smallNetwork _ running, methodPhase_previousLayer_quiet]
    · exact running
    · simp [bus]
    · rw [copier]
    · rw [copier]
    · rw [copier]

/-- Nothing writes the storages, and the parameters stay 0. -/
lemma longStorage_undisturbed (t : Nat) : Undisturbed 0 0 (longStorage t) := by
  obtain ⟨-, bus, controller, copier, size, running⟩ := longStorage_still t
  constructor
  · exact running
  · rw [controller]
    rfl
  · rw [size]
    rfl
  · simp [bus]
  · simp [bus]
  · rw [copier]
  · rw [copier]

/-- The processor 0 pops the neuron 0 in the first edge. -/
lemma longStorage_pops : Pops (longStorage 0) ⟨0, Hw.configH.countPcUnit_pos⟩ 0 :=
  ⟨.inl rfl, rfl⟩

/-- The bias of the long list is read as 0. -/
lemma longStorage_result {job : LayerJob Extended} (start : job.start = 0) (size : job.size = 0)
    (weights : job.weights = (longStorage 0).weightStorage.memory) :
    job.result 0 = .finite (1 / 2) := by
  have length : job.weights.length = 2 ^ 31 := by
    rw [weights]
    exact List.length_replicate
  have addr : 0 ≤ job.addr 0 0 := by
    rw [LayerJob.addr, start, size]
    decide
  have word : job.weight (job.addr 0 0) = .finite 0 := Config.guardedRead_long length addr _
  rw [LayerJob.result, LayerJob.inputs, size, Int.toNat_zero, word, LayerJob.partialSum]
  decide +kernel

/-- The processor is not aligned with a memory of `2 ^ 31` words. -/
theorem accumulate_long : 0 + (0 + 1) * (0 + 1) < 2 ^ 31 ∧
    Following smallNetwork (fun _ => .listed .configH) ⟨0, Hw.configH.countPcUnit_pos⟩
      longStorage ∧
    (∀ t, Undisturbed 0 0 (longStorage t)) ∧
    Pops (longStorage 0) ⟨0, Hw.configH.countPcUnit_pos⟩ 0 ∧
    ¬Aligned ⟨0, Hw.configH.countPcUnit_pos⟩ longStorage 0 0 0 0 := by
  refine ⟨by decide, longStorage_following _, longStorage_undisturbed, longStorage_pops, ?_⟩
  intro aligned
  have follows := longStorage_following ⟨0, Hw.configH.countPcUnit_pos⟩
  obtain ⟨job, start, size, weights, memory⟩ : ∃ job : LayerJob Extended,
      job.start = 0 ∧ job.size = 0 ∧ job.weights = (longStorage 0).weightStorage.memory ∧
        job.memory = (longStorage 0).previousLayer.memory := ⟨⟨0, 0, _, _⟩, rfl, rfl, rfl, rfl⟩
  have inputs : job.inputs = 0 := by rw [LayerJob.inputs, size, Int.toNat_zero]
  have fetched : Fetched job ⟨0, Hw.configH.countPcUnit_pos⟩ 0 job.inputs (longStorage 2) := by
    rw [inputs]
    apply issued_fetched follows (longStorage_undisturbed 1)
    exact (pops_issued follows (longStorage_undisturbed 0) start size longStorage_pops
      weights.symm memory.symm).2
  have read := (fetched_stored follows (longStorage_undisturbed 2) fetched size).2.2
  have bias : (longStorage 0).weightStorage.memory.getD 0 (.finite 0) = .finite 1 := by
    change (List.replicate (2 ^ 31) (Extended.finite 1)).getD 0 _ = _
    rw [List.getD_eq_getElem?_getD, List.getElem?_replicate_of_lt (by decide)]
    rfl
  have exact : ((longStorage 3).processors ⟨0, Hw.configH.countPcUnit_pos⟩).resmemDataO =
      sigmoid (Extended.add (.finite 0)
        ((longStorage 0).weightStorage.memory.getD 0 (.finite 0))) := aligned.result.2
  rw [read, longStorage_result start size weights, bias] at exact
  revert exact
  decide +kernel

end NnProcessor.Correctness
