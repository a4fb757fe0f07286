import NnProcessor.Run.History

/-!
# A processor at work on a layer

`ProcInv job p wd pd f` is the invariant of a processor between two edges of a layer iteration with
the parameters `job`; `wd` and `pd` are the words on its two data ports and `f` is the address the
weight storage has read last for it. `held` are the neurons a processor is responsible for, and
`work` bounds the edges it still needs. The step lemmas say what one edge does to each of them.
-/

namespace NnProcessor.Model

variable {F : Type}

/-- A processor has taken a neuron. -/
def ProcessThread.busy : ProcessThread → Bool
  | .start | .waitQueue => false
  | _ => true

namespace ProcessThread

/-- A processor that has not started is not busy. -/
@[simp] lemma busy_start : busy .start = false := rfl

/-- A processor that waits for a neuron is not busy. -/
@[simp] lemma busy_waitQueue : busy .waitQueue = false := rfl

/-- A processor that addresses an input is busy. -/
@[simp] lemma busy_inputAddr (i : Nat) : busy (.inputAddr i) = true := rfl

/-- A processor that waits for an input is busy. -/
@[simp] lemma busy_inputWait (i : Nat) : busy (.inputWait i) = true := rfl

/-- A processor that addresses the bias is busy. -/
@[simp] lemma busy_biasAddr : busy .biasAddr = true := rfl

/-- A processor that waits for the bias is busy. -/
@[simp] lemma busy_biasWait : busy .biasWait = true := rfl

/-- A processor that stores its result is busy. -/
@[simp] lemma busy_store : busy .store = true := rfl

end ProcessThread

namespace Processor

/-- The neuron a processor computes and the ones in its queue. -/
def held (p : Processor F) : Multiset Nat :=
  (if p.thread.busy then {p.numberOfNn} else 0) + (p.queueNnNumber : Multiset Nat)

/-- A busy processor holds its neuron and its queue. -/
lemma held_busy {p : Processor F} (busy : p.thread.busy = true) :
    p.held = p.numberOfNn ::ₘ (p.queueNnNumber : Multiset Nat) := by
  rw [held, if_pos busy, Multiset.singleton_add]

/-- A processor that is not busy holds its queue. -/
lemma held_waiting {p : Processor F} (idle : p.thread.busy = false) :
    p.held = (p.queueNnNumber : Multiset Nat) := by
  simp [held, idle]

/-- The neuron whose result is on the write port. -/
def storing (p : Processor F) : Multiset Nat :=
  if p.thread = .store then {p.numberOfNn} else 0

/-- The weights that are in the sum of the neuron being computed. -/
def summed (job : LayerJob F) (p : Processor F) : Multiset WeightUse :=
  match p.thread with
  | .start | .waitQueue => 0
  | .inputAddr i | .inputWait i => job.inputUses p.numberOfNn i
  | .biasAddr | .biasWait => job.inputUses p.numberOfNn job.inputs
  | .store => job.uses p.numberOfNn

/-- More than the edges a queued neuron needs. -/
def cost (job : LayerJob F) : Nat := 2 * job.inputs + 5

/-- The edges the neuron being computed still needs, and one until `contr_empty_o` shows the end. -/
def threadWork (job : LayerJob F) (p : Processor F) : Nat :=
  match p.thread with
  | .start | .waitQueue => if p.contrEmptyO then 0 else 1
  | .inputAddr i => 2 * (job.inputs - i) + 4
  | .inputWait i => 2 * (job.inputs - i) + 3
  | .biasAddr => 4
  | .biasWait => 3
  | .store => 2

/-- A bound on the edges a processor still needs. -/
def work (job : LayerJob F) (p : Processor F) : Nat :=
  p.threadWork job + cost job * p.queueNnNumber.length

end Processor

end NnProcessor.Model

namespace NnProcessor.Invariant
open NnProcessor.Arith NnProcessor.Model
open NnProcessor.Model.Processor (takeNeuron inputLoop)

variable {F : Type} [Binary32Ops F]

/-- Where the computation of the current neuron stands. -/
def Stage (job : LayerJob F) (p : Processor F) (wd pd : F) (f : Int) : Prop :=
  match p.thread with
  | .start | .waitQueue => True
  | .inputAddr i =>
    i < job.inputs ∧ p.sumReg = job.partialSum p.numberOfNn i ∧
      p.weightAddrO = job.addr p.numberOfNn i ∧ p.prevmemAddrO = i
  | .inputWait i =>
    i < job.inputs ∧ p.sumReg = job.partialSum p.numberOfNn i ∧
      f = job.addr p.numberOfNn i ∧ wd = job.weight f ∧ pd = job.input i
  | .biasAddr =>
    p.sumReg = job.partialSum p.numberOfNn job.inputs ∧
      p.weightAddrO = job.addr p.numberOfNn job.size
  | .biasWait =>
    p.sumReg = job.partialSum p.numberOfNn job.inputs ∧
      f = job.addr p.numberOfNn job.size ∧ wd = job.weight f
  | .store => p.resmemAddrO = p.numberOfNn ∧ p.resmemDataO = job.result p.numberOfNn

/-- The invariant of a processor in a layer iteration. -/
structure ProcInv (job : LayerJob F) (p : Processor F) (wd pd : F) (f : Int) : Prop where
  size_le : p.queueNnNumber.length ≤ p.queueSizeO
  working : p.isWorking = p.thread.busy
  empty : p.contrEmptyO = true → p.thread.busy = false
  write : p.resmemWO = decide (p.thread = .store)
  idle : p.thread.busy = false → p.queueNnNumber = [] ∧ p.queueSizeO = 0
  stage : Stage job p wd pd f

/-- A processor between two layers: nothing is queued, computed or written. -/
structure ProcIdle (p : Processor F) : Prop where
  thread : p.thread.busy = false
  queue : p.queueNnNumber = []
  queueSizeO : p.queueSizeO = 0
  working : p.isWorking = false
  write : p.resmemWO = false

omit [Binary32Ops F] in
/-- An idle processor stores nothing. -/
lemma ProcIdle.not_store {p : Processor F} (idle : ProcIdle p) : p.thread ≠ .store := by
  intro h
  have busy := idle.thread
  simp [h] at busy

/-- An idle processor is ready for every layer. -/
lemma ProcIdle.inv {p : Processor F} (idle : ProcIdle p) (job : LayerJob F) (wd pd : F) (f : Int) :
    ProcInv job p wd pd f where
  size_le := by simp [idle.queue]
  working := by rw [idle.working, idle.thread]
  empty _ := idle.thread
  write := by simp [idle.write, idle.not_store]
  idle _ := ⟨idle.queue, idle.queueSizeO⟩
  stage := by
    have waiting := idle.thread
    unfold Stage
    cases ht : p.thread with
    | start | waitQueue => trivial
    | inputAddr | inputWait | biasAddr | biasWait | store => simp [ht] at waiting

/-- A processor that shows `contr_empty_o` is idle. -/
lemma ProcInv.to_idle {job : LayerJob F} {p : Processor F} {wd pd : F} {f : Int}
    (inv : ProcInv job p wd pd f) (empty : p.contrEmptyO = true) : ProcIdle p where
  thread := inv.empty empty
  queue := (inv.idle (inv.empty empty)).1
  queueSizeO := (inv.idle (inv.empty empty)).2
  working := by rw [inv.working, inv.empty empty]
  write := by
    have idle := inv.empty empty
    rw [inv.write]
    cases ht : p.thread <;> simp_all

/-- The number on the write port is the one of the neuron that has been computed. -/
lemma ProcInv.written {job : LayerJob F} {p : Processor F} {wd pd : F} {f : Int}
    (inv : ProcInv job p wd pd f) : p.written = p.storing := by
  have stage := inv.stage
  by_cases ht : p.thread = .store
  · simp only [Stage, ht] at stage
    simp [Processor.written, Processor.storing, inv.write, ht, stage.1]
  · simp [Processor.written, Processor.storing, inv.write, ht]

/-- A processor with neither a free queue nor a finished computation has work. -/
lemma ProcInv.work_pos {job : LayerJob F} {p : Processor F} {wd pd : F} {f : Int}
    (inv : ProcInv job p wd pd f) (some : 0 < p.queueSizeO ∨ p.contrEmptyO = false) :
    0 < p.work job := by
  unfold Processor.work Processor.threadWork
  cases ht : p.thread with
  | start | waitQueue =>
    have idle := (inv.idle (by simp [ht])).2
    rcases some with pos | contr
    · omega
    · simp [contr]
  | inputAddr | inputWait | biasAddr | biasWait | store => simp

/-- With no word on the generator bus an idle processor stays idle. -/
lemma ProcIdle.step {p : Processor F} (idle : ProcIdle p) (queueSize k address data : Nat)
    (w : ProcessorIn F) :
    ProcIdle ((p.addToQueue queueSize k address data false).process w) := by
  have waiting := idle.thread
  have quiet : (p.addToQueue queueSize k address data false).process w =
      { p with queueSizeO := 0, contrEmptyO := true, thread := .waitQueue } := by
    cases ht : p.thread with
    | start | waitQueue =>
      simp [Processor.addToQueue, Processor.process, Processor.takeNeuron, ht, idle.queue,
        idle.working]
    | inputAddr | inputWait | biasAddr | biasWait | store => simp [ht] at waiting
  rw [quiet]
  exact ⟨rfl, idle.queue, rfl, idle.working, idle.write⟩

/-- The word the generator bus carries for the processor `k`. -/
def pushed (k address data : Nat) (write : Bool) : List Nat :=
  if address = k ∧ write then [data] else []

/-- With room in the queue `add_to_queue` takes every word, and `contr_empty_o` then says that the
processor has nothing to do. -/
lemma ProcInv.addToQueue {job : LayerJob F} {p : Processor F} {wd pd : F} {f : Int}
    (inv : ProcInv job p wd pd f) (queueSize k address data : Nat) (write : Bool)
    (room : address = k → write = true → p.queueNnNumber.length < queueSize) :
    p.addToQueue queueSize k address data write =
      { p with
        queueNnNumber := p.queueNnNumber ++ pushed k address data write
        queueSizeO := (p.queueNnNumber ++ pushed k address data write).length
        contrEmptyO :=
          decide (p.queueNnNumber ++ pushed k address data write = []) && !p.thread.busy } := by
  by_cases push : address = k ∧ write = true
  · have lt := room push.1 push.2
    simp [Processor.addToQueue, pushed, push, lt]
  · have no : ¬(address = k ∧ write = true ∧ p.queueNnNumber.length < queueSize) :=
      fun h => push ⟨h.1, h.2.1⟩
    have none : pushed k address data write = [] := if_neg push
    simp only [Processor.addToQueue, if_neg no, none, List.append_nil]
    cases hq : p.queueNnNumber with
    | nil => simp [inv.working]
    | cons x rest =>
      have contr : p.contrEmptyO = false := by
        by_contra h
        have := (inv.idle (inv.empty (by simpa using h))).1
        simp [hq] at this
      simp [contr]

section Thread

variable {job : LayerJob F} {w : ProcessorIn F}
variable (start : w.contrStartWeightAddressI = job.start) (size : w.prevmemSizeI = job.size)
include start size

omit [Binary32Ops F] in
/-- The input loop at its test: the next input, or the bias behind the last one. -/
lemma inputLoop_eq {i : Nat} (le : i ≤ job.inputs) (p : Processor F) :
    (i < job.inputs ∧
      p.inputLoop i w =
        { p with
          weightAddrO := job.addr p.numberOfNn i
          prevmemAddrO := i
          thread := .inputAddr i }) ∨
    (i = job.inputs ∧
      p.inputLoop i w =
        { p with weightAddrO := job.addr p.numberOfNn job.size, thread := .biasAddr }) := by
  by_cases lt : i < job.inputs
  · left
    have : (i : Int) < job.size := by unfold LayerJob.inputs at lt; omega
    exact ⟨lt, by simp [Processor.inputLoop, start, size, this, LayerJob.addr]⟩
  · right
    have : ¬(i : Int) < job.size := by unfold LayerJob.inputs at lt; omega
    exact ⟨by omega, by simp [Processor.inputLoop, start, size, this, LayerJob.addr]⟩

/-- What the input loop leaves of a processor that computes `x`. -/
lemma inputLoop_spec {i : Nat} (le : i ≤ job.inputs) (p : Processor F) (wd pd : F) (f : Int)
    (sum : p.sumReg = job.partialSum p.numberOfNn i) :
    let p' := p.inputLoop i w
    p'.thread.busy = true ∧ p'.thread ≠ .store ∧ p'.numberOfNn = p.numberOfNn ∧
      p'.queueNnNumber = p.queueNnNumber ∧ p'.queueSizeO = p.queueSizeO ∧
      p'.isWorking = p.isWorking ∧ p'.contrEmptyO = p.contrEmptyO ∧ p'.resmemWO = p.resmemWO ∧
      p'.countNeuronsCalc = p.countNeuronsCalc ∧
      Stage job p' wd pd f ∧ p'.summed job = job.inputUses p.numberOfNn i ∧
      p'.threadWork job = 2 * (job.inputs - i) + 4 := by
  rcases inputLoop_eq start size le p with ⟨lt, h⟩ | ⟨rfl, h⟩ <;> simp only [h]
  · simp [Stage, sum, lt, Processor.summed, Processor.threadWork]
  · simp [Stage, sum, Processor.summed, Processor.threadWork]

/-- The top of `process`: with an empty queue the processor waits, otherwise it starts the first
neuron of the queue. -/
lemma takeNeuron_spec (p : Processor F) (wd pd : F) (f : Int)
    (queueSizeO : p.queueSizeO = p.queueNnNumber.length)
    (working : p.isWorking = false) (write : p.resmemWO = false)
    (contr : p.contrEmptyO = true → p.queueNnNumber = []) :
    let p' := p.takeNeuron w
    ProcInv job p' wd pd f ∧ p'.held = (p.queueNnNumber : Multiset Nat) ∧ p'.summed job = 0 ∧
      p'.queueNnNumber <:+ p.queueNnNumber ∧ p'.countNeuronsCalc = p.countNeuronsCalc ∧
      p'.work job ≤ Processor.cost job * p.queueNnNumber.length +
        (if p.queueNnNumber = [] ∧ p.contrEmptyO = false then 1 else 0) ∧
      (p.queueNnNumber ≠ [] → p'.work job < Processor.cost job * p.queueNnNumber.length) := by
  rcases hq : p.queueNnNumber with _ | ⟨x, rest⟩
  · have h : p.takeNeuron w = { p with thread := .waitQueue } := by
      simp [Processor.takeNeuron, hq]
    simp only [h]
    refine ⟨⟨?_, ?_, ?_, ?_, ?_, trivial⟩, ?_, rfl, by rw [hq], trivial, ?_, ?_⟩
    · simp [hq]
    · simp [working]
    · simp
    · simp [write]
    · simp [hq, queueSizeO]
    · simp [Processor.held, hq]
    · cases hc : p.contrEmptyO <;> simp [Processor.work, Processor.threadWork, hq]
    · simp
  · obtain ⟨p₀, h₀⟩ : ∃ p₀ : Processor F, p₀ =
        { p with isWorking := true, sumReg := ofInt 0, numberOfNn := x, queueNnNumber := rest } :=
      ⟨_, rfl⟩
    have h : p.takeNeuron w = Processor.inputLoop 0 w p₀ := by
      simp [Processor.takeNeuron, hq, h₀]
    obtain ⟨busy, ns, num, q, qs, wk, ce, low, cn, st, sm, tw⟩ :=
      inputLoop_spec start size (Nat.zero_le job.inputs) p₀ wd pd f
        (by simp [h₀, LayerJob.partialSum])
    have noContr : p.contrEmptyO = false := by
      by_contra e
      have := contr (by simpa using e)
      simp [hq] at this
    simp only [show p₀.numberOfNn = x by rw [h₀], show p₀.queueNnNumber = rest by rw [h₀],
      show p₀.isWorking = true by rw [h₀], show p₀.contrEmptyO = false by rw [h₀, noContr],
      show p₀.queueSizeO = p.queueSizeO by rw [h₀], show p₀.resmemWO = false by rw [h₀, write],
      show p₀.countNeuronsCalc = p.countNeuronsCalc by rw [h₀]] at num q qs wk ce low cn sm
    simp only [h]
    have less : (Processor.inputLoop 0 w p₀).work job < Processor.cost job * (rest.length + 1) := by
      simp only [Processor.work, tw, q, Processor.cost, Nat.mul_add]
      omega
    refine ⟨⟨?_, ?_, ?_, ?_, ?_, st⟩, ?_, ?_, ?_, cn, ?_, ?_⟩
    · rw [q, qs, queueSizeO, hq]
      simp
    · rw [wk, busy]
    · simp [ce]
    · rw [low, eq_comm, decide_eq_false_iff_not]
      exact ns
    · simp [busy]
    · rw [Processor.held, busy, num, q]
      simp
    · simp [sm, LayerJob.inputUses]
    · rw [q]
      exact List.suffix_cons x rest
    · simp only [List.length_cons]
      omega
    · intro _
      exact less

end Thread

/-- What one edge does to a processor that gets the words `new` from the generator bus. -/
structure ProcStep (job : LayerJob F) (p p' : Processor F) (f : Int) (new : List Nat) : Prop where
  inv : ∀ wd pd, wd = job.weight p.weightAddrO → pd = job.input p.prevmemAddrO →
    ProcInv job p' wd pd p.weightAddrO
  held : p'.held + p.storing = p.held + (new : Multiset Nat)
  queue : p'.queueNnNumber <:+ p.queueNnNumber ++ new
  summed : p'.summed job + (if p.thread = .store then job.uses p.numberOfNn else 0) =
    p.summed job + p.adding f
  count : p'.countNeuronsCalc = p.countNeuronsCalc + p.storing.card
  work : p'.work job < p.work job + Processor.cost job * new.length ∨
    p'.work job = 0 ∧ p.work job = 0 ∧ new = []

/-- The processor `q` is the processor `p` behind `add_to_queue`. -/
structure Fed (p q : Processor F) (new : List Nat) : Prop where
  thread : q.thread = p.thread
  queue : q.queueNnNumber = p.queueNnNumber ++ new
  queueSizeO : q.queueSizeO = q.queueNnNumber.length
  contr : q.contrEmptyO = (decide (q.queueNnNumber = []) && !p.thread.busy)
  working : q.isWorking = p.thread.busy
  number : q.numberOfNn = p.numberOfNn
  sum : q.sumReg = p.sumReg
  write : q.resmemWO = decide (p.thread = .store)
  count : q.countNeuronsCalc = p.countNeuronsCalc
  weightAddrO : q.weightAddrO = p.weightAddrO
  prevmemAddrO : q.prevmemAddrO = p.prevmemAddrO

/-- `add_to_queue` feeds a processor that has room for the word on the bus. -/
lemma ProcInv.fed {job : LayerJob F} {p : Processor F} {wd pd : F} {f : Int}
    (inv : ProcInv job p wd pd f) (queueSize k address data : Nat) (write : Bool)
    (room : address = k → write = true → p.queueNnNumber.length < queueSize) :
    Fed p (p.addToQueue queueSize k address data write) (pushed k address data write) := by
  rw [inv.addToQueue queueSize k address data write room]
  exact ⟨rfl, rfl, rfl, rfl, inv.working, rfl, rfl, inv.write, rfl, rfl, rfl⟩

section Step

variable {job : LayerJob F} {p q : Processor F} {wd pd : F} {f : Int} {new : List Nat}
variable (inv : ProcInv job p wd pd f) (fed : Fed p q new) {w : ProcessorIn F}
variable (start : w.contrStartWeightAddressI = job.start) (size : w.prevmemSizeI = job.size)
include inv fed start size

/-- A waiting processor. -/
lemma ProcInv.step_idle (idle : p.thread.busy = false) :
    ProcStep job p (q.takeNeuron w) f new := by
  obtain ⟨none, -⟩ := inv.idle idle
  have ns : p.thread ≠ .store := by rintro e; simp [e] at idle
  have queue : q.queueNnNumber = new := by rw [fed.queue, none, List.nil_append]
  obtain ⟨inv', held, summed, suffix, count, work, strict⟩ :=
    takeNeuron_spec start size q (job.weight p.weightAddrO) (job.input p.prevmemAddrO)
      p.weightAddrO fed.queueSizeO (by rw [fed.working, idle])
      (by rw [fed.write]; simpa using ns) (by rw [fed.contr]; simp +contextual)
  generalize q.takeNeuron w = p' at *
  refine ⟨?_, ?_, ?_, ?_, ?_, ?_⟩
  · rintro _ _ rfl rfl
    exact inv'
  · rw [held, queue, Processor.held_waiting idle, none]
    simp [Processor.storing, ns]
  · rwa [← fed.queue]
  · rw [summed, if_neg ns]
    cases ht : p.thread <;>
      simp_all [Processor.summed, Processor.adding]
  · simp [count, fed.count, Processor.storing, ns]
  · rw [queue, fed.contr, queue, idle] at work
    rw [queue] at strict
    cases new with
    | nil =>
      have zero : p'.work job = 0 := by simpa using work
      rcases Nat.eq_zero_or_pos (p.work job) with h | h
      · exact .inr ⟨zero, h, rfl⟩
      · exact .inl (by simpa [zero] using h)
    | cons x rest =>
      exact .inl (lt_of_lt_of_le (strict (by simp)) (Nat.le_add_left _ _))

omit inv in
/-- A processor behind the write of a result. -/
lemma Fed.step_store (ht : p.thread = .store) :
    ProcStep job p
      (takeNeuron w
        { q with
          resmemWO := false
          isWorking := false
          countNeuronsCalc := q.countNeuronsCalc + 1 }) f new := by
  obtain ⟨q', hq'⟩ : ∃ q' : Processor F, q' =
      { q with
        resmemWO := false
        isWorking := false
        countNeuronsCalc := q.countNeuronsCalc + 1 } := ⟨_, rfl⟩
  have contr : q'.contrEmptyO = false := by simp [hq', fed.contr, ht]
  have queue : q'.queueNnNumber = p.queueNnNumber ++ new := by rw [hq', fed.queue]
  obtain ⟨inv', held, summed, suffix, count, work, strict⟩ :=
    takeNeuron_spec start size q' (job.weight p.weightAddrO) (job.input p.prevmemAddrO)
      p.weightAddrO (by rw [hq']; exact fed.queueSizeO) (by rw [hq']) (by rw [hq'])
      (by simp [contr])
  rw [← hq']
  generalize q'.takeNeuron w = p' at *
  refine ⟨?_, ?_, ?_, ?_, ?_, ?_⟩
  · rintro _ _ rfl rfl
    exact inv'
  · rw [held, queue, Processor.held_busy (by simp [ht]), Processor.storing, if_pos ht, add_comm,
      Multiset.singleton_add]
    simp
  · rwa [← queue]
  · rw [summed]
    simp [ht, Processor.summed, Processor.adding]
  · simp [count, hq', fed.count, Processor.storing, ht]
  · left
    refine lt_of_le_of_lt work ?_
    simp only [Processor.work, Processor.threadWork, ht, queue, List.length_append, Nat.mul_add]
    split <;> omega

/-- A processor that adds a product. -/
lemma ProcInv.step_inputWait (hwd : w.weightDataI = wd) (hpd : w.prevmemDataI = pd) {i : Nat}
    (ht : p.thread = .inputWait i) :
    ProcStep job p
      (inputLoop (i + 1) w
        { q with
          sumReg := Binary32Ops.add q.sumReg (Binary32Ops.mul w.prevmemDataI w.weightDataI) })
      f new := by
  have stage := inv.stage
  simp only [Stage, ht] at stage
  obtain ⟨lt, sum, addr, hw, hp⟩ := stage
  obtain ⟨q', hq'⟩ : ∃ q' : Processor F, q' =
      { q with
        sumReg := Binary32Ops.add q.sumReg (Binary32Ops.mul w.prevmemDataI w.weightDataI) } :=
    ⟨_, rfl⟩
  have sum' : q'.sumReg = job.partialSum q'.numberOfNn (i + 1) := by
    rw [hq']
    simp [LayerJob.partialSum, fed.sum, fed.number, sum, hwd, hpd, hw, hp, addr]
  obtain ⟨busy, ns, num, queue, qs, wk, ce, rw', cn, st, sm, tw⟩ :=
    inputLoop_spec start size lt q' (job.weight p.weightAddrO) (job.input p.prevmemAddrO)
      p.weightAddrO sum'
  rw [← hq']
  generalize q'.inputLoop (i + 1) w = p' at *
  simp only [hq', fed.number, fed.queue, fed.queueSizeO, fed.working, fed.contr, fed.write, ht,
    fed.count] at num queue qs wk ce rw' cn sm
  refine ⟨?_, ?_, ?_, ?_, ?_, ?_⟩
  · rintro _ _ rfl rfl
    exact ⟨by simp [queue, qs], by simp [wk, busy],
      by simp [ce], by simp [rw', ns], by simp [busy], st⟩
  · rw [Processor.held_busy busy, Processor.held_busy (by simp [ht]), num, queue]
    simp [Processor.storing, ht]
  · rw [queue]
  · rw [sm]
    simp only [Processor.summed, Processor.adding, ht, addr, LayerJob.inputUses_succ]
    simp only [reduceCtorEq, if_false, add_zero]
    rw [add_comm, Multiset.singleton_add]
  · simp [cn, Processor.storing, ht]
  · left
    rw [Processor.work, tw, queue]
    simp only [Processor.work, Processor.threadWork, ht, List.length_append, Nat.mul_add]
    omega

omit start size in
/-- A processor between the two `wait()`s behind an address, or behind the bias. -/
lemma ProcInv.step_wait (hwd : w.weightDataI = wd)
    (ht : (∃ i, p.thread = .inputAddr i) ∨ p.thread = .biasAddr ∨ p.thread = .biasWait) :
    ProcStep job p (q.process w) f new := by
  have stage := inv.stage
  have queue := fed.queue
  have contr : q.contrEmptyO = false := by
    rw [fed.contr]
    rcases ht with ⟨i, ht⟩ | ht | ht <;> simp [ht]
  rcases ht with ⟨i, ht⟩ | ht | ht <;> simp only [Stage, ht] at stage <;>
    simp only [Processor.process, fed.thread, ht]
  case inl =>
    obtain ⟨lt, sum, addr, prev⟩ := stage
    refine ⟨?_, ?_, ?_, ?_, ?_, ?_⟩
    · rintro _ _ rfl rfl
      refine ⟨by simp [fed.queueSizeO], by simp [fed.working, ht],
        by simp [contr], by simp [fed.write, ht], by simp, ?_⟩
      exact ⟨lt, by rw [fed.sum, fed.number, sum], by rw [fed.number, addr], rfl, by rw [prev]⟩
    · rw [Processor.held_busy (by simp), Processor.held_busy (by simp [ht])]
      simp [Processor.storing, ht, queue, fed.number]
    · rw [queue]
    · simp [Processor.summed, Processor.adding, ht, fed.number]
    · simp [Processor.storing, ht, fed.count]
    · left
      simp only [Processor.work, queue, Processor.threadWork, ht, List.length_append, Nat.mul_add]
      omega
  case inr.inl =>
    obtain ⟨sum, addr⟩ := stage
    refine ⟨?_, ?_, ?_, ?_, ?_, ?_⟩
    · rintro _ _ rfl rfl
      refine ⟨by simp [fed.queueSizeO], by simp [fed.working, ht],
        by simp [contr], by simp [fed.write, ht], by simp, ?_⟩
      exact ⟨by rw [fed.sum, fed.number, sum], by rw [fed.number, addr], rfl⟩
    · rw [Processor.held_busy (by simp), Processor.held_busy (by simp [ht])]
      simp [Processor.storing, ht, queue, fed.number]
    · rw [queue]
    · simp [Processor.summed, Processor.adding, ht, fed.number]
    · simp [Processor.storing, ht, fed.count]
    · left
      simp only [Processor.work, queue, Processor.threadWork, ht, List.length_append, Nat.mul_add]
      omega
  case inr.inr =>
    obtain ⟨sum, addr, hw⟩ := stage
    refine ⟨?_, ?_, ?_, ?_, ?_, ?_⟩
    · rintro _ _ rfl rfl
      refine ⟨by simp [fed.queueSizeO], by simp [fed.working, ht],
        by simp [contr], by simp, by simp, rfl, ?_⟩
      simp [LayerJob.result, fed.sum, fed.number, sum, hwd, hw, addr]
    · rw [Processor.held_busy (by simp), Processor.held_busy (by simp [ht])]
      simp [Processor.storing, ht, queue, fed.number]
    · rw [queue]
    · simp only [Processor.summed, Processor.adding, ht, fed.number, LayerJob.uses, addr]
      simp only [reduceCtorEq, if_false, add_zero]
      rw [add_comm, Multiset.singleton_add]
    · simp [Processor.storing, ht, fed.count]
    · left
      simp only [Processor.work, queue, Processor.threadWork, ht, List.length_append, Nat.mul_add]
      omega

/-- A processor keeps its invariant: it loses no neuron and makes progress at every edge. -/
lemma ProcInv.step (hwd : w.weightDataI = wd) (hpd : w.prevmemDataI = pd) :
    ProcStep job p (q.process w) f new := by
  cases ht : p.thread with
  | start | waitQueue =>
    have h := inv.step_idle fed start size (by rw [ht]; rfl)
    simpa only [Processor.process, fed.thread, ht] using h
  | inputAddr i => exact inv.step_wait fed hwd (.inl ⟨i, ht⟩)
  | inputWait i =>
    have h := inv.step_inputWait fed start size hwd hpd ht
    simpa only [Processor.process, fed.thread, ht] using h
  | biasAddr => exact inv.step_wait fed hwd (.inr (.inl ht))
  | biasWait => exact inv.step_wait fed hwd (.inr (.inr ht))
  | store =>
    have h := fed.step_store (f := f) start size ht
    simpa only [Processor.process, fed.thread, ht] using h

end Step

end NnProcessor.Invariant
