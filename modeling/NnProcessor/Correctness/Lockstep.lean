import NnProcessor.Correctness.Bounds
import NnProcessor.Invariant.Load

/-!
# Every order of the processes is cycle exact

Two simulations of one configuration, with any orders of the processes in their edges and any words
on the heap, are in the same state at every edge, but for the registers that nobody reads at that
edge (`cycle_exact`). The races between the methods of a storage move what the storage issues by one
edge; that nothing else moves is stronger than that the output is the same: the same processor
computes the same neuron at the same edge.
-/

namespace NnProcessor.Model

variable {F : Type}

/-- The input loop reads the parameters of its layer. -/
lemma Processor.inputLoop_congr {w w' : ProcessorIn F}
    (start : w.contrStartWeightAddressI = w'.contrStartWeightAddressI)
    (size : w.prevmemSizeI = w'.prevmemSizeI) (i : Nat) (m : Processor F) :
    m.inputLoop i w = m.inputLoop i w' := by
  unfold Processor.inputLoop
  rw [start, size]

variable [Binary32Ops F]

/-- The inputs a processor reads at an edge: the parameters of the layer when it computes or takes a
neuron, and the words for the addresses it has sent. -/
structure Processor.SameInputs (m : Processor F) (w w' : ProcessorIn F) : Prop where
  layer : m.thread ≠ .start ∧ m.thread ≠ .waitQueue ∨ m.queueNnNumber ≠ [] →
    w.contrStartWeightAddressI = w'.contrStartWeightAddressI ∧ w.prevmemSizeI = w'.prevmemSizeI
  input : ∀ i, m.thread = .inputWait i → w.prevmemDataI = w'.prevmemDataI
  weight : (∃ i, m.thread = .inputWait i) ∨ m.thread = .biasWait →
    w.weightDataI = w'.weightDataI

/-- A processor depends on no other input. -/
lemma Processor.process_congr {m : Processor F} {w w' : ProcessorIn F}
    (same : m.SameInputs w w') : m.process w = m.process w' := by
  have take : ∀ p : Processor F, (p.queueNnNumber ≠ [] →
      w.contrStartWeightAddressI = w'.contrStartWeightAddressI ∧
        w.prevmemSizeI = w'.prevmemSizeI) → p.takeNeuron w = p.takeNeuron w' := by
    intro p layer
    unfold Processor.takeNeuron
    cases queue : p.queueNnNumber with
    | nil => rfl
    | cons x rest =>
      obtain ⟨start, size⟩ := layer (by simp [queue])
      exact Processor.inputLoop_congr start size _ _
  unfold Processor.process
  cases ht : m.thread with
  | start | waitQueue => exact take m fun queue => same.layer (.inr queue)
  | store => exact take _ fun _ => same.layer (.inl (by simp [ht]))
  | inputAddr | biasAddr => rfl
  | inputWait i =>
    obtain ⟨start, size⟩ := same.layer (.inl (by simp [ht]))
    simp only [same.input i ht, same.weight (.inl ⟨i, ht⟩)]
    exact Processor.inputLoop_congr start size _ _
  | biasWait => simp only [same.weight (.inr ht)]

end NnProcessor.Model

namespace NnProcessor.Edge
open NnProcessor.Model NnProcessor.Kernel

variable {hw : Hw} {F : Type} [Binary32Ops F] [DecidableEq F]
variable (cfg : Config F) (sch : Schedule hw) {s : System hw F}

/-- The edge that stops the simulation leaves the output of `END_REDUCER` as it is. -/
lemma edge_cycleEnded_stop (go : s.stopped = false) (stop : (s.edge cfg sch).stopped = true) :
    (s.edge cfg sch).cycleEnded = s.cycleEnded := by
  have threads := evaluate_proj (Thread.exec cfg s.wires) System.cycleEnded (fun _ b => b)
    (by rintro (_ | _) a <;> rfl) sch.threads (s.methodPhase sch)
  have methods := evaluate_proj (Method.exec s.wires) System.cycleEnded (fun _ b => b)
    (by rintro (_ | _) a <;> rfl) sch.methods s
  rw [evaluate_inert fun _ _ _ => rfl] at threads methods
  obtain ⟨b, eq⟩ := settle_eq (threadPhase cfg sch s)
  rw [edge_running cfg sch go] at stop ⊢
  have st : (threadPhase cfg sch s).stopped = true := by
    rw [eq] at stop
    exact stop
  rw [System.settle, if_pos st]
  exact threads.trans methods

end NnProcessor.Edge

namespace NnProcessor.Invariant
open NnProcessor.Arith NnProcessor.Model NnProcessor.Edge

variable {hw : Hw} {F : Type}

section Units

variable [Binary32Ops F]

omit [Binary32Ops F] in
/-- A processor at rest reads nothing. -/
lemma ProcIdle.sameInputs {p : Processor F} (idle : ProcIdle p) (queueSize k a d : Nat)
    (w w' : ProcessorIn F) : (p.addToQueue queueSize k a d false).SameInputs w w' := by
  have thread : (p.addToQueue queueSize k a d false).thread = p.thread := by
    simp [Processor.addToQueue]
  have queue : (p.addToQueue queueSize k a d false).queueNnNumber = [] := by
    simp [Processor.addToQueue, idle.queue]
  have rest := idle.thread
  constructor
  · rw [thread, queue]
    rintro (⟨start, wait⟩ | more)
    · cases ht : p.thread <;> simp_all
    · exact absurd rfl more
  · intro i at_
    rw [← thread, at_] at rest
    cases rest
  · rw [thread]
    rintro (⟨i, at_⟩ | at_) <;> rw [at_] at rest <;> cases rest

/-- Two processors that stand at the same `wait()` of one layer read the same words. -/
lemma ProcInv.sameInputs {job : LayerJob F} {p q : Processor F} {wd pd wd' pd' : F} {f : Int}
    (inv : ProcInv job p wd pd f) (inv' : ProcInv job p wd' pd' f) (thread : q.thread = p.thread)
    {w w' : ProcessorIn F}
    (start : w.contrStartWeightAddressI = w'.contrStartWeightAddressI)
    (size : w.prevmemSizeI = w'.prevmemSizeI) (weight : w.weightDataI = wd)
    (input : w.prevmemDataI = pd) (weight' : w'.weightDataI = wd')
    (input' : w'.prevmemDataI = pd') : q.SameInputs w w' := by
  have stage := inv.stage
  have stage' := inv'.stage
  rw [← weight, ← input] at stage
  rw [← weight', ← input'] at stage'
  constructor
  · exact fun _ => ⟨start, size⟩
  · intro i at_
    rw [thread] at at_
    simp only [Stage, at_] at stage stage'
    exact stage.2.2.2.2.trans stage'.2.2.2.2.symm
  · rw [thread]
    rintro (⟨i, at_⟩ | at_) <;> simp only [Stage, at_] at stage stage'
    · exact stage.2.2.2.1.trans stage'.2.2.2.1.symm
    · exact stage.2.2.trans stage'.2.2.symm

/-- A generator at rest only reads its start pulse. -/
lemma GenIdle.generate_eq {n : Nat} {g : Generator} (idle : GenIdle g) (pos : 0 < n)
    (queueSize : Nat) (start : Bool) (layerSize : Int) (q : Fin n → Nat) :
    g.generate pos queueSize start layerSize q = g.switchState start := by
  rcases idle.thread with h | h <;> simp [Generator.generate, h]

end Units

variable [Binary32 F] {cfg : Config F}

/-- The word on the bus in front of the threads is the same. -/
lemma BusDriven.unique {ph : Phase} {old new new' : IoBus F} (driven : BusDriven cfg ph old new)
    (driven' : BusDriven cfg ph old new') : new = new' := by
  cases ph with
  | output k =>
    simp only [BusDriven] at driven driven'
    split at driven
    · next more =>
      rw [if_pos more] at driven'
      have data := driven.2.symm.trans driven'.2
      cases new
      cases new'
      simp_all
    · next none =>
      rw [if_neg none] at driven'
      exact driven.trans driven'.symm
  | load | savePrev | nextLayer | startGenerator | settle | compute | clear | startClone
  | copyFirst | copying | cloned | writeOut | stopped => exact driven.trans driven'.symm

end NnProcessor.Invariant

namespace NnProcessor.Correctness
open NnProcessor.Arith NnProcessor.Model NnProcessor.Edge NnProcessor.Invariant

variable {hw : Hw} {F : Type}

/-- The state of `NEXT_LAYER`, but for the slots. -/
structure SameSlots (m m' : NextLayer F) : Prop where
  index : m.index = m'.index
  dataO : m.dataO = m'.dataO
  overrun : m.overrun = m'.overrun

namespace SameSlots

variable {m m' : NextLayer F} (same : SameSlots m m')
include same

/-- Writing the same words keeps the rest of the state the same. -/
lemma addToMemory {n : Nat} (memSize : Nat) (w : Fin n → Bool) (addr : Fin n → Nat)
    (data : Fin n → F) :
    SameSlots (m.addToMemory memSize w addr data) (m'.addToMemory memSize w addr data) := by
  refine Kernel.evaluate_rel (R := SameSlots) (fun k a b r => ?_) (List.finRange n) same
  unfold NextLayer.store
  split
  · exact ⟨rfl, r.dataO, by rw [r.overrun]⟩
  · exact r

/-- Issuing the same word keeps the rest of the state the same. -/
lemma issueElement (memSize : Nat) {next : Bool}
    (word : next = true → m.memory m.index = m'.memory m'.index) :
    SameSlots (m.issueElement memSize next) (m'.issueElement memSize next) := by
  cases next with
  | false => exact same
  | true =>
    constructor
    · exact congrArg (· + 1) same.index
    · exact word rfl
    · simp only [NextLayer.issueElement, if_true, same.index, same.overrun]

end SameSlots

/-- Two states that differ at most in what the storages issue, in the register behind
`PREVIOUS_LAYER_SIZE`, and in the slots of `NEXT_LAYER` that still hold the words `junk` and `junk'`
of the heap. -/
structure SameState (junk junk' : Nat → F) (s s' : System hw F) : Prop where
  io : s.io = s'.io
  bus : s.bus = s'.bus
  controller : s.controller = s'.controller
  layers : s.layersStorage.memory = s'.layersStorage.memory ∧
    s.layersStorage.index = s'.layersStorage.index
  weights : s.weightStorage.memory = s'.weightStorage.memory
  previous : s.previousLayer.memory = s'.previousLayer.memory ∧
    s.previousLayer.indexToOut = s'.previousLayer.indexToOut
  stopped : s.stopped = s'.stopped
  copy : s.previousLayerController = s'.previousLayerController
  generator : s.generator = s'.generator
  processors : s.processors = s'.processors
  next : SameSlots s.nextLayer s'.nextLayer
  slots : ∀ x, s.nextLayer.memory x = s'.nextLayer.memory x ∨
    s.nextLayer.memory x = junk x ∧ s'.nextLayer.memory x = junk' x
  cycleEnded : s.cycleEnded = s'.cycleEnded

variable [Binary32 F] [DecidableEq F] {cfg : Config F}

/-- Two runs side by side: what is not given by the phase. -/
structure Lockstep (cfg : Config F) (env env' : Env hw F) (t : Nat) : Prop where
  phase : phaseAt cfg env t = phaseAt cfg env' t
  io : (run cfg env t).io = (run cfg env' t).io
  bus : (run cfg env t).bus = (run cfg env' t).bus
  generator : (run cfg env t).generator = (run cfg env' t).generator
  processors : ∀ k, (run cfg env t).processors k = (run cfg env' t).processors k
  cycleEnded : (run cfg env t).cycleEnded = (run cfg env' t).cycleEnded
  next : SameSlots (run cfg env t).nextLayer (run cfg env' t).nextLayer
  fetched : (history cfg env t).fetched = (history cfg env' t).fetched
  stored : (history cfg env t).stored = (history cfg env' t).stored

namespace Lockstep

variable {env env' : Env hw F} {t : Nat} (lock : Lockstep cfg env env' t)
variable (finite : ∀ x ∈ cfg.results, ¬IsInfinite x)

/-- Both simulations start in the same state. -/
lemma zero : Lockstep cfg env env' 0 := by
  have bus : ∀ (boot : Schedule hw) (junk : Nat → F),
      (System.initialized boot junk : System hw F).bus = { data := ofInt 0, wr := false } :=
    fun boot junk =>
      (methodPhase_previousLayer_add boot (System.elaborated junk : System hw F) rfl rfl).2.2.2
  have io : ∀ (boot : Schedule hw) (junk : Nat → F),
      (System.initialized boot junk : System hw F).io = {} := fun boot junk =>
    (methodPhase_io boot (System.elaborated junk)).trans (readData_quiet (.inr rfl))
  constructor
  · rfl
  · rw [run, run, io, io]
  · rw [run, run, bus, bus]
  · rw [run, run, initialized_generator, initialized_generator]
  · intro k
    rw [run, run, initialized_processor, initialized_processor]
  · rfl
  · rw [run, run, initialized_nextLayer, initialized_nextLayer]
    exact ⟨rfl, rfl, rfl⟩
  · rfl
  · rfl

include lock finite

/-- The controller and `PREVIOUS_LAYER_CONTROLLER` stand where the phase says. -/
lemma control : (run cfg env t).controller = (run cfg env' t).controller ∧
    (run cfg env t).previousLayerController = (run cfg env' t).previousLayerController := by
  have inv := mainInv_run cfg env finite t
  have inv' := mainInv_run cfg env' finite t
  rw [inv.controller, inv'.controller, inv.copy, inv'.copy, lock.phase]
  exact ⟨rfl, rfl⟩

/-- While a layer is computed the processors see the same words, and otherwise they rest. -/
lemma sameInputs (k : Fin hw.countPcUnit) :
    (((run cfg env t).processors k).addToQueue hw.queueSize k (run cfg env t).generator.addressO
        (run cfg env t).generator.dataO (run cfg env t).generator.wO).SameInputs
      ((run cfg env t).wires.processorIn k) ((run cfg env' t).wires.processorIn k) := by
  have inv := mainInv_run cfg env finite t
  have inv' := mainInv_run cfg env' finite t
  rw [← lock.phase] at inv'
  rcases inv.units_or_rest inv' with ⟨i, -, ⟨units, wires⟩, units', wires'⟩ | ⟨idle, -⟩
  · have proc' := units'.processor k
    rw [← lock.processors k, ← lock.fetched] at proc'
    exact (units.processor k).sameInputs proc' (units.fed k).thread
      (wires.start.trans wires'.start.symm) (wires.size.trans wires'.size.symm) rfl rfl rfl rfl
  · rw [idle.generator.quiet]
    exact (idle.processor k).sameInputs _ _ _ _ _ _

/-- The generators do the same. -/
lemma generate_eq : (run cfg env t).generator.generate hw.countPcUnit_pos hw.queueSize
      (run cfg env t).controller.startGeneratorO (run cfg env t).layersStorage.dataO
      (fun k => ((run cfg env t).processors k).queueSizeO) =
    (run cfg env' t).generator.generate hw.countPcUnit_pos hw.queueSize
      (run cfg env' t).controller.startGeneratorO (run cfg env' t).layersStorage.dataO
      fun k => ((run cfg env' t).processors k).queueSizeO := by
  have inv := mainInv_run cfg env finite t
  have inv' := mainInv_run cfg env' finite t
  rw [← lock.phase] at inv'
  rw [← (lock.control finite).1, ← lock.generator]
  simp only [← lock.processors]
  rcases inv.units_or_rest inv' with ⟨i, -, ⟨-, wires⟩, -, wires'⟩ | ⟨idle, -⟩
  · rw [wires.width, wires'.width]
  · rw [idle.generator.generate_eq, idle.generator.generate_eq]

omit finite in
/-- The controllers begin their layer iterations together. -/
lemma step_stored (controller : (run cfg env (t + 1)).controller = (run cfg env' (t + 1)).controller) :
    (history cfg env (t + 1)).stored = (history cfg env' (t + 1)).stored := by
  simp only [history, History.observe]
  rw [controller, lock.stored]
  simp only [lock.processors]

/-- The results are stored, and cloned, together. -/
lemma step_next (running : phaseAt cfg env t ≠ .stopped) :
    SameSlots (run cfg env (t + 1)).nextLayer (run cfg env' (t + 1)).nextLayer := by
  have inv := mainInv_run cfg env finite t
  have inv' := mainInv_run cfg env' finite t
  rw [← lock.phase] at inv'
  change SameSlots ((run cfg env t).edge cfg (env.sched t)).nextLayer
    ((run cfg env' t).edge cfg (env'.sched t)).nextLayer
  rcases inv.units_or_rest inv' with ⟨i, -, ⟨-, wires⟩, -, wires'⟩ | ⟨idle, idle'⟩
  · rw [wires.nextLayer (env.sched t), wires'.nextLayer (env'.sched t)]
    simp only [← lock.processors]
    exact lock.next.addToMemory _ _ _ _
  · rw [idle.step_nextLayer cfg (env.sched t) (inv.go running),
      idle'.step_nextLayer cfg (env'.sched t) (inv'.go running), ← (lock.control finite).2]
    refine lock.next.issueElement _ fun next => ?_
    obtain ⟨i, layer, word⟩ := inv.clone_word next
    obtain ⟨j, layer', word'⟩ := inv'.clone_word ((lock.control finite).2 ▸ next)
    obtain rfl : i = j := Option.some.inj (layer.symm.trans layer')
    rw [word, word', lock.next.index]

omit lock in
/-- What the methods leave on the bus. -/
lemma driven {t : Nat} {env : Env hw F} (running : phaseAt cfg env t ≠ .stopped) :
    BusDriven cfg (phaseAt cfg env t) (run cfg env t).bus
      ((run cfg env t).methodPhase (env.sched t)).bus := by
  have inv := mainInv_run cfg env finite t
  have slot : ∀ i j, phaseAt cfg env t = .copying i j →
      (run cfg env t).nextLayer.dataO = (cfg.job i).result j := by
    intro i j at_
    rw [at_] at inv
    exact inv.slots.2.1
  exact (previous_step (env.sched t) inv.previous inv.copy inv.bus inv.valid running
    (inv.go running) slot false).2

/-- One edge of both simulations. -/
lemma step : Lockstep cfg env env' (t + 1) := by
  have inv := mainInv_run cfg env finite t
  have inv' := mainInv_run cfg env' finite t
  have phase : phaseAt cfg env (t + 1) = phaseAt cfg env' (t + 1) := by
    rw [phaseAt, phaseAt, lock.phase, lock.cycleEnded]
  have fetched : (history cfg env (t + 1)).fetched = (history cfg env' (t + 1)).fetched := by
    funext k
    exact congrArg Processor.weightAddrO (lock.processors k)
  have controller : (run cfg env (t + 1)).controller = (run cfg env' (t + 1)).controller := by
    rw [(mainInv_run cfg env finite (t + 1)).controller,
      (mainInv_run cfg env' finite (t + 1)).controller, phase]
  by_cases running : phaseAt cfg env t = .stopped
  · have st : (run cfg env t).stopped = true := by
      rw [System.stopped, inv.previous.stopped, running]
      rfl
    have st' : (run cfg env' t).stopped = true := by
      rw [System.stopped, inv'.previous.stopped, ← lock.phase, running]
      rfl
    have eq : run cfg env (t + 1) = run cfg env t := edge_stopped cfg (env.sched t) st
    have eq' : run cfg env' (t + 1) = run cfg env' t := edge_stopped cfg (env'.sched t) st'
    constructor
    · exact phase
    · rw [eq, eq', lock.io]
    · rw [eq, eq', lock.bus]
    · rw [eq, eq', lock.generator]
    · intro k
      rw [eq, eq', lock.processors k]
    · rw [eq, eq', lock.cycleEnded]
    · rw [eq, eq']
      exact lock.next
    · exact fetched
    · exact lock.step_stored controller
  · have running' : phaseAt cfg env' t ≠ .stopped := lock.phase ▸ running
    have go := inv.go running
    have go' := inv'.go running'
    have io_bus : ((run cfg env (t + 1)).io, (run cfg env (t + 1)).bus) =
        ((run cfg env' (t + 1)).io, (run cfg env' (t + 1)).bus) := by
      have one := driven finite running
      have other := driven finite running'
      rw [← lock.phase, ← lock.bus] at other
      refine (edge_io_bus cfg (env.sched t) go).trans
        (Eq.trans ?_ (edge_io_bus cfg (env'.sched t) go').symm)
      rw [one.unique other, lock.io, lock.bus]
    have generator : (run cfg env (t + 1)).generator = (run cfg env' (t + 1)).generator :=
      (edge_generator cfg (env.sched t) go).trans
        ((lock.generate_eq finite).trans (edge_generator cfg (env'.sched t) go').symm)
    have processors : ∀ k,
        (run cfg env (t + 1)).processors k = (run cfg env' (t + 1)).processors k := by
      intro k
      refine (edge_processor cfg (env.sched t) go k).trans
        (Eq.trans ?_ (edge_processor cfg (env'.sched t) go' k).symm)
      rw [Processor.process_congr (lock.sameInputs finite k), lock.processors k, lock.generator]
    have next := (mainInv_run cfg env finite (t + 1)).previous.stopped
    have next' := (mainInv_run cfg env' finite (t + 1)).previous.stopped
    rw [← phase] at next'
    have cycleEnded : (run cfg env (t + 1)).cycleEnded = (run cfg env' (t + 1)).cycleEnded := by
      cases stop : decide (phaseAt cfg env (t + 1) = .stopped) with
      | true =>
        rw [stop] at next next'
        exact (edge_cycleEnded_stop cfg (env.sched t) go next).trans
          (lock.cycleEnded.trans (edge_cycleEnded_stop cfg (env'.sched t) go' next').symm)
      | false =>
        rw [stop] at next next'
        refine (edge_cycleEnded cfg (env.sched t) go next).trans
          (Eq.trans ?_ (edge_cycleEnded cfg (env'.sched t) go' next').symm)
        change reduce (run cfg env (t + 1)).generator.endGenerateO
            (fun k => ((run cfg env (t + 1)).processors k).contrEmptyO) =
          reduce (run cfg env' (t + 1)).generator.endGenerateO
            fun k => ((run cfg env' (t + 1)).processors k).contrEmptyO
        simp only [generator, processors]
    exact ⟨phase, congrArg Prod.fst io_bus, congrArg Prod.snd io_bus, generator, processors,
      cycleEnded, lock.step_next finite running, fetched, lock.step_stored controller⟩

end Lockstep

/-- Two simulations of one configuration run side by side. -/
lemma lockstep_run (finite : ∀ x ∈ cfg.results, ¬IsInfinite x) (env env' : Env hw F) (t : Nat) :
    Lockstep cfg env env' t := by
  induction t with
  | zero => exact Lockstep.zero
  | succ t ih => exact ih.step finite

omit [DecidableEq F] in
/-- Slots with the same results differ in the words of the heap only. -/
lemma slotAt_heap (junk junk' : Nat → F) (ph : Phase) (stored : Multiset Nat) (x : Nat) :
    cfg.slotAt junk ph stored x = cfg.slotAt junk' ph stored x ∨
      cfg.slotAt junk ph stored x = junk x ∧ cfg.slotAt junk' ph stored x = junk' x := by
  have before : ∀ i, cfg.slotBefore junk i x = cfg.slotBefore junk' i x ∨
      cfg.slotBefore junk i x = junk x ∧ cfg.slotBefore junk' i x = junk' x := by
    intro i
    induction i with
    | zero => exact .inr ⟨rfl, rfl⟩
    | succ i ih =>
      simp only [Config.slotBefore]
      split
      · exact .inl rfl
      · exact ih
  unfold Config.slotAt
  split
  · split
    · exact .inl rfl
    · exact before _
  · split
    · exact .inr ⟨rfl, rfl⟩
    · exact before _

/-- Two simulations of one configuration are in the same state in front of every edge. -/
lemma sameState_run (finite : ∀ x ∈ cfg.results, ¬IsInfinite x) (env env' : Env hw F) (t : Nat) :
    SameState env.junk env'.junk (run cfg env t) (run cfg env' t) := by
  have lock := lockstep_run finite env env' t
  have inv := mainInv_run cfg env finite t
  have inv' := mainInv_run cfg env' finite t
  rw [← lock.phase] at inv'
  constructor
  · exact lock.io
  · exact lock.bus
  · exact (lock.control finite).1
  · exact ⟨inv.layers.memory.trans inv'.layers.memory.symm,
      inv.layers.index.trans inv'.layers.index.symm⟩
  · exact inv.weights.trans inv'.weights.symm
  · exact ⟨inv.previous.memory.trans inv'.previous.memory.symm,
      inv.previous.out.trans inv'.previous.out.symm⟩
  · exact inv.previous.stopped.trans inv'.previous.stopped.symm
  · exact (lock.control finite).2
  · exact lock.generator
  · exact funext lock.processors
  · exact lock.next
  · intro x
    rw [slots_run env finite, slots_run env' finite, ← lock.phase, ← lock.stored]
    exact slotAt_heap _ _ _ _ x
  · exact lock.cycleEnded

/-- **Cycle exactness.** Whatever the orders of the processes and the words on the heap, two
simulations of a configuration of `Config.Inside` are in the same state in front of every edge, but
for what the storages issue and for the slots of `NEXT_LAYER` that have not been written, and neither
has left the memory. -/
theorem cycle_exact (inside : cfg.Inside hw) (env env' : Env hw F)
    (picture : cfg.layers.length ≤ 1 → ∀ x ∈ cfg.picture, ¬IsInfinite x) (t : Nat) :
    SameState env.junk env'.junk (run cfg env t) (run cfg env' t) ∧
      InBounds (run cfg env t) ∧ InBounds (run cfg env' t) := by
  have finite := finite_results cfg picture
  exact ⟨sameState_run finite env env' t, inBounds_run finite inside env t,
    inBounds_run finite inside env' t⟩

/-- Three neurons have stored the same results in front of the edge 25, whatever is on the heap. -/
theorem cycle_exact_three :
    SameState listedEnv.junk (fun _ => .finite 0) (run threeNeurons listedEnv 25)
        (run threeNeurons (.listed .configH (.finite 0)) 25) ∧
      InBounds (run threeNeurons listedEnv 25) ∧
      InBounds (run threeNeurons (.listed .configH (.finite 0)) 25) :=
  cycle_exact ⟨threeNeurons_bounded.domain, by decide, by decide⟩ listedEnv
    (.listed .configH (.finite 0)) (fun one => absurd one (by decide)) 25

end NnProcessor.Correctness
