import NnProcessor.Model.System

/-!
# A system without its words

`System.erase` forgets every `float` of a state and keeps everything else: the states of the
modules, the queues, the indices and addresses, the write enables and the lengths of the memories.
Most processes act on what is kept in the same way whatever the words are: they commute with
`erase`. The others are the ones that look at a word of the shared bus, and they do the same to two
states whose words they take for the same (`SameWord`).
-/

namespace NnProcessor.Model
open NnProcessor.Arith NnProcessor.Kernel

/-- The words that are left when their values are forgotten. -/
instance : Binary32Ops Unit where
  ofInt _ := ()
  toInt _ := 0
  add _ _ := ()
  mul _ _ := ()
  div _ _ := ()
  neg _ := ()
  exp _ := ()
  ge _ _ := false
  infinity := ()

variable {hw : Hw} {F : Type} {n : Nat}

/-- The configuration without the values of its picture and its weights. -/
def Config.erase (cfg : Config F) : Config Unit where
  layers := cfg.layers
  weights := cfg.weights.map fun _ => ()
  picture := cfg.picture.map fun _ => ()
  layersCount_lt := cfg.layersCount_lt
  layers_fit := cfg.layers_fit

/-- A `wait()` of `IO::write_data_to_system` without the values it still has to send. -/
def WriteThread.erase : WriteThread F → WriteThread Unit
  | .start => .start
  | .sentMarker => .sentMarker
  | .sentCount => .sentCount
  | .layers rest => .layers rest
  | .picture rest => .picture (rest.map fun _ => ())
  | .weights rest => .weights (rest.map fun _ => ())
  | .sentStart => .sentStart
  | .finished => .finished

/-- `IO` without the values it sends and prints. -/
def IoModule.erase (m : IoModule F) : IoModule Unit where
  counter := m.counter
  transmit := m.transmit
  thread := m.thread.erase
  addrO := m.addrO
  printed := m.printed.map fun line => (line.1, ())

/-- The shared bus without its word. -/
def IoBus.erase (bus : IoBus F) : IoBus Unit where
  data := ()
  wr := bus.wr

/-- `WEIGHT_STORAGE` without the values of its words. -/
def WeightStorage.erase (m : WeightStorage F n) : WeightStorage Unit n where
  memory := m.memory.map fun _ => ()
  dataOutBusO _ := ()

/-- `PREVIOUS_LAYER` without the values of its words. -/
def PreviousLayer.erase (m : PreviousLayer F n) : PreviousLayer Unit n where
  memory := m.memory.map fun _ => ()
  indexToOut := m.indexToOut
  dataPcBusO _ := ()
  stopped := m.stopped

/-- `NEXT_LAYER` without the values of its words. -/
def NextLayer.erase (m : NextLayer F) : NextLayer Unit where
  memory _ := ()
  index := m.index
  dataO := ()
  overrun := m.overrun

/-- `PROCESSOR` without its sum and its result. -/
def Processor.erase (m : Processor F) : Processor Unit where
  isWorking := m.isWorking
  queueNnNumber := m.queueNnNumber
  countNeuronsCalc := m.countNeuronsCalc
  thread := m.thread
  sumReg := ()
  numberOfNn := m.numberOfNn
  queueSizeO := m.queueSizeO
  contrEmptyO := m.contrEmptyO
  resmemAddrO := m.resmemAddrO
  resmemDataO := ()
  resmemWO := m.resmemWO
  prevmemAddrO := m.prevmemAddrO
  weightAddrO := m.weightAddrO

/-- The system without the values of its words. -/
def System.erase (s : System hw F) : System hw Unit where
  io := s.io.erase
  bus := s.bus.erase
  controller := s.controller
  layersStorage := s.layersStorage
  weightStorage := s.weightStorage.erase
  previousLayer := s.previousLayer.erase
  previousLayerController := s.previousLayerController
  previousLayerSize := s.previousLayerSize
  generator := s.generator
  processors k := (s.processors k).erase
  nextLayer := s.nextLayer.erase
  cycleEnded := s.cycleEnded

/-- What `IO` prints is no part of its control. -/
lemma IoModule.readDataFromSystem_erase (data : F) (wr : Bool) (m : IoModule F) :
    (m.readDataFromSystem data wr).erase = m.erase.readDataFromSystem () wr := by
  unfold IoModule.readDataFromSystem
  by_cases h : (!m.transmit && wr) = true
  · simp [IoModule.erase, h]
  · simp [IoModule.erase, h]

/-- The number of weights does not depend on their values. -/
lemma WeightStorage.addToMemory_erase (addr : Int) (data : F) (wr : Bool)
    (m : WeightStorage F n) :
    (m.addToMemory addr data wr).erase = m.erase.addToMemory addr () wr := by
  unfold WeightStorage.addToMemory
  by_cases h : addr = 3 ∧ wr = true
  · simp [WeightStorage.erase, h]
  · simp [WeightStorage.erase, h]

/-- The number of inputs does not depend on their values. -/
lemma PreviousLayer.addToMem_erase (addr : Int) (data : F) (wr copy : Bool) (word : F)
    (m : PreviousLayer F n) :
    (m.addToMem addr data wr copy word).erase = m.erase.addToMem addr () wr copy () := by
  rw [PreviousLayer.addToMem_eq, PreviousLayer.addToMem_eq]
  unfold PreviousLayer.arriving
  split_ifs
  · simp [PreviousLayer.erase]
  · simp [PreviousLayer.erase]
  · simp [PreviousLayer.erase]
  · simp [PreviousLayer.erase]

/-- The storage is cleared whatever it holds. -/
lemma PreviousLayer.clear_erase (clr : Bool) (m : PreviousLayer F n) :
    (m.clear clr).erase = m.erase.clear clr := by
  unfold PreviousLayer.clear
  split
  · rfl
  · rfl

/-- The slot that is issued does not depend on its word. -/
lemma NextLayer.issueElement_erase (memSize : Nat) (next : Bool) (m : NextLayer F) :
    (m.issueElement memSize next).erase = m.erase.issueElement memSize next := by
  unfold NextLayer.issueElement
  split
  · rfl
  · rfl

/-- The slot that is written does not depend on the word. -/
lemma NextLayer.store_erase (memSize : Nat) (w : Bool) (addr : Nat) (data : F) (m : NextLayer F) :
    (m.store memSize w addr data).erase = m.erase.store memSize w addr () := by
  unfold NextLayer.store
  split
  · simp [NextLayer.erase]
  · rfl

/-- The slots that are written do not depend on the words. -/
lemma NextLayer.addToMemory_erase (memSize : Nat) (w : Fin n → Bool) (addr : Fin n → Nat)
    (data : Fin n → F) (m : NextLayer F) :
    (m.addToMemory memSize w addr data).erase =
      m.erase.addToMemory memSize w addr fun _ => () := by
  unfold NextLayer.addToMemory
  rw [List.foldl_hom]
  intro m i
  exact (NextLayer.store_erase memSize (w i) (addr i) (data i) m).symm

/-- The queue of a processor takes no words. -/
lemma Processor.addToQueue_erase (queueSize address queueAddress queueData : Nat) (write : Bool)
    (m : Processor F) :
    (m.addToQueue queueSize address queueAddress queueData write).erase =
      m.erase.addToQueue queueSize address queueAddress queueData write := by
  unfold Processor.addToQueue
  by_cases h : queueAddress = address ∧ write = true ∧ m.queueNnNumber.length < queueSize
  · simp [Processor.erase, h]
  · simp [Processor.erase, h]

variable [Binary32Ops F]

/-- The results are sent back whatever they are. -/
lemma PreviousLayer.issueElementIo_erase (out : Bool) (m : PreviousLayer F n × IoBus F) :
    ((PreviousLayer.issueElementIo out m).1.erase, (PreviousLayer.issueElementIo out m).2.erase) =
      PreviousLayer.issueElementIo out (m.1.erase, m.2.erase) := by
  unfold PreviousLayer.issueElementIo
  simp only [PreviousLayer.erase, List.length_map]
  split
  · split
    · rfl
    · rfl
  · rfl

/-- The weights are sent whatever they are. -/
lemma IoModule.sendWeights_erase (rest : List F) (m : IoModule F × IoBus F) :
    ((IoModule.sendWeights rest m).1.erase, (IoModule.sendWeights rest m).2.erase) =
      IoModule.sendWeights (rest.map fun _ => ()) (m.1.erase, m.2.erase) := by
  cases rest with
  | nil => rfl
  | cons x rest => rfl

/-- The picture is sent whatever it shows. -/
lemma IoModule.sendPicture_erase (cfg : Config F) (rest : List F) (m : IoModule F × IoBus F) :
    ((IoModule.sendPicture cfg rest m).1.erase, (IoModule.sendPicture cfg rest m).2.erase) =
      IoModule.sendPicture cfg.erase (rest.map fun _ => ()) (m.1.erase, m.2.erase) := by
  cases rest with
  | nil => exact IoModule.sendWeights_erase cfg.weights _
  | cons x rest => rfl

/-- The sizes are sent whatever the picture and the weights are. -/
lemma IoModule.sendLayers_erase (cfg : Config F) (rest : List Int) (m : IoModule F × IoBus F) :
    ((IoModule.sendLayers cfg rest m).1.erase, (IoModule.sendLayers cfg rest m).2.erase) =
      IoModule.sendLayers cfg.erase rest (m.1.erase, m.2.erase) := by
  cases rest with
  | nil => exact IoModule.sendPicture_erase cfg cfg.picture _
  | cons x rest => rfl

/-- The thread of `IO` does not look at the words it sends. -/
lemma IoModule.writeDataToSystem_erase (cfg : Config F) (m : IoModule F × IoBus F) :
    ((IoModule.writeDataToSystem cfg m).1.erase, (IoModule.writeDataToSystem cfg m).2.erase) =
      IoModule.writeDataToSystem cfg.erase (m.1.erase, m.2.erase) := by
  have kept : m.1.erase.thread = m.1.thread.erase := rfl
  simp only [IoModule.writeDataToSystem, kept]
  cases ht : m.1.thread with
  | start | sentMarker | sentStart => rfl
  | sentCount => exact IoModule.sendLayers_erase cfg cfg.layers _
  | layers rest => exact IoModule.sendLayers_erase cfg rest m
  | picture rest => exact IoModule.sendPicture_erase cfg rest m
  | weights rest => exact IoModule.sendWeights_erase rest m
  | finished => rfl

/-- The input ports of `PROCESSOR` without their words. -/
def ProcessorIn.erase (w : ProcessorIn F) : ProcessorIn Unit where
  contrStartWeightAddressI := w.contrStartWeightAddressI
  prevmemDataI := ()
  weightDataI := ()
  prevmemSizeI := w.prevmemSizeI

omit [Binary32Ops F] in
/-- The test of the loop does not look at the words. -/
lemma Processor.inputLoop_erase (i : Nat) (w : ProcessorIn F) (m : Processor F) :
    (m.inputLoop i w).erase = m.erase.inputLoop i w.erase := by
  unfold Processor.inputLoop
  by_cases more : (i : Int) < w.prevmemSizeI
  · rw [if_pos more]
    exact (if_pos more).symm
  · rw [if_neg more]
    exact (if_neg more).symm

/-- A processor takes a neuron whatever the words are. -/
lemma Processor.takeNeuron_erase (w : ProcessorIn F) (m : Processor F) :
    (m.takeNeuron w).erase = m.erase.takeNeuron w.erase := by
  have kept : m.erase.queueNnNumber = m.queueNnNumber := rfl
  simp only [Processor.takeNeuron, kept]
  cases m.queueNnNumber with
  | nil => rfl
  | cons x rest => exact Processor.inputLoop_erase 0 w _

/-- The thread of a processor does not look at the words. -/
lemma Processor.process_erase (w : ProcessorIn F) (m : Processor F) :
    (m.process w).erase = m.erase.process w.erase := by
  have kept : m.erase.thread = m.thread := rfl
  simp only [Processor.process, kept]
  cases m.thread with
  | start | waitQueue => exact Processor.takeNeuron_erase w m
  | inputAddr i => rfl
  | inputWait i => exact Processor.inputLoop_erase (i + 1) w _
  | biasAddr | biasWait => rfl
  | store => exact Processor.takeNeuron_erase w _

/-- `CONTROLLER::process` is about to read the number of layers from the bus, or may get there. -/
def Controller.reads (m : Controller) : Prop := m.thread = .readData ∨ m.state = .readData

/-- It does not get there by itself. -/
lemma Controller.process_reads {m : Controller} (blind : ¬m.reads) (w : ControllerIn F) :
    ¬(m.process w).reads := by
  obtain ⟨thread, state⟩ := not_or.1 blind
  have loop : ∀ (i : Nat) (c : Controller), c.state ≠ .readData → ¬(c.layerLoop i).reads := by
    intro i c quiet
    unfold Controller.layerLoop Controller.reads
    split
    · simpa using quiet
    · simp
  have top : ∀ c : Controller, c.state ≠ .readData → ¬c.switchState.reads := by
    intro c quiet
    unfold Controller.switchState
    cases hc : c.state with
    | idle => simp [Controller.reads]
    | readData => exact absurd hc quiet
    | startConv => exact loop 0 c quiet
  have clone : ∀ (i : Nat) (c : Controller), c.state ≠ .readData → ¬(c.testClone i w).reads := by
    intro i c quiet
    unfold Controller.testClone
    split
    · exact loop (i + 1) _ quiet
    · simpa [Controller.reads] using quiet
  unfold Controller.process
  cases ht : m.thread with
  | start | idle => exact top m state
  | readData => exact absurd ht thread
  | waitEnd i =>
    simp only [Controller.testEnd]
    split
    · simpa [Controller.reads] using state
    · simpa [Controller.reads] using state
  | startClone i => exact clone i _ state
  | waitClone i => exact clone i m state
  | savePrev | nextLayer | startGenerator | settle | clear =>
    simpa [Controller.reads] using state

/-- What `CONTROLLER::process` reads of the word on the bus. -/
lemma Controller.process_congr {m : Controller} (w : ControllerIn F) {x : F}
    (count : m.reads → toInt w.dataI = toInt x) :
    m.process { w with dataI := x } = m.process w := by
  unfold Controller.process
  cases ht : m.thread with
  | readData =>
    rw [count (.inl ht)]
  | start | idle | savePrev | nextLayer | startGenerator | settle | waitEnd | clear | startClone
  | waitClone => rfl

omit [Binary32Ops F] in
/-- A processor is replaced. -/
lemma System.erase_update (s : System hw F) (k : Fin hw.countPcUnit) (p : Processor F) :
    { s with processors := Function.update s.processors k p : System hw F }.erase =
      { s.erase with processors := Function.update s.erase.processors k p.erase } := by
  refine congrArg (fun processors => { s.erase with processors }) (funext fun j => ?_)
  exact Function.apply_update (fun _ => Processor.erase) s.processors k p j

variable {s₀ s₀' s s' : System hw F}

/-- The processes that look at the word on the shared bus take the words of `s` and `s'` for the
same: as commands, as layer sizes and as the number of layers. -/
structure SameWord (s s' : System hw F) : Prop where
  infinity : s.io.addrO = 0 → s.bus.wr = true →
    (s.bus.data = infinity ↔ s'.bus.data = infinity)
  negInfinity : s.io.addrO = 0 → s.bus.wr = true →
    (s.bus.data = negInfinity ↔ s'.bus.data = negInfinity)
  size : s.io.addrO = 1 → s.bus.wr = true → toInt s.bus.data = toInt s'.bus.data
  count : s.controller.reads → toInt s.bus.data = toInt s'.bus.data

/-- In the edge of `s₀` and `s₀'` the states `s` and `s'` differ in their words only, and the number
of layers is not read from two different words. -/
structure Same (s₀ s₀' s s' : System hw F) : Prop where
  erase : s.erase = s'.erase
  count : s.controller.reads → toInt s₀.bus.data = toInt s₀'.bus.data

/-- A method that looks at the word on the shared bus. -/
def Method.looks : Method hw → Bool
  | .stateReadData | .stateStartConv | .layersAddToQueue => true
  | _ => false

/-- A thread that looks at the word on the shared bus. -/
def Thread.looks : Thread hw → Bool
  | .process => true
  | _ => false

/-- The other threads do not need the words. -/
lemma Thread.exec_erase (cfg : Config F) {th : Thread hw} (blind : th.looks = false)
    (s₀ s : System hw F) :
    (th.exec cfg s₀.wires s).erase = th.exec cfg.erase s₀.erase.wires s.erase := by
  cases th with
  | process => cases blind
  | writeDataToSystem =>
    exact congrArg (fun r : IoModule Unit × IoBus Unit => { s.erase with io := r.1, bus := r.2 })
      (IoModule.writeDataToSystem_erase cfg (s.io, s.bus))
  | processor k =>
    refine (System.erase_update s k _).trans ?_
    rw [Processor.process_erase]
    rfl
  | generate | copyMemory => rfl

/-- A thread keeps two states the same. -/
lemma Thread.exec_same {cfg cfg' : Config F} (config : cfg.erase = cfg'.erase)
    (same₀ : s₀.erase = s₀'.erase) (same : Same s₀ s₀' s s') (th : Thread hw) :
    Same s₀ s₀' (th.exec cfg s₀.wires s) (th.exec cfg' s₀'.wires s') := by
  cases blind : th.looks with
  | false =>
    constructor
    · rw [Thread.exec_erase cfg blind, Thread.exec_erase cfg' blind, config, same₀, same.erase]
    · cases th with
      | process => cases blind
      | writeDataToSystem | generate | copyMemory | processor => exact same.count
  | true =>
    have controller : s.controller = s'.controller := congrArg (fun s => s.controller) same.erase
    have ports : s₀'.wires.controllerIn =
        { s₀.wires.controllerIn with dataI := s₀'.bus.data } := by
      have kept : s₀.erase.wires = s₀'.erase.wires := by rw [same₀]
      have ports := congrArg Wires.controllerIn kept
      simp only [Wires.controllerIn, ControllerIn.mk.injEq] at ports
      obtain ⟨h1, -, h2, h3, h4, h5, h6⟩ := ports
      simp only [Wires.controllerIn, ControllerIn.mk.injEq]
      exact ⟨h1.symm, rfl, h2.symm, h3.symm, h4.symm, h5.symm, h6.symm⟩
    cases th with
    | process =>
      have eq : s.controller.process s₀.wires.controllerIn =
          s'.controller.process s₀'.wires.controllerIn := by
        rw [ports, ← controller]
        exact (Controller.process_congr _ same.count).symm
      constructor
      · exact congrArg₂ (fun (s : System hw Unit) controller => { s with controller }) same.erase eq
      · intro reads
        apply same.count
        by_contra blind
        exact Controller.process_reads blind _ reads
    | _ => cases blind

variable [DecidableEq F]

/-- The other methods do not need the words. -/
lemma Method.exec_erase {m : Method hw} (blind : m.looks = false) (s₀ s : System hw F) :
    (m.exec s₀.wires s).erase = m.exec s₀.erase.wires s.erase := by
  cases m with
  | stateReadData | stateStartConv | layersAddToQueue => cases blind
  | readDataFromSystem =>
    exact congrArg (fun io => { s.erase with io }) (IoModule.readDataFromSystem_erase _ _ s.io)
  | weightIssueElement => rfl
  | weightAddToMemory =>
    exact congrArg (fun weightStorage => { s.erase with weightStorage })
      (WeightStorage.addToMemory_erase _ _ _ s.weightStorage)
  | addToMem =>
    exact congrArg (fun previousLayer => { s.erase with previousLayer })
      (PreviousLayer.addToMem_erase _ _ _ _ _ s.previousLayer)
  | issueElementIo =>
    exact congrArg (fun r : PreviousLayer Unit hw.countPcUnit × IoBus Unit =>
      { s.erase with previousLayer := r.1, bus := r.2 })
      (PreviousLayer.issueElementIo_erase _ (s.previousLayer, s.bus))
  | clearPrevious =>
    exact congrArg (fun previousLayer => { s.erase with previousLayer })
      (PreviousLayer.clear_erase _ s.previousLayer)
  | nextIssueElement =>
    exact congrArg (fun nextLayer => { s.erase with nextLayer })
      (NextLayer.issueElement_erase _ _ s.nextLayer)
  | nextAddToMemory =>
    exact congrArg (fun nextLayer => { s.erase with nextLayer })
      (NextLayer.addToMemory_erase _ _ _ _ s.nextLayer)
  | addToQueue k =>
    refine (System.erase_update s k _).trans ?_
    rw [Processor.addToQueue_erase]
    rfl
  | layersNextElement | layersIssueElement | issueElementPc | writeOutToIo | clearController
  | saveNewElement | passNewElement => rfl

/-- The methods of `CONTROLLER` react to the same words. -/
lemma SameWord.methods (word : SameWord s₀ s₀') (same₀ : s₀.erase = s₀'.erase) (c : Controller) :
    (c.stateReadData s₀.io.addrO s₀.bus.data s₀.bus.wr =
        c.stateReadData s₀'.io.addrO s₀'.bus.data s₀'.bus.wr) ∧
      (c.stateStartConv s₀.io.addrO s₀.bus.data s₀.bus.wr =
        c.stateStartConv s₀'.io.addrO s₀'.bus.data s₀'.bus.wr) := by
  have addr : s₀.io.addrO = s₀'.io.addrO := congrArg (fun s => s.io.addrO) same₀
  have wr : s₀.bus.wr = s₀'.bus.wr := congrArg (fun s => s.bus.wr) same₀
  unfold Controller.stateReadData Controller.stateStartConv
  rw [← addr, ← wr]
  by_cases cmd : s₀.io.addrO = 0 ∧ s₀.bus.wr = true
  · simp only [word.infinity cmd.1 cmd.2, word.negInfinity cmd.1 cmd.2, and_self]
  · constructor
    · rw [if_neg (fun h => cmd ⟨h.1, h.2.2.1⟩), if_neg (fun h => cmd ⟨h.1, h.2.2.1⟩)]
    · rw [if_neg (fun h => cmd ⟨h.1, h.2.2.1⟩), if_neg (fun h => cmd ⟨h.1, h.2.2.1⟩)]

/-- A method keeps two states the same. -/
lemma Method.exec_same (same₀ : s₀.erase = s₀'.erase) (word : SameWord s₀ s₀')
    (same : Same s₀ s₀' s s') (m : Method hw) :
    Same s₀ s₀' (m.exec s₀.wires s) (m.exec s₀'.wires s') := by
  cases blind : m.looks with
  | false =>
    constructor
    · rw [Method.exec_erase blind, Method.exec_erase blind, same₀, same.erase]
    · cases m with
      | stateReadData | stateStartConv | layersAddToQueue => cases blind
      | _ => exact same.count
  | true =>
    have controller : s.controller = s'.controller := congrArg (fun s => s.controller) same.erase
    have layers : s.layersStorage = s'.layersStorage :=
      congrArg (fun s => s.layersStorage) same.erase
    obtain ⟨read, start⟩ := word.methods same₀ s'.controller
    rw [← controller] at read start
    cases m with
    | stateReadData =>
      constructor
      · exact congrArg₂ (fun (s : System hw Unit) controller => { s with controller }) same.erase
          (read.trans (by rw [controller]))
      · intro reads
        by_cases cmd : s₀.io.addrO = 0 ∧ s₀.bus.data = infinity ∧ s₀.bus.wr = true ∧
            s.controller.state = .idle
        · have data := (word.infinity cmd.1 cmd.2.2.1).1 cmd.2.1
          rw [cmd.2.1, data]
        · apply same.count
          have kept : (Method.exec s₀.wires .stateReadData s).controller = s.controller :=
            if_neg cmd
          rwa [kept] at reads
    | stateStartConv =>
      constructor
      · exact congrArg₂ (fun (s : System hw Unit) controller => { s with controller }) same.erase
          (start.trans (by rw [controller]))
      · intro reads
        apply same.count
        simp only [Method.exec, Controller.stateStartConv] at reads
        split at reads
        · exact .inl (reads.resolve_right (by simp))
        · exact reads
    | layersAddToQueue =>
      have addr : s₀.io.addrO = s₀'.io.addrO := congrArg (fun s => s.io.addrO) same₀
      have wr : s₀.bus.wr = s₀'.bus.wr := congrArg (fun s => s.bus.wr) same₀
      have eq : s.layersStorage.addToQueue s₀.io.addrO s₀.bus.data s₀.bus.wr =
          s'.layersStorage.addToQueue s₀'.io.addrO s₀'.bus.data s₀'.bus.wr := by
        unfold LayersStorage.addToQueue
        rw [← addr, ← wr, layers]
        by_cases size : s₀.io.addrO = 1 ∧ s₀.bus.wr = true
        · rw [if_pos size, if_pos size, word.size size.1 size.2]
        · rw [if_neg size, if_neg size]
      constructor
      · exact congrArg₂ (fun (s : System hw Unit) layersStorage => { s with layersStorage })
          same.erase eq
      · exact same.count
    | _ => cases blind

omit [Binary32Ops F] [DecidableEq F] in
/-- The kernel stops both simulations in the same edge. -/
lemma System.erase_stopped (same : s.erase = s'.erase) : s.stopped = s'.stopped :=
  congrArg (fun s => s.previousLayer.stopped) same

/-- The methods of an edge do the same to both states. -/
lemma System.methodPhase_same (sch : Schedule hw) (same : s.erase = s'.erase)
    (word : SameWord s s') : Same s s' (s.methodPhase sch) (s'.methodPhase sch) := by
  refine evaluate_rel (R := Same s s') ?_ sch.methods ⟨same, word.count⟩
  intro m a b rel
  exact Method.exec_same same word rel m

omit [Binary32Ops F] [DecidableEq F] in
/-- `END_REDUCER` sees no words. -/
lemma System.settle_erase (s : System hw F) : s.settle.erase = s.erase.settle := by
  have kept : s.erase.stopped = s.stopped := rfl
  unfold System.settle
  rw [kept]
  split
  · rfl
  · rfl

/-- An edge does the same to two states that differ in their words only. -/
lemma System.edge_same {cfg cfg' : Config F} (config : cfg.erase = cfg'.erase) (sch : Schedule hw)
    (same : s.erase = s'.erase) (word : s.stopped = false → SameWord s s') :
    (s.edge cfg sch).erase = (s'.edge cfg' sch).erase := by
  unfold System.edge
  rw [← System.erase_stopped same]
  cases st : s.stopped with
  | true => exact same
  | false =>
    have methods := System.methodPhase_same sch same (word st)
    have threads := evaluate_rel (R := Same s s')
      (fun th a b rel => Thread.exec_same config same rel th) sch.threads methods
    simp only [Bool.false_eq_true, if_false]
    rw [System.settle_erase, System.settle_erase, threads.erase]

/-- What the heap holds is forgotten. -/
lemma System.initialized_same (boot : Schedule hw) (junk junk' : Nat → F) :
    (System.initialized boot junk : System hw F).erase =
      (System.initialized boot junk' : System hw F).erase := by
  obtain ⟨s, hs⟩ : ∃ s : System hw F, s = System.elaborated junk := ⟨_, rfl⟩
  obtain ⟨s', hs'⟩ : ∃ s' : System hw F, s' = System.elaborated junk' := ⟨_, rfl⟩
  have same : s.erase = s'.erase := by
    rw [hs, hs']
    rfl
  -- nothing is on the bus yet
  have word : SameWord s s' := by
    rw [hs, hs']
    exact ⟨fun _ => Bool.noConfusion, fun _ => Bool.noConfusion, fun _ => Bool.noConfusion,
      fun _ => rfl⟩
  have methods := System.methodPhase_same boot same word
  unfold System.initialized
  rw [← hs, ← hs']
  exact congrArg₂ (fun (m s : System hw Unit) =>
    { m with cycleEnded := reduce s.wires.genEnd s.wires.contrEmptyBus }) methods.erase same

end NnProcessor.Model
