import NnProcessor.Kernel.Evaluate
import NnProcessor.Model.Control
import NnProcessor.Model.Processor

/-!
# The system of `sc_main`

The instances and their wiring, and the run of the SystemC kernel on them. Between two clock edges
every signal carries the value its port holds, so the wires of an edge are read off the modules when
the edge begins. At an edge the kernel runs every `SC_METHOD` and then every `SC_CTHREAD`, each kind
in an order it is free to choose (a `Schedule`); all of them read the wires of the beginning of the
edge, while the members of a module are shared by its processes at once. `END_REDUCER::reduce` is
sensitive to its inputs only and runs in the next delta cycle, on the updated signals; where no
input has changed, running it once more writes the value its signal has.
-/

namespace NnProcessor.Model
open NnProcessor.Arith NnProcessor.Kernel

/-- The macros of `config.h`. `MEM_SIZE` is 1024 there; all that matters is that a `float` carries
every size up to it. -/
structure Hw where
  countPcUnit : Nat
  queueSize : Nat
  memSize : Nat
  countPcUnit_pos : 0 < countPcUnit
  queueSize_pos : 0 < queueSize
  memSize_le : memSize ≤ 2 ^ 24

/-- The values in `config.h`. -/
def Hw.configH : Hw where
  countPcUnit := 7
  queueSize := 5
  memSize := 1024
  countPcUnit_pos := by decide
  queueSize_pos := by decide
  memSize_le := by decide

/-- The instances of `sc_main`, its two shared signals and the output of `END_REDUCER`. -/
structure System (hw : Hw) (F : Type) where
  io : IoModule F
  bus : IoBus F
  controller : Controller
  layersStorage : LayersStorage
  weightStorage : WeightStorage F hw.countPcUnit
  previousLayer : PreviousLayer F hw.countPcUnit
  previousLayerController : PreviousLayerController
  previousLayerSize : PreviousLayerSize
  generator : Generator
  processors : Fin hw.countPcUnit → Processor F
  nextLayer : NextLayer F
  cycleEnded : Bool

/-- The signals of `sc_main` that the processes read at an edge. -/
structure Wires (hw : Hw) (F : Type) where
  addrIoBus : Int
  dataIoBus : F
  wrIoBus : Bool
  nextLayer : Bool
  dataLayer : Int
  addrWeightBus : Fin hw.countPcUnit → Int
  dataWeightBus : Fin hw.countPcUnit → F
  addrPrevLayerBus : Fin hw.countPcUnit → Int
  dataPrevLayerBus : Fin hw.countPcUnit → F
  wrToMemFromMemCtrlMemBus : Bool
  wrToIoCtrlMemBus : Bool
  clrPrevLayerCtrlMemBus : Bool
  dataFromNowLayerToNextLayer : F
  nextMemoryTransmit : Bool
  clrPrevLayerControllerBus : Bool
  startCloneControllerBus : Bool
  endCloneControllerBus : Bool
  writeOutControllerBus : Bool
  savePrevLayerSize : Bool
  startGenerator : Bool
  cycleEnded : Bool
  startWeightAdderess : Int
  previousDataLayer : Int
  genAddress : Nat
  genData : Nat
  genWrite : Bool
  genEnd : Bool
  genSize : Fin hw.countPcUnit → Nat
  resmemAddrBus : Fin hw.countPcUnit → Nat
  resmemDataBus : Fin hw.countPcUnit → F
  resmemWBus : Fin hw.countPcUnit → Bool
  contrEmptyBus : Fin hw.countPcUnit → Bool

/-- The `SC_METHOD`s that are sensitive to the clock; `END_REDUCER::reduce` is not. -/
inductive Method (hw : Hw) where
  | readDataFromSystem
  | stateReadData
  | stateStartConv
  | layersNextElement
  | layersAddToQueue
  | layersIssueElement
  | weightIssueElement
  | weightAddToMemory
  | addToMem
  | issueElementIo
  | issueElementPc
  | clearPrevious
  | writeOutToIo
  | clearController
  | saveNewElement
  | passNewElement
  | nextIssueElement
  | nextAddToMemory
  | addToQueue (k : Fin hw.countPcUnit)

/-- The `SC_CTHREAD`s. -/
inductive Thread (hw : Hw) where
  | writeDataToSystem
  | process
  | generate
  | copyMemory
  | processor (k : Fin hw.countPcUnit)

/-- The order the kernel chooses for one evaluation phase: every process runs exactly once. -/
structure Schedule (hw : Hw) where
  methods : List (Method hw)
  threads : List (Thread hw)
  methods_nodup : methods.Nodup
  threads_nodup : threads.Nodup
  mem_methods : ∀ m, m ∈ methods
  mem_threads : ∀ t, t ∈ threads

/-- One of the orders: the processes as they are listed above. -/
def Schedule.listed (hw : Hw) : Schedule hw where
  methods :=
    [.readDataFromSystem, .stateReadData, .stateStartConv, .layersNextElement, .layersAddToQueue,
      .layersIssueElement, .weightIssueElement, .weightAddToMemory, .addToMem, .issueElementIo,
      .issueElementPc, .clearPrevious, .writeOutToIo, .clearController, .saveNewElement,
      .passNewElement, .nextIssueElement, .nextAddToMemory] ++
      (List.finRange hw.countPcUnit).map .addToQueue
  threads :=
    [.writeDataToSystem, .process, .generate, .copyMemory] ++
      (List.finRange hw.countPcUnit).map .processor
  methods_nodup := by
    refine List.Nodup.append (by simp) ?_ (by simp [List.Disjoint])
    exact (List.nodup_finRange _).map fun _ _ h => Method.addToQueue.inj h
  threads_nodup := by
    refine List.Nodup.append (by simp) ?_ (by simp [List.Disjoint])
    exact (List.nodup_finRange _).map fun _ _ h => Thread.processor.inj h
  mem_methods m := by cases m <;> simp
  mem_threads t := by cases t <;> simp

variable {hw : Hw} {F : Type}

/-- The wiring of `sc_main`. -/
@[simps] def System.wires (s : System hw F) : Wires hw F where
  addrIoBus := s.io.addrO
  dataIoBus := s.bus.data
  wrIoBus := s.bus.wr
  nextLayer := s.controller.nextLayerO
  dataLayer := s.layersStorage.dataO
  addrWeightBus k := (s.processors k).weightAddrO
  dataWeightBus := s.weightStorage.dataOutBusO
  addrPrevLayerBus k := (s.processors k).prevmemAddrO
  dataPrevLayerBus := s.previousLayer.dataPcBusO
  wrToMemFromMemCtrlMemBus := s.previousLayerController.wrToMemoryFromMemO
  wrToIoCtrlMemBus := s.previousLayerController.wrToOutO
  clrPrevLayerCtrlMemBus := s.previousLayerController.clrO
  dataFromNowLayerToNextLayer := s.nextLayer.dataO
  nextMemoryTransmit := s.previousLayerController.nextO
  clrPrevLayerControllerBus := s.controller.clrControllerLayerO
  startCloneControllerBus := s.controller.startCloneControllerLayerO
  endCloneControllerBus := s.previousLayerController.endCloneO
  writeOutControllerBus := s.controller.writeOutControllerLayerO
  savePrevLayerSize := s.controller.savePrevLayerSizeO
  startGenerator := s.controller.startGeneratorO
  cycleEnded := s.cycleEnded
  startWeightAdderess := s.controller.startWeightAdderessO
  previousDataLayer := s.previousLayerSize.dataO
  genAddress := s.generator.addressO
  genData := s.generator.dataO
  genWrite := s.generator.wO
  genEnd := s.generator.endGenerateO
  genSize k := (s.processors k).queueSizeO
  resmemAddrBus k := (s.processors k).resmemAddrO
  resmemDataBus k := (s.processors k).resmemDataO
  resmemWBus k := (s.processors k).resmemWO
  contrEmptyBus k := (s.processors k).contrEmptyO

/-- `sc_stop()` has been called. -/
def System.stopped (s : System hw F) : Bool := s.previousLayer.stopped

/-- The input ports of `CONTROLLER`. -/
@[simps] def Wires.controllerIn (w : Wires hw F) : ControllerIn F where
  addrI := w.addrIoBus
  dataI := w.dataIoBus
  wrI := w.wrIoBus
  sizeOfLayerI := w.dataLayer
  endCloneControllerLayerI := w.endCloneControllerBus
  cycleEndedI := w.cycleEnded
  startWeightAdderessO := w.startWeightAdderess

/-- The input ports of the processor `k`. -/
@[simps] def Wires.processorIn (w : Wires hw F) (k : Fin hw.countPcUnit) : ProcessorIn F where
  contrStartWeightAddressI := w.startWeightAdderess
  prevmemDataI := w.dataPrevLayerBus k
  weightDataI := w.dataWeightBus k
  prevmemSizeI := w.previousDataLayer

variable [Binary32Ops F] [DecidableEq F]

/-- One `SC_METHOD` runs, with `w` on the signals. -/
def Method.exec (w : Wires hw F) : Method hw → System hw F → System hw F
  | .readDataFromSystem, s =>
    { s with io := s.io.readDataFromSystem w.dataIoBus w.wrIoBus }
  | .stateReadData, s =>
    { s with controller := s.controller.stateReadData w.addrIoBus w.dataIoBus w.wrIoBus }
  | .stateStartConv, s =>
    { s with controller := s.controller.stateStartConv w.addrIoBus w.dataIoBus w.wrIoBus }
  | .layersNextElement, s =>
    { s with layersStorage := s.layersStorage.nextElement w.nextLayer }
  | .layersAddToQueue, s =>
    { s with layersStorage := s.layersStorage.addToQueue w.addrIoBus w.dataIoBus w.wrIoBus }
  | .layersIssueElement, s => { s with layersStorage := s.layersStorage.issueElement }
  | .weightIssueElement, s =>
    { s with weightStorage := s.weightStorage.issueElement w.addrWeightBus }
  | .weightAddToMemory, s =>
    { s with weightStorage := s.weightStorage.addToMemory w.addrIoBus w.dataIoBus w.wrIoBus }
  | .addToMem, s =>
    { s with
      previousLayer :=
        s.previousLayer.addToMem w.addrIoBus w.dataIoBus w.wrIoBus w.wrToMemFromMemCtrlMemBus
          w.dataFromNowLayerToNextLayer }
  | .issueElementIo, s =>
    let r := PreviousLayer.issueElementIo w.wrToIoCtrlMemBus (s.previousLayer, s.bus)
    { s with previousLayer := r.1, bus := r.2 }
  | .issueElementPc, s =>
    { s with previousLayer := s.previousLayer.issueElementPc w.addrPrevLayerBus }
  | .clearPrevious, s => { s with previousLayer := s.previousLayer.clear w.clrPrevLayerCtrlMemBus }
  | .writeOutToIo, s =>
    { s with
      previousLayerController := s.previousLayerController.writeOutToIo w.writeOutControllerBus }
  | .clearController, s =>
    { s with
      previousLayerController := s.previousLayerController.clear w.clrPrevLayerControllerBus }
  | .saveNewElement, s =>
    { s with
      previousLayerSize := s.previousLayerSize.saveNewElement w.savePrevLayerSize w.dataLayer }
  | .passNewElement, s => { s with previousLayerSize := s.previousLayerSize.passNewElement }
  | .nextIssueElement, s =>
    { s with nextLayer := s.nextLayer.issueElement hw.memSize w.nextMemoryTransmit }
  | .nextAddToMemory, s =>
    { s with
      nextLayer :=
        s.nextLayer.addToMemory hw.memSize w.resmemWBus w.resmemAddrBus w.resmemDataBus }
  | .addToQueue k, s =>
    { s with
      processors :=
        Function.update s.processors k
          ((s.processors k).addToQueue hw.queueSize k w.genAddress w.genData w.genWrite) }

/-- One `SC_CTHREAD` is resumed, with `w` on the signals. -/
def Thread.exec (cfg : Config F) (w : Wires hw F) : Thread hw → System hw F → System hw F
  | .writeDataToSystem, s =>
    let r := IoModule.writeDataToSystem cfg (s.io, s.bus)
    { s with io := r.1, bus := r.2 }
  | .process, s => { s with controller := s.controller.process w.controllerIn }
  | .generate, s =>
    { s with
      generator :=
        s.generator.generate hw.countPcUnit_pos hw.queueSize w.startGenerator w.dataLayer
          w.genSize }
  | .copyMemory, s =>
    { s with
      previousLayerController :=
        s.previousLayerController.copyMemory w.startCloneControllerBus w.dataLayer }
  | .processor k, s =>
    { s with
      processors :=
        Function.update s.processors k ((s.processors k).process (w.processorIn k)) }

/-- The delta cycle behind an edge, in which `END_REDUCER::reduce` runs; `sc_stop()` ends the
simulation in front of it. -/
def System.settle (s : System hw F) : System hw F :=
  if s.stopped then s else { s with cycleEnded := reduce s.wires.genEnd s.wires.contrEmptyBus }

/-- The state of an edge behind its methods and in front of its threads. -/
def System.methodPhase (sch : Schedule hw) (s : System hw F) : System hw F :=
  evaluate (Method.exec s.wires) sch.methods s

/-- One rising edge of the clock. -/
def System.edge (cfg : Config F) (sch : Schedule hw) (s : System hw F) : System hw F :=
  if s.stopped then s
  else (evaluate (Thread.exec cfg s.wires) sch.threads (s.methodPhase sch)).settle

/-- The instances behind their constructors and the `initialize` calls; `junk` is what the storage
reserved by `NEXT_LAYER` holds. A signal without `initialize` starts at zero. -/
def System.elaborated (junk : Nat → F) : System hw F where
  io := {}
  bus := { data := ofInt 0, wr := false }
  controller := {}
  layersStorage := {}
  weightStorage := { dataOutBusO := fun _ => ofInt 0 }
  previousLayer := { dataPcBusO := fun _ => ofInt 0 }
  previousLayerController := {}
  previousLayerSize := {}
  generator := {}
  processors _ := { sumReg := ofInt 0, resmemDataO := ofInt 0 }
  nextLayer := { memory := junk, dataO := ofInt 0 }
  cycleEnded := false

/-- The initialization phase: every method runs once, `END_REDUCER::reduce` too, on the signals as
they are after `initialize`. No `SC_CTHREAD` is initialized. -/
def System.initialized (sch : Schedule hw) (junk : Nat → F) : System hw F :=
  let s : System hw F := System.elaborated junk
  { s.methodPhase sch with cycleEnded := reduce s.wires.genEnd s.wires.contrEmptyBus }

/-- Everything one simulation is free in: the words on the heap, the order of the initialization
phase and the order of each edge. -/
structure Env (hw : Hw) (F : Type) where
  junk : Nat → F
  boot : Schedule hw
  sched : Nat → Schedule hw

/-- The simulation that finds the word `x` everywhere on the heap and runs the processes in the
order of `Schedule.listed`. -/
def Env.listed (hw : Hw) (x : F) : Env hw F where
  junk _ := x
  boot := .listed hw
  sched _ := .listed hw

/-- The state in front of the edge `t`. -/
def run (cfg : Config F) (env : Env hw F) : Nat → System hw F
  | 0 => System.initialized env.boot env.junk
  | t + 1 => (run cfg env t).edge cfg (env.sched t)

end NnProcessor.Model
