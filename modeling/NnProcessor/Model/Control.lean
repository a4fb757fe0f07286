import NnProcessor.Model.Storage

/-!
# The modules that drive the run

`IO`, `CONTROLLER`, `PREVIOUS_LAYER_CONTROLLER`, `GENERATOR` and `END_REDUCER`. An `SC_CTHREAD` is a
state machine: its field `thread` says at which `wait()` it stands, with the loop variables that are
alive there, and one step resumes it behind that `wait()` and runs to the next one.
-/

namespace NnProcessor.Model
open NnProcessor.Arith

variable {F : Type} [Binary32Ops F]

/-- What `loadData` hands to `IO::write_data_to_system`. The number of layers and the sizes are
read into variables of type `int`. -/
structure Config (F : Type) where
  layers : List Int
  weights : List F
  picture : List F
  layersCount_lt : layers.length < 2 ^ 31
  layers_fit : ∀ l ∈ layers, Fits l

/-- The `wait()`s of `IO::write_data_to_system`; the lists are the words a range-based `for` still
has to send. -/
inductive WriteThread (F : Type) where
  | start
  | sentMarker
  | sentCount
  | layers (rest : List Int)
  | picture (rest : List F)
  | weights (rest : List F)
  | sentStart
  | finished

/-- `IO`. `printed` is the output stream: the number and the value of each `RESULT` line. -/
structure IoModule (F : Type) where
  counter : Nat := 0
  transmit : Bool := false
  thread : WriteThread F := .start
  addrO : Int := 0
  printed : List (Nat × F) := []

namespace IoModule

/-- `IO::read_data_from_system`. -/
def readDataFromSystem (dataIo : F) (wrIo : Bool) (m : IoModule F) : IoModule F :=
  if !m.transmit && wrIo then
    { m with printed := m.printed ++ [(m.counter, dataIo)], counter := m.counter + 1 }
  else m

/-- From the line `addr_o.write(0)` in front of the start word to its `wait()`. -/
def sendStart (m : IoModule F × IoBus F) : IoModule F × IoBus F :=
  ({ m.1 with addrO := 0, thread := .sentStart }, { data := negInfinity, wr := true })

/-- The loop over the weights, at the test of its range. -/
def sendWeights (rest : List F) (m : IoModule F × IoBus F) : IoModule F × IoBus F :=
  match rest with
  | [] => sendStart m
  | item :: rest => ({ m.1 with thread := .weights rest }, { m.2 with data := item })

/-- The loop over the picture, at the test of its range. -/
def sendPicture (cfg : Config F) (rest : List F) (m : IoModule F × IoBus F) :
    IoModule F × IoBus F :=
  match rest with
  | [] => sendWeights cfg.weights ({ m.1 with addrO := 3 }, m.2)
  | item :: rest => ({ m.1 with thread := .picture rest }, { m.2 with data := item })

/-- The loop over the layer sizes, at the test of its range. -/
def sendLayers (cfg : Config F) (rest : List Int) (m : IoModule F × IoBus F) :
    IoModule F × IoBus F :=
  match rest with
  | [] => sendPicture cfg cfg.picture ({ m.1 with addrO := 2 }, m.2)
  | item :: rest => ({ m.1 with thread := .layers rest }, { m.2 with data := ofInt item })

/-- `IO::write_data_to_system`, resumed. -/
def writeDataToSystem (cfg : Config F) (m : IoModule F × IoBus F) : IoModule F × IoBus F :=
  match m.1.thread with
  | .start =>
    ({ m.1 with transmit := true, addrO := 0, thread := .sentMarker },
      { data := infinity, wr := true })
  | .sentMarker =>
    ({ m.1 with thread := .sentCount }, { m.2 with data := ofInt cfg.layers.length })
  | .sentCount => sendLayers cfg cfg.layers ({ m.1 with addrO := 1 }, m.2)
  | .layers rest => sendLayers cfg rest m
  | .picture rest => sendPicture cfg rest m
  | .weights rest => sendWeights rest m
  | .sentStart =>
    ({ m.1 with transmit := false, thread := .finished }, { m.2 with wr := false })
  | .finished => m

end IoModule

/-- `CONTROLLER::states`. -/
inductive ControllerState where
  | idle
  | readData
  | startConv
  deriving DecidableEq

/-- The `wait()`s of `CONTROLLER::process` with the variable of its `for` loop. The second of the
two `wait()`s in line 117 and the one in the loop behind it both continue at the test of
`cycle_ended_i`: both are `waitEnd`. -/
inductive ControlThread where
  | start
  | idle
  | readData
  | savePrev (i : Nat)
  | nextLayer (i : Nat)
  | startGenerator (i : Nat)
  | settle (i : Nat)
  | waitEnd (i : Nat)
  | clear (i : Nat)
  | startClone (i : Nat)
  | waitClone (i : Nat)
  deriving DecidableEq

/-- The layer iteration a `wait()` belongs to. -/
def ControlThread.layer : ControlThread → Option Nat
  | .start | .idle | .readData => none
  | .savePrev i | .nextLayer i | .startGenerator i | .settle i | .waitEnd i
  | .clear i | .startClone i | .waitClone i => some i

/-- `CONTROLLER`. -/
structure Controller where
  state : ControllerState := .idle
  layers : Int := 0
  prevLayer : Int := 0
  thread : ControlThread := .start
  nextLayerO : Bool := false
  clrControllerLayerO : Bool := false
  writeOutControllerLayerO : Bool := false
  startCloneControllerLayerO : Bool := false
  savePrevLayerSizeO : Bool := false
  startGeneratorO : Bool := false
  startWeightAdderessO : Int := 0

/-- The input ports `CONTROLLER::process` reads, and `start_weight_adderess_o` read back. -/
structure ControllerIn (F : Type) where
  addrI : Int
  dataI : F
  wrI : Bool
  sizeOfLayerI : Int
  endCloneControllerLayerI : Bool
  cycleEndedI : Bool
  startWeightAdderessO : Int

namespace Controller

/-- `CONTROLLER::state_read_data`. -/
def stateReadData [DecidableEq F] (addrI : Int) (dataI : F) (wrI : Bool) (m : Controller) :
    Controller :=
  if addrI = 0 ∧ dataI = infinity ∧ wrI ∧ m.state = .idle then { m with state := .readData } else m

/-- `CONTROLLER::state_start_conv`. -/
def stateStartConv [DecidableEq F] (addrI : Int) (dataI : F) (wrI : Bool) (m : Controller) :
    Controller :=
  if addrI = 0 ∧ dataI = negInfinity ∧ wrI ∧ m.state = .idle then { m with state := .startConv }
  else m

/-- The test of `for (int i = 0; i < layers - 1; i++)`. Behind the loop the thread raises
`write_out_controller_layer_o`, returns to `IDLE` and runs that case up to its `wait()`. -/
def layerLoop (i : Nat) (m : Controller) : Controller :=
  if (i : Int) < i32 (m.layers - 1) then { m with savePrevLayerSizeO := true, thread := .savePrev i }
  else
    { m with
      writeOutControllerLayerO := true
      state := .idle
      startWeightAdderessO := 0
      thread := .idle }

/-- The `switch (state)` at the top of `CONTROLLER::process`. -/
def switchState (m : Controller) : Controller :=
  match m.state with
  | .idle => { m with startWeightAdderessO := 0, thread := .idle }
  | .readData => { m with thread := .readData }
  | .startConv => m.layerLoop 0

/-- `while (!cycle_ended_i) wait();` and the lines up to the next `wait()`. -/
def testEnd (i : Nat) (cycleEndedI : Bool) (m : Controller) : Controller :=
  if cycleEndedI then { m with clrControllerLayerO := true, thread := .clear i }
  else { m with thread := .waitEnd i }

/-- `while(!end_clone_controller_layer_i) wait();`, the new weight base and the next iteration. -/
def testClone (i : Nat) (w : ControllerIn F) (m : Controller) : Controller :=
  if w.endCloneControllerLayerI then
    layerLoop (i + 1)
      { m with
        startWeightAdderessO :=
          i32 (i32 (i32 (m.prevLayer + 1) * w.sizeOfLayerI) + w.startWeightAdderessO) }
  else { m with thread := .waitClone i }

/-- `CONTROLLER::process`, resumed. -/
def process (w : ControllerIn F) (m : Controller) : Controller :=
  match m.thread with
  | .start | .idle => m.switchState
  | .readData =>
    if w.addrI = 0 ∧ w.wrI then { m with layers := toInt w.dataI, state := .idle }.switchState
    else m.switchState
  | .savePrev i =>
    { m with
      savePrevLayerSizeO := false
      prevLayer := w.sizeOfLayerI
      nextLayerO := true
      thread := .nextLayer i }
  | .nextLayer i =>
    { m with nextLayerO := false, startGeneratorO := true, thread := .startGenerator i }
  | .startGenerator i => { m with startGeneratorO := false, thread := .settle i }
  | .settle i => { m with thread := .waitEnd i }
  | .waitEnd i => m.testEnd i w.cycleEndedI
  | .clear i =>
    { m with
      clrControllerLayerO := false
      startCloneControllerLayerO := true
      thread := .startClone i }
  | .startClone i => testClone i w { m with startCloneControllerLayerO := false }
  | .waitClone i => m.testClone i w

end Controller

/-- The `wait()`s of `PREVIOUS_LAYER_CONTROLLER::copy_memory`. -/
inductive CopyThread where
  | start
  | waitStart
  | first
  | copying (i : Nat)
  | ended
  deriving DecidableEq

/-- `PREVIOUS_LAYER_CONTROLLER`. -/
structure PreviousLayerController where
  thread : CopyThread := .start
  wrToMemoryFromMemO : Bool := false
  wrToOutO : Bool := false
  clrO : Bool := false
  nextO : Bool := false
  endCloneO : Bool := false

namespace PreviousLayerController

/-- `PREVIOUS_LAYER_CONTROLLER::clear`. -/
def clear (clrI : Bool) (m : PreviousLayerController) : PreviousLayerController :=
  { m with clrO := clrI }

/-- `PREVIOUS_LAYER_CONTROLLER::write_out_to_IO`. -/
def writeOutToIo (writeOutI : Bool) (m : PreviousLayerController) : PreviousLayerController :=
  { m with wrToOutO := writeOutI }

/-- `while(!start_clone_i)` of `copy_memory`, at its test. -/
def awaitStart (startCloneI : Bool) (m : PreviousLayerController) : PreviousLayerController :=
  if startCloneI then { m with nextO := true, thread := .first }
  else { m with endCloneO := false, thread := .waitStart }

/-- The `for` loop of `copy_memory`, at its test. -/
def copyLoop (i : Nat) (layerSizeI : Int) (m : PreviousLayerController) :
    PreviousLayerController :=
  if (i : Int) < layerSizeI then
    { m with
      nextO := decide ((i : Int) ≠ layerSizeI - 1)
      wrToMemoryFromMemO := true
      thread := .copying i }
  else
    { m with nextO := false, wrToMemoryFromMemO := false, endCloneO := true, thread := .ended }

/-- `PREVIOUS_LAYER_CONTROLLER::copy_memory`, resumed. -/
def copyMemory (startCloneI : Bool) (layerSizeI : Int) (m : PreviousLayerController) :
    PreviousLayerController :=
  match m.thread with
  | .start | .waitStart | .ended => m.awaitStart startCloneI
  | .first => m.copyLoop 0 layerSizeI
  | .copying i => m.copyLoop (i + 1) layerSizeI

end PreviousLayerController

/-- `GENERATOR::states`. -/
inductive GeneratorState where
  | idle
  | generate
  deriving DecidableEq

/-- The `wait()`s of `GENERATOR::generate`: the one of the case `IDLE` and the two of `GENERATE`. -/
inductive GenerateThread where
  | start
  | idle
  | generate
  | dispatched
  deriving DecidableEq

/-- `GENERATOR`; `counter` is the local variable of `generate`. -/
structure Generator where
  state : GeneratorState := .idle
  thread : GenerateThread := .start
  counter : Nat := 0
  endGenerateO : Bool := true
  addressO : Nat := 0
  dataO : Nat := 0
  wO : Bool := false

/-- `find_min_index`; `best` is `min_idx`, and `min_val` is the entry at `best`. -/
def findMinIndex {n : Nat} (pos : 0 < n) (queueSizeI : Fin n → Nat) : Fin n :=
  (List.finRange n).tail.foldl (fun best i => if queueSizeI i < queueSizeI best then i else best)
    ⟨0, pos⟩

namespace Generator

/-- The `switch (state)` at the top of `GENERATOR::generate`. -/
def switchState (generateI : Bool) (m : Generator) : Generator :=
  match m.state with
  | .idle =>
    { state := if generateI then .generate else .idle
      thread := .idle
      counter := 0
      endGenerateO := !generateI
      addressO := 0
      dataO := 0
      wO := false }
  | .generate => { m with thread := .generate }

/-- Behind the first `wait()` of the case `GENERATE`: one attempt to dispatch. -/
def dispatch {n : Nat} (pos : 0 < n) (queueSize : Nat) (layerSizeI : Int)
    (queueSizeI : Fin n → Nat) (m : Generator) : Generator :=
  let queueMinInd := findMinIndex pos queueSizeI
  if queueSizeI queueMinInd < queueSize then
    { m with
      dataO := m.counter
      addressO := queueMinInd
      wO := true
      counter := m.counter + 1
      state := if ((m.counter + 1 : Nat) : Int) ≥ layerSizeI then .idle else m.state
      thread := .dispatched }
  else { m with thread := .dispatched }

/-- `GENERATOR::generate`, resumed. -/
def generate {n : Nat} (pos : 0 < n) (queueSize : Nat) (generateI : Bool) (layerSizeI : Int)
    (queueSizeI : Fin n → Nat) (m : Generator) : Generator :=
  match m.thread with
  | .start | .idle => m.switchState generateI
  | .generate => m.dispatch pos queueSize layerSizeI queueSizeI
  | .dispatched => { m with wO := false }.switchState generateI

end Generator

/-- `END_REDUCER::reduce`. -/
def reduce {n : Nat} (genEndI : Bool) (contrEmptyI : Fin n → Bool) : Bool :=
  (List.finRange n).foldl (fun allOk i => allOk && contrEmptyI i) genEndI

end NnProcessor.Model
