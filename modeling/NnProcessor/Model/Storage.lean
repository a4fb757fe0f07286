import NnProcessor.Model.Binary32

/-!
# The storages

`LAYERS_STORAGE`, `WEIGHT_STORAGE`, `PREVIOUS_LAYER`, `PREVIOUS_LAYER_SIZE` and `NEXT_LAYER`. A
module is a structure of its members and its output ports; an output port holds the value written
to it last, which is the value its signal takes in the update phase. Each `SC_METHOD` is a function
from the values of the input ports it reads.

A `std::vector` that only grows by `push_back` is a list; `(int)memory.size()` is `i32` of its
length. Two accesses are undefined behaviour in the sources, and here they are made total: a read at
an address below zero (`guardedRead` against `sourceRead`) and a slot of `NEXT_LAYER` behind the
`MEM_SIZE` reserved ones (`NextLayer.overrun`). A run with a configuration of `Config.Inside` makes
neither of them.
-/

namespace NnProcessor.Model
open NnProcessor.Arith

variable {F : Type} [Binary32Ops F] {n : Nat}

/-- The two guarded reads of the sources: `if ((int)memory.size() > a) memory[a] else d`. An address
below zero passes the guard, and there the sources have no result. -/
def sourceRead {α : Type} (memory : List α) (a : Int) (d : α) : Option α :=
  if i32 memory.length > a then if 0 ≤ a then memory[a.toNat]? else none else some d

/-- The guarded read of the model. It is the one of the sources where they have a result
(`sourceRead_eq`); at an address below zero it gives the first word. -/
def guardedRead {α : Type} (memory : List α) (a : Int) (d : α) : α :=
  if i32 memory.length > a then memory.getD a.toNat d else d

/-- Where the sources read inside of the storage, the model reads the same. -/
lemma sourceRead_eq {α : Type} {memory : List α} {a : Int} {d : α}
    (reads : (sourceRead memory a d).isSome) :
    sourceRead memory a d = some (guardedRead memory a d) := by
  unfold sourceRead guardedRead at *
  split_ifs at reads ⊢ with guard nonneg
  · rw [List.getD_eq_getElem?_getD]
    obtain ⟨x, eq⟩ := Option.isSome_iff_exists.1 reads
    rw [eq]
    rfl
  · cases reads
  · rfl

/-- An address that is not negative is read inside of the storage. -/
lemma sourceRead_isSome {α : Type} {memory : List α} {a : Int} (nonneg : 0 ≤ a) (d : α) :
    (sourceRead memory a d).isSome := by
  unfold sourceRead
  split
  · next guard =>
    have lt : a < memory.length := lt_of_lt_of_le guard i32_le
    rw [List.getElem?_eq_getElem (by omega)]
    rfl
  · rfl

/-- `LAYERS_STORAGE`. -/
structure LayersStorage where
  memory : List Int := []
  index : Nat := 0
  dataO : Int := 0

namespace LayersStorage

/-- `LAYERS_STORAGE::next_element`. -/
def nextElement (next : Bool) (m : LayersStorage) : LayersStorage :=
  if next then { m with index := m.index + 1 } else m

/-- `LAYERS_STORAGE::add_to_queue`. -/
def addToQueue (addrI : Int) (dataI : F) (wrI : Bool) (m : LayersStorage) : LayersStorage :=
  if addrI = 1 ∧ wrI then { m with memory := m.memory ++ [toInt dataI] } else m

/-- `LAYERS_STORAGE::issue_element`. -/
def issueElement (m : LayersStorage) : LayersStorage :=
  { m with dataO := guardedRead m.memory m.index 0 }

end LayersStorage

/-- `WEIGHT_STORAGE`. -/
structure WeightStorage (F : Type) (n : Nat) where
  memory : List F := []
  dataOutBusO : Fin n → F

namespace WeightStorage

/-- `WEIGHT_STORAGE::add_to_memory`. -/
def addToMemory (addrIoBusI : Int) (dataIoBusI : F) (wrIoBusI : Bool) (m : WeightStorage F n) :
    WeightStorage F n :=
  if addrIoBusI = 3 ∧ wrIoBusI then { m with memory := m.memory ++ [dataIoBusI] } else m

/-- `WEIGHT_STORAGE::issue_element`. -/
def issueElement (addrOutBusI : Fin n → Int) (m : WeightStorage F n) : WeightStorage F n :=
  { m with dataOutBusO := fun i => guardedRead m.memory (addrOutBusI i) (ofInt 0) }

end WeightStorage

/-- The two `SC_MANY_WRITERS` signals of `sc_main`, `data_io_bus` and `wr_io_bus`. -/
structure IoBus (F : Type) where
  data : F
  wr : Bool

/-- `PREVIOUS_LAYER`; `stopped` records that it has called `sc_stop()`. -/
structure PreviousLayer (F : Type) (n : Nat) where
  memory : List F := []
  indexToOut : Nat := 0
  dataPcBusO : Fin n → F
  stopped : Bool := false

namespace PreviousLayer

/-- `PREVIOUS_LAYER::add_to_mem`. -/
def addToMem (addrIoBusI : Int) (dataIoBus : F) (wrIoBus wrToMemoryFromMemI : Bool)
    (dataMemBusI : F) (m : PreviousLayer F n) : PreviousLayer F n :=
  let m := if wrIoBus ∧ addrIoBusI = 2 then { m with memory := m.memory ++ [dataIoBus] } else m
  if wrToMemoryFromMemI then { m with memory := m.memory ++ [dataMemBusI] } else m

/-- `PREVIOUS_LAYER::issue_element_IO`, which also writes the two bus signals. -/
def issueElementIo (wrToOutI : Bool) (m : PreviousLayer F n × IoBus F) :
    PreviousLayer F n × IoBus F :=
  if wrToOutI then
    if i32 m.1.memory.length > m.1.indexToOut then
      ({ m.1 with indexToOut := m.1.indexToOut + 1 },
        { data := m.1.memory.getD m.1.indexToOut (ofInt 0), wr := true })
    else ({ m.1 with stopped := true }, m.2)
  else m

/-- `PREVIOUS_LAYER::issue_element_PC`. -/
def issueElementPc (addrPcBusI : Fin n → Int) (m : PreviousLayer F n) : PreviousLayer F n :=
  { m with dataPcBusO := fun i => guardedRead m.memory (addrPcBusI i) (ofInt (-1)) }

/-- `PREVIOUS_LAYER::clear`. -/
def clear (clrI : Bool) (m : PreviousLayer F n) : PreviousLayer F n :=
  if clrI then { m with memory := [], indexToOut := 0 } else m

/-- The words one edge pushes into the memory. -/
def arriving (addrIoBusI : Int) (dataIoBus : F) (wrIoBus wrToMemoryFromMemI : Bool)
    (dataMemBusI : F) : List F :=
  (if wrIoBus ∧ addrIoBusI = 2 then [dataIoBus] else []) ++
    (if wrToMemoryFromMemI then [dataMemBusI] else [])

omit [Binary32Ops F] in
/-- The memory grows by what arrives in the edge. -/
lemma addToMem_eq (a : Int) (d : F) (wr wm : Bool) (dm : F) (m : PreviousLayer F n) :
    m.addToMem a d wr wm dm = { m with memory := m.memory ++ arriving a d wr wm dm } := by
  simp only [addToMem, arriving]
  split_ifs <;> simp

/-- Issuing words to the processors leaves the memory. -/
@[simp] lemma issueElementPc_memory (a : Fin n → Int) (m : PreviousLayer F n) :
    (m.issueElementPc a).memory = m.memory := rfl

/-- Issuing words to the processors leaves the index of the output. -/
@[simp] lemma issueElementPc_indexToOut (a : Fin n → Int) (m : PreviousLayer F n) :
    (m.issueElementPc a).indexToOut = m.indexToOut := rfl

/-- Issuing words to the processors does not stop the simulation. -/
@[simp] lemma issueElementPc_stopped (a : Fin n → Int) (m : PreviousLayer F n) :
    (m.issueElementPc a).stopped = m.stopped := rfl

end PreviousLayer

/-- `PREVIOUS_LAYER_SIZE`. -/
structure PreviousLayerSize where
  layerSize : Int := 0
  dataO : Int := 0

namespace PreviousLayerSize

/-- `PREVIOUS_LAYER_SIZE::save_new_element`. -/
def saveNewElement (saveI : Bool) (dataI : Int) (m : PreviousLayerSize) : PreviousLayerSize :=
  if saveI then { m with layerSize := dataI } else m

/-- `PREVIOUS_LAYER_SIZE::pass_new_element`. -/
def passNewElement (m : PreviousLayerSize) : PreviousLayerSize := { m with dataO := m.layerSize }

end PreviousLayerSize

/-- `NEXT_LAYER`. Its vector is only reserved, never resized: a slot is a word of the reserved
storage. `overrun` records that an index was not below the `MEM_SIZE` words of that storage, which is
undefined behaviour; from there on the words behind them stand for what the heap holds, and the state
for a program that has not crashed. -/
structure NextLayer (F : Type) where
  memory : Nat → F
  index : Nat := 0
  dataO : F
  overrun : Bool := false

namespace NextLayer

/-- One turn of the loop of `NEXT_LAYER::add_to_memory`. It is the one of the sources as long as it
leaves `overrun` low. -/
def store (memSize : Nat) (wI : Bool) (addrI : Nat) (dataI : F) (m : NextLayer F) : NextLayer F :=
  if wI then
    { m with
      memory := Function.update m.memory addrI dataI
      index := 0
      overrun := m.overrun || decide (memSize ≤ addrI) }
  else m

/-- `NEXT_LAYER::add_to_memory`. -/
def addToMemory (memSize : Nat) (wI : Fin n → Bool) (addrI : Fin n → Nat) (dataI : Fin n → F)
    (m : NextLayer F) : NextLayer F :=
  (List.finRange n).foldl (fun m i => m.store memSize (wI i) (addrI i) (dataI i)) m

/-- `NEXT_LAYER::issue_element`. -/
def issueElement (memSize : Nat) (nextI : Bool) (m : NextLayer F) : NextLayer F :=
  if nextI then
    { m with
      dataO := m.memory m.index
      index := m.index + 1
      overrun := m.overrun || decide (memSize ≤ m.index) }
  else m

end NextLayer

end NnProcessor.Model
