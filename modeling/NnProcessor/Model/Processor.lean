import NnProcessor.Model.Storage

/-!
# PROCESSOR

The multiply-accumulate unit with its queue of neuron numbers.
-/

namespace NnProcessor.Model
open NnProcessor.Arith

variable {F : Type} [Binary32Ops F]

/-- The `wait()`s of `PROCESSOR::process`: the one for a neuron, the two behind each address of the
input loop, the two behind the address of the bias, and the one behind the result. -/
inductive ProcessThread where
  | start
  | waitQueue
  | inputAddr (i : Nat)
  | inputWait (i : Nat)
  | biasAddr
  | biasWait
  | store
  deriving DecidableEq

/-- `PROCESSOR`; `sumReg` and `numberOfNn` are the local variables of `process`. -/
structure Processor (F : Type) where
  isWorking : Bool := false
  queueNnNumber : List Nat := []
  countNeuronsCalc : Nat := 0
  thread : ProcessThread := .start
  sumReg : F
  numberOfNn : Nat := 0
  queueSizeO : Nat := 0
  contrEmptyO : Bool := false
  resmemAddrO : Nat := 0
  resmemDataO : F
  resmemWO : Bool := false
  prevmemAddrO : Int := 0
  weightAddrO : Int := 0

/-- `PROCESSOR` behind the initialization phase. -/
def Processor.initial : Processor F :=
  { contrEmptyO := true, sumReg := ofInt 0, resmemDataO := ofInt 0 }

/-- The input ports `PROCESSOR::process` reads. -/
structure ProcessorIn (F : Type) where
  contrStartWeightAddressI : Int
  prevmemDataI : F
  weightDataI : F
  prevmemSizeI : Int

/-- `contr_start_weight_address_i + (prevmem_size_i + 1) * number_of_nn + i`. -/
def weightAddress (start size : Int) (number : Nat) (i : Int) : Int :=
  i32 (i32 (start + i32 (i32 (size + 1) * number)) + i)

namespace Processor

/-- `PROCESSOR::add_to_queue` of the processor with the number `address`. -/
def addToQueue (queueSize address queueAddressI queueDataI : Nat) (queueWI : Bool)
    (m : Processor F) : Processor F :=
  let m :=
    if queueAddressI = address ∧ queueWI ∧ m.queueNnNumber.length < queueSize then
      { m with queueNnNumber := m.queueNnNumber ++ [queueDataI], contrEmptyO := false }
    else m
  { m with
    queueSizeO := m.queueNnNumber.length
    contrEmptyO := if m.queueNnNumber.length = 0 then !m.isWorking else m.contrEmptyO }

/-- The input loop of `PROCESSOR::process`, at its test. -/
def inputLoop (i : Nat) (w : ProcessorIn F) (m : Processor F) : Processor F :=
  if (i : Int) < w.prevmemSizeI then
    { m with
      weightAddrO := weightAddress w.contrStartWeightAddressI w.prevmemSizeI m.numberOfNn i
      prevmemAddrO := i
      thread := .inputAddr i }
  else
    { m with
      weightAddrO :=
        weightAddress w.contrStartWeightAddressI w.prevmemSizeI m.numberOfNn w.prevmemSizeI
      thread := .biasAddr }

omit [Binary32Ops F] in
/-- The test of the loop leaves `is_working`. -/
@[simp] lemma inputLoop_isWorking (i : Nat) (w : ProcessorIn F) (m : Processor F) :
    (m.inputLoop i w).isWorking = m.isWorking := by
  unfold inputLoop
  split <;> rfl

omit [Binary32Ops F] in
/-- The test of the loop leaves the queue. -/
@[simp] lemma inputLoop_queueNnNumber (i : Nat) (w : ProcessorIn F) (m : Processor F) :
    (m.inputLoop i w).queueNnNumber = m.queueNnNumber := by
  unfold inputLoop
  split <;> rfl

omit [Binary32Ops F] in
/-- The test of the loop counts no neuron. -/
@[simp] lemma inputLoop_countNeuronsCalc (i : Nat) (w : ProcessorIn F) (m : Processor F) :
    (m.inputLoop i w).countNeuronsCalc = m.countNeuronsCalc := by
  unfold inputLoop
  split <;> rfl

omit [Binary32Ops F] in
/-- The test of the loop adds nothing to the sum. -/
@[simp] lemma inputLoop_sumReg (i : Nat) (w : ProcessorIn F) (m : Processor F) :
    (m.inputLoop i w).sumReg = m.sumReg := by
  unfold inputLoop
  split <;> rfl

omit [Binary32Ops F] in
/-- The test of the loop leaves the length that is shown. -/
@[simp] lemma inputLoop_queueSizeO (i : Nat) (w : ProcessorIn F) (m : Processor F) :
    (m.inputLoop i w).queueSizeO = m.queueSizeO := by
  unfold inputLoop
  split <;> rfl

omit [Binary32Ops F] in
/-- The test of the loop leaves the write port. -/
@[simp] lemma inputLoop_resmemWO (i : Nat) (w : ProcessorIn F) (m : Processor F) :
    (m.inputLoop i w).resmemWO = m.resmemWO := by
  unfold inputLoop
  split <;> rfl

omit [Binary32Ops F] in
/-- The test of the loop leaves the result that is shown. -/
@[simp] lemma inputLoop_resmemDataO (i : Nat) (w : ProcessorIn F) (m : Processor F) :
    (m.inputLoop i w).resmemDataO = m.resmemDataO := by
  unfold inputLoop
  split <;> rfl

omit [Binary32Ops F] in
/-- Behind the test of the loop a word is addressed, and nothing is stored. -/
@[simp] lemma inputLoop_thread (i : Nat) (w : ProcessorIn F) (m : Processor F) :
    (m.inputLoop i w).thread ≠ .store := by
  unfold inputLoop
  split <;> simp

/-- The top of `PROCESSOR::process`: take a neuron, or wait for one. -/
def takeNeuron (w : ProcessorIn F) (m : Processor F) : Processor F :=
  match m.queueNnNumber with
  | [] => { m with thread := .waitQueue }
  | x :: rest =>
    inputLoop 0 w
      { m with isWorking := true, sumReg := ofInt 0, numberOfNn := x, queueNnNumber := rest }

/-- A processor that takes a neuron does not write a result at once. -/
@[simp] lemma takeNeuron_thread (w : ProcessorIn F) (m : Processor F) :
    (m.takeNeuron w).thread ≠ .store := by
  unfold takeNeuron
  split <;> simp

/-- A processor that takes a neuron leaves the result that is shown. -/
@[simp] lemma takeNeuron_resmemDataO (w : ProcessorIn F) (m : Processor F) :
    (m.takeNeuron w).resmemDataO = m.resmemDataO := by
  unfold takeNeuron
  split <;> simp

/-- A neuron is not counted when it is taken. -/
@[simp] lemma takeNeuron_countNeuronsCalc (w : ProcessorIn F) (m : Processor F) :
    (m.takeNeuron w).countNeuronsCalc = m.countNeuronsCalc := by
  unfold takeNeuron
  split <;> simp

/-- `PROCESSOR::process`, resumed. -/
def process (w : ProcessorIn F) (m : Processor F) : Processor F :=
  match m.thread with
  | .start | .waitQueue => m.takeNeuron w
  | .inputAddr i => { m with thread := .inputWait i }
  | .inputWait i =>
    inputLoop (i + 1) w
      { m with sumReg := Binary32Ops.add m.sumReg (Binary32Ops.mul w.prevmemDataI w.weightDataI) }
  | .biasAddr => { m with thread := .biasWait }
  | .biasWait =>
    let sum := Binary32Ops.add m.sumReg w.weightDataI
    { m with
      sumReg := sum
      resmemAddrO := m.numberOfNn
      resmemDataO := sigmoid sum
      resmemWO := true
      thread := .store }
  | .store =>
    takeNeuron w
      { m with
        resmemWO := false
        isWorking := false
        countNeuronsCalc := m.countNeuronsCalc + 1 }

end Processor

end NnProcessor.Model
