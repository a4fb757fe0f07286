import NnProcessor.Model.System

/-!
# The network the hardware computes

What the units of the system compute from the words they were sent, with the arithmetic and the
guarded reads of the sources and without any clock: a `LayerJob` is the work of one layer iteration,
`Config.activation j` the contents of `PREVIOUS_LAYER` in front of iteration `j`, and
`Config.results` the words that are printed. The invariants of the run are stated against these
functions; how they relate to the exact network is the subject of `Network/Reference.lean`.
-/

namespace NnProcessor.Model
open NnProcessor.Arith

variable {F : Type} [Binary32Ops F]

/-- One weight that is added into a sum: for which neuron, whether as its bias, and from where. -/
structure WeightUse where
  neuron : Nat
  bias : Bool
  address : Int
  deriving DecidableEq

/-- The parameters a processor sees in one layer iteration: the weight base, the size of the
previous layer, and the two memories. -/
structure LayerJob (F : Type) where
  start : Int
  size : Int
  weights : List F
  memory : List F

namespace LayerJob

variable (job : LayerJob F)

/-- The address of the weight `i` of the neuron `x`; the bias is the one at `size`. -/
def addr (x : Nat) (i : Int) : Int := weightAddress job.start job.size x i

/-- The word the weight storage issues for an address. -/
def weight (a : Int) : F := guardedRead job.weights a (ofInt 0)

/-- The word the previous layer issues for an address. -/
def input (i : Int) : F := guardedRead job.memory i (ofInt (-1))

/-- The number of turns of the input loop. -/
def inputs : Nat := job.size.toNat

/-- `sum_reg` after `i` turns of the input loop. -/
def partialSum (x : Nat) : Nat → F
  | 0 => ofInt 0
  | i + 1 =>
    Binary32Ops.add (partialSum x i) (Binary32Ops.mul (job.input i) (job.weight (job.addr x i)))

/-- The word a processor stores for the neuron `x`. -/
def result (x : Nat) : F :=
  sigmoid (Binary32Ops.add (job.partialSum x job.inputs) (job.weight (job.addr x job.size)))

/-- The weights of the first `i` turns of the input loop. -/
def inputUses (x i : Nat) : Multiset WeightUse :=
  (Multiset.range i).map fun k : Nat => { neuron := x, bias := false, address := job.addr x k }

/-- All weights of the neuron `x`. -/
def uses (x : Nat) : Multiset WeightUse :=
  { neuron := x, bias := true, address := job.addr x job.size } ::ₘ job.inputUses x job.inputs

omit [Binary32Ops F] in
/-- A further input is one more use. -/
lemma inputUses_succ (x i : Nat) :
    job.inputUses x (i + 1) =
      { neuron := x, bias := false, address := job.addr x i } ::ₘ job.inputUses x i := by
  simp [inputUses, Multiset.range_succ]

end LayerJob

namespace Config

variable (cfg : Config F)

/-- The layer sizes as they arrive: each has travelled over the `float` bus. -/
def received : List Int := cfg.layers.map floatInt

/-- The size the layer queue issues at the index `j`; past its end it issues 0. -/
def size (j : Nat) : Int := cfg.received.getD j 0

/-- The value of `CONTROLLER.layers` after loading. -/
def count : Int := floatInt cfg.layers.length

/-- The number of turns of the layer loop of `CONTROLLER::process`. -/
def iterations : Nat := (i32 (cfg.count - 1)).toNat

/-- The number of words `copy_memory` copies in iteration `i`. -/
def width (i : Nat) : Nat := (cfg.size (i + 1)).toNat

/-- The number of neurons `GENERATOR` dispatches in iteration `i`: it counts before it compares,
and an empty layer still gets one. -/
def dispatches (i : Nat) : Nat := max (cfg.width i) 1

/-- `start_weight_adderess_o` in iteration `i`. -/
def base : Nat → Int
  | 0 => 0
  | i + 1 => i32 (i32 (i32 (cfg.size i + 1) * cfg.size (i + 1)) + base i)

/-- The work of iteration `i` on the words `memory`. -/
def jobOn (i : Nat) (memory : List F) : LayerJob F :=
  { start := cfg.base i, size := cfg.size i, weights := cfg.weights, memory }

/-- The contents of `PREVIOUS_LAYER` in front of iteration `i`. -/
def activation : Nat → List F
  | 0 => cfg.picture
  | i + 1 => (List.range (cfg.width i)).map (cfg.jobOn i (activation i)).result

/-- The work of iteration `i`. -/
def job (i : Nat) : LayerJob F := cfg.jobOn i (cfg.activation i)

/-- The weights iteration `i` uses. -/
def usesOf (i : Nat) : Multiset (Option Nat × WeightUse) :=
  ((Multiset.range (cfg.dispatches i)).bind (cfg.job i).uses).map fun u => (some i, u)

/-- The weights the iterations in front of `i` use. -/
def usesBefore (i : Nat) : Multiset (Option Nat × WeightUse) := ∑ j ∈ Finset.range i, cfg.usesOf j

/-- The uses of an iteration come behind those before it. -/
lemma usesBefore_succ (i : Nat) : cfg.usesBefore (i + 1) = cfg.usesBefore i + cfg.usesOf i :=
  Finset.sum_range_succ _ _

/-- The activations of a layer are its results. -/
lemma activation_succ (i : Nat) :
    cfg.activation (i + 1) = (List.range (cfg.width i)).map (cfg.job i).result := rfl

/-- A layer has as many activations as neurons. -/
@[simp] lemma length_activation_succ (i : Nat) :
    (cfg.activation (i + 1)).length = cfg.width i := by
  simp [activation_succ]

/-- The number of `RESULT` lines of a run. -/
def resultCount : Nat := (i32 (cfg.activation cfg.iterations).length).toNat

/-- The words of the `RESULT` lines of a run. -/
def results : List F := (cfg.activation cfg.iterations).take cfg.resultCount

end Config

end NnProcessor.Model
