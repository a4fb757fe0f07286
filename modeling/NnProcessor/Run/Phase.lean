import NnProcessor.Network.Machine

/-!
# The phases of a run

Apart from the layer computation every edge of a run has a fixed place: `Phase` names it and
`Phase.next` says which phase follows. The computation of a layer is the one phase whose length is
not fixed; it ends when `END_REDUCER` shows the end to the controller. `controllerAt` and `copyAt`
are the whole states of `CONTROLLER` and `PREVIOUS_LAYER_CONTROLLER` in a phase.
-/

namespace NnProcessor.Model
open NnProcessor.Arith

variable {F : Type} [Binary32Ops F]

/-- A phase of the run. `load t` is the edge `t` of the transmission; the phases of the layer
iteration `i` are named after the `wait()` at which the controller stands, and its last wait is
split by the progress of `copy_memory`. -/
inductive Phase where
  | load (t : Nat)
  | savePrev (i : Nat)
  | nextLayer (i : Nat)
  | startGenerator (i : Nat)
  | settle (i : Nat)
  | compute (i : Nat)
  | clear (i : Nat)
  | startClone (i : Nat)
  | copyFirst (i : Nat)
  | copying (i j : Nat)
  | cloned (i : Nat)
  | writeOut
  | output (k : Nat)
  | stopped
  deriving DecidableEq

/-- The layer iteration a phase belongs to. -/
def Phase.layer : Phase → Option Nat
  | .savePrev i | .nextLayer i | .startGenerator i | .settle i | .compute i | .clear i
  | .startClone i | .copyFirst i | .copying i _ | .cloned i => some i
  | _ => none

namespace Config

variable (cfg : Config F)

/-- The words behind the picture, when `rest` are the weights still to be sent. -/
def weightWords (rest : List F) : List (Int × F) :=
  (rest.map fun x => (3, x)) ++ [(0, negInfinity)]

/-- The words behind the layer sizes, when `rest` is the picture still to be sent. -/
def pictureWords (rest : List F) : List (Int × F) :=
  (rest.map fun x => (2, x)) ++ weightWords cfg.weights

/-- The words behind the number of layers, when `rest` are the sizes still to be sent. -/
def layerWords (rest : List Int) : List (Int × F) :=
  (rest.map fun l => (1, ofInt l)) ++ cfg.pictureWords cfg.picture

/-- The words `IO::write_data_to_system` sends, each with its address. -/
def words : List (Int × F) :=
  (0, infinity) :: (0, ofInt cfg.layers.length) :: cfg.layerWords cfg.layers

/-- What the first `t` words bring to the address `a`. -/
def loaded (a : Int) (t : Nat) : List F :=
  (cfg.words.take t).filterMap fun w => if w.1 = a then some w.2 else none

/-- The phase behind the layer loop's test of `i`. -/
def afterLayers (i : Nat) : Phase := if i < cfg.iterations then .savePrev i else .writeOut

/-- The phase behind an edge; `ended` is what `END_REDUCER` shows in front of it. -/
def next (ended : Bool) : Phase → Phase
  | .load t => if t < cfg.words.length then .load (t + 1) else cfg.afterLayers 0
  | .savePrev i => .nextLayer i
  | .nextLayer i => .startGenerator i
  | .startGenerator i => .settle i
  | .settle i => .compute i
  | .compute i => if ended then .clear i else .compute i
  | .clear i => .startClone i
  | .startClone i => .copyFirst i
  | .copyFirst i => if 0 < cfg.width i then .copying i 0 else .cloned i
  | .copying i j => if j + 1 < cfg.width i then .copying i (j + 1) else .cloned i
  | .cloned i => cfg.afterLayers (i + 1)
  | .writeOut => .output 0
  | .output k => if k < cfg.resultCount then .output (k + 1) else .stopped
  | .stopped => .stopped

/-- A phase that a run can reach. -/
def Valid : Phase → Prop
  | .load t => t ≤ cfg.words.length
  | .copying i j => i < cfg.iterations ∧ j < cfg.width i
  | .output k => k ≤ cfg.resultCount
  | .writeOut | .stopped => True
  | .savePrev i | .nextLayer i | .startGenerator i | .settle i | .compute i | .clear i
  | .startClone i | .copyFirst i | .cloned i => i < cfg.iterations

/-- A layer iteration that a run can reach is one of those it makes. -/
lemma Valid.lt {ph : Phase} (valid : cfg.Valid ph) {i : Nat} (layer : ph.layer = some i) :
    i < cfg.iterations := by
  cases ph with
  | load | writeOut | output | stopped => cases layer
  | copying =>
    cases layer
    exact valid.1
  | savePrev | nextLayer | startGenerator | settle | compute | clear | startClone | copyFirst
  | cloned =>
    cases layer
    exact valid

/-- Behind a layer comes the next one, or the output. -/
lemma Valid.afterLayers {i : Nat} : cfg.Valid (cfg.afterLayers i) := by
  unfold Config.afterLayers
  split
  · assumption
  · trivial

/-- Every phase leads to a reachable one. -/
lemma Valid.next {ph : Phase} (valid : cfg.Valid ph) (ended : Bool) :
    cfg.Valid (cfg.next ended ph) := by
  cases ph with
  | load t =>
    simp only [Config.next]
    split
    · assumption
    · exact Valid.afterLayers cfg
  | compute i => cases ended <;> exact valid
  | copyFirst i =>
    simp only [Config.next]
    split
    · next pos => exact ⟨valid, pos⟩
    · exact valid
  | copying i j =>
    simp only [Config.next]
    split
    · next more => exact ⟨valid.1, more⟩
    · exact valid.1
  | cloned i => exact Valid.afterLayers cfg
  | writeOut => exact Nat.zero_le _
  | output k =>
    simp only [Config.next]
    split
    · assumption
    · trivial
  | stopped => trivial
  | savePrev | nextLayer | startGenerator | settle | clear | startClone => exact valid

/-- `CONTROLLER.prev_layer` in front of the iteration `i`. -/
def sizeBefore : Nat → Int
  | 0 => 0
  | i + 1 => cfg.size i

/-- `CONTROLLER` at a `wait()` of the layer iteration `i`, with the size of the previous layer. -/
def iterating (i : Nat) (prevLayer : Int) (thread : ControlThread) : Controller :=
  { state := .startConv
    layers := cfg.count
    prevLayer
    thread
    startWeightAdderessO := cfg.base i }

/-- `LAYERS_STORAGE.index` in a phase. -/
def indexAt : Phase → Nat
  | .load _ => 0
  | .savePrev i | .nextLayer i => i
  | .startGenerator i | .settle i | .compute i | .clear i | .startClone i | .copyFirst i
  | .copying i _ | .cloned i => i + 1
  | .writeOut | .output _ | .stopped => cfg.iterations

/-- What `LAYERS_STORAGE` issues in the phases in which its output is read. -/
def issuedAt : Phase → Option Int
  | .savePrev i | .nextLayer i => some (cfg.size i)
  | .settle i | .compute i | .clear i | .startClone i | .copyFirst i | .copying i _ | .cloned i =>
    some (cfg.size (i + 1))
  | _ => none

/-- `CONTROLLER` in a phase. -/
def controllerAt : Phase → Controller
  | .load 0 => {}
  | .load 1 => { thread := .idle }
  | .load 2 => { state := .readData, thread := .readData }
  | .load _ => { layers := cfg.count, thread := .idle }
  | .savePrev i =>
    { cfg.iterating i (cfg.sizeBefore i) (.savePrev i) with savePrevLayerSizeO := true }
  | .nextLayer i => { cfg.iterating i (cfg.size i) (.nextLayer i) with nextLayerO := true }
  | .startGenerator i =>
    { cfg.iterating i (cfg.size i) (.startGenerator i) with startGeneratorO := true }
  | .settle i => cfg.iterating i (cfg.size i) (.settle i)
  | .compute i => cfg.iterating i (cfg.size i) (.waitEnd i)
  | .clear i => { cfg.iterating i (cfg.size i) (.clear i) with clrControllerLayerO := true }
  | .startClone i =>
    { cfg.iterating i (cfg.size i) (.startClone i) with startCloneControllerLayerO := true }
  | .copyFirst i | .copying i _ | .cloned i => cfg.iterating i (cfg.size i) (.waitClone i)
  | .writeOut | .output _ | .stopped =>
    { layers := cfg.count
      prevLayer := cfg.sizeBefore cfg.iterations
      thread := .idle
      writeOutControllerLayerO := true }

/-- What `PREVIOUS_LAYER_SIZE` keeps and issues in the phases in which this is known. -/
def keptAt : Phase → Option Int
  | .nextLayer i | .startGenerator i | .settle i | .compute i | .clear i | .startClone i
  | .copyFirst i | .copying i _ | .cloned i => some (cfg.size i)
  | _ => none

/-- `PREVIOUS_LAYER.memory` behind the transmission. -/
def previousAt : Phase → List F
  | .load t => cfg.loaded 2 (t - 1)
  | .savePrev i | .nextLayer i | .startGenerator i | .settle i | .compute i | .clear i
  | .startClone i => cfg.activation i
  | .copyFirst _ => []
  | .copying i j => (cfg.activation (i + 1)).take j
  | .cloned i => cfg.activation (i + 1)
  | .writeOut | .output _ | .stopped => cfg.activation cfg.iterations

/-- `PREVIOUS_LAYER.index_to_out` in a phase. -/
def outAt : Phase → Nat
  | .output k => k
  | .stopped => cfg.resultCount
  | _ => 0

/-- `PREVIOUS_LAYER_CONTROLLER` in a phase. -/
def copyAt : Phase → PreviousLayerController
  | .load 0 => {}
  | .startClone _ => { thread := .waitStart, clrO := true }
  | .copyFirst _ => { thread := .first, nextO := true }
  | .copying i j =>
    { thread := .copying j, wrToMemoryFromMemO := true, nextO := decide (j + 1 < cfg.width i) }
  | .cloned _ => { thread := .ended, endCloneO := true }
  | .output _ | .stopped => { thread := .waitStart, wrToOutO := true }
  | _ => { thread := .waitStart }

/-- A layer iteration is only left behind its clone. -/
lemma leaves_cloned {ph : Phase} {i : Nat} (layer : ph.layer = some i) {ended : Bool}
    (leaves : (cfg.next ended ph).layer ≠ some i) : ph = .cloned i := by
  cases ph with
  | load | writeOut | output | stopped => cases layer
  | compute j => cases ended <;> exact absurd layer leaves
  | copyFirst j =>
    simp only [next] at leaves
    split at leaves <;> exact absurd layer leaves
  | copying j k =>
    simp only [next] at leaves
    split at leaves <;> exact absurd layer leaves
  | cloned j => exact congrArg Phase.cloned (Option.some.inj layer)
  | savePrev | nextLayer | startGenerator | settle | clear | startClone =>
    exact absurd layer leaves

omit [Binary32Ops F] in
/-- The controller stands in the layer iteration of the phase. -/
lemma controllerAt_layer (ph : Phase) : (cfg.controllerAt ph).thread.layer = ph.layer := by
  cases ph with
  | load t => rcases t with _ | _ | _ | t <;> rfl
  | savePrev | nextLayer | startGenerator | settle | compute | clear | startClone | copyFirst
  | copying | cloned | writeOut | output | stopped => rfl

/-- The phase of a `wait()` at which the controller stands in one phase only. -/
def phaseOf : ControlThread → Option Phase
  | .savePrev i => some (.savePrev i)
  | .nextLayer i => some (.nextLayer i)
  | .startGenerator i => some (.startGenerator i)
  | .settle i => some (.settle i)
  | .waitEnd i => some (.compute i)
  | .clear i => some (.clear i)
  | .startClone i => some (.startClone i)
  | .start | .idle | .readData | .waitClone _ => none

omit [Binary32Ops F] in
/-- Such a `wait()` tells the phase. -/
lemma phase_of_thread {ph ph' : Phase} (h : phaseOf (cfg.controllerAt ph).thread = some ph') :
    ph = ph' := by
  cases ph with
  | load t => rcases t with _ | _ | _ | t <;> cases h
  | savePrev | nextLayer | startGenerator | settle | compute | clear | startClone =>
    exact Option.some.inj h
  | copyFirst | copying | cloned | writeOut | output | stopped => cases h

omit [Binary32Ops F] in
/-- Each command of the controller is high in one phase of an iteration. -/
lemma controllerAt_commands (ph : Phase) :
    ((cfg.controllerAt ph).savePrevLayerSizeO = true → ∃ i, ph = .savePrev i) ∧
      ((cfg.controllerAt ph).nextLayerO = true → ∃ i, ph = .nextLayer i) ∧
      ((cfg.controllerAt ph).startGeneratorO = true → ∃ i, ph = .startGenerator i) ∧
      ((cfg.controllerAt ph).clrControllerLayerO = true → ∃ i, ph = .clear i) ∧
      ((cfg.controllerAt ph).startCloneControllerLayerO = true → ∃ i, ph = .startClone i) := by
  refine ⟨?_, ?_, ?_, ?_, ?_⟩ <;> intro high <;> cases ph with
  | load t => rcases t with _ | _ | _ | t <;> cases high
  | savePrev i | nextLayer i | startGenerator i | settle i | compute i | clear i | startClone i
  | copyFirst i | copying i _ | cloned i => first | exact ⟨i, rfl⟩ | cases high
  | writeOut | output | stopped => cases high

omit [Binary32Ops F] in
/-- So are the signals of `PREVIOUS_LAYER_CONTROLLER`. -/
lemma copyAt_commands (ph : Phase) :
    ((cfg.copyAt ph).clrO = true → ∃ i, ph = .startClone i) ∧
      ((cfg.copyAt ph).thread = .first → ∃ i, ph = .copyFirst i) ∧
      ((cfg.copyAt ph).wrToMemoryFromMemO = true → ∃ i j, ph = .copying i j) ∧
      ((cfg.copyAt ph).endCloneO = true → ∃ i, ph = .cloned i) := by
  refine ⟨?_, ?_, ?_, ?_⟩ <;> intro high <;> cases ph with
  | load t => rcases t with _ | t <;> cases high
  | copying i j => first | exact ⟨i, j, rfl⟩ | cases high
  | savePrev i | nextLayer i | startGenerator i | settle i | compute i | clear i | startClone i
  | copyFirst i | cloned i => first | exact ⟨i, rfl⟩ | cases high
  | writeOut | output | stopped => cases high

omit [Binary32Ops F] in
/-- While `copy_memory` copies, and when it shows its end, the next size is issued. -/
lemma copy_issued {ph : Phase} {i : Nat} (layer : ph.layer = some i)
    (h : (cfg.copyAt ph).thread = .first ∨ (∃ j, (cfg.copyAt ph).thread = .copying j) ∨
      (cfg.copyAt ph).endCloneO = true) : cfg.issuedAt ph = some (cfg.size (i + 1)) := by
  cases ph with
  | copyFirst j | copying j _ | cloned j =>
    rw [← Option.some.inj layer]
    rfl
  | load | writeOut | output | stopped => cases layer
  | savePrev | nextLayer | startGenerator | settle | compute | clear | startClone =>
    rcases h with h | ⟨j, h⟩ | h <;> cases h

/-- `next_layer` is the only step of the layer queue. -/
lemma indexAt_next {ph : Phase} (valid : cfg.Valid ph) (ended : Bool) :
    cfg.indexAt (cfg.next ended ph) =
      if (cfg.controllerAt ph).nextLayerO then cfg.indexAt ph + 1 else cfg.indexAt ph := by
  have after : ∀ i ≤ cfg.iterations, cfg.indexAt (cfg.afterLayers i) = i := by
    intro i le
    unfold Config.afterLayers
    split
    · rfl
    · next none => exact le_antisymm (not_lt.1 none) le
  cases ph with
  | load t =>
    rcases t with _ | _ | _ | t <;> simp only [Config.next] <;> split <;>
      first | rfl | exact after 0 (Nat.zero_le _)
  | compute i => cases ended <;> rfl
  | copyFirst i =>
    simp only [Config.next]
    split <;> rfl
  | copying i j =>
    simp only [Config.next]
    split <;> rfl
  | cloned i => exact after (i + 1) valid
  | output k =>
    simp only [Config.next]
    split <;> rfl
  | savePrev | nextLayer | startGenerator | settle | clear | startClone | writeOut | stopped => rfl

end Config

end NnProcessor.Model
