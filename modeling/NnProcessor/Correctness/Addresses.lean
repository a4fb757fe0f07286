import NnProcessor.Correctness.Termination

/-!
# The weight addresses

Over a whole run every weight address is used exactly once: the neurons of a layer use neighbouring
runs of addresses and the layers neighbouring blocks (`addresses_partition`). The addresses are
exact, since no step of their computation leaves the range of `int`, and therefore never negative.
-/

namespace NnProcessor.Arith

/-- Neighbouring runs of the same length make up one block. -/
lemma bind_range_mul (m n : Nat) :
    ((Multiset.range n).bind fun x => (Multiset.range m).map fun i => m * x + i) =
      Multiset.range (m * n) := by
  induction n with
  | zero => simp
  | succ n ih =>
    rw [Multiset.range_succ, Multiset.cons_bind, ih, Nat.mul_succ, Multiset.range_add, add_comm]

end NnProcessor.Arith

namespace NnProcessor.Model
open NnProcessor.Arith

variable {F : Type}

/-- No step of `start + (size + 1) * number + i` leaves the range of `int`. -/
structure AddressFits (start size : Int) (number : Nat) (i : Int) : Prop where
  row : Fits (size + 1)
  product : Fits ((size + 1) * number)
  base : Fits (start + (size + 1) * number)
  address : Fits (start + (size + 1) * number + i)

/-- Then the address is exact. -/
lemma AddressFits.exact {start size : Int} {number : Nat} {i : Int}
    (fits : AddressFits start size number i) :
    weightAddress start size number i = start + (size + 1) * number + i := by
  rw [weightAddress, i32_eq fits.row, i32_eq fits.product, i32_eq fits.base, i32_eq fits.address]

/-- What one step of a processor does with its address ports. -/
inductive AddressStep (w : ProcessorIn F) (p p' : Processor F) : Prop
  | input (i : Nat) (thread : p'.thread = .inputAddr i) (lt : i < w.prevmemSizeI)
      (weight : p'.weightAddrO =
        weightAddress w.contrStartWeightAddressI w.prevmemSizeI p'.numberOfNn i)
      (prevmem : p'.prevmemAddrO = i)
  | bias (thread : p'.thread = .biasAddr)
      (weight : p'.weightAddrO =
        weightAddress w.contrStartWeightAddressI w.prevmemSizeI p'.numberOfNn w.prevmemSizeI)
      (prevmem : p'.prevmemAddrO = p.prevmemAddrO)
  | hold (input : ∀ i, p'.thread ≠ .inputAddr i) (bias : p'.thread ≠ .biasAddr)
      (weight : p'.weightAddrO = p.weightAddrO) (prevmem : p'.prevmemAddrO = p.prevmemAddrO)

/-- The input loop writes the addresses of its next turn, or the one of the bias. -/
lemma Processor.inputLoop_addresses (i : Nat) (w : ProcessorIn F) {p q : Processor F}
    (prevmem : q.prevmemAddrO = p.prevmemAddrO) : AddressStep w p (q.inputLoop i w) := by
  by_cases more : (i : Int) < w.prevmemSizeI
  · have eq : q.inputLoop i w = _ := if_pos more
    rw [eq]
    exact .input i rfl more rfl rfl
  · have eq : q.inputLoop i w = _ := if_neg more
    rw [eq]
    exact .bias rfl rfl prevmem

/-- Taking a neuron writes the first addresses of the neuron. -/
lemma Processor.takeNeuron_addresses [Binary32Ops F] (w : ProcessorIn F) {p q : Processor F}
    (weight : q.weightAddrO = p.weightAddrO) (prevmem : q.prevmemAddrO = p.prevmemAddrO) :
    AddressStep w p (q.takeNeuron w) := by
  cases queue : q.queueNnNumber with
  | nil =>
    simp only [Processor.takeNeuron, queue]
    exact .hold (by simp) (by simp) weight prevmem
  | cons x rest =>
    simp only [Processor.takeNeuron, queue]
    exact inputLoop_addresses 0 w prevmem

/-- Every step of a processor is of one of these kinds. -/
lemma Processor.process_addresses [Binary32Ops F] (w : ProcessorIn F) (p : Processor F) :
    AddressStep w p (p.process w) := by
  unfold Processor.process
  cases ht : p.thread with
  | start | waitQueue => exact takeNeuron_addresses w rfl rfl
  | store => exact takeNeuron_addresses w rfl rfl
  | inputWait i => exact inputLoop_addresses (i + 1) w rfl
  | inputAddr | biasAddr | biasWait => exact .hold (by simp) (by simp) rfl rfl

namespace Config

/-- The weights of the neuron `x` in the layer iteration `j`: one run of addresses, with the bias
last. -/
def neuronUses (cfg : Config F) (j x : Nat) : Multiset (Option Nat × WeightUse) :=
  (Multiset.range (cfg.layerSize j + 1)).map fun i =>
    (some j, {
      neuron := x
      bias := decide (i = cfg.layerSize j)
      address := (cfg.offset j + ((cfg.layerSize j + 1) * x + i) : Nat) })

/-- The weights of the layer iteration `j`. -/
def layerUses (cfg : Config F) (j : Nat) : Multiset (Option Nat × WeightUse) :=
  (Multiset.range (cfg.layerSize (j + 1))).bind (cfg.neuronUses j)

/-- The runs of a layer make up its block of addresses. -/
lemma layerUses_addresses (cfg : Config F) (j : Nat) :
    (cfg.layerUses j).map (fun u => u.2.address) =
      (Multiset.range ((cfg.layerSize j + 1) * cfg.layerSize (j + 1))).map
        fun a => ((cfg.offset j + a : Nat) : Int) := by
  rw [layerUses, Multiset.map_bind, ← bind_range_mul, Multiset.map_bind]
  refine Multiset.bind_congr fun x _ => ?_
  rw [neuronUses, Multiset.map_map, Multiset.map_map]
  rfl

/-- The blocks of the layers make up all addresses. -/
lemma sum_layerUses_addresses (cfg : Config F) (n : Nat) :
    (∑ j ∈ Finset.range n, cfg.layerUses j).map (fun u => u.2.address) =
      (Multiset.range (cfg.offset n)).map fun a : Nat => (a : Int) := by
  induction n with
  | zero => rfl
  | succ n ih =>
    rw [Finset.sum_range_succ, Multiset.map_add, ih, layerUses_addresses, offset_succ,
      Multiset.range_add, Multiset.map_add, Multiset.map_map]
    rfl

/-- The weights of one layer iteration among those of the first ones. -/
lemma filter_sum_layerUses (cfg : Config F) {n j : Nat} (lt : j < n) :
    (∑ i ∈ Finset.range n, cfg.layerUses i).filter (fun u => u.1 = some j) = cfg.layerUses j := by
  have layer : ∀ i, ∀ u ∈ cfg.layerUses i, u.1 = some i := by
    intro i u mem
    obtain ⟨x, -, mem⟩ := Multiset.mem_bind.1 mem
    obtain ⟨a, -, rfl⟩ := Multiset.mem_map.1 mem
    rfl
  have other : ∀ i ≠ j, (cfg.layerUses i).filter (fun u => u.1 = some j) = 0 := by
    intro i ne
    refine Multiset.filter_eq_nil.2 fun u mem eq => ne ?_
    exact Option.some.inj ((layer i u mem).symm.trans eq)
  induction n with
  | zero => omega
  | succ n ih =>
    rw [Finset.sum_range_succ, Multiset.filter_add]
    rcases Nat.lt_succ_iff_lt_or_eq.1 lt with before | rfl
    · rw [ih before, other n (by omega), add_zero]
    · have none : ∀ m ≤ j, (∑ i ∈ Finset.range m, cfg.layerUses i).filter
          (fun u => u.1 = some j) = 0 := by
        intro m le
        induction m with
        | zero => rfl
        | succ m ih =>
          rw [Finset.sum_range_succ, Multiset.filter_add, ih (by omega), other m (by omega),
            add_zero]
      rw [none j le_rfl, zero_add, Multiset.filter_eq_self.2 (layer j)]

/-- Where no later layer is empty, the weights an iteration uses are the ones of its layer. -/
lemma Domain.usesOf_eq [Binary32Ops F] {hw : Hw} {cfg : Config F} (dom : cfg.Domain hw)
    (pos : ∀ l ∈ cfg.layers.tail, 1 ≤ l) {j : Nat} (lt : j + 1 < cfg.layers.length) :
    cfg.usesOf j = cfg.layerUses j := by
  have one := one_le_layerSize pos lt
  have address : ∀ {x i : Nat}, x < cfg.layerSize (j + 1) → i ≤ cfg.layerSize j →
      (cfg.job j).addr x i = (cfg.offset j + ((cfg.layerSize j + 1) * x + i) : Nat) := by
    intro x i hx hi
    rw [← Nat.add_assoc]
    exact dom.addr_eq lt (lt_max_of_lt_left hx) hi _
  have inputs : (cfg.job j).inputs = cfg.layerSize j := by
    simp [LayerJob.inputs, job, jobOn, dom.size_eq]
  have size : (cfg.job j).size = cfg.layerSize j := dom.size_eq j
  rw [usesOf, layerUses, dom.dispatches_eq, max_eq_left one, Multiset.map_bind]
  refine Multiset.bind_congr fun x mem => ?_
  have hx := Multiset.mem_range.1 mem
  rw [LayerJob.uses, LayerJob.inputUses, inputs, size, neuronUses, Multiset.range_succ,
    Multiset.map_cons, Multiset.map_cons, address hx le_rfl, Multiset.map_map]
  congr 1
  · simp
  · refine Multiset.map_congr rfl fun i mem => ?_
    have hi := Multiset.mem_range.1 mem
    rw [Function.comp_apply, address hx hi.le, decide_eq_false hi.ne]

/-- The weights the first iterations use. -/
lemma Domain.usesBefore_eq [Binary32Ops F] {hw : Hw} {cfg : Config F} (dom : cfg.Domain hw)
    (pos : ∀ l ∈ cfg.layers.tail, 1 ≤ l) {n : Nat} (le : n ≤ cfg.layers.length - 1) :
    cfg.usesBefore n = ∑ j ∈ Finset.range n, cfg.layerUses j :=
  Finset.sum_congr rfl fun j mem => by
    have lt := Finset.mem_range.1 mem
    exact dom.usesOf_eq pos (by omega)

end Config

end NnProcessor.Model

namespace NnProcessor.Correctness
open NnProcessor.Arith NnProcessor.Model NnProcessor.Edge NnProcessor.Invariant

variable {hw : Hw} {F : Type}

/-- A stopped simulation has used every weight address below the number of weights once, each layer
the addresses of its own block and each neuron those of its own run. -/
structure AddressesPartitioned [Binary32Ops F] [DecidableEq F] (cfg : Config F) (env : Env hw F)
    (t : Nat) : Prop where
  used : (history cfg env t).used = ∑ j ∈ Finset.range (cfg.layers.length - 1), cfg.layerUses j
  addresses : (history cfg env t).used.map (fun u => u.2.address) =
    (Multiset.range (cfg.offset (cfg.layers.length - 1))).map fun a : Nat => (a : Int)
  block : ∀ j, j + 1 < cfg.layers.length →
    ((history cfg env t).used.filter fun u => u.1 = some j).map (fun u => u.2.address) =
      (Multiset.range ((cfg.layerSize j + 1) * cfg.layerSize (j + 1))).map
        fun a => ((cfg.offset j + a : Nat) : Int)

/-- No address computation of the edge from `s` to `s'` overflows. A processor that stands at
`inputAddr` or `biasAddr` has come there in this edge. -/
structure EdgeFits (s s' : System hw F) : Prop where
  input : ∀ k i, (s'.processors k).thread = .inputAddr i →
    AddressFits s.controller.startWeightAdderessO s.previousLayerSize.dataO
      (s'.processors k).numberOfNn i
  bias : ∀ k, (s'.processors k).thread = .biasAddr →
    AddressFits s.controller.startWeightAdderessO s.previousLayerSize.dataO
      (s'.processors k).numberOfNn s.previousLayerSize.dataO
  update : ∀ i, s.controller.thread = .startClone i ∨ s.controller.thread = .waitClone i →
    s.previousLayerController.endCloneO = true →
      Fits (s.controller.prevLayer + 1) ∧
        Fits ((s.controller.prevLayer + 1) * s.layersStorage.dataO) ∧
        Fits ((s.controller.prevLayer + 1) * s.layersStorage.dataO +
          s.controller.startWeightAdderessO)
  count : Fits (s.controller.layers - 1)

/-- The addresses on the ports are not negative, and what passes a guard is inside of the memory. -/
structure ReadsInRange (s : System hw F) : Prop where
  weight : ∀ k, 0 ≤ (s.processors k).weightAddrO ∧
    (i32 s.weightStorage.memory.length > (s.processors k).weightAddrO →
      (s.processors k).weightAddrO < s.weightStorage.memory.length)
  previous : ∀ k, 0 ≤ (s.processors k).prevmemAddrO ∧
    (i32 s.previousLayer.memory.length > (s.processors k).prevmemAddrO →
      (s.processors k).prevmemAddrO < s.previousLayer.memory.length)

/-- The conditions on the sizes: no layer is empty, each size is exact on the bus and fits in
`NEXT_LAYER`, and the number of weights is an `int`. -/
structure NonemptyLayers (hw : Hw) (cfg : Config F) : Prop where
  one : ∀ l ∈ cfg.layers, 1 ≤ l
  le : ∀ l ∈ cfg.layers, l ≤ 2 ^ 24
  fits : ∀ l ∈ cfg.layers.tail, l ≤ hw.memSize
  total : cfg.offset (cfg.layers.length - 1) ≤ 2 ^ 31 - 1

/-- Under these conditions the configuration is in the domain. -/
lemma NonemptyLayers.domain {cfg : Config F} (sizes : NonemptyLayers hw cfg) : cfg.Domain hw := by
  have mono : ∀ {i j : Nat}, i ≤ j → cfg.offset i ≤ cfg.offset j := fun le =>
    Finset.sum_le_sum_of_subset (Finset.range_subset_range.2 le)
  have total := sizes.total
  refine ⟨fun l mem => (sizes.one l mem).trans' (by decide),
    Config.layerSize_le_of_forall cfg (n := 2 ^ 24) (by exact_mod_cast sizes.le) 0, sizes.fits,
    ?_, ?_⟩
  · intro j lt
    have le := mono (show j ≤ cfg.layers.length - 1 by omega)
    omega
  · intro j lt
    have one := Config.one_le_layerSize (fun l mem => sizes.one l (List.mem_of_mem_tail mem)) lt
    have le := mono (show j + 1 ≤ cfg.layers.length - 1 by omega)
    rw [Config.offset_succ] at le
    rw [max_eq_left one]
    omega

/-- The address computation of a neuron of a layer does not overflow. -/
lemma addressFits_of_domain {cfg : Config F} (dom : cfg.Domain hw) {j x i : Nat}
    (lt : j + 1 < cfg.layers.length)
    (hx : x < cfg.dispatches j) (hi : i ≤ cfg.layerSize j) :
    AddressFits (cfg.offset j) (cfg.layerSize j) x i := by
  rw [dom.dispatches_eq] at hx
  have le := dom.layerSize_le j
  have block := dom.address j lt
  have row : (cfg.layerSize j + 1) * (x + 1) ≤
      (cfg.layerSize j + 1) * max (cfg.layerSize (j + 1)) 1 := Nat.mul_le_mul_left _ hx
  rw [Nat.mul_succ] at row
  have cast : ((cfg.layerSize j : Int) + 1) * (x : Int) =
      (((cfg.layerSize j + 1) * x : Nat) : Int) := by push_cast; ring
  constructor
  · exact ⟨by omega, by omega⟩
  · rw [cast]
    exact ⟨by omega, by omega⟩
  · rw [cast]
    exact ⟨by omega, by omega⟩
  · rw [cast]
    exact ⟨by omega, by omega⟩

variable [Binary32 F] [DecidableEq F] {cfg : Config F} {env : Env hw F}

/-- A processor that is busy behind an edge computes a neuron of a layer iteration. -/
lemma busy_neuron (finite : ∀ x ∈ cfg.results, ¬IsInfinite x) {t : Nat} {k : Fin hw.countPcUnit}
    (busy : ((run cfg env (t + 1)).processors k).thread.busy = true) :
    ∃ i, InIteration cfg env i t ∧
      ((run cfg env (t + 1)).processors k).numberOfNn < cfg.dispatches i := by
  have inv := mainInv_run cfg env finite t
  have inv' := mainInv_run cfg env finite (t + 1)
  have units := inv.units
  -- processors at rest stay at rest
  have rest : UnitsIdle (run cfg env t) → False := by
    intro idle
    have waiting : ((run cfg env (t + 1)).processors k).thread.busy = false := by
      cases st : (run cfg env t).stopped with
      | true =>
        rw [show run cfg env (t + 1) = run cfg env t from edge_stopped cfg _ st]
        exact (idle.processor k).thread
      | false => exact (idle.step_processor cfg (env.sched t) st k).thread
    rw [waiting] at busy
    cases busy
  -- behind the edge the layer is still computed
  have computing : ∀ i, LayerInv cfg i (history cfg env (t + 1)) (run cfg env (t + 1)) →
      ((run cfg env (t + 1)).processors k).numberOfNn < cfg.dispatches i := by
    intro i layer
    have mem : ((run cfg env (t + 1)).processors k).numberOfNn ∈
        Multiset.range (history cfg env (t + 1)).dispatched := by
      rw [← layer.conserved]
      refine Multiset.mem_add.2 (.inl (Multiset.mem_add.2 (.inr ?_)))
      refine Multiset.mem_sum.2 ⟨k, Finset.mem_univ k, ?_⟩
      rw [Processor.held_busy busy]
      exact Multiset.mem_cons_self _ _
    exact lt_of_lt_of_le (Multiset.mem_range.1 mem) layer.generator.le
  have iteration : ∀ i, i < cfg.iterations → (phaseAt cfg env t).layer = some i →
      InIteration cfg env i t := by
    intro i lt layer
    refine ⟨lt, ?_⟩
    rw [inv.controller, cfg.controllerAt_layer]
    exact layer
  cases ph : phaseAt cfg env t with
  | settle i =>
    have valid := inv.valid
    rw [ph] at valid
    have units' := inv'.units
    rw [phaseAt_succ ph] at units'
    exact ⟨i, iteration i valid (by rw [ph]; rfl), computing i units'.1⟩
  | compute i =>
    have valid := inv.valid
    rw [ph] at valid
    have units' := inv'.units
    rw [phaseAt_succ ph] at units'
    cases ended : (run cfg env t).cycleEnded with
    | false =>
      rw [ended] at units'
      exact ⟨i, iteration i valid (by rw [ph]; rfl), computing i units'.1⟩
    | true =>
      rw [ended] at units'
      have waiting := (units'.1.processor k).thread
      rw [waiting] at busy
      cases busy
  | load | savePrev | nextLayer | startGenerator | clear | startClone | copyFirst | copying
  | cloned | writeOut | output | stopped =>
    rw [ph] at units
    exact (rest units.1).elim

/-- The address ports move with the steps of the processor. -/
lemma address_step {t : Nat} (go : (run cfg env t).stopped = false) (k : Fin hw.countPcUnit) :
    AddressStep ((run cfg env t).wires.processorIn k) ((run cfg env t).processors k)
      ((run cfg env (t + 1)).processors k) := by
  have edge := edge_processor cfg (env.sched t) go k
  rw [show (run cfg env t).edge cfg (env.sched t) = run cfg env (t + 1) from rfl] at edge
  -- the push of the edge leaves the ports alone
  have ports : ∀ (q : Nat) (w : Bool) (a d : Nat) (p : Processor F),
      (p.addToQueue q k a d w).weightAddrO = p.weightAddrO ∧
        (p.addToQueue q k a d w).prevmemAddrO = p.prevmemAddrO := by
    intro q w a d p
    simp only [Processor.addToQueue]
    split <;> exact ⟨rfl, rfl⟩
  rw [edge]
  obtain ⟨weight, prevmem⟩ := ports hw.queueSize (run cfg env t).generator.wO
    (run cfg env t).generator.addressO (run cfg env t).generator.dataO
    ((run cfg env t).processors k)
  cases Processor.process_addresses ((run cfg env t).wires.processorIn k)
    (((run cfg env t).processors k).addToQueue hw.queueSize k (run cfg env t).generator.addressO
      (run cfg env t).generator.dataO (run cfg env t).generator.wO) with
  | input i thread lt weight' prevmem' => exact .input i thread lt weight' prevmem'
  | bias thread weight' prevmem' => exact .bias thread weight' (prevmem'.trans prevmem)
  | hold input bias weight' prevmem' =>
    exact .hold input bias (weight'.trans weight) (prevmem'.trans prevmem)

/-- The number of layers less one is an `int` in every state. -/
lemma count_fits (count : 0 ≤ cfg.count ∧ cfg.count ≤ cfg.layers.length)
    (finite : ∀ x ∈ cfg.results, ¬IsInfinite x) (t : Nat) :
    Fits ((run cfg env t).controller.layers - 1) := by
  have layers : (run cfg env t).controller.layers = 0 ∨
      (run cfg env t).controller.layers = cfg.count := by
    rw [(mainInv_run cfg env finite t).controller]
    cases phaseAt cfg env t with
    | load t => rcases t with _ | _ | _ | t <;> first | exact .inl rfl | exact .inr rfl
    | savePrev | nextLayer | startGenerator | settle | compute | clear | startClone | copyFirst
    | copying | cloned | writeOut | output | stopped => exact .inr rfl
  have long := cfg.layersCount_lt
  rcases layers with eq | eq <;> rw [eq] <;> exact ⟨by omega, by omega⟩

section Domain

variable (env) (dom : cfg.Domain hw) (count : 0 ≤ cfg.count ∧ cfg.count ≤ cfg.layers.length)
variable (finite : ∀ x ∈ cfg.results, ¬IsInfinite x)
include dom count finite

/-- No edge of a run overflows. -/
lemma edgeFits_run (t : Nat) : EdgeFits (run cfg env t) (run cfg env (t + 1)) := by
  have running : ∀ k, ((run cfg env (t + 1)).processors k).thread.busy = true →
      (run cfg env t).stopped = false := by
    intro k busy
    rw [← Bool.not_eq_true]
    intro stop
    have rest := (rest_at_end finite ((stopped_iff finite).1 stop)).processor k
    rw [show run cfg env (t + 1) = run cfg env t from edge_stopped cfg _ stop, rest.thread] at busy
    cases busy
  refine ⟨?_, ?_, ?_, count_fits count finite t⟩
  · intro k i thread
    have busy : ((run cfg env (t + 1)).processors k).thread.busy = true := by rw [thread]; rfl
    obtain ⟨j, it, lt⟩ := busy_neuron finite busy
    obtain ⟨size, start⟩ := (parameters_right dom it).processor k busy
    rw [size, start]
    refine addressFits_of_domain dom (Config.lt_of_lt_iterations count it.1) lt ?_
    cases address_step (running k busy) k with
    | input i' thread' less =>
      rw [thread] at thread'
      obtain rfl := ProcessThread.inputAddr.inj thread'
      have le : (i : Int) < (run cfg env t).previousLayerSize.dataO := less
      omega
    | bias thread' =>
      rw [thread] at thread'
      cases thread'
    | hold input => exact absurd thread (input i)
  · intro k thread
    have busy : ((run cfg env (t + 1)).processors k).thread.busy = true := by rw [thread]; rfl
    obtain ⟨j, it, lt⟩ := busy_neuron finite busy
    obtain ⟨size, start⟩ := (parameters_right dom it).processor k busy
    rw [size, start]
    exact addressFits_of_domain dom (Config.lt_of_lt_iterations count it.1) lt le_rfl
  · intro i _ ended
    have inv := mainInv_run cfg env finite t
    rw [inv.copy] at ended
    obtain ⟨j, ph⟩ := (cfg.copyAt_commands _).2.2.2 ended
    have valid := inv.valid
    have issued := inv.layers.issued
    rw [ph] at valid issued
    have block := dom.offset (j + 1) (Config.lt_of_lt_iterations count valid)
    have le := dom.layerSize_le j
    rw [Config.offset_succ] at block
    rw [inv.controller, ph, issued _ rfl]
    simp only [Config.controllerAt, Config.iterating, dom.size_eq, dom.base_eq]
    have cast : ((cfg.layerSize j : Int) + 1) * (cfg.layerSize (j + 1) : Int) =
        (((cfg.layerSize j + 1) * cfg.layerSize (j + 1) : Nat) : Int) := by push_cast; ring
    rw [cast]
    exact ⟨⟨by omega, by omega⟩, ⟨by omega, by omega⟩, ⟨by omega, by omega⟩⟩

omit count in
/-- An address that has been computed exactly is not negative. -/
lemma weightAddress_nonneg {t : Nat} {k : Fin hw.countPcUnit} {i : Int} (nonneg : 0 ≤ i)
    (busy : ((run cfg env (t + 1)).processors k).thread.busy = true)
    (fits : AddressFits (run cfg env t).controller.startWeightAdderessO
      (run cfg env t).previousLayerSize.dataO ((run cfg env (t + 1)).processors k).numberOfNn i) :
    0 ≤ weightAddress (run cfg env t).controller.startWeightAdderessO
      (run cfg env t).previousLayerSize.dataO
      ((run cfg env (t + 1)).processors k).numberOfNn i := by
  obtain ⟨j, it, -⟩ := busy_neuron finite busy
  obtain ⟨size, start⟩ := (parameters_right dom it).processor k busy
  rw [fits.exact, size, start]
  positivity

/-- No address on a port is ever negative. -/
lemma addresses_nonneg (t : Nat) (k : Fin hw.countPcUnit) :
    0 ≤ ((run cfg env t).processors k).weightAddrO ∧
      0 ≤ ((run cfg env t).processors k).prevmemAddrO := by
  induction t with
  | zero =>
    rw [run, initialized_processor]
    exact ⟨le_rfl, le_rfl⟩
  | succ t ih =>
    cases st : (run cfg env t).stopped with
    | true =>
      rw [show run cfg env (t + 1) = run cfg env t from edge_stopped cfg _ st]
      exact ih
    | false =>
      have fits := edgeFits_run env dom count finite t
      cases address_step st k with
      | input i thread lt weight prevmem =>
        have nonneg := weightAddress_nonneg env dom finite (Int.natCast_nonneg i)
          (by rw [thread]; rfl) (fits.input k i thread)
        exact ⟨weight ▸ nonneg, prevmem ▸ Int.natCast_nonneg i⟩
      | bias thread weight prevmem =>
        have busy : ((run cfg env (t + 1)).processors k).thread.busy = true := by rw [thread]; rfl
        obtain ⟨j, it, -⟩ := busy_neuron finite busy
        have size := ((parameters_right dom it).processor k busy).1
        have nonneg := weightAddress_nonneg env dom finite (by rw [size]; positivity) busy
          (fits.bias k thread)
        exact ⟨weight ▸ nonneg, prevmem ▸ ih.2⟩
      | hold _ _ weight prevmem => exact ⟨weight ▸ ih.1, prevmem ▸ ih.2⟩

end Domain

/-- What passes the guard is inside of the memory. -/
lemma guard_in_range {n : Nat} {a : Int} (guard : i32 n > a) : a < n :=
  lt_of_lt_of_le guard i32_le

/-- Over a whole run every weight address is used exactly once, no address computation overflows,
and every read is inside of its memory, if the number of layers arrives as it is
(`Config.count_eq`). -/
theorem addresses_partition (env : Env hw F) (sizes : NonemptyLayers hw cfg)
    (count : cfg.count = cfg.layers.length)
    (picture : cfg.layers.length ≤ 1 → ∀ x ∈ cfg.picture, ¬IsInfinite x) :
    (∃ t, (run cfg env t).stopped = true) ∧
      (∀ t, (run cfg env t).stopped = true → AddressesPartitioned cfg env t) ∧
      (∀ t, EdgeFits (run cfg env t) (run cfg env (t + 1))) ∧
      ∀ t, ReadsInRange (run cfg env t) := by
  have finite := finite_results cfg picture
  have dom := sizes.domain
  have inside := cfg.count_le_of_eq count
  obtain ⟨t, st⟩ := stopped_reached finite env
  refine ⟨⟨t, (stopped_iff finite).2 st⟩, ?_, edgeFits_run env dom inside finite, ?_⟩
  · intro t stop
    have used : (history cfg env t).used =
        ∑ j ∈ Finset.range (cfg.layers.length - 1), cfg.layerUses j := by
      have units := (mainInv_run cfg env finite t).units
      rw [(stopped_iff finite).1 stop] at units
      rw [units.2, Config.iterations_eq count]
      exact dom.usesBefore_eq (fun l mem => sizes.one l (List.mem_of_mem_tail mem)) le_rfl
    refine ⟨used, ?_, ?_⟩
    · rw [used]
      exact cfg.sum_layerUses_addresses _
    · intro j lt
      rw [used, cfg.filter_sum_layerUses (by omega)]
      exact cfg.layerUses_addresses j
  · intro t
    have nonneg := addresses_nonneg env dom inside finite t
    exact ⟨fun k => ⟨(nonneg k).1, guard_in_range⟩, fun k => ⟨(nonneg k).2, guard_in_range⟩⟩

/-- The deep network uses its four weights. -/
theorem addresses_partition_deep :
    (∃ t, (run deepNetwork listedEnv t).stopped = true) ∧
      (∀ t, (run deepNetwork listedEnv t).stopped = true →
        AddressesPartitioned deepNetwork listedEnv t) ∧
      (∀ t, EdgeFits (run deepNetwork listedEnv t) (run deepNetwork listedEnv (t + 1))) ∧
      ∀ t, ReadsInRange (run deepNetwork listedEnv t) :=
  addresses_partition listedEnv ⟨by decide, by decide, by decide, by decide⟩ (by decide)
    fun one => absurd one (by decide)

/-- The weight addresses in front of the last layers of the long network. -/
lemma longNetwork_offset {n : Nat} (lt : n < 2 ^ 24) : longNetwork.offset n = n * 2 := by
  have term : ∀ k ∈ Finset.range n,
      (longNetwork.layerSize k + 1) * longNetwork.layerSize (k + 1) = 2 := by
    intro k mem
    have less := Finset.mem_range.1 mem
    rw [longNetwork_layerSize (by omega), longNetwork_layerSize (by omega)]
  rw [Config.offset, Finset.sum_congr rfl term, Finset.sum_const, Finset.card_range, smul_eq_mul]

/-- The number of weights of the long network. -/
lemma longNetwork_total : longNetwork.offset (longNetwork.layers.length - 1) = 2 ^ 25 + 2 := by
  have last : longNetwork.layers.length - 1 = (2 ^ 24 - 1) + 1 := by
    rw [longNetwork_length]
    decide
  have next : longNetwork.layerSize ((2 ^ 24 - 1) + 1) = 2 := longNetwork_layerSize_last
  rw [last, Config.offset_succ, longNetwork_offset (by decide), longNetwork_layerSize (by decide),
    next]
  decide

/-- The weights of the last layer of the long network are never used. -/
lemma longNetwork_unused {t : Nat} (stop : (run longNetwork listedEnv t).stopped = true) :
    ¬AddressesPartitioned longNetwork listedEnv t := by
  intro partitioned
  have two : ¬longNetwork.layers.length ≤ 1 := by
    rw [longNetwork_length]
    decide
  have finite := finite_results longNetwork fun one => absurd one two
  have units := (mainInv_run longNetwork listedEnv finite t).units
  rw [(stopped_iff finite).1 stop] at units
  have le : longNetwork.iterations ≤ longNetwork.layers.length - 1 := by
    rw [longNetwork_iterations, longNetwork_length]
    decide
  have pos : ∀ l ∈ longNetwork.layers.tail, 1 ≤ l := by
    intro l mem
    rcases longNetwork_mem (List.mem_of_mem_tail mem) with rfl | rfl <;> decide
  have counts := congrArg Multiset.card partitioned.addresses
  rw [units.2, longNetwork_bounded.domain.usesBefore_eq pos le,
    Config.sum_layerUses_addresses, longNetwork_iterations, longNetwork_offset (by decide),
    longNetwork_total, Multiset.card_map, Multiset.card_map, Multiset.card_range,
    Multiset.card_range] at counts
  revert counts
  decide

/-- Without the bound on the number of layers weights are left out, and with the markers in the
picture of a network without weights some are read nevertheless. -/
theorem addresses_partition_bounds :
    (NonemptyLayers .configH longNetwork ∧
        ∃ t, (run longNetwork listedEnv t).stopped = true ∧
          ¬AddressesPartitioned longNetwork listedEnv t) ∧
      (NonemptyLayers .configH infinitePicture ∧
        ∃ t, (run infinitePicture listedEnv t).stopped = true ∧
          ¬AddressesPartitioned infinitePicture listedEnv t) := by
  refine ⟨⟨⟨?_, longNetwork_bounded.le, longNetwork_bounded.fits, ?_⟩, ?_⟩,
    ⟨⟨?_, ?_, ?_, ?_⟩, 47, ?_, ?_⟩⟩
  · intro l mem
    rcases longNetwork_mem mem with rfl | rfl <;> decide
  · rw [longNetwork_total]
    decide
  · have two : ¬longNetwork.layers.length ≤ 1 := by
      rw [longNetwork_length]
      decide
    obtain ⟨t, stop⟩ := (run_ends listedEnv fun one => absurd one two).1
    exact ⟨t, stop, longNetwork_unused stop⟩
  · decide
  · decide
  · decide
  · decide
  · decide +kernel
  · intro partitioned
    have none : (history infinitePicture listedEnv 47).used = 0 := partitioned.used
    have two : (history infinitePicture listedEnv 47).used.card = 2 := by decide +kernel
    rw [none] at two
    cases two

end NnProcessor.Correctness
