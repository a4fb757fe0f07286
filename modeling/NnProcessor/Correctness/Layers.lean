import NnProcessor.Correctness.Slots

/-!
# The computation of a layer is exact

What holds in every state of a layer iteration: no neuron is lost or computed twice
(`neurons_exactly_once`), the controller leaves its wait only when the layer is complete
(`barrier_safe`), and every unit reads the parameters of its own layer (`parameters_right`).
-/

namespace NnProcessor.Correctness
open NnProcessor.Arith NnProcessor.Model NnProcessor.Edge NnProcessor.Invariant

variable {hw : Hw} {F : Type}

/-- The edge `t` belongs to the iteration `i` of `CONTROLLER::process`, which computes the layer
`i + 1`. -/
def InIteration [Binary32Ops F] [DecidableEq F] (cfg : Config F) (env : Env hw F) (i t : Nat) :
    Prop :=
  i < cfg.iterations ∧ (run cfg env t).controller.thread.layer = some i

/-- In every observed state of the layer iteration `i` the neurons dispatched so far are, each once,
on the generator bus, in a queue, in a processor or in `NEXT_LAYER`, which holds their results; and
the write ports carry different neurons that have not been stored yet. -/
structure NeuronsConserved [Binary32Ops F] (cfg : Config F) (i : Nat) (h : History hw)
    (s : System hw F) : Prop where
  partition : s.generator.sent + ∑ k, ((s.processors k).queueNnNumber : Multiset Nat) +
    ∑ k, (s.processors k).computed + h.stored = Multiset.range h.dispatched
  kept : ∀ x ∈ h.stored, s.nextLayer.memory x = (cfg.job i).result x
  writers : ∀ k l, k ≠ l → (s.processors k).resmemWO = true → (s.processors l).resmemWO = true →
    (s.processors k).resmemAddrO ≠ (s.processors l).resmemAddrO
  fresh : ∀ k, (s.processors k).resmemWO = true → (s.processors k).resmemAddrO ∉ h.stored

/-- The held neurons are the queued and the computed ones. -/
lemma held_eq (p : Processor F) : p.held = p.queueNnNumber + p.computed := by
  rw [Processor.held, add_comm]
  congr 1
  unfold Processor.computed
  cases p.thread <;> rfl

/-- A neuron that is being written is computed by its processor. -/
lemma written_le (p : Processor F) {job : LayerJob F} {wd pd : F} {f : Int} [Binary32Ops F]
    (inv : ProcInv job p wd pd f) : p.written ≤ p.computed := by
  rw [inv.written]
  unfold Processor.storing Processor.computed
  cases p.thread <;> simp

variable [Binary32 F] [DecidableEq F] {cfg : Config F} {env : Env hw F} {i t : Nat}

/-- A network with a layer iteration has finite results. -/
lemma InIteration.finite (it : InIteration cfg env i t) : ∀ x ∈ cfg.results, ¬IsInfinite x := by
  refine results_finite cfg fun none => ?_
  have lt := it.1
  omega

/-- The state and the phase of an edge in a layer iteration. -/
lemma InIteration.inv (it : InIteration cfg env i t) :
    (phaseAt cfg env t).layer = some i ∧
      MainInv cfg (phaseAt cfg env t) (history cfg env t) (run cfg env t) := by
  have inv := mainInv_run cfg env it.finite t
  refine ⟨?_, inv⟩
  rw [← cfg.controllerAt_layer, ← inv.controller]
  exact it.2

omit [Binary32 F] [DecidableEq F] in
/-- Units at rest hold no neuron. -/
lemma idle_conserved [Binary32Ops F] {cfg : Config F} {i : Nat} {s : System hw F} {h : History hw}
    (idle : UnitsIdle s) (stored : h.stored = Multiset.range h.dispatched)
    (kept : ∀ x ∈ h.stored, s.nextLayer.memory x = (cfg.job i).result x) :
    NeuronsConserved cfg i h s := by
  refine ⟨?_, kept, ?_, ?_⟩
  · have computed : ∀ k, (s.processors k).computed = 0 := by
      intro k
      have waiting := (idle.processor k).thread
      unfold Processor.computed
      cases ht : (s.processors k).thread <;> simp_all
    simp [Generator.sent, idle.generator.quiet, fun k => (idle.processor k).queue, computed, stored]
  · intro k _ _ write
    rw [(idle.processor k).write] at write
    cases write
  · intro k write
    rw [(idle.processor k).write] at write
    cases write

omit [DecidableEq F] in
/-- While a layer is computed no neuron is lost or doubled. -/
lemma layer_conserved {s : System hw F} {h : History hw} (inv : LayerInv cfg i h s) :
    NeuronsConserved cfg i h s := by
  have partition : s.generator.sent + ∑ k, ((s.processors k).queueNnNumber : Multiset Nat) +
      ∑ k, (s.processors k).computed + h.stored = Multiset.range h.dispatched := by
    rw [← inv.conserved, add_assoc s.generator.sent, ← Finset.sum_add_distrib]
    simp only [held_eq]
  have nodup := Multiset.nodup_range h.dispatched
  rw [← partition] at nodup
  obtain ⟨all, -, apart⟩ := Multiset.nodup_add.1 nodup
  obtain ⟨-, computed, -⟩ := Multiset.nodup_add.1 all
  have mem : ∀ k, (s.processors k).resmemWO = true →
      (s.processors k).resmemAddrO ∈ (s.processors k).computed := by
    intro k write
    refine Multiset.mem_of_le (written_le _ (inv.processor k)) ?_
    simp [Processor.written, write]
  refine ⟨partition, inv.slots, ?_, ?_⟩
  · intro k l ne wk wl eq
    -- both processors would hold the same neuron
    have le : (s.processors k).computed + (s.processors l).computed ≤
        ∑ k, (s.processors k).computed := by
      rw [← Finset.sum_pair (f := fun k => (s.processors k).computed) ne]
      exact Finset.sum_le_sum_of_subset (Finset.subset_univ _)
    have two := Multiset.nodup_of_le le computed
    exact Multiset.disjoint_left.1 (Multiset.nodup_add.1 two).2.2 (mem k wk) (eq ▸ mem l wl)
  · intro k write stored
    refine Multiset.disjoint_left.1 apart (Multiset.mem_add.2 (.inr ?_)) stored
    exact Multiset.mem_sum.2 ⟨k, Finset.mem_univ k, mem k write⟩

/-- Every neuron of a layer is computed exactly once, by one processor, and at the end of the layer
iteration every one is stored. -/
theorem neurons_exactly_once (dom : cfg.Domain hw) (pos : ∀ l ∈ cfg.layers.tail, 1 ≤ l)
    (count : 0 ≤ cfg.count ∧ cfg.count ≤ cfg.layers.length) (it : InIteration cfg env i t) :
    NeuronsConserved cfg i (history cfg env t) (run cfg env t) ∧
      ((run cfg env (t + 1)).controller.thread.layer ≠ some i →
        (history cfg env t).stored = Multiset.range (cfg.layerSize (i + 1))) := by
  obtain ⟨layer, inv⟩ := it.inv
  have kept : ∀ x ∈ (history cfg env t).stored,
      (run cfg env t).nextLayer.memory x = (cfg.job i).result x := by
    intro x mem
    rw [slots_run env it.finite t x]
    exact cfg.slotAt_stored env.junk layer mem
  constructor
  · rcases units_cases layer inv with ⟨idle, none, stored⟩ | ⟨computing, -⟩ | ⟨idle, all, stored⟩
    · exact idle_conserved idle (by rw [none, stored]; rfl) kept
    · exact layer_conserved computing
    · exact idle_conserved idle (by rw [all, stored]) kept
  · intro leaves
    have inv' := mainInv_run cfg env it.finite (t + 1)
    rw [inv'.controller, cfg.controllerAt_layer, phaseAt] at leaves
    have last := cfg.leaves_cloned layer leaves
    rw [last] at inv
    have lt := Config.lt_of_lt_iterations count it.1
    have some : 1 ≤ cfg.layerSize (i + 1) := Config.one_le_layerSize pos lt
    rw [inv.units.2.2.1, dom.dispatches_eq, max_eq_left some]

/-- The iteration of three neurons ends with the edge 31. -/
theorem neurons_exactly_once_three :
    NeuronsConserved threeNeurons 0 (history threeNeurons listedEnv 31)
        (run threeNeurons listedEnv 31) ∧
      (history threeNeurons listedEnv 31).stored = Multiset.range 3 := by
  have it : InIteration threeNeurons listedEnv 0 31 := ⟨by decide, by decide +kernel⟩
  obtain ⟨conserved, stored⟩ :=
    neurons_exactly_once threeNeurons_bounded.domain (by decide) (by decide) it
  exact ⟨conserved, stored (by decide +kernel)⟩

/-- Every iteration comes to its last edge, with all of its neurons stored. -/
lemma last_edge (finite : ∀ x ∈ cfg.results, ¬IsInfinite x) (env : Env hw F)
    (lt : i < cfg.iterations) :
    ∃ t, InIteration cfg env i t ∧ (run cfg env (t + 1)).controller.thread.layer ≠ some i ∧
      (history cfg env t).stored = Multiset.range (cfg.dispatches i) := by
  obtain ⟨t, start⟩ := savePrev_reached finite env lt
  obtain ⟨-, -, -, -, u, -, -, -, -, cloned, -⟩ := iteration_ends finite start
  have inv := mainInv_run cfg env finite (u + 3 + cfg.width i)
  have inv' := mainInv_run cfg env finite (u + 3 + cfg.width i + 1)
  have units := inv.units
  rw [cloned] at units
  refine ⟨u + 3 + cfg.width i, ⟨lt, ?_⟩, ?_, units.2.2.1⟩
  · rw [inv.controller, cloned]
    rfl
  · rw [inv'.controller, cfg.controllerAt_layer, phaseAt_succ cloned]
    simp only [Config.next, Config.afterLayers]
    split <;> simp [Phase.layer]

/-- With a number of layers that is rounded up on the bus an iteration is run behind the last layer, in
which a neuron is stored. -/
theorem neurons_exactly_once_bounds : roundedNetwork.Domain .configH ∧
    (∀ l ∈ roundedNetwork.layers.tail, 1 ≤ l) ∧
      ∃ i t, InIteration roundedNetwork listedEnv i t ∧
        (run roundedNetwork listedEnv (t + 1)).controller.thread.layer ≠ some i ∧
        (history roundedNetwork listedEnv t).stored ≠
          Multiset.range (roundedNetwork.layerSize (i + 1)) := by
  have dom := roundedNetwork_bounded.domain
  have last : roundedNetwork.layers.length - 1 < roundedNetwork.iterations := by
    rw [roundedNetwork_length, roundedNetwork_iterations]
    decide
  obtain ⟨t, it, leaves, stored⟩ :=
    last_edge (results_finite roundedNetwork fun none => absurd last (by omega)) listedEnv last
  refine ⟨dom, fun l mem => (roundedNetwork_mem (List.mem_of_mem_tail mem)).ge, _, t, it, leaves, ?_⟩
  have none : roundedNetwork.layerSize (roundedNetwork.layers.length - 1 + 1) = 0 :=
    Config.layerSize_eq_zero (by omega)
  rw [stored, dom.dispatches_eq, none]
  decide

/-- The layer `i + 1` is complete: all of its neurons have been dispatched (or one, if it has none), the
units rest, and `NEXT_LAYER` holds the results. -/
structure LayerComplete [Binary32Ops F] (cfg : Config F) (i : Nat) (h : History hw)
    (s : System hw F) : Prop where
  dispatched : h.dispatched = max (cfg.layerSize (i + 1)) 1
  generator : s.generator.state = .idle ∧ s.generator.wO = false
  processor : ∀ k, (s.processors k).queueNnNumber = [] ∧ (s.processors k).isWorking = false ∧
    (s.processors k).resmemWO = false
  slots : ∀ x < cfg.layerSize (i + 1), s.nextLayer.memory x = (cfg.job i).result x
  reference : cfg.ListsFit →
    (List.range (cfg.layerSize (i + 1))).map s.nextLayer.memory = cfg.referenceLayer (i + 1)

omit [DecidableEq F] in
/-- When the end is shown, the layer is complete. -/
lemma layer_complete {s : System hw F} {h : History hw} (dom : cfg.Domain hw)
    (inv : LayerInv cfg i h s)
    (ended : reduce s.generator.endGenerateO (fun k => (s.processors k).contrEmptyO) = true) :
    LayerComplete cfg i h s := by
  obtain ⟨idle, all, stored, -⟩ := inv.finish ended
  have slots : ∀ x < cfg.layerSize (i + 1), s.nextLayer.memory x = (cfg.job i).result x := by
    intro x hx
    refine inv.slots x ?_
    rw [stored, dom.dispatches_eq]
    exact Multiset.mem_range.2 (lt_max_of_lt_left hx)
  refine ⟨all.trans (dom.dispatches_eq i), ⟨idle.generator.state, idle.generator.quiet⟩, ?_, slots, ?_⟩
  · intro k
    have rest := idle.processor k
    exact ⟨rest.queue, rest.working, rest.write⟩
  · intro lists
    by_cases lt : i + 1 < cfg.layers.length
    · rw [← dom.activation_eq lists (.inl lt), Config.activation_succ, dom.width_eq]
      exact List.map_congr_left fun x hx => slots x (List.mem_range.1 hx)
    · rw [Config.referenceLayer, Config.layerSize_eq_zero (not_lt.1 lt)]
      rfl

/-- The controller leaves its wait for the end only when the layer is complete. The end is not shown
too early anywhere in the iteration: neither by a level left over from before nor between the last
dispatch and the end of the last computation. -/
theorem barrier_safe (dom : cfg.Domain hw) (it : InIteration cfg env i t) :
    ((run cfg env t).controller.thread = .waitEnd i →
      (run cfg env (t + 1)).controller.thread = .clear i →
        LayerComplete cfg i (history cfg env t) (run cfg env t)) ∧
      ((run cfg env t).controller.thread = .settle i ∨
          (run cfg env t).controller.thread = .waitEnd i →
        (run cfg env t).cycleEnded = true →
          LayerComplete cfg i (history cfg env t) (run cfg env t)) ∧
      (0 < (history cfg env t).dispatched →
        (history cfg env t).stored ≠ Multiset.range (history cfg env t).dispatched →
          (run cfg env t).cycleEnded = false) := by
  obtain ⟨layer, inv⟩ := it.inv
  have shown : (run cfg env t).controller.thread = .settle i ∨
      (run cfg env t).controller.thread = .waitEnd i →
      (run cfg env t).cycleEnded = true →
        LayerComplete cfg i (history cfg env t) (run cfg env t) := by
    intro thread ended
    have units := inv.units
    rw [inv.controller] at thread
    rcases thread with thread | thread
    · have ph : phaseAt cfg env t = .settle i := cfg.phase_of_thread (by rw [thread]; rfl)
      rw [ph] at units
      rw [units.2.2] at ended
      cases ended
    · have ph : phaseAt cfg env t = .compute i := cfg.phase_of_thread (by rw [thread]; rfl)
      rw [ph] at units
      exact layer_complete dom units.1 (units.2.symm.trans ended)
  refine ⟨?_, shown, ?_⟩
  · intro wait clear
    refine shown (.inr wait) ?_
    -- the wait is left for the clear only when the end is shown
    have inv' := mainInv_run cfg env it.finite (t + 1)
    rw [inv.controller] at wait
    have ph : phaseAt cfg env t = .compute i := cfg.phase_of_thread (by rw [wait]; rfl)
    rw [inv'.controller] at clear
    have ph' : phaseAt cfg env (t + 1) = .clear i := cfg.phase_of_thread (by rw [clear]; rfl)
    rw [phaseAt_succ ph] at ph'
    by_contra ended
    rw [Bool.not_eq_true] at ended
    rw [ended] at ph'
    cases ph'
  · intro some missing
    rw [← Bool.not_eq_true]
    intro ended
    have units := inv.units
    rcases units_cases layer inv with ⟨-, none, -⟩ | ⟨-, ph | ph⟩ | ⟨-, all, stored⟩
    · omega
    · rw [ph] at units
      rw [units.2.2] at ended
      cases ended
    · rw [ph] at units
      obtain ⟨-, all, stored, -⟩ := units.1.finish (units.2.symm.trans ended)
      exact missing (by rw [all, stored])
    · exact missing (by rw [all, stored])

/-- The controller leaves its wait for three neurons in the edge 24. -/
theorem barrier_safe_three :
    LayerComplete threeNeurons 0 (history threeNeurons listedEnv 24)
      (run threeNeurons listedEnv 24) :=
  (barrier_safe threeNeurons_bounded.domain ⟨by decide, by decide +kernel⟩).1 (by decide +kernel)
    (by decide +kernel)

/-- What the units read in the edge from `s` to `s'` of the layer iteration `i`. A processor reads
its parameters in edges behind which it holds a neuron. -/
structure ParametersRight (cfg : Config F) (i : Nat) (s s' : System hw F) : Prop where
  processor : ∀ k, (s'.processors k).thread.busy = true →
    s.previousLayerSize.dataO = cfg.layerSize i ∧
      s.controller.startWeightAdderessO = cfg.offset i
  generator : s.generator.thread = .generate → s.layersStorage.dataO = cfg.layerSize (i + 1)
  copy : (s.previousLayerController.thread = .first ∨
    ∃ j, s.previousLayerController.thread = .copying j) →
      s.layersStorage.dataO = cfg.layerSize (i + 1)
  savePrev : s.controller.thread = .savePrev i → s.layersStorage.dataO = cfg.layerSize i
  update : s.controller.thread = .startClone i ∨ s.controller.thread = .waitClone i →
    s.previousLayerController.endCloneO = true → s.layersStorage.dataO = cfg.layerSize (i + 1)

/-- No unit ever reads a size or the weight base of another layer. -/
theorem parameters_right (dom : cfg.Domain hw) (it : InIteration cfg env i t) :
    ParametersRight cfg i (run cfg env t) (run cfg env (t + 1)) := by
  obtain ⟨layer, inv⟩ := it.inv
  have running : phaseAt cfg env t ≠ .stopped := by
    intro h
    rw [h] at layer
    cases layer
  have at_rest : UnitsIdle (run cfg env t) → ∀ k,
      ((run cfg env (t + 1)).processors k).thread.busy ≠ true := by
    intro idle k busy
    have rest := (idle.step_processor cfg (env.sched t) (inv.go running) k).thread
    rw [show (run cfg env t).edge cfg (env.sched t) = run cfg env (t + 1) from rfl, busy] at rest
    cases rest
  have not_generating : UnitsIdle (run cfg env t) →
      (run cfg env t).generator.thread ≠ .generate := by
    intro idle h
    rcases idle.generator.thread with h' | h' <;> rw [h] at h' <;> cases h'
  refine ⟨?_, ?_, ?_, ?_, ?_⟩
  · intro k busy
    rcases units_cases layer inv with ⟨idle, -⟩ | ⟨-, ph⟩ | ⟨idle, -⟩
    · exact absurd busy (at_rest idle k)
    · have wires : LayerWires cfg i (run cfg env t) := inv.wires ph
      rw [wires.size, wires.start, dom.size_eq, dom.base_eq]
      exact ⟨rfl, rfl⟩
    · exact absurd busy (at_rest idle k)
  · intro thread
    rcases units_cases layer inv with ⟨idle, -⟩ | ⟨-, ph⟩ | ⟨idle, -⟩
    · exact absurd thread (not_generating idle)
    · have wires : LayerWires cfg i (run cfg env t) := inv.wires ph
      rw [wires.width, dom.size_eq]
    · exact absurd thread (not_generating idle)
  · intro thread
    rw [inv.copy] at thread
    rw [← dom.size_eq]
    refine inv.layers.issued _ (cfg.copy_issued layer ?_)
    exact thread.imp id .inl
  · intro thread
    rw [inv.controller] at thread
    have ph : phaseAt cfg env t = .savePrev i := cfg.phase_of_thread (by rw [thread]; rfl)
    rw [← dom.size_eq]
    exact inv.layers.issued _ (by rw [ph]; rfl)
  · intro _ ended
    rw [inv.copy] at ended
    rw [← dom.size_eq]
    exact inv.layers.issued _ (cfg.copy_issued layer (.inr (.inr ended)))

/-- A processor reads the parameters of the second layer of the deep network in the edge 36. -/
theorem parameters_right_deep :
    ParametersRight deepNetwork 1 (run deepNetwork listedEnv 36) (run deepNetwork listedEnv 37) :=
  parameters_right deepNetwork_bounded.domain ⟨by decide, by decide +kernel⟩

end NnProcessor.Correctness
