import NnProcessor.Correctness.Layers

/-!
# The commands of a layer iteration

Every command of the controller is one edge wide and finds its receiver ready (`handshakes`), and
the clone at the end of an iteration moves exactly the results of this layer (`clone_exact`).
-/

namespace NnProcessor.Correctness
open NnProcessor.Arith NnProcessor.Model NnProcessor.Edge NnProcessor.Invariant

variable {hw : Hw} {F : Type}

/-- The clone that `copy_memory` starts in the edge `t` of the layer iteration `i`. -/
structure CloneExact [Binary32Ops F] [DecidableEq F] (cfg : Config F) (env : Env hw F)
    (i t : Nat) : Prop where
  index : (run cfg env t).nextLayer.index = 0 ∧ (run cfg env (t + 1)).nextLayer.index = 0
  written : ∀ x < cfg.layerSize (i + 1), x ∈ (history cfg env t).stored
  fresh : ∀ x < cfg.layerSize (i + 1),
    (run cfg env t).nextLayer.memory x = (cfg.job i).result x
  empty : (run cfg env (t + 2)).previousLayer.memory = []
  push : ∀ j < cfg.layerSize (i + 1),
    (run cfg env (t + 2 + j)).previousLayerController.wrToMemoryFromMemO = true ∧
      (run cfg env (t + 2 + j)).nextLayer.dataO = (run cfg env t).nextLayer.memory j
  pushes : ∀ u, InIteration cfg env i u →
    (run cfg env u).previousLayerController.wrToMemoryFromMemO = true →
      ∃ j < cfg.layerSize (i + 1), u = t + 2 + j
  memory : (run cfg env (t + 2 + cfg.layerSize (i + 1))).previousLayer.memory =
    (List.range (cfg.layerSize (i + 1))).map (run cfg env t).nextLayer.memory
  ended : ∀ u, InIteration cfg env i u →
    ((run cfg env u).previousLayerController.endCloneO = true ↔
      u = t + 2 + cfg.layerSize (i + 1))
  reads : 1 ≤ cfg.layerSize (i + 1) → ∀ u, InIteration cfg env i u →
    (run cfg env u).previousLayerController.nextO = true →
      (run cfg env u).nextLayer.index < cfg.layerSize (i + 1)

variable [Binary32 F] [DecidableEq F] {cfg : Config F} {env : Env hw F} {i t : Nat}

/-- In an iteration the events of `copy_memory` belong to this iteration. -/
lemma InIteration.copy_phase (it : InIteration cfg env i t) :
    ((run cfg env t).previousLayerController.wrToMemoryFromMemO = true →
      ∃ j, phaseAt cfg env t = .copying i j) ∧
      ((run cfg env t).previousLayerController.endCloneO = true →
        phaseAt cfg env t = .cloned i) := by
  obtain ⟨layer, inv⟩ := it.inv
  obtain ⟨-, -, push, ended⟩ := cfg.copyAt_commands (phaseAt cfg env t)
  rw [inv.copy]
  constructor
  · intro h
    obtain ⟨i', j, ph⟩ := push h
    rw [ph] at layer
    exact ⟨j, by rw [ph, Option.some.inj layer]⟩
  · intro h
    obtain ⟨i', ph⟩ := ended h
    rw [ph] at layer
    rw [ph, Option.some.inj layer]

omit [DecidableEq F] in
/-- `copy_memory` leaves its start wait in one phase only. -/
lemma leaves_start {ph : Phase} {ended : Bool}
    (first : (cfg.copyAt (cfg.next ended ph)).thread = .first) : ∃ i, ph = .startClone i := by
  cases ph with
  | startClone i => exact ⟨i, rfl⟩
  | load t =>
    simp only [Config.next, Config.afterLayers] at first
    split_ifs at first <;> cases first
  | compute i => cases ended <;> cases first
  | copyFirst i =>
    simp only [Config.next] at first
    split_ifs at first <;> cases first
  | copying i j =>
    simp only [Config.next] at first
    split_ifs at first <;> cases first
  | cloned i =>
    simp only [Config.next, Config.afterLayers] at first
    split_ifs at first <;> cases first
  | output k =>
    simp only [Config.next] at first
    split_ifs at first <;> cases first
  | savePrev | nextLayer | startGenerator | settle | clear | writeOut | stopped => cases first

/-- The clone of a layer is exact, and made of the results of this layer only. -/
theorem clone_exact (dom : cfg.Domain hw) (it : InIteration cfg env i t)
    (leaves : (run cfg env (t + 1)).previousLayerController.thread = .first) :
    CloneExact cfg env i t := by
  obtain ⟨layer, inv⟩ := it.inv
  have all := mainInv_run cfg env it.finite
  have start : phaseAt cfg env t = .startClone i := by
    rw [(all (t + 1)).copy, phaseAt] at leaves
    obtain ⟨j, ph⟩ := leaves_start leaves
    rw [ph] at layer
    rw [ph, Option.some.inj layer]
  have first : phaseAt cfg env (t + 1) = .copyFirst i := phaseAt_succ start
  obtain ⟨copying, cloned⟩ := phaseAt_copying first
  rw [dom.width_eq] at copying cloned
  have slots : ∀ x < cfg.dispatches i,
      (run cfg env t).nextLayer.memory x = (cfg.job i).result x := by
    have slots := inv.slots
    rw [start] at slots
    exact slots.2
  have le : cfg.layerSize (i + 1) ≤ cfg.dispatches i := by
    rw [dom.dispatches_eq]
    exact Nat.le_max_left _ _
  -- an event of the clone happens in its phase
  have once : ∀ {u v : Nat} {ph : Phase}, phaseAt cfg env u = ph → phaseAt cfg env v = ph →
      ph ≠ .stopped → (∀ i, ph ≠ .compute i) → u = v := by
    rintro u v ph hu rfl ns nc
    exact phaseAt_unique hu (hu ▸ ns) (hu ▸ nc)
  constructor
  case index =>
    constructor
    · have slots := inv.slots
      rw [start] at slots
      exact slots.1
    · have slots := (all (t + 1)).slots
      rw [first] at slots
      exact slots.1
  case written =>
    intro x hx
    have units := inv.units
    rw [start] at units
    rw [units.2.2.1]
    exact Multiset.mem_range.2 (lt_of_lt_of_le hx le)
  case fresh =>
    exact fun x hx => slots x (lt_of_lt_of_le hx le)
  case empty =>
    rw [(all (t + 2)).previous.memory]
    rcases Nat.eq_zero_or_pos (cfg.layerSize (i + 1)) with zero | pos
    · rw [zero] at cloned
      rw [show phaseAt cfg env (t + 2) = .cloned i from cloned, Config.previousAt,
        ← List.length_eq_zero_iff, Config.length_activation_succ, dom.width_eq, zero]
    · rw [show phaseAt cfg env (t + 2) = .copying i 0 from copying 0 pos]
      rfl
  case push =>
    intro j hj
    have inv' := all (t + 2 + j)
    have ph : phaseAt cfg env (t + 2 + j) = .copying i j := copying j hj
    have word := inv'.slots
    rw [ph] at word
    refine ⟨by rw [inv'.copy, ph]; rfl, ?_⟩
    rw [word.2.1, slots j (lt_of_lt_of_le hj le)]
  case pushes =>
    intro u iu push
    obtain ⟨j, ph⟩ := iu.copy_phase.1 push
    have lt : j < cfg.layerSize (i + 1) := by
      have valid := iu.inv.2.valid
      rw [ph] at valid
      rw [← dom.width_eq]
      exact valid.2
    exact ⟨j, lt, once ph (copying j lt) (by simp) (by simp)⟩
  case memory =>
    have ph : phaseAt cfg env (t + 2 + cfg.layerSize (i + 1)) = .cloned i := cloned
    rw [(all _).previous.memory, ph, Config.previousAt, Config.activation_succ, dom.width_eq]
    exact List.map_congr_left fun x hx =>
      (slots x (lt_of_lt_of_le (List.mem_range.1 hx) le)).symm
  case ended =>
    intro u iu
    constructor
    · intro ended
      exact once (iu.copy_phase.2 ended) cloned (by simp) (by simp)
    · rintro rfl
      rw [iu.inv.2.copy,
        show phaseAt cfg env (t + 2 + cfg.layerSize (i + 1)) = .cloned i from cloned]
      rfl
  case reads =>
    intro pos u iu next
    obtain ⟨layer', inv'⟩ := iu.inv
    obtain ⟨i', -, at_, reads⟩ := inv'.clone_reads next
    obtain rfl : i = i' := Option.some.inj (layer'.symm.trans at_)
    rw [dom.width_eq] at reads
    rcases reads with zero | lt
    · rwa [zero]
    · exact lt

/-- Three neurons are copied from the edge 26 on. -/
theorem clone_exact_three : CloneExact threeNeurons listedEnv 0 26 :=
  clone_exact threeNeurons_bounded.domain ⟨by decide, by decide +kernel⟩ (by decide +kernel)

/-- The edge `t` is the only one of the layer iteration `i` with the event `e`. -/
def OnlyEdge (cfg : Config F) (env : Env hw F) (i : Nat) (e : System hw F → Prop) (t : Nat) :
    Prop :=
  ∀ u, (run cfg env u).controller.thread.layer = some i ∧ e (run cfg env u) ↔ u = t

/-- The commands of the layer iteration `i`: each is high at one edge, its receiver is ready there
and acts at that edge only. -/
structure Handshakes (cfg : Config F) (env : Env hw F) (i : Nat) : Prop where
  savePrev : ∃ t, OnlyEdge cfg env i (fun s => s.controller.savePrevLayerSizeO = true) t ∧
    (run cfg env (t + 1)).previousLayerSize.layerSize = cfg.layerSize i ∧
    ∀ u ≠ t, (run cfg env u).controller.thread.layer = some i →
      (run cfg env (u + 1)).previousLayerSize.layerSize =
        (run cfg env u).previousLayerSize.layerSize
  nextLayer : ∃ t, OnlyEdge cfg env i (fun s => s.controller.nextLayerO = true) t ∧
    (run cfg env t).layersStorage.index = i ∧ (run cfg env (t + 1)).layersStorage.index = i + 1 ∧
    ∀ u ≠ t, (run cfg env u).controller.thread.layer = some i →
      (run cfg env (u + 1)).layersStorage.index = (run cfg env u).layersStorage.index
  startGenerator : ∃ t, OnlyEdge cfg env i (fun s => s.controller.startGeneratorO = true) t ∧
    (run cfg env t).generator.state = .idle ∧ (run cfg env (t + 1)).generator.state = .generate ∧
    ∀ u ≠ t, (run cfg env u).controller.thread.layer = some i →
      ¬((run cfg env u).generator.state = .idle ∧
        (run cfg env (u + 1)).generator.state = .generate)
  clear : ∃ t, OnlyEdge cfg env i (fun s => s.controller.clrControllerLayerO = true) t ∧
    OnlyEdge cfg env i (fun s => s.previousLayerController.clrO = true) (t + 1) ∧
    (run cfg env (t + 2)).previousLayer.memory = [] ∧
    ∀ u, (run cfg env u).controller.thread.layer = some i →
      (run cfg env u).previousLayerController.wrToMemoryFromMemO = true → t + 1 < u
  startClone : ∃ t, OnlyEdge cfg env i (fun s => s.controller.startCloneControllerLayerO = true) t ∧
    (run cfg env t).previousLayerController.thread = .waitStart ∧
    (run cfg env (t + 1)).previousLayerController.thread = .first ∧
    ∀ u ≠ t, (run cfg env u).controller.thread.layer = some i →
      (run cfg env (u + 1)).previousLayerController.thread ≠ .first
  endClone : ∃ t, OnlyEdge cfg env i (fun s => s.previousLayerController.endCloneO = true) t ∧
    (run cfg env t).controller.thread = .waitClone i ∧
    (run cfg env (t + 1)).controller.thread.layer ≠ some i ∧
    (run cfg env (t + 1)).previousLayerController.endCloneO = false ∧
    ∀ u, (run cfg env u).controller.thread = .startClone (i + 1) →
      (run cfg env u).previousLayerController.endCloneO = false

section Handshakes

variable (all : ∀ t, MainInv cfg (phaseAt cfg env t) (history cfg env t) (run cfg env t))
include all

/-- The event of one phase of a layer iteration happens at one edge. -/
lemma onlyEdge_of_phase {f : Nat → Phase} (layer : ∀ j, (f j).layer = some j)
    (nc : ∀ j k, f j ≠ .compute k) (here : phaseAt cfg env t = f i) {e : System hw F → Prop}
    (event : e (run cfg env t)) (only : ∀ u, e (run cfg env u) → ∃ j, phaseAt cfg env u = f j) :
    OnlyEdge cfg env i e t := by
  intro u
  rw [(all u).controller, cfg.controllerAt_layer]
  constructor
  · rintro ⟨layer', h⟩
    obtain ⟨j, ph⟩ := only u h
    rw [ph, layer j] at layer'
    rw [Option.some.inj layer'] at ph
    refine phaseAt_unique (ph.trans here.symm) ?_ ?_
    · intro st
      have none := layer i
      rw [← ph, st] at none
      cases none
    · rw [ph]
      exact nc i
  · rintro rfl
    exact ⟨here ▸ layer i, event⟩

/-- The clock runs in a layer iteration. -/
lemma iteration_go {u : Nat} (layer : (run cfg env u).controller.thread.layer = some i) :
    (run cfg env u).stopped = false := by
  rw [(all u).controller, cfg.controllerAt_layer] at layer
  refine (all u).go ?_
  intro st
  rw [st] at layer
  cases layer

/-- `PREVIOUS_LAYER_SIZE` latches once. -/
lemma savePrev_handshake (dom : cfg.Domain hw) (here : phaseAt cfg env t = .savePrev i) :
    OnlyEdge cfg env i (fun s => s.controller.savePrevLayerSizeO = true) t ∧
      (run cfg env (t + 1)).previousLayerSize.layerSize = cfg.layerSize i ∧
      ∀ u ≠ t, (run cfg env u).controller.thread.layer = some i →
        (run cfg env (u + 1)).previousLayerSize.layerSize =
          (run cfg env u).previousLayerSize.layerSize := by
  have only : OnlyEdge cfg env i (fun s => s.controller.savePrevLayerSizeO = true) t := by
    refine onlyEdge_of_phase all (f := Phase.savePrev) (fun _ => rfl) (by simp) here ?_ ?_
    · rw [(all t).controller, here]
      rfl
    · intro u h
      rw [(all u).controller] at h
      exact (cfg.controllerAt_commands _).1 h
  refine ⟨only, ?_, ?_⟩
  · rw [← dom.size_eq]
    have kept := (all (t + 1)).kept.kept
    rw [phaseAt_succ here] at kept
    exact kept _ rfl
  · intro u ne layer
    have save : (run cfg env u).controller.savePrevLayerSizeO = false := by
      rw [← Bool.not_eq_true]
      exact fun h => ne ((only u).1 ⟨layer, h⟩)
    rw [show run cfg env (u + 1) = (run cfg env u).edge cfg (env.sched u) from rfl,
      edge_previousLayerSize cfg _ (iteration_go all layer)]
    rcases methodPhase_previousLayerSize (env.sched u) (run cfg env u) with h | h <;> rw [h] <;>
      simp [PreviousLayerSize.saveNewElement, PreviousLayerSize.passNewElement, save]

/-- The layer queue moves on once. -/
lemma nextLayer_handshake (here : phaseAt cfg env t = .nextLayer i) :
    OnlyEdge cfg env i (fun s => s.controller.nextLayerO = true) t ∧
      (run cfg env t).layersStorage.index = i ∧
      (run cfg env (t + 1)).layersStorage.index = i + 1 ∧
      ∀ u ≠ t, (run cfg env u).controller.thread.layer = some i →
        (run cfg env (u + 1)).layersStorage.index = (run cfg env u).layersStorage.index := by
  have only : OnlyEdge cfg env i (fun s => s.controller.nextLayerO = true) t := by
    refine onlyEdge_of_phase all (f := Phase.nextLayer) (fun _ => rfl) (by simp) here ?_ ?_
    · rw [(all t).controller, here]
      rfl
    · intro u h
      rw [(all u).controller] at h
      exact (cfg.controllerAt_commands _).2.1 h
  refine ⟨only, ?_, ?_, ?_⟩
  · rw [(all t).layers.index, here]
    rfl
  · rw [(all (t + 1)).layers.index, phaseAt_succ here]
    rfl
  · intro u ne layer
    have next : (run cfg env u).controller.nextLayerO = false := by
      rw [← Bool.not_eq_true]
      exact fun h => ne ((only u).1 ⟨layer, h⟩)
    rw [show run cfg env (u + 1) = (run cfg env u).edge cfg (env.sched u) from rfl,
      edge_layersStorage cfg _ (iteration_go all layer), methodPhase_layersIndex, next]
    rfl

/-- The generator starts once. -/
lemma startGenerator_handshake (here : phaseAt cfg env t = .startGenerator i) :
    OnlyEdge cfg env i (fun s => s.controller.startGeneratorO = true) t ∧
      (run cfg env t).generator.state = .idle ∧
      (run cfg env (t + 1)).generator.state = .generate ∧
      ∀ u ≠ t, (run cfg env u).controller.thread.layer = some i →
        ¬((run cfg env u).generator.state = .idle ∧
          (run cfg env (u + 1)).generator.state = .generate) := by
  have only : OnlyEdge cfg env i (fun s => s.controller.startGeneratorO = true) t := by
    refine onlyEdge_of_phase all (f := Phase.startGenerator) (fun _ => rfl) (by simp) here ?_ ?_
    · rw [(all t).controller, here]
      rfl
    · intro u h
      rw [(all u).controller] at h
      exact (cfg.controllerAt_commands _).2.2.1 h
  refine ⟨only, ?_, ?_, ?_⟩
  · have units := (all t).units
    rw [here] at units
    exact units.1.generator.state
  · have units := (all (t + 1)).units
    rw [phaseAt_succ here] at units
    exact units.2.1
  · rintro u ne layer ⟨idle, generate⟩
    have start : (run cfg env u).controller.startGeneratorO = false := by
      rw [← Bool.not_eq_true]
      exact fun h => ne ((only u).1 ⟨layer, h⟩)
    rw [show run cfg env (u + 1) = (run cfg env u).edge cfg (env.sched u) from rfl,
      edge_generator cfg _ (iteration_go all layer), start, generate_stays_idle idle] at generate
    cases generate

/-- `PREVIOUS_LAYER` is cleared once, in front of the first word of the clone. -/
lemma clear_handshake (here : phaseAt cfg env t = .clear i) :
    OnlyEdge cfg env i (fun s => s.controller.clrControllerLayerO = true) t ∧
      OnlyEdge cfg env i (fun s => s.previousLayerController.clrO = true) (t + 1) ∧
      (run cfg env (t + 2)).previousLayer.memory = [] ∧
      ∀ u, (run cfg env u).controller.thread.layer = some i →
        (run cfg env u).previousLayerController.wrToMemoryFromMemO = true → t + 1 < u := by
  have start : phaseAt cfg env (t + 1) = .startClone i := phaseAt_succ here
  refine ⟨?_, ?_, ?_, ?_⟩
  · refine onlyEdge_of_phase all (f := Phase.clear) (fun _ => rfl) (by simp) here ?_ ?_
    · rw [(all t).controller, here]
      rfl
    · intro u h
      rw [(all u).controller] at h
      exact (cfg.controllerAt_commands _).2.2.2.1 h
  · refine onlyEdge_of_phase all (f := Phase.startClone) (fun _ => rfl) (by simp) start ?_ ?_
    · rw [(all (t + 1)).copy, start]
      rfl
    · intro u h
      rw [(all u).copy] at h
      exact (cfg.copyAt_commands _).1 h
  · rw [(all (t + 2)).previous.memory, phaseAt_succ start]
    rfl
  · intro u layer push
    rw [(all u).copy] at push
    obtain ⟨i', j, ph⟩ := (cfg.copyAt_commands _).2.2.1 push
    rw [(all u).controller, cfg.controllerAt_layer, ph] at layer
    obtain rfl : i' = i := Option.some.inj layer
    by_contra le
    have back := rank_monotone cfg env (not_lt.1 le)
    simp only [ph, start, Config.rank] at back
    rcases Prod.Lex.toLex_le_toLex.1 back with h | ⟨-, h⟩
    · exact lt_irrefl _ h
    · simp only at h
      omega

/-- `copy_memory` makes one pass. -/
lemma startClone_handshake (here : phaseAt cfg env t = .startClone i) :
    OnlyEdge cfg env i (fun s => s.controller.startCloneControllerLayerO = true) t ∧
      (run cfg env t).previousLayerController.thread = .waitStart ∧
      (run cfg env (t + 1)).previousLayerController.thread = .first ∧
      ∀ u ≠ t, (run cfg env u).controller.thread.layer = some i →
        (run cfg env (u + 1)).previousLayerController.thread ≠ .first := by
  have only : OnlyEdge cfg env i (fun s => s.controller.startCloneControllerLayerO = true) t := by
    refine onlyEdge_of_phase all (f := Phase.startClone) (fun _ => rfl) (by simp) here ?_ ?_
    · rw [(all t).controller, here]
      rfl
    · intro u h
      rw [(all u).controller] at h
      exact (cfg.controllerAt_commands _).2.2.2.2 h
  refine ⟨only, ?_, ?_, ?_⟩
  · rw [(all t).copy, here]
    rfl
  · rw [(all (t + 1)).copy, phaseAt_succ here]
    rfl
  · intro u ne layer first
    rw [(all (u + 1)).copy, phaseAt] at first
    obtain ⟨j, ph⟩ := leaves_start first
    have start : (run cfg env u).controller.startCloneControllerLayerO = true := by
      rw [(all u).controller, ph]
      rfl
    exact ne ((only u).1 ⟨layer, start⟩)

/-- The end of the clone is shown once, and the controller takes it at once. -/
lemma endClone_handshake (here : phaseAt cfg env t = .cloned i) :
    OnlyEdge cfg env i (fun s => s.previousLayerController.endCloneO = true) t ∧
      (run cfg env t).controller.thread = .waitClone i ∧
      (run cfg env (t + 1)).controller.thread.layer ≠ some i ∧
      (run cfg env (t + 1)).previousLayerController.endCloneO = false ∧
      ∀ u, (run cfg env u).controller.thread = .startClone (i + 1) →
        (run cfg env u).previousLayerController.endCloneO = false := by
  have next : phaseAt cfg env (t + 1) = cfg.afterLayers (i + 1) := phaseAt_succ here
  refine ⟨?_, ?_, ?_, ?_, ?_⟩
  · refine onlyEdge_of_phase all (f := Phase.cloned) (fun _ => rfl) (by simp) here ?_ ?_
    · rw [(all t).copy, here]
      rfl
    · intro u h
      rw [(all u).copy] at h
      exact (cfg.copyAt_commands _).2.2.2 h
  · rw [(all t).controller, here]
    rfl
  · rw [(all (t + 1)).controller, cfg.controllerAt_layer, next]
    unfold Config.afterLayers
    split
    · simp [Phase.layer]
    · simp [Phase.layer]
  · rw [(all (t + 1)).copy, next]
    unfold Config.afterLayers
    split <;> rfl
  · intro u thread
    rw [(all u).controller] at thread
    have ph : phaseAt cfg env u = .startClone (i + 1) :=
      cfg.phase_of_thread (by rw [thread]; rfl)
    rw [(all u).copy, ph]
    rfl

end Handshakes

/-- In every layer iteration no command is lost and none is repeated. -/
theorem handshakes (dom : cfg.Domain hw) (env : Env hw F) (lt : i < cfg.iterations) :
    Handshakes cfg env i := by
  have finite : ∀ x ∈ cfg.results, ¬IsInfinite x :=
    results_finite cfg fun none => absurd lt (by omega)
  have all := mainInv_run cfg env finite
  obtain ⟨t, h0⟩ := savePrev_reached finite env lt
  obtain ⟨h1, h2, -, -, u, -, h3, h4, -, h5, -⟩ := iteration_ends finite h0
  exact {
    savePrev := ⟨t, savePrev_handshake all dom h0⟩
    nextLayer := ⟨t + 1, nextLayer_handshake all h1⟩
    startGenerator := ⟨t + 2, startGenerator_handshake all h2⟩
    clear := ⟨u, clear_handshake all h3⟩
    startClone := ⟨u + 1, startClone_handshake all h4⟩
    endClone := ⟨u + 3 + cfg.width i, endClone_handshake all h5⟩ }

/-- The commands of the second iteration of the deep network. -/
theorem handshakes_deep : Handshakes deepNetwork listedEnv 1 :=
  handshakes deepNetwork_bounded.domain listedEnv (by decide)

end NnProcessor.Correctness
