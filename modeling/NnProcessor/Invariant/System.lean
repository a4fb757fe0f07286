import NnProcessor.Invariant.Layer
import NnProcessor.Invariant.Storages

/-!
# The invariant of the whole system

`MainInv cfg ph h s` puts the invariants of all modules together: the system is in the phase `ph`
and `h` has been observed so far. It holds after the initialization and every edge leads from a
phase to the next one, whatever the order of the processes; `mainInv_run` is the run lemma that all
results about runs start from.
-/

namespace NnProcessor.Invariant
open NnProcessor.Arith NnProcessor.Model NnProcessor.Edge

variable {hw : Hw} {F : Type}

/-- `NEXT_LAYER` while a layer is cloned; the writes before are part of `LayerInv`. -/
def SlotsInv [Binary32Ops F] (cfg : Config F) (ph : Phase) (m : NextLayer F) : Prop :=
  match ph with
  | .clear i | .startClone i | .copyFirst i =>
    m.index = 0 ∧ ∀ x < cfg.dispatches i, m.memory x = (cfg.job i).result x
  | .copying i j =>
    m.index = j + 1 ∧ m.dataO = (cfg.job i).result j ∧
      ∀ x < cfg.dispatches i, m.memory x = (cfg.job i).result x
  | _ => True

/-- The generator and the processors in a phase, with what has been observed of them. -/
def UnitsInv [Binary32Ops F] (cfg : Config F) (ph : Phase) (h : History hw) (s : System hw F) :
    Prop :=
  match ph with
  | .load _ => UnitsIdle s ∧ h.used = cfg.usesBefore 0
  | .savePrev i | .nextLayer i | .startGenerator i =>
    UnitsIdle s ∧ h.dispatched = 0 ∧ h.stored = 0 ∧ h.used = cfg.usesBefore i
  | .settle i => LayerInv cfg i h s ∧ s.generator.state = .generate ∧ s.cycleEnded = false
  | .compute i =>
    LayerInv cfg i h s ∧
      s.cycleEnded = reduce s.generator.endGenerateO (fun k => (s.processors k).contrEmptyO)
  | .clear i | .startClone i | .copyFirst i | .copying i _ | .cloned i =>
    UnitsIdle s ∧ h.dispatched = cfg.dispatches i ∧
      h.stored = Multiset.range (cfg.dispatches i) ∧ h.used = cfg.usesBefore (i + 1)
  | .writeOut | .output _ | .stopped => UnitsIdle s ∧ h.used = cfg.usesBefore cfg.iterations

/-- The invariant of the whole system in a phase. -/
structure MainInv [Binary32Ops F] (cfg : Config F) (ph : Phase) (h : History hw)
    (s : System hw F) : Prop where
  valid : cfg.Valid ph
  bus : BusInv cfg ph s
  controller : s.controller = cfg.controllerAt ph
  copy : s.previousLayerController = cfg.copyAt ph
  layers : LayersInv cfg ph s.layersStorage
  kept : KeptInv cfg ph s.previousLayerSize
  weights : s.weightStorage.memory = loadedAt cfg 3 ph
  previous : PreviousInv cfg ph s.previousLayer
  slots : SlotsInv cfg ph s.nextLayer
  units : UnitsInv cfg ph h s

variable [Binary32 F] [DecidableEq F] {cfg : Config F} {ph : Phase} {h : History hw}
variable {s : System hw F} (sch : Schedule hw)

omit [DecidableEq F] in
/-- A run goes on until it is stopped. -/
lemma MainInv.go (inv : MainInv cfg ph h s) (running : ph ≠ .stopped) : s.stopped = false := by
  exact inv.previous.stopped.trans (decide_eq_false running)

omit [DecidableEq F] in
/-- The signals of a layer while it is computed. -/
lemma MainInv.wires {i : Nat} (inv : MainInv cfg ph h s) (at_ : ph = .settle i ∨ ph = .compute i) :
    LayerWires cfg i s := by
  have three := (loaded_all cfg (le_refl _)).2.2
  rcases at_ with rfl | rfl
  all_goals
    exact {
      go := inv.go (by simp)
      layer := by rw [inv.controller]; rfl
      start := by rw [inv.controller]; rfl
      size := inv.kept.issued _ rfl (by simp)
      width := inv.layers.issued _ rfl
      weights := inv.weights.trans three
      memory := inv.previous.memory
      generate := by rw [inv.controller]; rfl
      quiet := inv.bus.2
      next := by rw [inv.copy]; rfl
      copy := by rw [inv.copy]; rfl
      out := by rw [inv.copy]; rfl
      clr := by rw [inv.copy]; rfl }

omit [DecidableEq F] in
/-- A clone begins at the first slot and reads one word for each neuron. -/
lemma MainInv.clone_reads (inv : MainInv cfg ph h s)
    (next : s.previousLayerController.nextO = true) : ∃ i < cfg.iterations, ph.layer = some i ∧
      (s.nextLayer.index = 0 ∨ s.nextLayer.index < cfg.width i) := by
  have slots := inv.slots
  have valid := inv.valid
  rw [inv.copy] at next
  cases ph with
  | copyFirst i => exact ⟨i, valid, rfl, .inl slots.1⟩
  | copying i j =>
    refine ⟨i, valid.1, rfl, .inr ?_⟩
    rw [slots.1]
    exact of_decide_eq_true next
  | load t => cases t <;> cases next
  | savePrev | nextLayer | startGenerator | settle | compute | clear | startClone | cloned
  | writeOut | output | stopped => cases next

/-- The units follow the phases. -/
lemma MainInv.step_units (inv : MainInv cfg ph h s) (running : ph ≠ .stopped)
    (ctrl : (s.edge cfg sch).controller = cfg.controllerAt (cfg.next s.cycleEnded ph))
    (on : cfg.next s.cycleEnded ph ≠ .stopped → (s.edge cfg sch).stopped = false) :
    UnitsInv cfg (cfg.next s.cycleEnded ph) (h.observe s (s.edge cfg sch)) (s.edge cfg sch) := by
  have go := inv.go running
  have units := inv.units
  have start := inv.controller
  -- the units rest, and no iteration begins
  have rest : UnitsIdle s → s.controller.startGeneratorO = false →
      (s.edge cfg sch).controller.thread.begins = false →
      UnitsIdle (s.edge cfg sch) ∧
        (h.observe s (s.edge cfg sch)).dispatched = h.dispatched ∧
        (h.observe s (s.edge cfg sch)).stored = h.stored ∧
        (h.observe s (s.edge cfg sch)).used = h.used := by
    intro idle pulse stay
    have idle' := idle.step cfg sch go pulse
    have seen := idle.observe idle'.generator.quiet h
    simp only [stay, Bool.false_eq_true, if_false] at seen
    exact ⟨idle', by rw [seen], by rw [seen], by rw [seen]⟩
  -- the units rest, and an iteration begins or the results are sent
  have after : ∀ i ≤ cfg.iterations, UnitsIdle s → s.controller.startGeneratorO = false →
      h.used = cfg.usesBefore i → cfg.next s.cycleEnded ph = cfg.afterLayers i →
      UnitsInv cfg (cfg.afterLayers i) (h.observe s (s.edge cfg sch)) (s.edge cfg sch) := by
    intro i le idle pulse used eq
    have idle' := idle.step cfg sch go pulse
    have seen := idle.observe idle'.generator.quiet h
    rw [eq] at ctrl
    unfold Config.afterLayers at ctrl ⊢
    split_ifs at ctrl ⊢ with more
    · have begins : (s.edge cfg sch).controller.thread.begins = true := by rw [ctrl]; rfl
      simp only [begins, if_true] at seen
      exact ⟨idle', by rw [seen], by rw [seen], by rw [seen]; exact used⟩
    · obtain rfl : i = cfg.iterations := le_antisymm le (not_lt.1 more)
      exact ⟨idle', by rw [seen]; exact used⟩
  cases ph with
  | load t =>
    by_cases more : t < cfg.words.length
    · have eq : cfg.next s.cycleEnded (.load t) = .load (t + 1) := by simp [Config.next, more]
      rw [eq] at ctrl ⊢
      have pulse : s.controller.startGeneratorO = false := by
        rw [start]
        rcases t with _ | _ | _ | t <;> rfl
      have stay : (s.edge cfg sch).controller.thread.begins = false := by
        rw [ctrl]
        rcases t with _ | _ | t <;> rfl
      obtain ⟨idle, -, -, used⟩ := rest units.1 pulse stay
      exact ⟨idle, used.trans units.2⟩
    · have eq : cfg.next s.cycleEnded (.load t) = cfg.afterLayers 0 := by simp [Config.next, more]
      rw [eq]
      refine after 0 (Nat.zero_le _) units.1 ?_ units.2 eq
      rw [start]
      rcases t with _ | _ | _ | t <;> rfl
  | savePrev i | nextLayer i | clear i | startClone i =>
    obtain ⟨idle, dispatched, stored, used⟩ :=
      rest units.1 (by rw [start]; rfl) (by rw [ctrl]; rfl)
    exact ⟨idle, dispatched.trans units.2.1, stored.trans units.2.2.1, used.trans units.2.2.2⟩
  | startGenerator i =>
    obtain ⟨idle, dispatched, stored, used⟩ := units
    obtain ⟨layer, state⟩ := idle.begin sch go (by rw [start]; rfl) dispatched stored used
      (by rw [ctrl]; rfl)
    refine ⟨layer, state, ?_⟩
    rw [edge_cycleEnded cfg sch go (on (by rintro ⟨⟩)), ← Bool.not_eq_true]
    intro ended
    have none := (layer.finish ended).1.generator.state
    rw [state] at none
    cases none
  | settle i =>
    have wires := inv.wires (.inl rfl)
    exact ⟨units.1.step sch wires (by rw [ctrl]; rfl),
      edge_cycleEnded cfg sch go (on (by rintro ⟨⟩))⟩
  | compute i =>
    have wires := inv.wires (.inr rfl)
    cases ended : s.cycleEnded with
    | false =>
      rw [ended] at ctrl on
      exact ⟨units.1.step sch wires (by rw [ctrl]; rfl),
        edge_cycleEnded cfg sch go (on (by rintro ⟨⟩))⟩
    | true =>
      rw [ended] at ctrl
      obtain ⟨idle, all, stored, used⟩ := units.1.finish (units.2.symm.trans ended)
      obtain ⟨idle', dispatched', stored', used'⟩ :=
        rest idle (by rw [start]; rfl) (by rw [ctrl]; rfl)
      exact ⟨idle', dispatched'.trans all, stored'.trans stored, used'.trans used⟩
  | copyFirst i =>
    simp only [Config.next] at ctrl ⊢
    split_ifs at ctrl ⊢ <;>
      obtain ⟨idle, dispatched, stored, used⟩ :=
        rest units.1 (by rw [start]; rfl) (by rw [ctrl]; rfl) <;>
      exact ⟨idle, dispatched.trans units.2.1, stored.trans units.2.2.1, used.trans units.2.2.2⟩
  | copying i j =>
    simp only [Config.next] at ctrl ⊢
    split_ifs at ctrl ⊢ <;>
      obtain ⟨idle, dispatched, stored, used⟩ :=
        rest units.1 (by rw [start]; rfl) (by rw [ctrl]; rfl) <;>
      exact ⟨idle, dispatched.trans units.2.1, stored.trans units.2.2.1, used.trans units.2.2.2⟩
  | cloned i =>
    exact after (i + 1) inv.valid units.1 (by rw [start]; rfl) units.2.2.2 rfl
  | writeOut =>
    obtain ⟨idle, -, -, used⟩ := rest units.1 (by rw [start]; rfl) (by rw [ctrl]; rfl)
    exact ⟨idle, used.trans units.2⟩
  | output k =>
    simp only [Config.next] at ctrl ⊢
    split_ifs at ctrl ⊢ <;>
      obtain ⟨idle, -, -, used⟩ := rest units.1 (by rw [start]; rfl) (by rw [ctrl]; rfl) <;>
      exact ⟨idle, used.trans units.2⟩
  | stopped => exact absurd rfl running

/-- `NEXT_LAYER` follows the phases. -/
lemma MainInv.step_slots (inv : MainInv cfg ph h s) (running : ph ≠ .stopped) :
    SlotsInv cfg (cfg.next s.cycleEnded ph) (s.edge cfg sch).nextLayer := by
  have go := inv.go running
  have units := inv.units
  have copy := inv.copy
  have slots := inv.slots
  -- with the units at rest, only `copy_memory` moves the memory
  have issue : UnitsIdle s → (s.edge cfg sch).nextLayer =
      s.nextLayer.issueElement hw.memSize s.previousLayerController.nextO := by
    intro idle
    rw [edge_nextLayer cfg sch go]
    rcases methodPhase_nextLayer sch s with eq | eq <;> rw [eq, idle.addToMemory]
  have hold : UnitsIdle s → s.previousLayerController.nextO = false →
      (s.edge cfg sch).nextLayer = s.nextLayer := by
    intro idle next
    rw [issue idle, next]
    rfl
  have after : ∀ i, SlotsInv cfg (cfg.afterLayers i) (s.edge cfg sch).nextLayer := by
    intro i
    unfold Config.afterLayers
    split <;> trivial
  cases ph with
  | load t =>
    simp only [Config.next]
    split
    · trivial
    · exact after 0
  | compute i =>
    cases ended : s.cycleEnded with
    | false => trivial
    | true =>
      obtain ⟨idle, -, stored, -⟩ := units.1.finish (units.2.symm.trans ended)
      have some : h.stored ≠ 0 := by
        rw [stored]
        intro none
        have pos : 0 ∈ Multiset.range (cfg.dispatches i) :=
          Multiset.mem_range.2 (Nat.lt_of_lt_of_le Nat.one_pos (Nat.le_max_right _ _))
        rw [none] at pos
        exact Multiset.notMem_zero 0 pos
      simp only [Config.next, if_true, SlotsInv]
      rw [hold idle (by rw [copy]; rfl)]
      refine ⟨units.1.index some, fun x lt => units.1.slots x ?_⟩
      rw [stored]
      exact Multiset.mem_range.2 lt
  | clear i | startClone i =>
    simp only [Config.next, SlotsInv]
    rw [hold units.1 (by rw [copy]; rfl)]
    exact slots
  | copyFirst i =>
    have next : s.previousLayerController.nextO = true := by rw [copy]; rfl
    simp only [Config.next]
    split
    · rw [issue units.1, next]
      refine ⟨?_, ?_, slots.2⟩
      · simp [NextLayer.issueElement, slots.1]
      · have first := slots.2 0 (Nat.lt_of_lt_of_le Nat.one_pos (Nat.le_max_right _ _))
        simpa [NextLayer.issueElement, slots.1] using first
    · trivial
  | copying i j =>
    simp only [Config.next]
    split
    · next more =>
      have next : s.previousLayerController.nextO = true := by
        rw [copy]
        simp [Config.copyAt, more]
      rw [issue units.1, next]
      refine ⟨?_, ?_, slots.2.2⟩
      · simp [NextLayer.issueElement, slots.1]
      · have word := slots.2.2 (j + 1) (lt_of_lt_of_le more (Nat.le_max_left _ _))
        simpa [NextLayer.issueElement, slots.1] using word
    · trivial
  | cloned i => exact after (i + 1)
  | output k =>
    simp only [Config.next]
    split <;> trivial
  | stopped => exact absurd rfl running
  | savePrev | nextLayer | startGenerator | settle | writeOut => trivial

/-- Every edge leads to the next phase, in every order of the processes. -/
theorem MainInv.step (inv : MainInv cfg ph h s)
    (finite : ∀ k, ph = .output k → ∀ x ∈ cfg.results, ¬IsInfinite x) :
    MainInv cfg (cfg.next s.cycleEnded ph) (h.observe s (s.edge cfg sch)) (s.edge cfg sch) := by
  by_cases running : ph = .stopped
  · -- a stopped simulation does not move
    subst running
    have st : s.stopped = true := inv.previous.stopped
    obtain ⟨idle, used⟩ := inv.units
    rw [edge_stopped cfg sch st, idle.observe idle.generator.quiet h]
    exact ⟨inv.valid, inv.bus, inv.controller, inv.copy, inv.layers, inv.kept, inv.weights,
      inv.previous, inv.slots, idle, used⟩
  · have go := inv.go running
    have slot : ∀ i j, ph = .copying i j → s.nextLayer.dataO = (cfg.job i).result j := by
      rintro i j rfl
      exact inv.slots.2.1
    obtain ⟨previous, driven⟩ := previous_step sch inv.previous inv.copy inv.bus inv.valid running
      go slot s.cycleEnded
    have ctrl := controller_step cfg sch inv.controller inv.bus inv.valid running go finite
      inv.layers.issued inv.copy
    have on : cfg.next s.cycleEnded ph ≠ .stopped → (s.edge cfg sch).stopped = false := by
      intro ne
      exact previous.stopped.trans (decide_eq_false ne)
    exact {
      valid := inv.valid.next cfg s.cycleEnded
      bus := inv.bus.step cfg sch inv.valid running go driven s.cycleEnded
      controller := ctrl
      copy := copy_step cfg sch inv.copy inv.controller running go inv.layers.issued s.cycleEnded
      layers := layers_step sch inv.layers inv.bus inv.controller inv.valid running go s.cycleEnded
      kept := kept_step sch inv.kept inv.layers inv.controller running go s.cycleEnded
      weights := weights_step sch inv.weights inv.bus inv.valid running go s.cycleEnded
      previous := previous
      slots := inv.step_slots sch running
      units := inv.step_units sch running ctrl on }

/-- The initialization phase leads to the first phase. -/
lemma mainInv_initialized (cfg : Config F) (boot : Schedule hw) (junk : Nat → F) :
    MainInv cfg (.load 0) {} (System.initialized boot junk : System hw F) := by
  obtain ⟨memory, index, stopped, bus⟩ :=
    methodPhase_previousLayer_add boot (System.elaborated junk : System hw F) rfl rfl
  unfold System.initialized
  refine ⟨Nat.zero_le _, ⟨?_, ?_⟩, ?_, ?_, ⟨?_, ?_, by rintro _ ⟨⟩⟩,
    ⟨by rintro _ ⟨⟩, by rintro _ ⟨⟩⟩, ?_, ⟨?_, ?_, ?_⟩, trivial, ⟨⟨?_, ?_⟩, rfl⟩⟩
  · exact (methodPhase_io boot _).trans (readData_quiet (.inr rfl))
  · exact congrArg IoBus.wr bus
  · exact methods_quiet boot rfl (by rintro ⟨-, wr, -⟩; cases wr)
  · exact methodPhase_previousLayerController boot _
  · exact methodPhase_layersMemory boot _
  · exact methodPhase_layersIndex boot _
  · rcases methodPhase_weightStorage boot (System.elaborated junk : System hw F) with eq | eq <;>
      exact congrArg WeightStorage.memory eq
  · exact memory
  · exact index
  · exact stopped
  · have eq : (System.initialized boot junk : System hw F).generator = {} :=
      initialized_generator boot junk
    unfold System.initialized at eq
    rw [eq]
    exact ⟨.inl rfl, rfl, rfl, rfl⟩
  · intro k
    have eq := initialized_processor boot junk k
    unfold System.initialized at eq
    rw [eq]
    exact ⟨rfl, rfl, rfl, rfl, rfl⟩

/-- The phase in front of the edge `t`. -/
def phaseAt (cfg : Config F) (env : Env hw F) : Nat → Phase
  | 0 => .load 0
  | t + 1 => cfg.next (run cfg env t).cycleEnded (phaseAt cfg env t)

/-- A run goes through the phases one after the other. -/
theorem mainInv_run (cfg : Config F) (env : Env hw F) (finite : ∀ x ∈ cfg.results, ¬IsInfinite x)
    (t : Nat) : MainInv cfg (phaseAt cfg env t) (history cfg env t) (run cfg env t) := by
  induction t with
  | zero => exact mainInv_initialized cfg env.boot env.junk
  | succ t ih => exact ih.step (env.sched t) fun _ _ => finite

/-- The transmission takes one edge for each word, whatever the words are. -/
theorem mainInv_load (cfg : Config F) (env : Env hw F) {t : Nat} (le : t ≤ cfg.words.length) :
    phaseAt cfg env t = .load t ∧
      MainInv cfg (.load t) (history cfg env t) (run cfg env t) := by
  induction t with
  | zero => exact ⟨rfl, mainInv_initialized cfg env.boot env.junk⟩
  | succ t ih =>
    obtain ⟨phase, inv⟩ := ih (Nat.le_of_succ_le le)
    have next : cfg.next (run cfg env t).cycleEnded (.load t) = .load (t + 1) := if_pos le
    refine ⟨by rw [phaseAt, phase, next], ?_⟩
    have step := inv.step (env.sched t) (by simp)
    rwa [next] at step

omit [DecidableEq F] in
/-- The results of a network with a computed layer are values of the sigmoid. -/
lemma results_finite (cfg : Config F)
    (picture : cfg.iterations = 0 → ∀ x ∈ cfg.picture, ¬IsInfinite x) :
    ∀ x ∈ cfg.results, ¬IsInfinite x := by
  intro x hx
  have mem : x ∈ cfg.activation cfg.iterations := List.mem_of_mem_take hx
  cases iter : cfg.iterations with
  | zero =>
    rw [iter] at mem
    exact picture iter x mem
  | succ i =>
    rw [iter, Config.activation_succ] at mem
    obtain ⟨n, -, rfl⟩ := List.mem_map.1 mem
    exact Binary32.sigmoid_finite _

end NnProcessor.Invariant
