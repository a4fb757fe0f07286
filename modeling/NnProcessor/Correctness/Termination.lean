import NnProcessor.Correctness.Layers

/-!
# Every loop is left

The simulation is stopped after finitely many edges, and no process stays in one of its loops
(`run_ends`), but for the processors, which may wait for a neuron to the end. That a loop is left
follows from its last edge: the run ends at rest, so there is a last edge in the loop, and one step of
the process says what is behind it.
-/

namespace NnProcessor.Model

/-- A condition that is given up between two edges is given up in one step. -/
lemma given_up {P : Nat → Prop} {t u : Nat} (le : t ≤ u) (here : P t) (gone : ¬P u) :
    ∃ v, t ≤ v ∧ P v ∧ ¬P (v + 1) := by
  induction u, le using Nat.le_induction with
  | base => exact absurd here gone
  | succ u le ih =>
    by_cases still : P u
    · exact ⟨u, le, still, gone⟩
    · exact ih still

variable {F : Type}

/-- A processor that is about to store a neuron or has not come so far yet. -/
def ProcessThread.computing : ProcessThread → Bool
  | .inputAddr _ | .inputWait _ | .biasAddr | .biasWait => true
  | .start | .waitQueue | .store => false

/-- Such a processor is busy. -/
lemma ProcessThread.busy_of_computing {th : ProcessThread} (computing : th.computing = true) :
    th.busy = true := by
  cases th with
  | start | waitQueue => cases computing
  | inputAddr | inputWait | biasAddr | biasWait | store => rfl

/-- A step of the computation goes on or ends with the result on the write port. -/
lemma Processor.process_computing [Binary32Ops F] {p : Processor F}
    (computing : p.thread.computing = true) (w : ProcessorIn F) :
    (p.process w).numberOfNn = p.numberOfNn ∧
      ((p.process w).thread.computing = true ∨ (p.process w).thread = .store) := by
  have loop : ∀ (i : Nat) (q : Processor F), (q.inputLoop i w).numberOfNn = q.numberOfNn ∧
      ((q.inputLoop i w).thread.computing = true ∨ (q.inputLoop i w).thread = .store) := by
    intro i q
    unfold Processor.inputLoop
    split
    · exact ⟨rfl, .inl rfl⟩
    · exact ⟨rfl, .inl rfl⟩
  unfold Processor.process
  cases ht : p.thread with
  | start | waitQueue | store =>
    rw [ht] at computing
    cases computing
  | inputAddr i => exact ⟨rfl, .inl rfl⟩
  | inputWait i => exact loop (i + 1) _
  | biasAddr => exact ⟨rfl, .inl rfl⟩
  | biasWait => exact ⟨rfl, .inr rfl⟩

/-- The generator leaves `GENERATE` with its last dispatch. -/
lemma Generator.generate_leaves {n : Nat} {pos : 0 < n} {queueSize : Nat} {generateI : Bool}
    {layerSizeI : Int} {queueSizeI : Fin n → Nat} {g : Generator} (state : g.state = .generate)
    (idle : (g.generate pos queueSize generateI layerSizeI queueSizeI).state = .idle) :
    (g.generate pos queueSize generateI layerSizeI queueSizeI).wO = true := by
  unfold Generator.generate at idle ⊢
  cases ht : g.thread with
  | generate =>
    simp only [ht, Generator.dispatch] at idle ⊢
    split
    · rfl
    · next full =>
      rw [if_neg full] at idle
      rw [state] at idle
      cases idle
  | start | idle | dispatched =>
    simp only [ht, Generator.switchState, state] at idle
    cases idle

end NnProcessor.Model

namespace NnProcessor.Correctness
open NnProcessor.Arith NnProcessor.Model NnProcessor.Edge NnProcessor.Invariant

variable {hw : Hw} {F : Type}

/-- The loops of the processes: whoever is in one at the edge `t` is out of it at a later edge. The
wait of a processor for a neuron is not among them: it ends when there is one in its queue (`queue`),
and a processor that gets none stays in it. -/
structure LoopsLeft [Binary32Ops F] [DecidableEq F] (cfg : Config F) (env : Env hw F) : Prop where
  cycleEnded : ∀ i t, (run cfg env t).controller.thread = .waitEnd i →
    ∃ u, t < u ∧ (run cfg env u).controller.thread = .clear i
  endClone : ∀ i t, (run cfg env t).controller.thread = .waitClone i →
    ∃ u, t < u ∧ ((run cfg env u).controller.thread = .savePrev (i + 1) ∨
      (run cfg env u).controller.thread = .idle)
  generate : ∀ t, (run cfg env t).generator.state = .generate →
    ∃ u, t < u ∧ (run cfg env u).generator.wO = true ∧ (run cfg env u).generator.state = .idle
  queue : ∀ k t, ((run cfg env t).processors k).queueNnNumber ≠ [] →
    ∃ u, t < u ∧ ((run cfg env u).processors k).queueNnNumber = []
  neuron : ∀ k t, ((run cfg env t).processors k).thread.computing = true →
    ∃ u, t < u ∧ ((run cfg env u).processors k).thread = .store ∧
      ((run cfg env u).processors k).numberOfNn = ((run cfg env t).processors k).numberOfNn
  startClone : ∀ i t, (run cfg env t).controller.thread = .startClone i →
    (run cfg env (t + 1)).previousLayerController.thread = .first
  copy : ∀ t, (run cfg env t).previousLayerController.thread = .first ∨
    (∃ j, (run cfg env t).previousLayerController.thread = .copying j) →
    ∃ u, t < u ∧ (run cfg env u).previousLayerController.thread = .ended
  output : ∀ t, (run cfg env t).previousLayerController.wrToOutO = true →
    ∃ u, t ≤ u ∧ (run cfg env u).stopped = true

variable [Binary32 F] [DecidableEq F] {cfg : Config F} {env : Env hw F}

omit [DecidableEq F] in
/-- The results of a run are no markers. -/
lemma finite_results (cfg : Config F)
    (picture : cfg.layers.length ≤ 1 → ∀ x ∈ cfg.picture, ¬IsInfinite x) :
    ∀ x ∈ cfg.results, ¬IsInfinite x := by
  refine results_finite cfg fun none => picture ?_
  by_contra two
  have pos := cfg.iterations_pos (by omega)
  omega

section Loops

variable (finite : ∀ x ∈ cfg.results, ¬IsInfinite x)
include finite

/-- The phase tells whether the simulation has been stopped. -/
lemma stopped_iff {t : Nat} : (run cfg env t).stopped = true ↔ phaseAt cfg env t = .stopped := by
  have inv := (mainInv_run cfg env finite t).previous.stopped
  rw [show (run cfg env t).stopped = _ from inv, decide_eq_true_iff]

variable (env) in
/-- From every edge on the run comes to its end. -/
lemma stopped_behind (t : Nat) : ∃ u, t ≤ u ∧ phaseAt cfg env u = .stopped := by
  obtain ⟨u, st⟩ := stopped_reached finite env
  obtain ⟨d, hd⟩ : ∃ d, d = t - u := ⟨_, rfl⟩
  refine ⟨u + d, by omega, ?_⟩
  clear hd
  induction d with
  | zero => exact st
  | succ d ih => exact phaseAt_succ ih

variable (env) in
/-- A condition that does not hold at the end is given up in an edge of the running simulation. -/
lemma leaves {P : System hw F → Prop} {t : Nat} (here : P (run cfg env t))
    (gone : ∀ u, phaseAt cfg env u = .stopped → ¬P (run cfg env u)) :
    ∃ v, t ≤ v ∧ P (run cfg env v) ∧ ¬P (run cfg env (v + 1)) ∧
      (run cfg env v).stopped = false := by
  obtain ⟨u, le, st⟩ := stopped_behind env finite t
  obtain ⟨v, le', before, behind⟩ := given_up (P := fun v => P (run cfg env v)) le here (gone u st)
  refine ⟨v, le', before, behind, ?_⟩
  rw [← Bool.not_eq_true]
  intro stop
  exact gone v ((stopped_iff finite).1 stop) before

/-- At the end the generator and the processors rest. -/
lemma rest_at_end {t : Nat} (st : phaseAt cfg env t = .stopped) : UnitsIdle (run cfg env t) := by
  have units := (mainInv_run cfg env finite t).units
  rw [st] at units
  exact units.1

/-- The wait of `CONTROLLER` for the end of a cycle is left. -/
lemma cycleEnded_left {i t : Nat} (thread : (run cfg env t).controller.thread = .waitEnd i) :
    ∃ u, t < u ∧ (run cfg env u).controller.thread = .clear i := by
  have inv := mainInv_run cfg env finite t
  rw [inv.controller] at thread
  have ph : phaseAt cfg env t = .compute i := cfg.phase_of_thread (by rw [thread]; rfl)
  obtain ⟨u, lt, clear⟩ := compute_ends finite ph
  refine ⟨u, lt, ?_⟩
  rw [(mainInv_run cfg env finite u).controller, clear]
  rfl

/-- The wait of `CONTROLLER` for the end of a clone is left. -/
lemma endClone_left {i t : Nat} (thread : (run cfg env t).controller.thread = .waitClone i) :
    ∃ u, t < u ∧ ((run cfg env u).controller.thread = .savePrev (i + 1) ∨
      (run cfg env u).controller.thread = .idle) := by
  have all := mainInv_run cfg env finite
  obtain ⟨v, le, before, behind, -⟩ := leaves env finite thread
    (P := fun s => s.controller.thread = .waitClone i) (by
      intro u st
      rw [(all u).controller, st]
      rintro ⟨⟩)
  refine ⟨v + 1, Nat.lt_succ_of_le le, ?_⟩
  rw [(all v).controller] at before
  rw [(all (v + 1)).controller, phaseAt] at behind ⊢
  cases ph : phaseAt cfg env v with
  | load t =>
    rw [ph] at before
    rcases t with _ | _ | _ | t <;> cases before
  | copyFirst j =>
    rw [ph] at before behind
    simp only [Config.next] at behind
    split_ifs at behind <;> exact absurd before behind
  | copying j k =>
    rw [ph] at before behind
    simp only [Config.next] at behind
    split_ifs at behind <;> exact absurd before behind
  | cloned j =>
    rw [ph] at before
    obtain rfl : j = i := ControlThread.waitClone.inj before
    simp only [Config.next, Config.afterLayers]
    split
    · exact .inl rfl
    · exact .inr rfl
  | savePrev | nextLayer | startGenerator | settle | compute | clear | startClone | writeOut
  | output | stopped =>
    rw [ph] at before
    cases before

/-- `GENERATOR` sends a last neuron and is idle again. -/
lemma generate_left {t : Nat} (state : (run cfg env t).generator.state = .generate) :
    ∃ u, t < u ∧ (run cfg env u).generator.wO = true ∧
      (run cfg env u).generator.state = .idle := by
  obtain ⟨v, le, before, behind, go⟩ := leaves env finite state
    (P := fun s => s.generator.state = .generate) (by
      intro u st
      rw [(rest_at_end finite st).generator.state]
      simp)
  have idle : (run cfg env (v + 1)).generator.state = .idle := by
    cases h : (run cfg env (v + 1)).generator.state with
    | idle => rfl
    | generate => exact absurd h behind
  refine ⟨v + 1, Nat.lt_succ_of_le le, ?_, idle⟩
  have edge := edge_generator cfg (env.sched v) go
  rw [show (run cfg env v).edge cfg (env.sched v) = run cfg env (v + 1) from rfl] at edge
  rw [edge] at idle ⊢
  exact Generator.generate_leaves before idle

/-- Every queue becomes empty again. -/
lemma queue_left {k : Fin hw.countPcUnit} {t : Nat}
    (queue : ((run cfg env t).processors k).queueNnNumber ≠ []) :
    ∃ u, t < u ∧ ((run cfg env u).processors k).queueNnNumber = [] := by
  obtain ⟨v, le, -, behind, -⟩ := leaves env finite queue
    (P := fun s => (s.processors k).queueNnNumber ≠ []) (by
      intro u st some
      exact some ((rest_at_end finite st).processor k).queue)
  exact ⟨v + 1, Nat.lt_succ_of_le le, not_not.1 behind⟩

/-- A processor that computes a neuron comes to store it. -/
lemma neuron_left {k : Fin hw.countPcUnit} {t : Nat}
    (computing : ((run cfg env t).processors k).thread.computing = true) :
    ∃ u, t < u ∧ ((run cfg env u).processors k).thread = .store ∧
      ((run cfg env u).processors k).numberOfNn = ((run cfg env t).processors k).numberOfNn := by
  obtain ⟨v, le, ⟨before, number⟩, behind, go⟩ := leaves env finite
    (P := fun s => (s.processors k).thread.computing = true ∧
      (s.processors k).numberOfNn = ((run cfg env t).processors k).numberOfNn)
    ⟨computing, rfl⟩ (by
      rintro u st ⟨still, -⟩
      have rest := ((rest_at_end finite st).processor k).thread
      rw [ProcessThread.busy_of_computing still] at rest
      cases rest)
  -- the push of the edge changes neither the thread nor the number
  have step := Processor.process_computing (F := F)
    (p := ((run cfg env v).processors k).addToQueue hw.queueSize k
      (run cfg env v).generator.addressO (run cfg env v).generator.dataO
      (run cfg env v).generator.wO)
    (by rw [← before]; simp only [Processor.addToQueue]; split <;> rfl)
    ((run cfg env v).wires.processorIn k)
  rw [← edge_processor cfg (env.sched v) go k,
    show (run cfg env v).edge cfg (env.sched v) = run cfg env (v + 1) from rfl] at step
  obtain ⟨same, next⟩ := step
  have kept : ((run cfg env (v + 1)).processors k).numberOfNn =
      ((run cfg env t).processors k).numberOfNn := by
    rw [same, ← number]
    simp only [Processor.addToQueue]
    split <;> rfl
  refine ⟨v + 1, Nat.lt_succ_of_le le, ?_, kept⟩
  rcases next with still | store
  · exact absurd ⟨still, kept⟩ behind
  · exact store

/-- A command to clone is taken up at the next edge. -/
lemma startClone_left {i t : Nat} (thread : (run cfg env t).controller.thread = .startClone i) :
    (run cfg env (t + 1)).previousLayerController.thread = .first := by
  rw [(mainInv_run cfg env finite t).controller] at thread
  have ph : phaseAt cfg env t = .startClone i := cfg.phase_of_thread (by rw [thread]; rfl)
  rw [(mainInv_run cfg env finite (t + 1)).copy, phaseAt_succ ph]
  rfl

/-- The copy of a layer ends. -/
lemma copy_left {t : Nat} (thread : (run cfg env t).previousLayerController.thread = .first ∨
    ∃ j, (run cfg env t).previousLayerController.thread = .copying j) :
    ∃ u, t < u ∧ (run cfg env u).previousLayerController.thread = .ended := by
  have all := mainInv_run cfg env finite
  obtain ⟨v, le, before, behind, -⟩ := leaves env finite thread
    (P := fun s => s.previousLayerController.thread = .first ∨
      ∃ j, s.previousLayerController.thread = .copying j) (by
      intro u st
      rw [(all u).copy, st]
      rintro (h | ⟨j, h⟩) <;> cases h)
  refine ⟨v + 1, Nat.lt_succ_of_le le, ?_⟩
  rw [(all v).copy] at before
  rw [(all (v + 1)).copy, phaseAt] at behind ⊢
  cases ph : phaseAt cfg env v with
  | copyFirst i =>
    rw [ph] at behind
    simp only [Config.next] at behind ⊢
    split_ifs at behind ⊢
    · exact absurd (.inr ⟨0, rfl⟩) behind
    · rfl
  | copying i j =>
    rw [ph] at behind
    simp only [Config.next] at behind ⊢
    split_ifs at behind ⊢
    · exact absurd (.inr ⟨j + 1, rfl⟩) behind
    · rfl
  | load t =>
    rw [ph] at before
    rcases t with _ | t <;> rcases before with h | ⟨j, h⟩ <;> cases h
  | savePrev | nextLayer | startGenerator | settle | compute | clear | startClone | cloned
  | writeOut | output | stopped =>
    rw [ph] at before
    rcases before with h | ⟨j, h⟩ <;> cases h

end Loops

/-- The simulation is stopped, and every loop of every process is left. -/
theorem run_ends (env : Env hw F)
    (picture : cfg.layers.length ≤ 1 → ∀ x ∈ cfg.picture, ¬IsInfinite x) :
    (∃ t, (run cfg env t).stopped = true) ∧ LoopsLeft cfg env := by
  have finite := finite_results cfg picture
  obtain ⟨t, st⟩ := stopped_reached finite env
  refine ⟨⟨t, (stopped_iff finite).2 st⟩, ?_⟩
  exact {
    cycleEnded := fun _ _ => cycleEnded_left finite
    endClone := fun _ _ => endClone_left finite
    generate := fun _ => generate_left finite
    queue := fun _ _ => queue_left finite
    neuron := fun _ _ => neuron_left finite
    startClone := fun _ _ => startClone_left finite
    copy := fun _ => copy_left finite
    output := fun t _ => by
      obtain ⟨u, le, st⟩ := stopped_behind env finite t
      exact ⟨u, le, (stopped_iff finite).2 st⟩ }

/-- The run of the small network ends. -/
theorem run_ends_small :
    (∃ t, (run smallNetwork listedEnv t).stopped = true) ∧ LoopsLeft smallNetwork listedEnv :=
  run_ends listedEnv fun one => absurd one (by decide)

end NnProcessor.Correctness
