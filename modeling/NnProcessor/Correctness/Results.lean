import NnProcessor.Correctness.Output

/-!
# The result phase

Once the results are sent the shared bus belongs to `PREVIOUS_LAYER`: `IO` has left its thread, and
nothing else in the system reacts to the result words, although they travel at address 0 like the
commands (`result_phase`). The words that `IO` prints are the memory of `PREVIOUS_LAYER`, the last
one in the edge that calls `sc_stop()`.
-/

namespace NnProcessor.Correctness
open NnProcessor.Arith NnProcessor.Model NnProcessor.Edge NnProcessor.Invariant

variable {hw : Hw} {F : Type}

/-- A process writes the shared signals: for some values of them it does not leave them alone. -/
def Drives (act : IoBus F → IoBus F) : Prop := ∃ bus, act bus ≠ bus

/-- Between `s` and the later state `s'` the result words have changed nothing but `IO`. -/
structure Inert (s s' : System hw F) : Prop where
  layers : s'.layersStorage.memory = s.layersStorage.memory
  weights : s'.weightStorage.memory = s.weightStorage.memory
  previous : s'.previousLayer.memory = s.previousLayer.memory
  controller : s'.controller = s.controller
  idle : s'.controller.state = .idle
  addr : s'.io.addrO = 0

section Statement

variable [Binary32Ops F] [DecidableEq F]

/-- The simulation calls `sc_stop()` in the edge `t`, and by then `IO` has printed the memory of
`PREVIOUS_LAYER` and nothing else; the last word is printed in that very edge. -/
structure PrintsMemory (cfg : Config F) (env : Env hw F) (t : Nat) : Prop where
  running : (run cfg env t).stopped = false
  stop : (run cfg env (t + 1)).stopped = true
  all : (run cfg env (t + 1)).io.printed = numbered (run cfg env (t + 1)).previousLayer.memory
  only : ∀ u, (run cfg env u).io.printed <+: (run cfg env (t + 1)).io.printed
  before : (run cfg env t).io.printed =
    numbered (run cfg env (t + 1)).previousLayer.memory.dropLast
  last : ∀ x ∈ (run cfg env (t + 1)).previousLayer.memory.getLast?,
    (run cfg env t).bus = { data := x, wr := true }

/-- What holds of the shared bus and of the results over a whole run. -/
structure ResultPhase (cfg : Config F) (env : Env hw F) : Prop where
  exclusive : ∀ t,
    ¬((Drives fun bus => (IoModule.writeDataToSystem cfg
        (((run cfg env t).methodPhase (env.sched t)).io, bus)).2) ∧
      ∃ m : PreviousLayer F hw.countPcUnit,
        Drives fun bus => (PreviousLayer.issueElementIo (run cfg env t).wires.wrToIoCtrlMemBus
          (m, bus)).2)
  inert : ∀ t u, t ≤ u → (run cfg env t).previousLayerController.wrToOutO = true →
    Inert (run cfg env t) (run cfg env u)
  command : ∀ t, (run cfg env t).previousLayerController.wrToOutO = true →
    (run cfg env t).stopped = false →
    ((run cfg env t).methodPhase (env.sched t)).controller = (run cfg env t).controller
  printed : ∃ t, PrintsMemory cfg env t

end Statement

section Phases

variable [Binary32Ops F]

omit [Binary32Ops F] in
/-- `write_out_controller_layer_o` has arrived when the results are sent, and not before. -/
lemma sends_results (cfg : Config F) {ph : Phase} (out : (cfg.copyAt ph).wrToOutO = true) :
    ph = .stopped ∨ ∃ k, ph = .output k := by
  cases ph with
  | load t => cases t <;> cases out
  | output k => exact .inr ⟨k, rfl⟩
  | stopped => exact .inl rfl
  | savePrev | nextLayer | startGenerator | settle | compute | clear | startClone | copyFirst
  | copying | cloned | writeOut => cases out

/-- The results are sent until the simulation is stopped. -/
lemma sends_next (cfg : Config F) {ph : Phase} (out : (cfg.copyAt ph).wrToOutO = true)
    (ended : Bool) : (cfg.copyAt (cfg.next ended ph)).wrToOutO = true := by
  cases sends_results cfg out with
  | inl st =>
    subst st
    rfl
  | inr sends =>
    obtain ⟨k, rfl⟩ := sends
    simp only [Config.next]
    split
    · rfl
    · rfl

/-- The simulation is stopped behind the last result. -/
lemma stops_next (cfg : Config F) {ph : Phase} (valid : cfg.Valid ph) (running : ph ≠ .stopped)
    {ended : Bool} (stop : cfg.next ended ph = .stopped) : ph = .output cfg.resultCount := by
  have after : ∀ i, cfg.afterLayers i ≠ .stopped := by
    intro i
    unfold Config.afterLayers
    split
    · simp
    · simp
  cases ph with
  | load t =>
    simp only [Config.next] at stop
    split at stop
    · cases stop
    · exact absurd stop (after 0)
  | compute i => cases ended <;> cases stop
  | copyFirst i =>
    simp only [Config.next] at stop
    split at stop <;> cases stop
  | copying i j =>
    simp only [Config.next] at stop
    split at stop <;> cases stop
  | cloned i => exact absurd stop (after (i + 1))
  | output k =>
    simp only [Config.next] at stop
    split at stop
    · cases stop
    · next none => exact congrArg Phase.output (le_antisymm valid (not_lt.1 none))
  | stopped => exact absurd rfl running
  | savePrev | nextLayer | startGenerator | settle | clear | startClone | writeOut => cases stop

/-- Every word of the last layer is sent, unless the layer is too long for the `(int)` in the guard
of `PREVIOUS_LAYER`. A computed layer is not. -/
lemma results_eq_activation (cfg : Config F)
    (fits : cfg.layers.length ≤ 1 → cfg.picture.length < 2 ^ 31) :
    cfg.results = cfg.activation cfg.iterations := by
  have lt : (cfg.activation cfg.iterations).length < 2 ^ 31 := by
    cases iter : cfg.iterations with
    | zero =>
      apply fits
      by_contra two
      have pos := cfg.iterations_pos (by omega)
      rw [iter] at pos
      cases pos
    | succ i =>
      have size : Fits (cfg.size (i + 1)) := by
        unfold Config.size Config.received
        rw [List.getD_eq_getElem?_getD, List.getElem?_map]
        cases cfg.layers[i + 1]? with
        | none => decide
        | some l => exact i32_fits _
      have hi := size.2
      rw [Config.length_activation_succ, Config.width]
      omega
  rw [Config.results, Config.resultCount, i32_natCast lt, Int.toNat_natCast, List.take_length]

/-- What the modules that listen to the bus are while the results are sent. -/
lemma sending_modules {cfg : Config F} {ph : Phase} {h : History hw}
    {s : System hw F} (inv : MainInv cfg ph h s)
    (out : s.previousLayerController.wrToOutO = true) :
    (∃ words, Receiving words s.io) ∧
      s.layersStorage.memory = (cfg.loaded 1 cfg.words.length).map toInt ∧
      s.weightStorage.memory = cfg.loaded 3 cfg.words.length ∧
      s.previousLayer.memory = cfg.activation cfg.iterations ∧
      s.controller = cfg.controllerAt .stopped := by
  have layers := inv.layers.memory
  have weights := inv.weights
  have previous := inv.previous.memory
  have controller := inv.controller
  have bus := inv.bus
  rw [inv.copy] at out
  cases sends_results cfg out with
  | inl st =>
    subst st
    exact ⟨⟨_, bus⟩, layers, weights, previous, controller⟩
  | inr sends =>
    obtain ⟨k, rfl⟩ := sends
    refine ⟨?_, layers, weights, previous, controller⟩
    cases k with
    | zero => exact ⟨_, bus.1⟩
    | succ k => exact ⟨_, bus.1⟩

end Phases

variable [Binary32 F] [DecidableEq F] {cfg : Config F} {env : Env hw F}

section Runs

variable (finite : ∀ x ∈ cfg.results, ¬IsInfinite x)
include finite

/-- Once `write_out_controller_layer_o` has arrived it stays. -/
lemma keeps_sending {t u : Nat} (le : t ≤ u)
    (out : (run cfg env t).previousLayerController.wrToOutO = true) :
    (run cfg env u).previousLayerController.wrToOutO = true := by
  induction u, le using Nat.le_induction with
  | base => exact out
  | succ u le ih =>
    rw [(mainInv_run cfg env finite u).copy] at ih
    rw [(mainInv_run cfg env finite (u + 1)).copy]
    exact sends_next cfg ih _

/-- `IO` has left its thread when `PREVIOUS_LAYER` writes to the bus. -/
lemma writers_exclusive (t : Nat) :
    ¬((Drives fun bus => (IoModule.writeDataToSystem cfg
        (((run cfg env t).methodPhase (env.sched t)).io, bus)).2) ∧
      ∃ m : PreviousLayer F hw.countPcUnit,
        Drives fun bus => (PreviousLayer.issueElementIo (run cfg env t).wires.wrToIoCtrlMemBus
          (m, bus)).2) := by
  rintro ⟨⟨bus, io⟩, m, bus', previous⟩
  have out : (run cfg env t).previousLayerController.wrToOutO = true := by
    by_contra low
    exact previous (by simp [PreviousLayer.issueElementIo, low])
  obtain ⟨⟨words, rcv⟩, -⟩ := sending_modules (mainInv_run cfg env finite t) out
  have thread : ((run cfg env t).methodPhase (env.sched t)).io.thread = .finished := by
    rw [methodPhase_io, IoModule.readDataFromSystem]
    split
    · exact rcv.thread
    · exact rcv.thread
  exact io (by simp [IoModule.writeDataToSystem, thread])

/-- The result words change nothing. -/
lemma results_inert {t u : Nat} (le : t ≤ u)
    (out : (run cfg env t).previousLayerController.wrToOutO = true) :
    Inert (run cfg env t) (run cfg env u) := by
  obtain ⟨-, layers, weights, previous, controller⟩ :=
    sending_modules (mainInv_run cfg env finite t) out
  obtain ⟨⟨words, rcv⟩, layers', weights', previous', controller'⟩ :=
    sending_modules (mainInv_run cfg env finite u) (keeps_sending finite le out)
  refine ⟨?_, ?_, ?_, ?_, ?_, rcv.addr⟩
  · rw [layers', layers]
  · rw [weights', weights]
  · rw [previous', previous]
  · rw [controller', controller]
  · rw [controller']
    rfl

/-- No result word is taken for a command. -/
lemma results_no_command {t : Nat}
    (out : (run cfg env t).previousLayerController.wrToOutO = true)
    (go : (run cfg env t).stopped = false) :
    ((run cfg env t).methodPhase (env.sched t)).controller = (run cfg env t).controller := by
  have inv := mainInv_run cfg env finite t
  have running : phaseAt cfg env t ≠ .stopped := by
    intro st
    rw [(stopped_iff finite).2 st] at go
    cases go
  rw [inv.copy] at out
  obtain ⟨k, sends⟩ := (sends_results cfg out).resolve_left running
  rw [methods_controller cfg (env.sched t) inv.controller inv.bus inv.valid running
    (fun _ _ => finite), inv.controller, sends]
  simp [commandedAt]

/-- The last word is printed in the edge that stops the simulation. -/
lemma prints_memory (fits : cfg.layers.length ≤ 1 → cfg.picture.length < 2 ^ 31) :
    ∃ t, PrintsMemory cfg env t := by
  obtain ⟨u, st⟩ := stopped_reached finite env
  obtain ⟨t, -, running, stop⟩ := given_up (P := fun t => phaseAt cfg env t ≠ .stopped)
    (Nat.zero_le u) (by simp [phaseAt]) (not_not.2 st)
  rw [not_not] at stop
  have inv := mainInv_run cfg env finite t
  have inv' := mainInv_run cfg env finite (t + 1)
  have last := stops_next cfg inv.valid running stop
  have words := results_eq_activation cfg fits
  have memory : (run cfg env (t + 1)).previousLayer.memory = cfg.results := by
    rw [inv'.previous.memory, stop, words]
    rfl
  have all : (run cfg env (t + 1)).io.printed = numbered cfg.results := by
    exact printed_stopped finite ((stopped_iff finite).2 stop)
  have bus := inv.bus
  have length := length_results cfg
  rw [last] at bus
  refine ⟨t, ?_⟩
  constructor
  · rw [← Bool.not_eq_true, stopped_iff finite]
    exact running
  · exact (stopped_iff finite).2 stop
  · rw [memory, all]
  · intro v
    rw [all]
    exact printed_prefix finite v
  · rw [memory, List.dropLast_eq_take, length]
    cases count : cfg.resultCount with
    | zero =>
      rw [count] at bus
      exact bus.1.printed
    | succ k =>
      rw [count] at bus
      exact bus.1.printed
  · rw [memory, List.getLast?_eq_getElem?, length]
    intro x hx
    cases count : cfg.resultCount with
    | zero =>
      rw [count] at hx length
      rw [List.eq_nil_of_length_eq_zero length] at hx
      cases hx
    | succ k =>
      rw [count] at bus hx
      obtain ⟨-, wr, data⟩ := bus
      rw [Nat.add_sub_cancel, data] at hx
      rw [← Option.some.inj hx, ← wr]

end Runs

/-- The writers of the shared bus take turns, the result words change nothing, and `IO` prints the
memory of `PREVIOUS_LAYER`. -/
theorem result_phase (env : Env hw F)
    (picture : cfg.layers.length ≤ 1 → ∀ x ∈ cfg.picture, ¬IsInfinite x)
    (fits : cfg.layers.length ≤ 1 → cfg.picture.length < 2 ^ 31) : ResultPhase cfg env := by
  have finite := finite_results cfg picture
  exact {
    exclusive := writers_exclusive finite
    inert := fun _ _ => results_inert finite
    command := fun _ => results_no_command finite
    printed := prints_memory finite fits }

/-- The result phase of the small network. -/
theorem result_phase_small : ResultPhase smallNetwork listedEnv :=
  result_phase listedEnv (fun one => absurd one (by decide)) fun one => absurd one (by decide)

/-- The long picture stays in the memory of `PREVIOUS_LAYER`, and nothing of it is printed. -/
theorem result_phase_bounds :
    longPicture.Bounded .configH ∧ (∀ x ∈ longPicture.picture, ¬IsInfinite x) ∧
      ¬ResultPhase longPicture listedEnv := by
  refine ⟨by constructor <;> decide, longPicture_finite, ?_⟩
  intro phase
  obtain ⟨t, prints⟩ := phase.printed
  have finite := finite_results longPicture fun _ => longPicture_finite
  have all := prints.all
  have inv := mainInv_run longPicture listedEnv finite (t + 1)
  have st := (stopped_iff finite).1 prints.stop
  rw [printed_stopped finite prints.stop, inv.previous.memory, st] at all
  have eq := congrArg List.length (numbered_injective all)
  have iter : longPicture.iterations = 0 := by decide
  rw [length_results, Config.resultCount, Config.previousAt, iter, Config.activation,
    longPicture_length] at eq
  revert eq
  decide

end NnProcessor.Correctness
