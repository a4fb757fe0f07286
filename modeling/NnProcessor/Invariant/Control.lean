import NnProcessor.Invariant.Bus

/-!
# The controllers follow the phases

`CONTROLLER` and `PREVIOUS_LAYER_CONTROLLER` are in every phase exactly in the state that
`controllerAt` and `copyAt` give. The two methods of `CONTROLLER` act on the two commands of the
transmission only: a result word, which also travels at address 0, is never an infinity.
-/

namespace NnProcessor.Invariant
open NnProcessor.Arith NnProcessor.Model NnProcessor.Edge

variable {hw : Hw} {F : Type} [Binary32 F] [DecidableEq F] (cfg : Config F) (sch : Schedule hw)

/-- `CONTROLLER` behind its methods. -/
def commandedAt (ph : Phase) : Controller :=
  if ph = .load 1 then { cfg.controllerAt ph with state := .readData }
  else if ph = .load cfg.words.length then { cfg.controllerAt ph with state := .startConv }
  else cfg.controllerAt ph

/-- The methods of `CONTROLLER` see a word that is no command. -/
lemma methods_quiet {s : System hw F} {c : Controller} (ctrl : s.controller = c)
    (h : ¬(s.io.addrO = 0 ∧ s.bus.wr = true ∧ c.state = .idle ∧ IsInfinite s.bus.data)) :
    (s.methodPhase sch).controller = c := by
  have read : c.stateReadData s.io.addrO s.bus.data s.bus.wr = c := by
    unfold Controller.stateReadData
    exact if_neg fun ⟨a, d, w, st⟩ => h ⟨a, w, st, .inl d⟩
  have start : c.stateStartConv s.io.addrO s.bus.data s.bus.wr = c := by
    unfold Controller.stateStartConv
    exact if_neg fun ⟨a, d, w, st⟩ => h ⟨a, w, st, .inr d⟩
  rcases methodPhase_controller sch s with eq | eq <;> rw [eq, ctrl]
  · rw [read, start]
  · rw [start, read]

/-- The methods of `CONTROLLER` see a command in `IDLE`. -/
lemma methods_command {s : System hw F} {c : Controller} (ctrl : s.controller = c)
    (addr : s.io.addrO = 0) (wr : s.bus.wr = true) (idle : c.state = .idle) :
    (s.bus.data = infinity →
      (s.methodPhase sch).controller = { c with state := .readData }) ∧
    (s.bus.data = negInfinity →
      (s.methodPhase sch).controller = { c with state := .startConv }) := by
  have ne : (infinity : F) ≠ negInfinity := infinity_ne_negInfinity
  constructor <;> intro data <;>
    rcases methodPhase_controller sch s with eq | eq <;> rw [eq, ctrl] <;>
    simp [Controller.stateReadData, Controller.stateStartConv, addr, wr, idle, data, ne, ne.symm]

/-- The methods of `CONTROLLER` in a phase. -/
lemma methods_controller {ph : Phase} {s : System hw F} (ctrl : s.controller = cfg.controllerAt ph)
    (bus : BusInv cfg ph s) (valid : cfg.Valid ph) (running : ph ≠ .stopped)
    (finite : ∀ k, ph = .output k → ∀ x ∈ cfg.results, ¬IsInfinite x) :
    (s.methodPhase sch).controller = commandedAt cfg ph := by
  have three := three_le_length_words cfg
  -- no word is written
  have silent : s.bus.wr = false → ph ≠ .load 1 → ph ≠ .load cfg.words.length →
      (s.methodPhase sch).controller = commandedAt cfg ph := by
    intro wr h1 hT
    rw [commandedAt, if_neg h1, if_neg hT]
    exact methods_quiet sch ctrl (by simp [wr])
  cases ph with
  | load t =>
    cases t with
    | zero =>
      refine silent bus.2 (by simp) ?_
      intro h
      have := Phase.load.inj h
      omega
    | succ t =>
      obtain ⟨-, -, -, wr, word, -, -⟩ := bus
      by_cases marker : t = 0
      · subst marker
        rw [show cfg.words[0]? = some (0, infinity) from rfl] at word
        obtain ⟨addr, data⟩ := Prod.mk.inj (Option.some.inj word)
        rw [commandedAt, if_pos rfl]
        exact (methods_command sch ctrl addr.symm wr rfl).1 data.symm
      by_cases last : t + 1 = cfg.words.length
      · have eq := words_last cfg
        rw [← last, Nat.add_sub_cancel, word] at eq
        obtain ⟨addr, data⟩ := Prod.mk.inj (Option.some.inj eq)
        rw [commandedAt, if_neg (by simpa using marker), if_pos (by rw [last])]
        refine (methods_command sch ctrl addr wr ?_).2 data
        obtain ⟨u, rfl⟩ : ∃ u, t = u + 2 := ⟨t - 2, by omega⟩
        rfl
      · rw [commandedAt, if_neg (by simpa using marker), if_neg (by simpa using last)]
        refine methods_quiet sch ctrl ?_
        rintro ⟨addr, -, idle, -⟩
        -- the second word arrives in `READ_DATA`, the later ones at the stores
        rcases Nat.lt_or_ge t 2 with small | lo
        · obtain rfl : t = 1 := by omega
          cases idle
        · have hi : t + 1 < cfg.words.length := lt_of_le_of_ne valid last
          have := words_address cfg word lo hi
          simp [addr] at this
  | output k =>
    cases k with
    | zero => exact silent bus.2 (by simp) (by simp)
    | succ k =>
      obtain ⟨-, -, data⟩ := bus
      rw [commandedAt, if_neg (by simp), if_neg (by simp)]
      refine methods_quiet sch ctrl ?_
      rintro ⟨-, -, -, inf⟩
      exact finite _ rfl _ (List.mem_of_getElem? data) inf
  | stopped => exact absurd rfl running
  | savePrev | nextLayer | startGenerator | settle | compute | clear | startClone | copyFirst
  | copying | cloned | writeOut => exact silent bus.2 (by simp) (by simp)

omit [Binary32 F] [DecidableEq F] in
/-- The test of the layer loop. -/
lemma layerLoop_eq [Binary32Ops F] (cfg : Config F) {m : Controller} (layers : m.layers = cfg.count)
    (i : Nat) :
    m.layerLoop i =
      if i < cfg.iterations then { m with savePrevLayerSizeO := true, thread := .savePrev i }
      else
        { m with
          writeOutControllerLayerO := true
          state := .idle
          startWeightAdderessO := 0
          thread := .idle } := by
  have test : (i : Int) < i32 (cfg.count - 1) ↔ i < cfg.iterations := by
    unfold Config.iterations
    omega
  simp only [Controller.layerLoop, layers, test]

omit [Binary32 F] [DecidableEq F] in
/-- The layer loop goes on, or the results are sent. -/
lemma layerLoop_afterLayers [Binary32Ops F] (cfg : Config F) {i : Nat} (le : i ≤ cfg.iterations)
    {thread : ControlThread} :
    (cfg.iterating i (cfg.sizeBefore i) thread).layerLoop i =
      cfg.controllerAt (cfg.afterLayers i) := by
  rw [layerLoop_eq cfg rfl, Config.afterLayers]
  split
  · rfl
  · next none =>
    obtain rfl : i = cfg.iterations := le_antisymm le (not_lt.1 none)
    rfl

/-- `CONTROLLER` follows the phases. -/
lemma controller_step {ph : Phase} {s : System hw F} (ctrl : s.controller = cfg.controllerAt ph)
    (bus : BusInv cfg ph s) (valid : cfg.Valid ph) (running : ph ≠ .stopped)
    (go : s.stopped = false) (finite : ∀ k, ph = .output k → ∀ x ∈ cfg.results, ¬IsInfinite x)
    (issued : ∀ v ∈ cfg.issuedAt ph, s.layersStorage.dataO = v)
    (copy : s.previousLayerController = cfg.copyAt ph) :
    (s.edge cfg sch).controller = cfg.controllerAt (cfg.next s.cycleEnded ph) := by
  have three := three_le_length_words cfg
  rw [edge_controller cfg sch go, methods_controller cfg sch ctrl bus valid running finite]
  cases ph with
  | load t =>
    rcases t with _ | _ | _ | t
    · have more : 0 < cfg.words.length := by omega
      simp [commandedAt, Config.next, more, Config.controllerAt, Controller.process,
        Controller.switchState, show (0 : Nat) ≠ cfg.words.length by omega]
    · have more : 1 < cfg.words.length := by omega
      simp [commandedAt, Config.next, more, Config.controllerAt, Controller.process,
        Controller.switchState]
    · have more : 2 < cfg.words.length := by omega
      have count : toInt s.bus.data = cfg.count := by
        have word := bus.word
        rw [show cfg.words[1]? = some (0, ofInt cfg.layers.length) from rfl] at word
        obtain ⟨-, data⟩ := Prod.mk.inj (Option.some.inj word)
        rw [← data]
        refine Binary32.toInt_ofInt _ ⟨by omega, ?_⟩
        have := cfg.layersCount_lt
        omega
      have addr : s.io.addrO = 0 := by
        have word := bus.word
        rw [show cfg.words[1]? = some (0, ofInt cfg.layers.length) from rfl] at word
        exact (Prod.mk.inj (Option.some.inj word)).1.symm
      simp [commandedAt, Config.next, more, Config.controllerAt, Controller.process,
        Controller.switchState, show (2 : Nat) ≠ cfg.words.length by omega, addr, bus.wr, count]
    · rcases Nat.lt_or_eq_of_le valid with more | last
      · simp [commandedAt, Config.next, more, more.ne, Config.controllerAt, Controller.process,
          Controller.switchState]
      · simp only [commandedAt, ← last, Config.next, Config.controllerAt, Controller.process,
          Controller.switchState, lt_irrefl, if_false, Phase.load.injEq, if_true,
          show ¬t + 1 + 1 + 1 = 1 by omega]
        exact layerLoop_afterLayers cfg (Nat.zero_le _)
  | savePrev i =>
    have data := issued _ rfl
    simp [commandedAt, Config.next, Config.controllerAt, Controller.process, Config.iterating, data]
  | compute i =>
    cases ended : s.cycleEnded <;>
      simp [commandedAt, Config.next, Config.controllerAt, Controller.process, Config.iterating,
        Controller.testEnd, ended]
  | startClone i =>
    simp [commandedAt, Config.next, Config.controllerAt, Controller.process, Config.iterating,
      Controller.testClone, copy, Config.copyAt]
  | copyFirst i =>
    simp only [Config.next]
    split <;>
      simp [commandedAt, Config.controllerAt, Controller.process, Config.iterating,
        Controller.testClone, copy, Config.copyAt]
  | copying i j =>
    simp only [Config.next]
    split <;>
      simp [commandedAt, Config.controllerAt, Controller.process, Config.iterating,
        Controller.testClone, copy, Config.copyAt]
  | cloned i =>
    have data := issued _ rfl
    simp only [commandedAt, Config.next, Config.controllerAt, Controller.process, Config.iterating,
      Controller.testClone, copy, Config.copyAt, data, reduceCtorEq, if_false, if_true,
      Wires.controllerIn, System.wires, ctrl]
    exact layerLoop_afterLayers cfg (i := i + 1) valid
  | writeOut =>
    simp [commandedAt, Config.next, Config.controllerAt, Controller.process, Controller.switchState]
  | output k =>
    simp only [Config.next]
    split <;>
      simp [commandedAt, Config.controllerAt, Controller.process, Controller.switchState]
  | stopped => exact absurd rfl running
  | nextLayer | startGenerator | settle | clear =>
    simp [commandedAt, Config.next, Config.controllerAt, Controller.process, Config.iterating]

omit [Binary32 F] [DecidableEq F] in
/-- The loop of `copy_memory` at its test. -/
lemma copyLoop_eq [Binary32Ops F] (cfg : Config F) (i j : Nat) (m : PreviousLayerController) :
    m.copyLoop j (cfg.size (i + 1)) =
      if j < cfg.width i then
        { m with
          nextO := decide (j + 1 < cfg.width i)
          wrToMemoryFromMemO := true
          thread := .copying j }
      else
        { m with nextO := false, wrToMemoryFromMemO := false, endCloneO := true, thread := .ended } := by
  have test : (j : Int) < cfg.size (i + 1) ↔ j < cfg.width i := by
    unfold Config.width
    omega
  simp only [PreviousLayerController.copyLoop, test]
  split
  · next lt =>
    have more : (j : Int) ≠ cfg.size (i + 1) - 1 ↔ j + 1 < cfg.width i := by
      unfold Config.width at lt ⊢
      omega
    simp only [more]
  · rfl

/-- `PREVIOUS_LAYER_CONTROLLER` follows the phases. -/
lemma copy_step {ph : Phase} {s : System hw F} (copy : s.previousLayerController = cfg.copyAt ph)
    (ctrl : s.controller = cfg.controllerAt ph) (running : ph ≠ .stopped)
    (go : s.stopped = false) (issued : ∀ v ∈ cfg.issuedAt ph, s.layersStorage.dataO = v)
    (ended : Bool) :
    (s.edge cfg sch).previousLayerController = cfg.copyAt (cfg.next ended ph) := by
  have three := three_le_length_words cfg
  rw [edge_previousLayerController cfg sch go, copy, ctrl]
  cases ph with
  | load t =>
    rcases t with _ | _ | _ | t
    · simp [Config.next, show 0 < cfg.words.length by omega, Config.copyAt, Config.controllerAt,
        PreviousLayerController.copyMemory, PreviousLayerController.awaitStart]
    · simp [Config.next, show 1 < cfg.words.length by omega, Config.copyAt, Config.controllerAt,
        PreviousLayerController.copyMemory, PreviousLayerController.awaitStart]
    · simp [Config.next, show 2 < cfg.words.length by omega, Config.copyAt, Config.controllerAt,
        PreviousLayerController.copyMemory, PreviousLayerController.awaitStart]
    · simp only [Config.next, Config.afterLayers]
      split_ifs <;>
        simp [Config.copyAt, Config.controllerAt, PreviousLayerController.copyMemory,
          PreviousLayerController.awaitStart]
  | compute i =>
    cases ended <;>
      simp [Config.next, Config.copyAt, Config.controllerAt, Config.iterating,
        PreviousLayerController.copyMemory, PreviousLayerController.awaitStart]
  | copyFirst i =>
    have data := issued _ rfl
    simp only [Config.next, Config.copyAt, Config.controllerAt, Config.iterating,
      PreviousLayerController.copyMemory, data, copyLoop_eq]
    split <;> rfl
  | copying i j =>
    have data := issued _ rfl
    simp only [Config.next, Config.copyAt, Config.controllerAt, Config.iterating,
      PreviousLayerController.copyMemory, data, copyLoop_eq]
    split <;> rfl
  | cloned i =>
    simp only [Config.next, Config.afterLayers]
    split <;>
      simp [Config.copyAt, Config.controllerAt, Config.iterating,
        PreviousLayerController.copyMemory, PreviousLayerController.awaitStart]
  | output k =>
    simp only [Config.next]
    split <;>
      simp [Config.copyAt, Config.controllerAt, PreviousLayerController.copyMemory,
        PreviousLayerController.awaitStart]
  | stopped => exact absurd rfl running
  | savePrev | nextLayer | startGenerator | settle | clear | startClone | writeOut =>
    simp [Config.next, Config.copyAt, Config.controllerAt, Config.iterating,
      PreviousLayerController.copyMemory, PreviousLayerController.awaitStart]

end NnProcessor.Invariant
