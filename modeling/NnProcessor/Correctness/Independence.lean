import NnProcessor.Correctness.Termination
import NnProcessor.Model.Erase

/-!
# Timing does not depend on the values

Two networks of the same shape, with any values in their pictures and weights, run in lockstep: at
every edge the two systems agree on everything but the values of their words (`timing_independent`).
The control modules do look at words of the shared bus, but only at those the two runs have in
common, and at results, which are never taken for a command.
-/

namespace NnProcessor.Correctness
open NnProcessor.Arith NnProcessor.Model NnProcessor.Edge NnProcessor.Invariant

variable {hw : Hw} {F : Type}

section Shape

variable [Binary32Ops F] {cfg cfg' : Config F} (same : cfg.erase = cfg'.erase)
include same

omit [Binary32Ops F] in
/-- The sizes of the layers are the same. -/
lemma same_layers : cfg.layers = cfg'.layers := congrArg (fun c => c.layers) same

omit [Binary32Ops F] in
/-- The pictures are of the same length. -/
lemma same_picture : cfg.picture.length = cfg'.picture.length := by
  have eq := congrArg (fun c => c.picture.length) same
  simpa [Config.erase] using eq

omit [Binary32Ops F] in
/-- The lists of weights are of the same length. -/
lemma same_weights : cfg.weights.length = cfg'.weights.length := by
  have eq := congrArg (fun c => c.weights.length) same
  simpa [Config.erase] using eq

/-- The words for the control modules, and the addresses of the other ones, are the same. -/
lemma same_words : (cfg.words.map fun w => (w.1, if w.1 ≤ 1 then some w.2 else none)) =
    cfg'.words.map fun w => (w.1, if w.1 ≤ 1 then some w.2 else none) := by
  simp only [Config.words, Config.layerWords, Config.pictureWords, Config.weightWords,
    same_layers same, List.map_cons, List.map_append, List.map_map, Function.comp_def]
  simp [List.map_const', same_picture same, same_weights same]

/-- Equally many words are sent over the bus. -/
lemma same_length_words : cfg.words.length = cfg'.words.length := by
  have eq := congrArg List.length (same_words same)
  rwa [List.length_map, List.length_map] at eq

/-- A word that both runs have on the bus. -/
lemma same_word {t : Nat} {a a' : Int} {x x' : F} (h : cfg.words[t]? = some (a, x))
    (h' : cfg'.words[t]? = some (a', x')) : a = a' ∧ (a ≤ 1 → x = x') := by
  have eq := congrArg (fun l => l[t]?) (same_words same)
  simp only [List.getElem?_map, h, h', Option.map_some] at eq
  obtain ⟨addr, data⟩ := Prod.mk.inj (Option.some.inj eq)
  refine ⟨addr, fun low => ?_⟩
  rw [← addr, if_pos low, if_pos low] at data
  exact Option.some.inj data

omit [Binary32Ops F] in
/-- The same number of layer iterations is run. -/
lemma same_iterations : cfg.iterations = cfg'.iterations := by
  unfold Config.iterations Config.count
  rw [same_layers same]

omit [Binary32Ops F] in
/-- Every iteration copies the same number of words. -/
lemma same_width (i : Nat) : cfg.width i = cfg'.width i := by
  unfold Config.width Config.size Config.received
  rw [same_layers same]

/-- The same number of results is sent back. -/
lemma same_resultCount : cfg.resultCount = cfg'.resultCount := by
  have length : (cfg.activation cfg.iterations).length =
      (cfg'.activation cfg'.iterations).length := by
    rw [← same_iterations same]
    cases cfg.iterations with
    | zero => exact same_picture same
    | succ i =>
      rw [Config.length_activation_succ, Config.length_activation_succ]
      exact same_width same i
  unfold Config.resultCount
  rw [length]

/-- The phases follow each other in the same way. -/
lemma same_next (ended : Bool) (ph : Phase) : cfg.next ended ph = cfg'.next ended ph := by
  have after : ∀ i, cfg.afterLayers i = cfg'.afterLayers i := by
    intro i
    unfold Config.afterLayers
    rw [same_iterations same]
  cases ph with
  | load t => simp only [Config.next, same_length_words same, after]
  | copyFirst i => simp only [Config.next, same_width same]
  | copying i j => simp only [Config.next, same_width same]
  | cloned i => exact after (i + 1)
  | output k => simp only [Config.next, same_resultCount same]
  | savePrev | nextLayer | startGenerator | settle | compute | clear | startClone | writeOut
  | stopped => rfl

end Shape

variable [Binary32 F] [DecidableEq F] {cfg cfg' : Config F}

omit [DecidableEq F] in
/-- In the same phase the control modules take the words of both runs for the same. -/
lemma same_phase_word (same : cfg.erase = cfg'.erase) {ph : Phase} {h h' : History hw}
    {s s' : System hw F} (inv : MainInv cfg ph h s) (inv' : MainInv cfg' ph h' s')
    (running : ph ≠ .stopped) (finite : ∀ x ∈ cfg.results, ¬IsInfinite x)
    (finite' : ∀ x ∈ cfg'.results, ¬IsInfinite x) : SameWord s s' := by
  have bus := inv.bus
  have bus' := inv'.bus
  have ctrl := inv.controller
  -- the bus rests
  have silent : s.bus.wr = false → ¬s.controller.reads → SameWord s s' := by
    intro wr blind
    constructor
    · simp [wr]
    · simp [wr]
    · simp [wr]
    · exact fun reads => absurd reads blind
  cases ph with
  | load t =>
    cases t with
    | zero => exact silent bus.2 (by rw [ctrl]; simp [Controller.reads, Config.controllerAt])
    | succ t =>
      obtain ⟨addr, data⟩ := same_word same bus.word bus'.word
      constructor
      · intro zero _
        rw [data (by simp [zero])]
      · intro zero _
        rw [data (by simp [zero])]
      · intro one _
        rw [data (by simp [one])]
      · intro reads
        -- the number of layers is the second word
        have second : t = 1 := by
          rw [ctrl] at reads
          rcases t with _ | _ | t
          · simp [Controller.reads, Config.controllerAt] at reads
          · rfl
          · simp [Controller.reads, Config.controllerAt] at reads
        subst second
        have word := bus.word
        rw [show cfg.words[1]? = some (0, ofInt cfg.layers.length) from rfl] at word
        obtain ⟨zero, -⟩ := Prod.mk.inj (Option.some.inj word)
        rw [data (by simp [← zero])]
  | output k =>
    cases k with
    | zero => exact silent bus.2 (by rw [ctrl]; simp [Controller.reads, Config.controllerAt])
    | succ k =>
      obtain ⟨rcv, -, word⟩ := bus
      obtain ⟨-, -, word'⟩ := bus'
      have number := finite _ (List.mem_of_getElem? word)
      have number' := finite' _ (List.mem_of_getElem? word')
      constructor
      · exact fun _ _ => ⟨fun eq => absurd (.inl eq) number, fun eq => absurd (.inl eq) number'⟩
      · exact fun _ _ => ⟨fun eq => absurd (.inr eq) number, fun eq => absurd (.inr eq) number'⟩
      · intro one
        rw [rcv.addr] at one
        cases one
      · intro reads
        rw [ctrl] at reads
        simp [Controller.reads, Config.controllerAt] at reads
  | stopped => exact absurd rfl running
  | savePrev | nextLayer | startGenerator | settle | compute | clear | startClone | copyFirst
  | copying | cloned | writeOut =>
    refine silent bus.2 ?_
    rw [ctrl]
    simp [Controller.reads, Config.controllerAt, Config.iterating]

/-- Two runs agree on everything but the values of their words. -/
structure SameTiming (cfg cfg' : Config F) (env env' : Env hw F) : Prop where
  state : ∀ t, (run cfg env t).erase = (run cfg' env' t).erase
  stopped : ∀ t, (run cfg env t).stopped = (run cfg' env' t).stopped
  lines : ∀ t, (run cfg env t).io.printed.map Prod.fst = (run cfg' env' t).io.printed.map Prod.fst
  counts : ∀ t k, ((run cfg env t).processors k).countNeuronsCalc =
    ((run cfg' env' t).processors k).countNeuronsCalc

/-- Two runs with networks of the same shape go through the same phases. -/
lemma run_same (same : cfg.erase = cfg'.erase) {env env' : Env hw F} (boot : env.boot = env'.boot)
    (sched : env.sched = env'.sched) (finite : ∀ x ∈ cfg.results, ¬IsInfinite x)
    (finite' : ∀ x ∈ cfg'.results, ¬IsInfinite x) (t : Nat) :
    phaseAt cfg env t = phaseAt cfg' env' t ∧ (run cfg env t).erase = (run cfg' env' t).erase := by
  induction t with
  | zero =>
    refine ⟨rfl, ?_⟩
    rw [run, run, boot]
    exact System.initialized_same _ _ _
  | succ t ih =>
    obtain ⟨phase, state⟩ := ih
    have ended : (run cfg env t).cycleEnded = (run cfg' env' t).cycleEnded :=
      congrArg (fun s => s.cycleEnded) state
    constructor
    · rw [phaseAt, phaseAt, phase, ended, same_next same]
    · rw [run, run, sched]
      refine System.edge_same same _ state fun go => ?_
      have inv := mainInv_run cfg env finite t
      have inv' := mainInv_run cfg' env' finite' t
      rw [← phase] at inv'
      refine same_phase_word same inv inv' ?_ finite finite'
      intro st
      rw [(stopped_iff finite).2 st] at go
      cases go

/-- The values in the picture and the weights have no influence on the timing. -/
theorem timing_independent {env env' : Env hw F} (boot : env.boot = env'.boot)
    (sched : env.sched = env'.sched) (layers : cfg.layers = cfg'.layers)
    (pictures : cfg.picture.length = cfg'.picture.length)
    (weights : cfg.weights.length = cfg'.weights.length)
    (finite : ∀ x ∈ cfg.picture, ¬IsInfinite x) (finite' : ∀ x ∈ cfg'.picture, ¬IsInfinite x) :
    SameTiming cfg cfg' env env' := by
  have same : cfg.erase = cfg'.erase := by
    simp only [Config.erase, layers, List.map_const', pictures, weights]
  have state := fun t => (run_same same boot sched (finite_results cfg fun _ => finite)
    (finite_results cfg' fun _ => finite') t).2
  refine ⟨state, fun t => ?_, fun t => ?_, fun t k => ?_⟩
  · exact System.erase_stopped (state t)
  · have eq := congrArg (fun s => s.io.printed.map Prod.fst) (state t)
    simpa [System.erase, IoModule.erase, Function.comp_def] using eq
  · exact congrArg (fun s => (s.processors k).countNeuronsCalc) (state t)

/-- A network of the shape of the small network, with other values. -/
def otherNetwork : Config Extended :=
  { smallNetwork with
    weights := [.infinite true, .nan]
    picture := [.finite (-7)] }

/-- The two networks are computed in lockstep, whatever they find on the heap. -/
theorem timing_independent_small :
    SameTiming smallNetwork otherNetwork listedEnv (.listed .configH (.finite 0)) := by
  refine timing_independent rfl rfl rfl rfl rfl ?_ ?_
  · intro x mem infinite
    obtain ⟨s, rfl⟩ := (Extended.isInfinite_iff x).1 infinite
    cases List.mem_singleton.1 mem
  · intro x mem infinite
    obtain ⟨s, rfl⟩ := (Extended.isInfinite_iff x).1 infinite
    cases List.mem_singleton.1 mem

end NnProcessor.Correctness
