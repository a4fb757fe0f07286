import NnProcessor.Correctness.Lockstep
import NnProcessor.Correctness.Timing

/-!
# How long a run takes

Apart from the computation of the layers every phase of a run has a fixed length. This gives the
edge that calls `sc_stop()` and the edge of every `RESULT` line (`run_length`). The edges for which
the processors work are counted exactly (`busy_exact`): no processor computes anything but the
neurons that are dispatched, and each of them once.
-/

namespace NnProcessor.Model

variable {F : Type} [Binary32Ops F] (cfg : Config F)

namespace Config

/-- The edge in front of which the layer iteration `i` begins, if the computation of the iteration
`j` takes `time j` edges. -/
def begin (time : Nat → Nat) (i : Nat) : Nat :=
  cfg.layers.length + cfg.picture.length + cfg.weights.length + 4 +
    ∑ j ∈ Finset.range i, (time j + cfg.width j + 7)

/-- The number of edges of a run. -/
def duration (time : Nat → Nat) : Nat := cfg.begin time cfg.iterations + cfg.results.length + 2

omit [Binary32Ops F] in
/-- The next layer iteration begins when this one is over. -/
lemma begin_succ (time : Nat → Nat) (i : Nat) :
    cfg.begin time (i + 1) = cfg.begin time i + (time i + cfg.width i + 7) := by
  rw [begin, begin, Finset.sum_range_succ]
  omega

/-- The transmission takes one edge for each word, and three for the commands. -/
lemma length_words :
    cfg.words.length = cfg.layers.length + cfg.picture.length + cfg.weights.length + 3 := by
  simp only [words, layerWords, pictureWords, weightWords, List.length_cons, List.length_append,
    List.length_map, List.length_nil]
  omega

/-- The edges of work in the layer iterations in front of `i`. -/
def workBefore (i : Nat) : Nat :=
  ∑ j ∈ Finset.range i, Processor.span (cfg.job j) * cfg.dispatches j

/-- The work of one more layer. -/
lemma workBefore_succ (i : Nat) :
    cfg.workBefore (i + 1) =
      cfg.workBefore i + Processor.span (cfg.job i) * cfg.dispatches i :=
  Finset.sum_range_succ _ _

end Config

end NnProcessor.Model

namespace NnProcessor.Correctness
open NnProcessor.Arith NnProcessor.Model NnProcessor.Edge NnProcessor.Invariant

variable {hw : Hw} {F : Type} [Binary32 F] [DecidableEq F] {cfg : Config F} {env : Env hw F}

section Edges

variable (finite : ∀ x ∈ cfg.results, ¬IsInfinite x)
include finite

/-- Behind its first edge a layer iteration is decided but for the time of its computation. -/
lemma iteration_time {i t : Nat} (start : phaseAt cfg env t = .savePrev i) :
    ∃ time, LayerTime hw (cfg.dispatches i) (cfg.job i).inputs time ∧
      phaseAt cfg env (t + (time + cfg.width i + 7)) = cfg.afterLayers (i + 1) := by
  obtain ⟨-, pulse, -, -, u, lt, clear, -, -, -, next⟩ := iteration_ends finite start
  have comp : Computes cfg env i (t + 2) u := ⟨finite, pulse, clear⟩
  refine ⟨u - (t + 3), comp.layerTime, ?_⟩
  rw [show t + (u - (t + 3) + cfg.width i + 7) = u + 4 + cfg.width i by omega]
  exact next

/-- Every layer iteration begins when the ones in front of it are over. -/
lemma begins_at (env : Env hw F) : ∃ time : Nat → Nat,
    (∀ i < cfg.iterations, LayerTime hw (cfg.dispatches i) (cfg.job i).inputs (time i)) ∧
      ∀ i ≤ cfg.iterations, phaseAt cfg env (cfg.begin time i) = cfg.afterLayers i := by
  have each : ∀ i, ∃ time, i < cfg.iterations →
      LayerTime hw (cfg.dispatches i) (cfg.job i).inputs time ∧
        ∀ t, phaseAt cfg env t = .savePrev i →
          phaseAt cfg env (t + (time + cfg.width i + 7)) = cfg.afterLayers (i + 1) := by
    intro i
    by_cases lt : i < cfg.iterations
    · obtain ⟨t, start⟩ := savePrev_reached finite env lt
      obtain ⟨time, bounds, next⟩ := iteration_time finite start
      refine ⟨time, fun _ => ⟨bounds, fun u start' => ?_⟩⟩
      rwa [phaseAt_unique (start'.trans start.symm) (by simp [start']) (by simp [start'])]
    · exact ⟨0, fun lt' => absurd lt' lt⟩
  choose time spec using each
  refine ⟨time, fun i lt => (spec i lt).1, fun i => ?_⟩
  induction i with
  | zero =>
    intro _
    have loaded := phaseAt_loaded cfg env
    rw [cfg.length_words] at loaded
    simpa [Config.begin] using loaded
  | succ i ih =>
    intro le
    have here := ih (Nat.le_of_succ_le le)
    rw [Config.afterLayers, if_pos (Nat.lt_of_succ_le le)] at here
    rw [cfg.begin_succ]
    exact (spec i le).2 _ here

omit finite in
/-- The results are sent, one in each edge, and the simulation is stopped behind the last one. -/
lemma output_at {t : Nat} (start : phaseAt cfg env t = .writeOut) :
    (∀ k ≤ cfg.resultCount, phaseAt cfg env (t + 1 + k) = .output k) ∧
      ∀ u, t + cfg.resultCount + 2 ≤ u → phaseAt cfg env u = .stopped := by
  have out : ∀ k ≤ cfg.resultCount, phaseAt cfg env (t + 1 + k) = .output k := by
    intro k
    induction k with
    | zero => exact fun _ => phaseAt_succ start
    | succ k ih =>
      intro le
      rw [← Nat.add_assoc, phaseAt_succ (ih (Nat.le_of_succ_le le))]
      exact if_pos le
  refine ⟨out, fun u le => ?_⟩
  induction u, le using Nat.le_induction with
  | base =>
    rw [show t + cfg.resultCount + 2 = t + 1 + cfg.resultCount + 1 by omega,
      phaseAt_succ (out _ (le_refl _))]
    exact if_neg (lt_irrefl _)
  | succ u _ ih => exact phaseAt_succ ih

omit finite in
/-- No result is sent before. -/
lemma silent_until {t u : Nat} (start : phaseAt cfg env t = .writeOut) (le : u ≤ t) :
    phaseAt cfg env u ≠ .stopped ∧ ∀ k, phaseAt cfg env u ≠ .output k := by
  have rank := rank_monotone cfg env le
  simp only [start] at rank
  constructor
  · intro st
    rw [st] at rank
    exact absurd rank (not_le.2 (Prod.Lex.toLex_lt_toLex.2 (.inr ⟨rfl, Nat.succ_pos _⟩)))
  · intro k out
    rw [out] at rank
    exact absurd rank (not_le.2 (Prod.Lex.toLex_lt_toLex.2 (.inr ⟨rfl, Nat.succ_pos _⟩)))

omit finite in
/-- The simulation is stopped two edges behind the last result. -/
lemma stopped_at {t : Nat} (start : phaseAt cfg env t = .writeOut) (u : Nat) :
    phaseAt cfg env u = .stopped ↔ t + cfg.resultCount + 2 ≤ u := by
  obtain ⟨out, st⟩ := output_at start
  refine ⟨fun stop => ?_, st u⟩
  by_contra early
  rcases Nat.lt_or_ge t u with lt | le
  · have here := out (u - (t + 1)) (by omega)
    rw [show t + 1 + (u - (t + 1)) = u by omega, stop] at here
    cases here
  · exact (silent_until start le).1 stop

/-- What has been printed in front of an edge. -/
lemma printed_at {t : Nat} (start : phaseAt cfg env t = .writeOut) (u : Nat) :
    (run cfg env u).io.printed = numbered (cfg.results.take (u - (t + 2))) := by
  have bus := (mainInv_run cfg env finite u).bus
  rcases Nat.lt_or_ge u (t + 1) with early | late
  · rw [show u - (t + 2) = 0 by omega]
    obtain ⟨ns, no⟩ := silent_until start (Nat.le_of_lt_succ early)
    cases ph : phaseAt cfg env u with
    | load v =>
      rw [ph] at bus
      cases v with
      | zero => rw [bus.1]; rfl
      | succ v => exact bus.printed
    | output k => exact absurd ph (no k)
    | stopped => exact absurd ph ns
    | savePrev | nextLayer | startGenerator | settle | compute | clear | startClone | copyFirst
    | copying | cloned | writeOut =>
      rw [ph] at bus
      exact bus.1.printed
  · rcases Nat.lt_or_ge u (t + cfg.resultCount + 2) with lt | ge
    · have here := (output_at start).1 (u - (t + 1)) (by omega)
      rw [show t + 1 + (u - (t + 1)) = u by omega] at here
      rw [here] at bus
      cases sent : u - (t + 1) with
      | zero =>
        rw [sent] at bus
        rw [show u - (t + 2) = 0 by omega]
        exact bus.1.printed
      | succ k =>
        rw [sent] at bus
        rw [show u - (t + 2) = k by omega]
        exact bus.1.printed
    · rw [(output_at start).2 u ge] at bus
      rw [List.take_of_length_le (by rw [length_results]; omega)]
      exact Receiving.printed bus

/-- The results are sent in every simulation when the last layer is over. -/
lemma writeOut_at (hw : Hw) : ∃ time : Nat → Nat,
    (∀ i < cfg.iterations, LayerTime hw (cfg.dispatches i) (cfg.job i).inputs (time i)) ∧
      ∀ env : Env hw F, phaseAt cfg env (cfg.begin time cfg.iterations) = .writeOut := by
  obtain ⟨time, bounds, begins⟩ := begins_at finite (Env.listed hw (ofInt 0))
  refine ⟨time, bounds, fun env => ?_⟩
  rw [(lockstep_run finite env (Env.listed hw (ofInt 0)) _).phase, begins _ (le_refl _),
    Config.afterLayers, if_neg (lt_irrefl _)]

/-- The simulation is stopped from an edge on. -/
lemma stopped_from {time : Nat → Nat}
    (start : phaseAt cfg env (cfg.begin time cfg.iterations) = .writeOut) (t : Nat) :
    (run cfg env t).stopped = true ↔ cfg.duration time ≤ t := by
  have stopped := (mainInv_run cfg env finite t).previous.stopped
  rw [System.stopped, stopped, decide_eq_true_iff, stopped_at start, Config.duration,
    length_results]

/-- The results are printed one in each edge in front of it. -/
lemma printed_from {time : Nat → Nat}
    (start : phaseAt cfg env (cfg.begin time cfg.iterations) = .writeOut) (t : Nat) :
    (run cfg env t).io.printed =
      numbered (cfg.results.take (t - (cfg.duration time - cfg.results.length))) := by
  have first : cfg.duration time - cfg.results.length = cfg.begin time cfg.iterations + 2 := by
    rw [Config.duration]
    omega
  rw [printed_at finite start, first]

end Edges

/-- **The length of a run.** The computations of the layers take a certain time each, within the
bounds of `LayerTime`, and with these times every simulation of the configuration is stopped in
front of the same edge, `cfg.duration`, and prints one result in each of the edges before it. -/
theorem run_length (hw : Hw) (cfg : Config F) (inside : cfg.Inside hw)
    (picture : cfg.iterations = 0 → ∀ x ∈ cfg.picture, ¬IsInfinite x) : ∃ time : Nat → Nat,
    (∀ i < cfg.iterations,
      LayerTime hw (max (cfg.layerSize (i + 1)) 1) (cfg.layerSize i) (time i)) ∧
      ∀ (env : Env hw F) (t : Nat),
        ((run cfg env t).stopped = true ↔ cfg.duration time ≤ t) ∧
          (run cfg env t).io.printed =
            numbered (cfg.results.take (t - (cfg.duration time - cfg.results.length))) := by
  have finite := results_finite cfg picture
  obtain ⟨time, bounds, start⟩ := writeOut_at finite hw
  simp only [inside.domain.dispatches_eq, inside.domain.inputs_eq] at bounds
  exact ⟨time, bounds, fun env t =>
    ⟨stopped_from finite (start env) t, printed_from finite (start env) t⟩⟩

/-- The deep network is a run with two layers. -/
theorem run_length_deep : ∃ time : Nat → Nat,
    (∀ i < deepNetwork.iterations,
      LayerTime .configH (max (deepNetwork.layerSize (i + 1)) 1) (deepNetwork.layerSize i)
        (time i)) ∧
      ∀ (env : Env .configH Extended) (t : Nat),
        ((run deepNetwork env t).stopped = true ↔ deepNetwork.duration time ≤ t) ∧
          (run deepNetwork env t).io.printed = numbered (deepNetwork.results.take
            (t - (deepNetwork.duration time - deepNetwork.results.length))) :=
  run_length .configH deepNetwork ⟨deepNetwork_bounded.domain, by decide, by decide⟩
    fun one => absurd one (by decide)

/-- A processor works as long as its thread has a neuron. -/
lemma working_eq_busy (finite : ∀ x ∈ cfg.results, ¬IsInfinite x) (t : Nat)
    (k : Fin hw.countPcUnit) :
    ((run cfg env t).processors k).isWorking = ((run cfg env t).processors k).thread.busy := by
  have inv := mainInv_run cfg env finite t
  rcases inv.units_or_rest inv with ⟨i, -, ⟨units, -⟩, -⟩ | ⟨idle, -⟩
  · exact (units.processor k).working
  · rw [(idle.processor k).working, (idle.processor k).thread]

omit [Binary32 F] [DecidableEq F] in
/-- Between two layers nobody works. -/
lemma busyTotal_idle {s : System hw F} (idle : UnitsIdle s) : busyTotal s = 0 :=
  Finset.sum_eq_zero fun k _ => by rw [Processor.busyCount, (idle.processor k).thread]; rfl

omit [DecidableEq F] in
/-- Nor is anything left to do. -/
lemma totalLoad_idle {s : System hw F} (quiet : s.generator.wO = false)
    (idle : ∀ k, ProcIdle (s.processors k)) (i : Nat) : totalLoad cfg i s = 0 := by
  have load : ∀ k, (s.processors k).load (cfg.job i) = 0 := fun k =>
    ((idle k).inv (cfg.job i) (ofInt 0) (ofInt 0) 0).load_idle (idle k).thread
  simp [totalLoad, load, quiet]

variable (cfg) in
/-- The edges of work in front of an edge, in a phase: the ones of the layers in front, and in the
layer being computed the neurons dispatched but for the load of the processors. -/
def WorkInv (ph : Phase) (h : History hw) (s : System hw F) (worked : Nat) : Prop :=
  match ph with
  | .load _ => worked = 0
  | .savePrev i | .nextLayer i | .startGenerator i => worked = cfg.workBefore i
  | .settle i | .compute i =>
    worked + totalLoad cfg i s = cfg.workBefore i + Processor.span (cfg.job i) * h.dispatched
  | .clear i | .startClone i | .copyFirst i | .copying i _ | .cloned i =>
    worked = cfg.workBefore (i + 1)
  | .writeOut | .output _ | .stopped => worked = cfg.workBefore cfg.iterations

/-- The work of one edge. -/
lemma work_step {ph : Phase} {h : History hw} {s : System hw F} {worked : Nat}
    (inv : MainInv cfg ph h s) (sch : Schedule hw) (running : ph ≠ .stopped)
    (work : WorkInv cfg ph h s worked)
    (inv' : MainInv cfg (cfg.next s.cycleEnded ph) (h.observe s (s.edge cfg sch))
      (s.edge cfg sch)) :
    WorkInv cfg (cfg.next s.cycleEnded ph) (h.observe s (s.edge cfg sch)) (s.edge cfg sch)
      (worked + busyTotal s) := by
  have units := inv.units
  have ctrl := inv'.controller
  -- the units rest
  have rest : UnitsIdle s → worked + busyTotal s = worked := by
    intro idle
    rw [busyTotal_idle idle, Nat.add_zero]
  have after : ∀ i ≤ cfg.iterations, worked = cfg.workBefore i → UnitsIdle s →
      WorkInv cfg (cfg.afterLayers i) (h.observe s (s.edge cfg sch)) (s.edge cfg sch)
        (worked + busyTotal s) := by
    intro i le eq idle
    rw [rest idle]
    unfold Config.afterLayers
    split
    · exact eq
    · next none =>
      obtain rfl : i = cfg.iterations := le_antisymm le (not_lt.1 none)
      exact eq
  -- a layer is computed
  have layer : ∀ i, LayerInv cfg i h s → LayerWires cfg i s →
      (s.edge cfg sch).controller.thread.begins = false →
      worked + totalLoad cfg i s = cfg.workBefore i + Processor.span (cfg.job i) * h.dispatched →
      worked + busyTotal s + totalLoad cfg i (s.edge cfg sch) =
        cfg.workBefore i +
          Processor.span (cfg.job i) * (h.observe s (s.edge cfg sch)).dispatched := by
    intro i units wires stay eq
    have step := units.step_load sch wires
    simp only [History.observe, stay, Bool.false_eq_true, if_false, Nat.mul_add]
    cases word : (s.edge cfg sch).generator.wO with
    | false =>
      simp only [word, Bool.false_eq_true, if_false] at step ⊢
      omega
    | true =>
      simp only [word, if_true] at step ⊢
      omega
  cases ph with
  | load t =>
    by_cases more : t < cfg.words.length
    · have next : cfg.next s.cycleEnded (.load t) = .load (t + 1) := by simp [Config.next, more]
      rw [next]
      exact (rest units.1).trans work
    · have next : cfg.next s.cycleEnded (.load t) = cfg.afterLayers 0 := by
        simp [Config.next, more]
      rw [next]
      exact after 0 (Nat.zero_le _) work units.1
  | startGenerator i =>
    have go := inv.go running
    have idle := units.1
    have start : s.controller.startGeneratorO = true := by rw [inv.controller]; rfl
    have quiet : (s.edge cfg sch).generator.wO = false := by
      rw [edge_generator cfg sch go, start]
      exact (idle.generator.begin _ _ _ _ Nat.one_pos).2.2
    have stay : (s.edge cfg sch).controller.thread.begins = false := by rw [ctrl]; rfl
    have none : totalLoad cfg i (s.edge cfg sch) = 0 :=
      totalLoad_idle quiet (fun k => idle.step_processor cfg sch go k) i
    simp only [Config.next, WorkInv]
    rw [none, rest idle, idle.observe quiet h, stay]
    simp only [Bool.false_eq_true, if_false, units.2.1, Nat.mul_zero, Nat.add_zero]
    exact work
  | settle i => exact layer i units.1 (inv.wires (.inl rfl)) (by rw [ctrl]; rfl) work
  | compute i =>
    cases ended : s.cycleEnded with
    | false =>
      rw [ended] at ctrl
      exact layer i units.1 (inv.wires (.inr rfl)) (by rw [ctrl]; rfl) work
    | true =>
      obtain ⟨idle, all, -, -⟩ := units.1.finish (units.2.symm.trans ended)
      simp only [WorkInv, totalLoad_idle idle.generator.quiet idle.processor, all, Nat.add_zero] at work
      exact (rest idle).trans (work.trans (cfg.workBefore_succ i).symm)
  | copyFirst i =>
    simp only [Config.next]
    split <;> exact (rest units.1).trans work
  | copying i j =>
    simp only [Config.next]
    split <;> exact (rest units.1).trans work
  | cloned i => exact after (i + 1) inv.valid work units.1
  | output k =>
    simp only [Config.next]
    split <;> exact (rest units.1).trans work
  | stopped => exact absurd rfl running
  | savePrev | nextLayer | clear | startClone | writeOut => exact (rest units.1).trans work

/-- The work in front of every edge. -/
lemma work_run (finite : ∀ x ∈ cfg.results, ¬IsInfinite x) (env : Env hw F) (t : Nat) :
    WorkInv cfg (phaseAt cfg env t) (history cfg env t) (run cfg env t)
      (∑ x ∈ Finset.range t, busyTotal (run cfg env x)) := by
  induction t with
  | zero => rfl
  | succ t ih =>
    have inv := mainInv_run cfg env finite t
    have inv' := mainInv_run cfg env finite (t + 1)
    rw [Finset.sum_range_succ]
    by_cases running : phaseAt cfg env t = .stopped
    · have stop : phaseAt cfg env (t + 1) = .stopped := by
        rw [phaseAt, running]
        rfl
      rw [running] at ih inv
      rw [stop, busyTotal_idle inv.units.1]
      exact ih
    · exact work_step inv (env.sched t) running ih inv'

/-- **The edges of work.** Up to its end a run keeps its processors busy for exactly the edges that the
neurons it dispatches need, `2 * inputs + 3` for each of them: whichever processor computes a neuron,
and whenever it does, none is busy with anything else. Dispatched are the neurons of the network, and
one for an empty layer. -/
theorem busy_exact (env : Env hw F) (inside : cfg.Inside hw)
    (picture : cfg.iterations = 0 → ∀ x ∈ cfg.picture, ¬IsInfinite x) {t : Nat}
    (stop : (run cfg env t).stopped = true) :
    (∑ x ∈ Finset.range t, ∑ k, if ((run cfg env x).processors k).isWorking then 1 else 0) =
      ∑ i ∈ Finset.range cfg.iterations,
        (2 * cfg.layerSize i + 3) * max (cfg.layerSize (i + 1)) 1 := by
  have finite := results_finite cfg picture
  have work := work_run finite env t
  have stopped := (mainInv_run cfg env finite t).previous.stopped
  rw [of_decide_eq_true (stopped.symm.trans stop)] at work
  have total : cfg.workBefore cfg.iterations = ∑ i ∈ Finset.range cfg.iterations,
      (2 * cfg.layerSize i + 3) * max (cfg.layerSize (i + 1)) 1 :=
    Finset.sum_congr rfl fun i _ => by
      rw [Processor.span, inside.domain.inputs_eq, inside.domain.dispatches_eq]
  rw [← total]
  refine Eq.trans (Finset.sum_congr rfl fun x _ => Finset.sum_congr rfl fun k _ => ?_) work
  rw [working_eq_busy finite]
  rfl

/-- Three neurons are fifteen edges of work. -/
theorem busy_exact_three :
    (∑ x ∈ Finset.range 40, ∑ k,
      if ((run threeNeurons listedEnv x).processors k).isWorking then 1 else 0) =
        ∑ i ∈ Finset.range threeNeurons.iterations,
          (2 * threeNeurons.layerSize i + 3) * max (threeNeurons.layerSize (i + 1)) 1 :=
  busy_exact listedEnv ⟨threeNeurons_bounded.domain, by decide, by decide⟩
    (fun one => absurd one (by decide)) (by decide +kernel)

end NnProcessor.Correctness
