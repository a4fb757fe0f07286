import NnProcessor.Correctness.Termination

/-!
# The work that is counted

Every neuron that is computed uses its bias once, so the counters of the processors follow the
weights that have been used (`run_finished`), and when the simulation has stopped they add up to the
dispatches of all layer iterations (`counted_all`). The generator counts a neuron before it compares
with the layer size, and an empty layer gets one: the counters are exact exactly when the layers
computed are the ones with a neuron (`work_exact_iff`).
-/

namespace NnProcessor.Model

variable {F : Type}

/-- The neurons a processor has counted, and the one that it counts next. -/
def Processor.finished (m : Processor F) : Nat :=
  m.countNeuronsCalc + if m.thread = .store then 1 else 0

/-- The number of biases among the weights used. -/
def biasCount (u : Multiset (Option Nat × WeightUse)) : Nat := u.countP fun v => v.2.bias = true

/-- A neuron is finished with its bias. -/
lemma Processor.process_finished [Binary32Ops F] (w : ProcessorIn F) (m : Processor F) :
    (m.process w).finished = m.finished + if m.thread = .biasWait then 1 else 0 := by
  unfold Processor.process Processor.finished
  cases ht : m.thread with
  | start | waitQueue | inputAddr | inputWait | biasAddr | biasWait | store => simp

/-- `add_to_queue` counts nothing. -/
lemma Processor.addToQueue_finished (queueSize address a d : Nat) (b : Bool) (m : Processor F) :
    (m.addToQueue queueSize address a d b).finished = m.finished ∧
      (m.addToQueue queueSize address a d b).thread = m.thread := by
  unfold Processor.addToQueue Processor.finished
  split
  · exact ⟨rfl, rfl⟩
  · exact ⟨rfl, rfl⟩

/-- The biases of an edge. -/
lemma Processor.countP_adding (f : Int) (m : Processor F) :
    (m.adding f).countP (fun u => u.bias = true) = if m.thread = .biasWait then 1 else 0 := by
  unfold Processor.adding
  cases m.thread <;> rfl

/-- The biases behind an edge. -/
lemma History.biasCount_observe {hw : Hw} (s s' : System hw F) (h : History hw) :
    biasCount (h.observe s s').used =
      biasCount h.used + ∑ k, if (s.processors k).thread = .biasWait then 1 else 0 := by
  have words : ∀ u : Multiset WeightUse,
      (u.map fun v => (s.controller.thread.layer, v)).countP (fun v => v.2.bias = true) =
        u.countP fun v => v.bias = true := by
    intro u
    rw [Multiset.countP_map, ← Multiset.countP_eq_card_filter]
  have total := map_sum (Multiset.countPAddMonoidHom fun v : WeightUse => v.bias = true)
    (fun k => (s.processors k).adding (h.fetched k)) Finset.univ
  simp only [Multiset.coe_countPAddMonoidHom, Processor.countP_adding] at total
  rw [biasCount, History.observe, Multiset.countP_add, words, total]
  rfl

/-- Each neuron of a layer iteration uses one bias. -/
lemma Config.biasCount_usesOf [Binary32Ops F] (cfg : Config F) (i : Nat) :
    biasCount (cfg.usesOf i) = cfg.dispatches i := by
  have one : ∀ x, ((cfg.job i).uses x).countP (fun v => v.bias = true) = 1 := by
    intro x
    have bias := Multiset.countP_cons_of_pos (p := fun v : WeightUse => v.bias = true)
      ((cfg.job i).inputUses x (cfg.job i).inputs)
      (a := { neuron := x, bias := true, address := (cfg.job i).addr x (cfg.job i).size }) rfl
    rw [LayerJob.uses, bias, LayerJob.inputUses, Multiset.countP_map]
    simp
  have all : ∀ n, ((Multiset.range n).bind (cfg.job i).uses).countP (fun v => v.bias = true) =
      n := by
    intro n
    induction n with
    | zero => rfl
    | succ n ih => rw [Multiset.range_succ, Multiset.cons_bind, Multiset.countP_add, one, ih,
        Nat.add_comm]
  rw [biasCount, Config.usesOf, Multiset.countP_map, ← Multiset.countP_eq_card_filter]
  exact all _

/-- The iterations in front of `i` use one bias for each neuron they dispatch. -/
lemma Config.biasCount_usesBefore [Binary32Ops F] (cfg : Config F) (i : Nat) :
    biasCount (cfg.usesBefore i) = ∑ j ∈ Finset.range i, cfg.dispatches j := by
  induction i with
  | zero => rfl
  | succ i ih =>
    rw [Config.usesBefore_succ, biasCount, Multiset.countP_add, Finset.sum_range_succ, ← ih,
      ← Config.biasCount_usesOf]
    rfl

end NnProcessor.Model

namespace NnProcessor.Correctness
open NnProcessor.Arith NnProcessor.Model NnProcessor.Edge NnProcessor.Invariant

variable {hw : Hw} {F : Type}

/-- The counters of the processors are those of the network: when the simulation has stopped they
add up to its neurons, and behind every layer that many have been dispatched. -/
structure WorkExact [Binary32Ops F] [DecidableEq F] (cfg : Config F) (env : Env hw F) : Prop where
  counted : ∀ t, (run cfg env t).stopped = true →
    ∑ k, ((run cfg env t).processors k).countNeuronsCalc =
      ∑ j ∈ Finset.range (cfg.layers.length - 1), cfg.layerSize (j + 1)
  dispatched : ∀ t i, (run cfg env t).controller.thread = .startClone i →
    (history cfg env t).dispatched = cfg.layerSize (i + 1)

variable [Binary32 F] [DecidableEq F] {cfg : Config F}

/-- The neurons finished are the biases used. -/
lemma run_finished (finite : ∀ x ∈ cfg.results, ¬IsInfinite x) (env : Env hw F) (t : Nat) :
    ∑ k, ((run cfg env t).processors k).finished = biasCount (history cfg env t).used := by
  induction t with
  | zero =>
    refine Finset.sum_eq_zero fun k _ => ?_
    rw [run, initialized_processor]
    rfl
  | succ t ih =>
    change ∑ k, (((run cfg env t).edge cfg (env.sched t)).processors k).finished =
      biasCount ((history cfg env t).observe (run cfg env t) (run cfg env (t + 1))).used
    rw [History.biasCount_observe]
    cases st : (run cfg env t).stopped with
    | true =>
      have idle := rest_at_end finite ((stopped_iff finite).1 st)
      rw [edge_stopped cfg (env.sched t) st, ih, Finset.sum_eq_zero, Nat.add_zero]
      intro k _
      rw [if_neg]
      intro ht
      have waiting := (idle.processor k).thread
      rw [ht] at waiting
      cases waiting
    | false =>
      rw [← ih, ← Finset.sum_add_distrib]
      refine Finset.sum_congr rfl fun k _ => ?_
      rw [edge_processor cfg (env.sched t) st, Processor.process_finished,
        (Processor.addToQueue_finished _ _ _ _ _ _).1,
        (Processor.addToQueue_finished _ _ _ _ _ _).2]

/-- When the simulation has stopped, every dispatch has been counted. -/
lemma counted_all (finite : ∀ x ∈ cfg.results, ¬IsInfinite x) (env : Env hw F) {t : Nat}
    (st : (run cfg env t).stopped = true) :
    ∑ k, ((run cfg env t).processors k).countNeuronsCalc =
      ∑ i ∈ Finset.range cfg.iterations, cfg.dispatches i := by
  have phase := (stopped_iff finite).1 st
  have units := (mainInv_run cfg env finite t).units
  rw [phase] at units
  rw [← Config.biasCount_usesBefore, ← units.2, ← run_finished finite env t]
  refine Finset.sum_congr rfl fun k _ => ?_
  rw [Processor.finished, if_neg (units.1.processor k).not_store, Nat.add_zero]

/-- Behind a layer iteration all of its neurons have been dispatched. -/
lemma dispatched_at (finite : ∀ x ∈ cfg.results, ¬IsInfinite x) (env : Env hw F) {t i : Nat}
    (thread : (run cfg env t).controller.thread = .startClone i) :
    i < cfg.iterations ∧ (history cfg env t).dispatched = cfg.dispatches i := by
  have inv := mainInv_run cfg env finite t
  rw [inv.controller] at thread
  have phase : phaseAt cfg env t = .startClone i :=
    Config.phase_of_thread cfg (by rw [thread]; rfl)
  rw [phase] at inv
  exact ⟨inv.valid, inv.units.2.1⟩

omit [Binary32 F] [DecidableEq F] in
/-- The dispatches of a layer iteration are its neurons, or one. -/
lemma dispatches_of_exact (nonneg : ∀ l ∈ cfg.layers, 0 ≤ l) (le : ∀ l ∈ cfg.layers, l ≤ 2 ^ 24)
    (i : Nat) : cfg.dispatches i = max (cfg.layerSize (i + 1)) 1 := by
  have bound := cfg.layerSize_le_of_forall (n := 2 ^ 24) (by exact_mod_cast le) (i + 1)
  rw [Config.dispatches, Config.width, Config.size_eq_of_le nonneg bound, Int.toNat_natCast]

omit [Binary32 F] [DecidableEq F] in
/-- A layer with a neuron is one of the network. -/
lemma lt_of_one_le_layerSize {j : Nat} (some : 1 ≤ cfg.layerSize j) : j < cfg.layers.length := by
  by_contra none
  rw [Config.layerSize_eq_zero (not_lt.1 none)] at some
  cases some

omit [Binary32 F] [DecidableEq F] in
/-- Where the number of layers is exact on the bus, the layers computed are the later ones. -/
lemma computed_iff (count : cfg.layers.length ≤ 2 ^ 24) :
    (∀ i, i < cfg.iterations ↔ 1 ≤ cfg.layerSize (i + 1)) ↔ ∀ l ∈ cfg.layers.tail, 1 ≤ l := by
  rw [Config.iterations_eq (Config.count_eq count)]
  constructor
  · intro exact l mem
    obtain ⟨j, lt, rfl⟩ := List.mem_iff_getElem.1 mem
    rw [List.length_tail] at lt
    have some := (exact j).1 lt
    rw [Config.layerSize_eq_getElem (by omega)] at some
    rw [List.getElem_tail]
    omega
  · intro pos i
    refine ⟨fun lt => Config.one_le_layerSize pos (by omega), fun some => ?_⟩
    have lt := lt_of_one_le_layerSize some
    omega

/-- The counters are exact exactly if the layers that are computed are those that have a neuron. -/
lemma work_exact (nonneg : ∀ l ∈ cfg.layers, 0 ≤ l) (le : ∀ l ∈ cfg.layers, l ≤ 2 ^ 24)
    (two : 2 ≤ cfg.layers.length) (env : Env hw F) :
    WorkExact cfg env ↔ ∀ i, i < cfg.iterations ↔ 1 ≤ cfg.layerSize (i + 1) := by
  have finite := finite_results cfg fun one => absurd one (by omega)
  have dispatches := dispatches_of_exact nonneg le
  constructor
  · intro work
    have some : ∀ i < cfg.iterations, 1 ≤ cfg.layerSize (i + 1) := by
      intro i lt
      obtain ⟨t, start⟩ := savePrev_reached finite env lt
      obtain ⟨-, -, -, -, u, -, -, clone, -⟩ := iteration_ends finite start
      have thread : (run cfg env (u + 1)).controller.thread = .startClone i := by
        rw [(mainInv_run cfg env finite (u + 1)).controller, clone]
        rfl
      have eq := (dispatched_at finite env thread).2.symm.trans (work.dispatched _ _ thread)
      rw [dispatches] at eq
      exact le_of_le_of_eq (Nat.le_max_right _ _) eq
    refine fun i => ⟨some i, fun one => ?_⟩
    by_contra behind
    -- the sum over the iterations leaves the layer out
    obtain ⟨t, st⟩ := stopped_reached finite env
    have stop := (stopped_iff finite).2 st
    have eq := (counted_all finite env stop).symm.trans (work.counted t stop)
    have inside : Finset.range cfg.iterations ⊆ Finset.range (cfg.layers.length - 1) := by
      intro j mem
      have lt := lt_of_one_le_layerSize (some j (Finset.mem_range.1 mem))
      exact Finset.mem_range.2 (by omega)
    have less := Finset.sum_lt_sum_of_subset (f := fun j => cfg.layerSize (j + 1)) inside
      (i := i) (Finset.mem_range.2 (by have := lt_of_one_le_layerSize one; omega))
      (fun mem => behind (Finset.mem_range.1 mem)) one fun _ _ _ => Nat.zero_le _
    refine absurd eq (ne_of_lt (lt_of_le_of_lt (Finset.sum_le_sum fun j mem => ?_) less))
    rw [dispatches, max_eq_left (some j (Finset.mem_range.1 mem))]
  · intro exact
    constructor
    · intro t stop
      rw [counted_all finite env stop]
      have inside : Finset.range cfg.iterations ⊆ Finset.range (cfg.layers.length - 1) := by
        intro j mem
        have lt := lt_of_one_le_layerSize ((exact j).1 (Finset.mem_range.1 mem))
        exact Finset.mem_range.2 (by omega)
      rw [← Finset.sum_subset inside]
      · refine Finset.sum_congr rfl fun j mem => ?_
        rw [dispatches, max_eq_left ((exact j).1 (Finset.mem_range.1 mem))]
      · intro j _ behind
        by_contra some
        exact behind (Finset.mem_range.2 ((exact j).2 (Nat.one_le_iff_ne_zero.2 some)))
    · intro t i thread
      obtain ⟨lt, all⟩ := dispatched_at finite env thread
      rw [all, dispatches, max_eq_left ((exact i).1 lt)]

/-- The counters are exact exactly if the layers that are computed are those that have a neuron; up
to `2 ^ 24` layers, exactly if none but the first is empty. -/
theorem work_exact_iff (nonneg : ∀ l ∈ cfg.layers, 0 ≤ l) (le : ∀ l ∈ cfg.layers, l ≤ 2 ^ 24)
    (two : 2 ≤ cfg.layers.length) (env : Env hw F) :
    (WorkExact cfg env ↔ ∀ i, i < cfg.iterations ↔ 1 ≤ cfg.layerSize (i + 1)) ∧
      (cfg.layers.length ≤ 2 ^ 24 →
        (WorkExact cfg env ↔ ∀ l ∈ cfg.layers.tail, 1 ≤ l)) := by
  have all := work_exact nonneg le two env
  exact ⟨all, fun count => all.trans (computed_iff count)⟩

/-- The neuron of the small network is counted. -/
theorem work_exact_iff_small :
    (WorkExact smallNetwork listedEnv ↔
        ∀ i, i < smallNetwork.iterations ↔ 1 ≤ smallNetwork.layerSize (i + 1)) ∧
      (smallNetwork.layers.length ≤ 2 ^ 24 →
        (WorkExact smallNetwork listedEnv ↔ ∀ l ∈ smallNetwork.layers.tail, 1 ≤ l)) :=
  work_exact_iff (by decide) (by decide) (by decide) listedEnv

/-- A network whose last layer is empty. -/
def emptyLayer : Config Extended where
  layers := [1, 0]
  weights := []
  picture := [.finite 1]
  layersCount_lt := by decide
  layers_fit := by decide

/-- The empty layer gets a neuron, and the neuron is counted. -/
theorem empty_counted : emptyLayer.Bounded .configH ∧ 2 ≤ emptyLayer.layers.length ∧
    ¬WorkExact emptyLayer listedEnv := by
  refine ⟨?_, by decide, ?_⟩
  · constructor <;> decide
  · intro work
    have finite := finite_results emptyLayer fun one => absurd one (by decide)
    obtain ⟨t, st⟩ := stopped_reached finite listedEnv
    have stop := (stopped_iff finite).2 st
    have eq := (counted_all finite listedEnv stop).symm.trans (work.counted t stop)
    revert eq
    decide +kernel

end NnProcessor.Correctness
