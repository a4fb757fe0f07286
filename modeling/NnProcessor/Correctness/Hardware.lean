import NnProcessor.Correctness.Duration
import NnProcessor.Correctness.Program
import NnProcessor.Correctness.Saturation

/-!
# More hardware than needed

Two hardwares that both have the `inputs + 2` processors a layer can use run in step: their processors
do the same in every edge, and further processors and longer queues make no difference
(`hardware_irrelevant`). A layer is compared edge by edge (`Computes.agree`), and as its
last neuron leaves the same loads behind, it ends in the same edge (`Computes.ends_same`).
-/

namespace NnProcessor.Correctness
open NnProcessor.Arith NnProcessor.Model NnProcessor.Edge NnProcessor.Invariant NnProcessor.Queueing

variable {hw hw' : Hw} {F : Type}

/-- `find_min_index` finds the same queue among any number of queues, if it is empty. -/
lemma findMinIndex_same {n m : Nat} {pos : 0 < n} {pos' : 0 < m} {q : Fin n → Nat} {q' : Fin m → Nat}
    (same : ∀ (j : Fin n) (l : Fin m), (j : Nat) = l → q j = q' l)
    (lt : (findMinIndex pos q : Nat) < m)
    (lt' : (findMinIndex pos' q' : Nat) < n) (empty : q (findMinIndex pos q) = 0)
    (empty' : q' (findMinIndex pos' q') = 0) :
    (findMinIndex pos q : Nat) = findMinIndex pos' q' := by
  rcases Nat.lt_trichotomy (findMinIndex pos q : Nat) (findMinIndex pos' q') with less | eq | more
  · have behind := findMinIndex_lt pos' q'
      (show (⟨findMinIndex pos q, lt⟩ : Fin m) < findMinIndex pos' q' from less)
    rw [← same (findMinIndex pos q) ⟨_, lt⟩ rfl, empty] at behind
    exact absurd behind (Nat.not_lt_zero _)
  · exact eq
  · have behind := findMinIndex_lt pos q
      (show (⟨findMinIndex pos' q', lt'⟩ : Fin n) < findMinIndex pos q from more)
    rw [same ⟨_, lt'⟩ (findMinIndex pos' q') rfl, empty'] at behind
    exact absurd behind (Nat.not_lt_zero _)

variable [Binary32 F] [DecidableEq F] {cfg : Config F} {env : Env hw F} {env' : Env hw' F}

/-- The processors that both hardwares have do the same in a layer iteration. -/
structure Agree (cfg : Config F) (i : Nat) (s : System hw F) (s' : System hw' F) : Prop where
  line : ∀ (k : Fin hw.countPcUnit) (k' : Fin hw'.countPcUnit), (k : Nat) = k' →
    (s.processors k).line (cfg.job i) = (s'.processors k').line (cfg.job i)
  size : ∀ (k : Fin hw.countPcUnit) (k' : Fin hw'.countPcUnit), (k : Nat) = k' →
    (s.processors k).queueSizeO = (s'.processors k').queueSizeO
  sends : ∀ (k : Fin hw.countPcUnit) (k' : Fin hw'.countPcUnit) (x : Nat), (k : Nat) = k' →
    (Sends s i k x ↔ Sends s' i k' x)

omit [DecidableEq F] in
/-- Agreement does not depend on the order of the two states. -/
lemma Agree.symm {i : Nat} {s : System hw F} {s' : System hw' F} (agree : Agree cfg i s s') :
    Agree cfg i s' s where
  line k k' eq := (agree.line k' k eq.symm).symm
  size k k' eq := (agree.size k' k eq.symm).symm
  sends k k' x eq := (agree.sends k' k x eq.symm).symm

namespace Computes

variable {i b u u' : Nat} (comp : Computes cfg env i b u) (comp' : Computes cfg env' i b u')
variable (enough : (cfg.job i).inputs + 2 ≤ hw.countPcUnit)
variable (enough' : (cfg.job i).inputs + 2 ≤ hw'.countPcUnit)
include comp comp'

/-- What is sent to a processor is what is sent to the same one of the other hardware. -/
lemma agree_arrive {t : Nat} (lo : b + 1 ≤ t) (hi : t < u) (hi' : t < u')
    (agree : Agree cfg i (run cfg env t) (run cfg env' t)) {k : Fin hw.countPcUnit}
    {k' : Fin hw'.countPcUnit} (eq : (k : Nat) = k') :
    (comp.service k).arrive t = (comp'.service k').arrive t := by
  have same : ∀ x, (comp.service k).arrive t = [x] ↔ (comp'.service k').arrive t = [x] := by
    intro x
    rw [← comp.sends_iff k x lo hi, ← comp'.sends_iff k' x lo hi']
    exact agree.sends k k' x eq
  have one := (comp.service k).one t
  have one' := (comp'.service k').one t
  cases here : (comp.service k).arrive t with
  | nil =>
    cases there : (comp'.service k').arrive t with
    | nil => rfl
    | cons x rest =>
      rw [there] at one'
      obtain rfl := List.length_eq_zero_iff.1 (Nat.le_zero.1 (Nat.le_of_succ_le_succ one'))
      rw [(same x).2 there] at here
      cases here
  | cons x rest =>
    rw [here] at one
    obtain rfl := List.length_eq_zero_iff.1 (Nat.le_zero.1 (Nat.le_of_succ_le_succ one))
    exact ((same x).1 here).symm

/-- When the layer begins, all processors rest. -/
lemma agree_first : Agree cfg i (run cfg env (b + 1)) (run cfg env' (b + 1)) := by
  constructor
  · intro k k' _
    exact ((comp.service k).start).trans ((comp'.service k').start).symm
  · intro k k' _
    rw [comp.size_first, comp'.size_first]
  · intro k k' x _
    constructor
    · intro sends
      have quiet := comp.first.2.2.1
      rw [sends.word] at quiet
      cases quiet
    · intro sends
      have quiet := comp'.first.2.2.1
      rw [sends.word] at quiet
      cases quiet

include enough enough'

/-- A neuron that is sent to a processor is sent to the same one of the other hardware. -/
lemma agree_sends {t : Nat} (lo : b + 1 ≤ t) (hi : t + 1 < u) (hi' : t + 1 < u')
    (agree : Agree cfg i (run cfg env t) (run cfg env' t)) {k : Fin hw.countPcUnit}
    {k' : Fin hw'.countPcUnit} {x : Nat} (eq : (k : Nat) = k')
    (sends : Sends (run cfg env (t + 1)) i k x) : Sends (run cfg env' (t + 1)) i k' x := by
  have edge := sends_at comp enough (by omega) hi sends
  have number := comp.sends_number (by omega) hi sends
  have le := (comp.layer (t := t + 1) (by omega) hi).1.generator.le
  obtain ⟨-, l, other⟩ := sends_steady comp' enough' (x := x) (by omega)
  rw [← edge] at other
  obtain ⟨choice, -⟩ := comp.sends_choice lo hi sends
  obtain ⟨choice', -⟩ := comp'.sends_choice lo hi' other
  have first := comp.sends_first (by omega) hi sends
  have first' := comp'.sends_first (by omega) hi' other
  have none := free comp enough lo (by omega) fun v lt from_ => comp.fresh enough from_ (by omega)
  have none' := free comp' enough' lo (by omega) fun v lt from_ =>
    comp'.fresh enough' from_ (by omega)
  have same := findMinIndex_same agree.size (by rw [← choice]; omega) (by rw [← choice']; omega)
    none none'
  rw [← choice, ← choice'] at same
  obtain rfl : k' = l := Fin.ext (eq.symm.trans same)
  exact other

/-- An edge of the layer. -/
lemma agree_step {t : Nat} (lo : b + 1 ≤ t) (hi : t + 1 < u) (hi' : t + 1 < u')
    (agree : Agree cfg i (run cfg env t) (run cfg env' t)) :
    Agree cfg i (run cfg env (t + 1)) (run cfg env' (t + 1)) := by
  have lines : ∀ (k : Fin hw.countPcUnit) (k' : Fin hw'.countPcUnit), (k : Nat) = k' →
      (comp.service k).line t = (comp'.service k').line t := agree.line
  constructor
  · intro k k' eq
    have step := (comp.service k).step t lo (by omega)
    have step' := (comp'.service k').step t lo (by omega)
    rw [lines k k' eq, agree_arrive comp comp' lo (by omega) (by omega) agree eq] at step
    exact step.trans step'.symm
  · intro k k' eq
    rw [comp.size_succ k lo (by omega), comp'.size_succ k' lo (by omega), lines k k' eq,
      agree_arrive comp comp' lo (by omega) (by omega) agree eq]
  · intro k k' x eq
    constructor
    · exact agree_sends comp comp' enough enough' lo hi hi' agree eq
    · exact agree_sends comp' comp enough' enough lo hi' hi agree.symm eq.symm

/-- The edges of the layer. -/
lemma agree {t : Nat} (lo : b + 1 ≤ t) (hi : t < u) (hi' : t < u') :
    Agree cfg i (run cfg env t) (run cfg env' t) := by
  induction t, lo using Nat.le_induction with
  | base => exact agree_first comp comp'
  | succ t lo ih =>
    exact agree_step comp comp' enough enough' lo hi hi' (ih (by omega) (by omega))

/-- The layer does not take longer than on the other hardware. -/
lemma ends_before : u ≤ u' := by
  have some : 0 < cfg.dispatches i := Nat.lt_of_lt_of_le Nat.one_pos (Nat.le_max_right _ _)
  obtain ⟨y, eq⟩ : ∃ y, y = b + 1 + 2 * cfg.dispatches i := ⟨_, rfl⟩
  obtain ⟨hi, word, sent, quiet⟩ := comp.last_steady enough eq
  obtain ⟨hi', -, -, quiet'⟩ := comp'.last_steady enough' eq
  have both := agree comp comp' enough enough' (t := y + 1) (by omega) (by omega) (by omega)
  have most : ∀ k, comp.pool.load k (y + 1) ≤ u' - (y + 3) := by
    intro k
    cases Nat.lt_or_ge (k : Nat) hw'.countPcUnit with
    | inl lt =>
      have drained := comp'.pool.drain (y := y) (by omega) quiet' ⟨k, lt⟩ (j := u' - 2 - (y + 1))
        (by omega)
      rw [show y + 1 + (u' - 2 - (y + 1)) = u' - 2 by omega, comp'.none_left.1] at drained
      rw [← comp.service_load k (by omega) (by omega), show (comp.service k).line (y + 1) =
        (comp'.service ⟨k, lt⟩).line (y + 1) from both.line k ⟨k, lt⟩ rfl,
        comp'.service_load ⟨k, lt⟩ (by omega) (by omega)]
      omega
    | inr behind =>
      -- a processor behind the ones that are used has no neuron
      have none : ((comp.service k).line (y + 1)).jobs = [] := by
        by_contra jobs
        obtain ⟨x, rest, line⟩ := List.exists_cons_of_ne_nil jobs
        obtain ⟨v, from_, lt, came, -⟩ := (comp.service k).line_came (t := y + 1) (j := 0) (x := x)
          (by omega) (by omega) (by rw [line]; rfl)
        have first := comp.sends_first from_ (by omega)
          ((comp.sends_iff k x from_ (by omega)).2 came)
        omega
      rw [← comp.service_load k (by omega) (by omega),
        (comp.service k).load_empty (by omega) (by omega) none]
      exact Nat.zero_le _
  have ends := comp.ends_le (by omega) word sent quiet most
  omega

/-- The layer takes the same time on both hardwares. -/
lemma ends_same : u = u' :=
  le_antisymm (ends_before comp comp' enough enough') (ends_before comp' comp enough' enough)

end Computes

omit [Binary32 F] [DecidableEq F] in
/-- A processor counts the neuron that leaves it. -/
lemma storing_card (job : LayerJob F) (p : Processor F) :
    p.storing.card = if (p.line job).leaving.isSome then 1 else 0 := by
  unfold Processor.storing Line.leaving Processor.line Processor.left
  cases p.thread with
  | start | waitQueue | inputAddr | inputWait | biasAddr | biasWait => simp
  | store => simp

/-- In an edge at rest nothing is counted. -/
lemma count_rest {t : Nat} (idle : UnitsIdle (run cfg env t))
    (k : Fin hw.countPcUnit) :
    ((run cfg env (t + 1)).processors k).countNeuronsCalc =
      ((run cfg env t).processors k).countNeuronsCalc := by
  change (((run cfg env t).edge cfg (env.sched t)).processors k).countNeuronsCalc = _
  cases st : (run cfg env t).stopped with
  | true => rw [edge_stopped cfg (env.sched t) st]
  | false =>
    rw [edge_processor cfg (env.sched t) st, idle.generator.quiet,
      process_count (idle.processor k).thread]

section Run

variable (finite : ∀ x ∈ cfg.results, ¬IsInfinite x)
variable (enough : ∀ i < cfg.iterations, (cfg.job i).inputs + 2 ≤ hw.countPcUnit)
variable (enough' : ∀ i < cfg.iterations, (cfg.job i).inputs + 2 ≤ hw'.countPcUnit)
include finite enough enough'

/-- Both runs are in the same phase. -/
lemma phases_same (env : Env hw F) (env' : Env hw' F) (t : Nat) :
    phaseAt cfg env t = phaseAt cfg env' t := by
  induction t using Nat.strong_induction_on with
  | _ t ih =>
    cases t with
    | zero => rfl
    | succ t =>
      have here := ih t (Nat.lt_succ_self t)
      cases ph : phaseAt cfg env t with
      | compute i =>
        have ph' := here.symm.trans ph
        obtain ⟨b, u, comp, lo, hi⟩ := computes_of finite (.inr ph)
        obtain ⟨b', u', comp', lo', hi'⟩ := computes_of finite (.inr ph')
        have pulse := (ih b (by omega)).symm.trans comp.pulse
        obtain rfl : b = b' := phaseAt_unique (pulse.trans comp'.pulse.symm) (by simp [pulse])
          (by simp [pulse])
        have lt : i < cfg.iterations := by
          have valid := phaseAt_valid cfg env t
          rwa [ph] at valid
        obtain rfl := comp.ends_same comp' (enough i lt) (enough' i lt)
        cases Nat.lt_or_ge (t + 1) u with
        | inl more =>
          have settled : b + 2 ≤ t + 1 := by omega
          rw [comp.phase settled more, comp'.phase settled more]
        | inr last =>
          obtain rfl : u = t + 1 := by omega
          rw [comp.ended, comp'.ended]
      | load | savePrev | nextLayer | startGenerator | settle | clear | startClone | copyFirst
      | copying | cloned | writeOut | output | stopped =>
        rw [phaseAt_succ ph, phaseAt_succ (here.symm.trans ph)]
        rfl

/-- The computation of a layer in both runs, or rest. -/
lemma computes_both (env : Env hw F) (env' : Env hw' F) (t : Nat) :
    (∃ i b u, Computes cfg env i b u ∧ Computes cfg env' i b u ∧ i < cfg.iterations ∧ b + 1 ≤ t ∧
      t < u) ∨ (UnitsIdle (run cfg env t) ∧ UnitsIdle (run cfg env' t)) := by
  have phases := phases_same finite enough enough' env env'
  have units := (mainInv_run cfg env finite t).units
  have units' := (mainInv_run cfg env' finite t).units
  have layer : ∀ i, (phaseAt cfg env t = .settle i ∨ phaseAt cfg env t = .compute i) →
      ∃ i b u, Computes cfg env i b u ∧ Computes cfg env' i b u ∧ i < cfg.iterations ∧ b + 1 ≤ t ∧
        t < u := by
    intro i either
    obtain ⟨b, u, comp, lo, hi⟩ := computes_of finite either
    have valid := phaseAt_valid cfg env b
    rw [comp.pulse] at valid
    exact ⟨i, b, u, comp, ⟨finite, (phases b).symm.trans comp.pulse, (phases u).symm.trans comp.ended⟩,
      valid, lo, hi⟩
  rw [← phases t] at units'
  cases ph : phaseAt cfg env t with
  | settle i => exact .inl (layer i (.inl ph))
  | compute i => exact .inl (layer i (.inr ph))
  | load | savePrev | nextLayer | startGenerator | clear | startClone | copyFirst | copying
  | cloned | writeOut | output | stopped =>
    rw [ph] at units units'
    exact .inr ⟨units.1, units'.1⟩

/-- Both simulations are stopped in front of the same edge. -/
lemma stopped_same (env : Env hw F) (env' : Env hw' F) (t : Nat) :
    (run cfg env t).stopped = (run cfg env' t).stopped := by
  have stopped := (mainInv_run cfg env finite t).previous.stopped
  have stopped' := (mainInv_run cfg env' finite t).previous.stopped
  rw [← phases_same finite enough enough' env env' t] at stopped'
  rw [System.stopped, System.stopped, stopped, stopped']

/-- Both runs print the same in every edge. -/
lemma printed_same (env : Env hw F) (env' : Env hw' F) (t : Nat) :
    (run cfg env t).io.printed = (run cfg env' t).io.printed := by
  obtain ⟨v, start⟩ := writeOut_reached finite env
  have start' := (phases_same finite enough enough' env env' v).symm.trans start
  rw [printed_at finite start, printed_at finite start']

/-- A processor has computed as many neurons as the same one of the other hardware. -/
lemma counts_same (env : Env hw F) (env' : Env hw' F) (t : Nat) {k : Fin hw.countPcUnit}
    {k' : Fin hw'.countPcUnit} (eq : (k : Nat) = k') :
    ((run cfg env t).processors k).countNeuronsCalc =
      ((run cfg env' t).processors k').countNeuronsCalc := by
  induction t with
  | zero =>
    rw [run, run, initialized_processor, initialized_processor]
  | succ t ih =>
    cases computes_both finite enough enough' env env' t with
    | inl layer =>
      obtain ⟨i, b, u, comp, comp', valid, lo, hi⟩ := layer
      obtain ⟨inv, wires⟩ := comp.layer lo hi
      obtain ⟨inv', wires'⟩ := comp'.layer lo hi
      have agree := comp.agree comp' (enough i valid) (enough' i valid) lo hi hi
      have count := (inv.step_processor (env.sched t) wires k).count
      have count' := (inv'.step_processor (env'.sched t) wires' k').count
      rw [storing_card (cfg.job i), agree.line k k' eq, ih] at count
      rw [storing_card (cfg.job i)] at count'
      exact count.trans count'.symm
    | inr rest =>
      rw [count_rest rest.1 k, count_rest rest.2 k', ih]

/-- A neuron is sent to a processor in the same edge as on the other hardware. -/
lemma sends_same (env : Env hw F) (env' : Env hw' F) (t : Nat) {i : Nat} {k : Fin hw.countPcUnit}
    {k' : Fin hw'.countPcUnit} {x : Nat} (eq : (k : Nat) = k') :
    Sends (run cfg env t) i k x ↔ Sends (run cfg env' t) i k' x := by
  cases computes_both finite enough enough' env env' t with
  | inl layer =>
    obtain ⟨j, b, u, comp, comp', valid, lo, hi⟩ := layer
    have agree := comp.agree comp' (enough j valid) (enough' j valid) lo hi hi
    constructor
    · intro sends
      obtain rfl : j = i := Option.some.inj ((comp.layer lo hi).2.layer.symm.trans sends.layer)
      exact (agree.sends k k' x eq).1 sends
    · intro sends
      obtain rfl : j = i := Option.some.inj ((comp'.layer lo hi).2.layer.symm.trans sends.layer)
      exact (agree.sends k k' x eq).2 sends
  | inr rest =>
    have quiet := rest.1.generator.quiet
    have quiet' := rest.2.generator.quiet
    constructor
    · intro sends
      rw [sends.word] at quiet
      cases quiet
    · intro sends
      rw [sends.word] at quiet'
      cases quiet'

/-- Both simulations have written the same text. -/
lemma resultText_same [TextOps F] (env : Env hw F) (env' : Env hw' F) (t : Nat) :
    resultText cfg env t = resultText cfg env' t := by
  induction t with
  | zero => rfl
  | succ t ih =>
    rw [resultText, resultText, ih, printed_same finite enough enough' env env',
      printed_same finite enough enough' env env']

end Run

/-- **More hardware than needed.** Two hardwares with any queues that have the `inputs + 2` processors
each layer can use do the same: in every edge, whatever the orders of the processes, they have written
the same text with the same times, send the same neurons to the same processors, have computed as many
neurons on each processor, and are both stopped or both not. -/
theorem hardware_irrelevant [TextOps F] (env : Env hw F) (env' : Env hw' F)
    (inside : cfg.Inside hw) (inside' : cfg.Inside hw')
    (picture : cfg.layers.length ≤ 1 → ∀ x ∈ cfg.picture, ¬IsInfinite x)
    (enough : ∀ i < cfg.iterations, cfg.layerSize i + 2 ≤ hw.countPcUnit)
    (enough' : ∀ i < cfg.iterations, cfg.layerSize i + 2 ≤ hw'.countPcUnit) (t : Nat) :
    (run cfg env t).stopped = (run cfg env' t).stopped ∧
      (run cfg env t).io.printed = (run cfg env' t).io.printed ∧
      resultText cfg env t = resultText cfg env' t ∧
      ∀ (k : Fin hw.countPcUnit) (k' : Fin hw'.countPcUnit), (k : Nat) = k' →
        ((run cfg env t).processors k).countNeuronsCalc =
            ((run cfg env' t).processors k').countNeuronsCalc ∧
          ∀ i x, Sends (run cfg env t) i k x ↔ Sends (run cfg env' t) i k' x := by
  have finite := finite_results cfg picture
  simp only [← inside.domain.inputs_eq] at enough
  simp only [← inside'.domain.inputs_eq] at enough'
  refine ⟨?_, ?_, ?_, fun k k' eq => ⟨?_, fun i x => ?_⟩⟩
  · exact stopped_same finite enough enough' env env' t
  · exact printed_same finite enough enough' env env' t
  · exact resultText_same finite enough enough' env env' t
  · exact counts_same finite enough enough' env env' t eq
  · exact sends_same finite enough enough' env env' t eq

/-- Three processors with room for one neuron each. -/
def threeProcessors : Hw where
  countPcUnit := 3
  queueSize := 1
  memSize := 3
  countPcUnit_pos := by decide
  queueSize_pos := by decide
  memSize_le := by decide

/-- They are enough for three neurons with one input. -/
theorem hardware_irrelevant_three :
    (run threeNeurons listedEnv 40).stopped =
        (run threeNeurons (.listed threeProcessors .nan) 40).stopped ∧
      (run threeNeurons listedEnv 40).io.printed =
        (run threeNeurons (.listed threeProcessors .nan) 40).io.printed ∧
      resultText threeNeurons listedEnv 40 =
        resultText threeNeurons (.listed threeProcessors .nan) 40 ∧
      ∀ (k : Fin Hw.configH.countPcUnit) (k' : Fin threeProcessors.countPcUnit), (k : Nat) = k' →
        ((run threeNeurons listedEnv 40).processors k).countNeuronsCalc =
            ((run threeNeurons (.listed threeProcessors .nan) 40).processors k').countNeuronsCalc ∧
          ∀ i x, Sends (run threeNeurons listedEnv 40) i k x ↔
            Sends (run threeNeurons (.listed threeProcessors .nan) 40) i k' x :=
  hardware_irrelevant listedEnv (.listed threeProcessors .nan)
    ⟨threeNeurons_bounded.domain, by decide, by decide⟩
    ⟨Config.Bounded.domain (by constructor <;> decide), by decide, by decide⟩
    (fun one => absurd one (by decide)) (by decide) (by decide) 40

end NnProcessor.Correctness
