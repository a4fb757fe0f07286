import NnProcessor.Correctness.Termination
import NnProcessor.Invariant.Load
import NnProcessor.Queueing.Pool

/-!
# How long a layer takes

The processors are a pool of servers behind `GENERATOR`, so the computation of a layer is bounded on
both sides by the neurons it has (`compute_length`): the dispatch takes two edges for a neuron, and
apart from the edges of the dispatch no processor idles while neurons wait.
-/

namespace NnProcessor.Model

variable {F : Type} [Binary32Ops F]

/-- A registered size that is not the one of the queue belongs to a processor that has just taken a
neuron. -/
def Processor.Taken (m : Processor F) : Prop :=
  m.queueSizeO = m.queueNnNumber.length ∨ m.thread ≠ .store

omit [Binary32Ops F] in
/-- Behind the write of a result the thread does not stand until the queue is seen. -/
lemma Processor.Taken.queue {m : Processor F} (taken : m.Taken) (store : m.thread = .store) :
    m.queueSizeO = m.queueNnNumber.length := by
  cases taken with
  | inl eq => exact eq
  | inr ne => exact absurd store ne

/-- The thread of a processor, behind the edge's `add_to_queue`. -/
lemma Processor.process_taken {m : Processor F} (size : m.queueSizeO = m.queueNnNumber.length)
    (w : ProcessorIn F) : (m.process w).Taken := by
  unfold Processor.process
  cases m.thread with
  | start | waitQueue | store => exact .inr (Processor.takeNeuron_thread w _)
  | inputAddr i => exact .inl size
  | inputWait i => exact .inr (Processor.inputLoop_thread _ w _)
  | biasAddr | biasWait => exact .inl size

/-- A busy processor stays busy, unless it is done and nothing is queued. -/
lemma Processor.process_busy {m : Processor F} (busy : m.thread.busy = true)
    (more : m.thread = .store → m.queueNnNumber ≠ []) (w : ProcessorIn F) :
    (m.process w).thread.busy = true := by
  have loop : ∀ (i : Nat) (p : Processor F), (p.inputLoop i w).thread.busy = true := by
    intro i p
    unfold Processor.inputLoop
    split <;> rfl
  unfold Processor.process
  cases ht : m.thread with
  | start | waitQueue => simp [ht] at busy
  | inputAddr | biasAddr | biasWait => rfl
  | inputWait i => exact loop (i + 1) _
  | store =>
    obtain ⟨x, rest, queue⟩ := List.exists_cons_of_ne_nil (more ht)
    simp only [Processor.takeNeuron, queue]
    exact loop 0 _

omit [Binary32Ops F] in
/-- The test of the loop leaves the flag of the queue. -/
@[simp] lemma Processor.inputLoop_contrEmptyO (i : Nat) (w : ProcessorIn F) (m : Processor F) :
    (m.inputLoop i w).contrEmptyO = m.contrEmptyO := by
  unfold Processor.inputLoop
  split <;> rfl

/-- The thread leaves `contr_empty_o` to `add_to_queue`. -/
lemma Processor.process_contrEmptyO (w : ProcessorIn F) (m : Processor F) :
    (m.process w).contrEmptyO = m.contrEmptyO := by
  have take : ∀ p : Processor F, (p.takeNeuron w).contrEmptyO = p.contrEmptyO := by
    intro p
    unfold Processor.takeNeuron
    split
    · rfl
    · rw [Processor.inputLoop_contrEmptyO]
  unfold Processor.process
  cases m.thread with
  | start | waitQueue | store => rw [take]
  | inputAddr | biasAddr | biasWait => rfl
  | inputWait i => rw [Processor.inputLoop_contrEmptyO]

/-- A queue is never longer than `QUEUE_SIZE`. -/
lemma Processor.step_length {m : Processor F} {queueSize : Nat}
    (le : m.queueNnNumber.length ≤ queueSize) (address a d : Nat) (b : Bool) (w : ProcessorIn F) :
    ((m.addToQueue queueSize address a d b).process w).queueNnNumber.length ≤ queueSize := by
  have take : ∀ p : Processor F,
      (p.takeNeuron w).queueNnNumber.length ≤ p.queueNnNumber.length := by
    intro p
    unfold Processor.takeNeuron
    split
    · exact le_refl _
    · next queue => simp [queue]
  have pushed : (m.addToQueue queueSize address a d b).queueNnNumber.length ≤ queueSize := by
    unfold Processor.addToQueue
    split
    · next room => simpa using room.2.2
    · exact le
  generalize m.addToQueue queueSize address a d b = q at pushed
  unfold Processor.process
  cases q.thread with
  | start | waitQueue | store => exact (take _).trans pushed
  | inputAddr | biasAddr | biasWait => exact pushed
  | inputWait i => simpa using pushed

omit [Binary32Ops F] in
/-- The load of a processor with a queue of at most `n` neurons. -/
lemma Processor.load_le (job : LayerJob F) {m : Processor F} {n : Nat}
    (le : m.queueNnNumber.length ≤ n) :
    m.load job ≤ Processor.span job * (n + 1) := by
  have left : m.left job ≤ Processor.span job := by
    unfold Processor.left Processor.span
    cases m.thread <;> simp only <;> omega
  have queue := Nat.mul_le_mul_left (Processor.span job) le
  rw [Processor.load, Nat.mul_succ]
  omega

end NnProcessor.Model

namespace NnProcessor.Correctness
open NnProcessor.Arith NnProcessor.Model NnProcessor.Edge NnProcessor.Invariant NnProcessor.Queueing

variable {hw : Hw} {F : Type}

/-- The bounds on the edges `time` between the start of the generator and the end of its layer:
`inputs` products for each of `neurons` neurons, by the processors of `hw`. -/
structure LayerTime (hw : Hw) (neurons inputs time : Nat) : Prop where
  work : (2 * inputs + 3) * neurons + 5 * hw.countPcUnit ≤ hw.countPcUnit * time
  dispatch : 2 * neurons + (2 * inputs + 3) + 3 ≤ time
  upper : hw.countPcUnit * time ≤ (2 * inputs + 3) * neurons +
    (hw.countPcUnit - 1) * ((2 * inputs + 3) * min neurons (hw.queueSize + 1)) +
    hw.countPcUnit * (2 * neurons + 3)

variable [Binary32 F] [DecidableEq F] {cfg : Config F} {env : Env hw F}

variable (cfg env) in
/-- Every processor shows the length of its queue, or has just taken a neuron. -/
lemma run_taken (t : Nat) (k : Fin hw.countPcUnit) : ((run cfg env t).processors k).Taken := by
  induction t with
  | zero =>
    rw [run, initialized_processor]
    exact .inl rfl
  | succ t ih =>
    change (((run cfg env t).edge cfg (env.sched t)).processors k).Taken
    cases st : (run cfg env t).stopped with
    | true => rwa [edge_stopped cfg (env.sched t) st]
    | false =>
      rw [edge_processor cfg (env.sched t) st]
      exact Processor.process_taken rfl _

variable (cfg env) in
/-- No queue holds more than `QUEUE_SIZE` neurons. -/
lemma run_length_le (t : Nat) (k : Fin hw.countPcUnit) :
    ((run cfg env t).processors k).queueNnNumber.length ≤ hw.queueSize := by
  induction t with
  | zero =>
    rw [run, initialized_processor]
    exact Nat.zero_le _
  | succ t ih =>
    change (((run cfg env t).edge cfg (env.sched t)).processors k).queueNnNumber.length ≤ _
    cases st : (run cfg env t).stopped with
    | true => rwa [edge_stopped cfg (env.sched t) st]
    | false =>
      rw [edge_processor cfg (env.sched t) st]
      exact Processor.step_length ih _ _ _ _ _

/-- In front of the edge `b` the generator is started for the layer iteration `i`, and in front of
the edge `u` the controller has seen the end of the layer. -/
structure Computes (cfg : Config F) (env : Env hw F) (i b u : Nat) : Prop where
  finite : ∀ x ∈ cfg.results, ¬IsInfinite x
  pulse : phaseAt cfg env b = .startGenerator i
  ended : phaseAt cfg env u = .clear i

namespace Computes

variable {i b u : Nat} (comp : Computes cfg env i b u)
include comp

/-- The edge behind the pulse is the settling edge. -/
lemma settle : phaseAt cfg env (b + 1) = .settle i := phaseAt_succ comp.pulse

/-- The wait for the end follows the settling edge. -/
lemma compute : phaseAt cfg env (b + 2) = .compute i := phaseAt_succ comp.settle

/-- The computation does not end before the wait for its end. -/
lemma lt : b + 2 < u := by
  by_contra le
  have rank := rank_monotone cfg env (not_lt.1 le)
  simp only [comp.compute, comp.ended] at rank
  exact absurd rank (not_le.2 (Prod.Lex.toLex_lt_toLex.2 (.inr ⟨rfl, Nat.lt_succ_self 4⟩)))

/-- Until its end the layer is computed. -/
lemma phase {t : Nat} (lo : b + 2 ≤ t) (hi : t < u) : phaseAt cfg env t = .compute i := by
  induction t, lo using Nat.le_induction with
  | base => exact comp.compute
  | succ t le ih =>
    have next := phaseAt_succ (ih (Nat.lt_of_succ_lt hi))
    cases ended : (run cfg env t).cycleEnded with
    | false => rwa [ended] at next
    | true =>
      rw [ended] at next
      have clear : phaseAt cfg env (t + 1) = .clear i := next
      have eq := phaseAt_unique (clear.trans comp.ended.symm) (by simp [clear]) (by simp [clear])
      omega

/-- The invariant of the layer and the signals of its edges. -/
lemma layer {t : Nat} (lo : b + 1 ≤ t) (hi : t < u) :
    LayerInv cfg i (history cfg env t) (run cfg env t) ∧ LayerWires cfg i (run cfg env t) := by
  have inv := mainInv_run cfg env comp.finite t
  rcases Nat.eq_or_lt_of_le lo with rfl | more
  · rw [comp.settle] at inv
    exact ⟨inv.units.1, inv.wires (.inl rfl)⟩
  · rw [comp.phase more hi] at inv
    exact ⟨inv.units.1, inv.wires (.inr rfl)⟩

/-- The end is shown while the layer is computed, from the inputs of `END_REDUCER`. -/
lemma cycleEnded {t : Nat} (lo : b + 2 ≤ t) (hi : t < u) :
    (run cfg env t).cycleEnded = reduce (run cfg env t).generator.endGenerateO
      fun k => ((run cfg env t).processors k).contrEmptyO := by
  have inv := mainInv_run cfg env comp.finite t
  rw [comp.phase lo hi] at inv
  exact inv.units.2

/-- No iteration begins in an edge of the layer. -/
lemma begins {t : Nat} (lo : b + 1 ≤ t) (hi : t < u) :
    (run cfg env (t + 1)).controller.thread.begins = false := by
  rw [(mainInv_run cfg env comp.finite (t + 1)).controller]
  rcases Nat.lt_or_eq_of_le (Nat.succ_le_of_lt hi) with lt | eq
  · rw [comp.phase (by omega) lt]
    rfl
  · rw [show t + 1 = u from eq, comp.ended]
    rfl

/-- In the computation a word on the bus is a dispatch. -/
lemma dispatched_succ {t : Nat} (lo : b + 1 ≤ t) (hi : t < u) :
    (history cfg env (t + 1)).dispatched =
      (history cfg env t).dispatched + if (run cfg env (t + 1)).generator.wO then 1 else 0 := by
  simp [history, History.observe, comp.begins lo hi]

/-- When the layer begins, the processors rest and the generator has just been started. -/
lemma first : (∀ k, ProcIdle ((run cfg env (b + 1)).processors k)) ∧
    (run cfg env (b + 1)).generator.thread = .idle ∧
    (run cfg env (b + 1)).generator.wO = false ∧ (history cfg env (b + 1)).dispatched = 0 := by
  have inv := mainInv_run cfg env comp.finite b
  have inv' := mainInv_run cfg env comp.finite (b + 1)
  rw [comp.pulse] at inv
  rw [comp.settle] at inv'
  have go := inv.go (by simp)
  have idle := inv.units.1
  have start : (run cfg env b).controller.startGeneratorO = true := by rw [inv.controller]; rfl
  have eq : (run cfg env (b + 1)).generator = (run cfg env b).generator.switchState true := by
    change ((run cfg env b).edge cfg (env.sched b)).generator = _
    rw [edge_generator cfg (env.sched b) go, start]
    rcases idle.generator.thread with th | th <;> simp [Generator.generate, th]
  have quiet : (run cfg env (b + 1)).generator.wO = false := by
    rw [eq, Generator.switchState, idle.generator.state]
  refine ⟨fun k => idle.step_processor cfg (env.sched b) go k, ?_, quiet, ?_⟩
  · rw [eq, Generator.switchState, idle.generator.state]
  · have stay : (run cfg env (b + 1)).controller.thread.begins = false := by
      rw [inv'.controller]
      rfl
    have seen := idle.observe quiet (history cfg env b)
    rw [stay] at seen
    rw [history, seen]
    exact inv.units.2.1

/-- The processors as a pool of servers. -/
def pool : Pool (Fin hw.countPcUnit) (Processor.span (cfg.job i)) (b + 1) u where
  load k t := ((run cfg env t).processors k).load (cfg.job i)
  busy k t := ((run cfg env t).processors k).busyCount
  arrive k t := (pushed k (run cfg env t).generator.addressO (run cfg env t).generator.dataO
    (run cfg env t).generator.wO).length
  bus t := if (run cfg env t).generator.wO then 1 else 0
  busy_le k t := Processor.busyCount_le _
  busy_le_load k t := (Processor.busyCount_le_left _ _).trans (Nat.le_add_right _ _)
  start k := by
    have rest := comp.first.1 k
    exact (rest.inv (cfg.job i) (ofInt 0) (ofInt 0) 0).load_idle rest.thread
  silent := by rw [comp.first.2.2.1]; rfl
  idle k t lo hi rest := by
    refine ((comp.layer lo hi).1.processor k).load_idle ?_
    unfold Processor.busyCount at rest
    by_contra busy
    rw [if_pos (by simpa using busy)] at rest
    cases rest
  arrives t lo hi := by
    have sum := (comp.layer lo hi).1.sum_pushed_length 1
    simpa only [Nat.one_mul] using sum
  step k t lo hi := by
    obtain ⟨inv, wires⟩ := comp.layer lo hi
    exact inv.step_processor_load (env.sched t) wires k

/-- The neurons dispatched are the jobs sent. -/
lemma sent_eq {t : Nat} (lo : b + 1 ≤ t) (hi : t ≤ u) :
    comp.pool.sent t = (history cfg env t).dispatched := by
  induction t, lo using Nat.le_induction with
  | base =>
    rw [comp.first.2.2.2]
    simp [Pool.sent]
  | succ t le ih =>
    rw [comp.pool.sent_succ le, ih (Nat.le_of_succ_le hi), comp.dispatched_succ le hi]
    rfl

/-- What the generator can do in an edge of the layer. -/
lemma moves {t : Nat} (lo : b + 1 ≤ t) (hi : t < u) :
    let g := (run cfg env t).generator
    let g' := (run cfg env (t + 1)).generator
    (g.thread = .idle ∧ g.state = .generate ∧ g'.thread = .generate ∧ g'.wO = false) ∨
    (g.thread = .idle ∧ (history cfg env t).dispatched = cfg.dispatches i ∧ g'.thread = .idle ∧
      g'.endGenerateO = true ∧ g'.wO = false) ∨
    (g.thread = .generate ∧ g'.thread = .dispatched ∧ g'.wO = true) ∨
    (g.thread = .generate ∧ g'.thread = .dispatched ∧ g'.wO = false ∧
      ∀ k, hw.queueSize ≤ ((run cfg env t).processors k).queueSizeO) ∨
    (g.thread = .dispatched ∧ g'.thread = .generate ∧ g'.wO = false) ∨
    (g.thread = .dispatched ∧ (history cfg env t).dispatched = cfg.dispatches i ∧
      g'.thread = .idle ∧ g'.endGenerateO = true ∧ g'.wO = false) := by
  obtain ⟨inv, wires⟩ := comp.layer lo hi
  have moves := inv.generator.moves hw.countPcUnit_pos hw.queueSize
    (run cfg env t).layersStorage.dataO fun k => ((run cfg env t).processors k).queueSizeO
  have eq := edge_generator cfg (env.sched t) wires.go
  rw [wires.generate] at eq
  rw [← eq] at moves
  exact moves

/-- With every queue full no processor idles, now or in the next edge. -/
lemma full_busy {t : Nat} (lo : b + 1 ≤ t) (hi : t < u)
    (full : ∀ k, hw.queueSize ≤ ((run cfg env t).processors k).queueSizeO) (k : Fin hw.countPcUnit) :
    ((run cfg env t).processors k).thread.busy = true ∧
      ((run cfg env (t + 1)).processors k).thread.busy = true := by
  obtain ⟨inv, wires⟩ := comp.layer lo hi
  have pos := lt_of_lt_of_le hw.queueSize_pos (full k)
  have busy : ((run cfg env t).processors k).thread.busy = true := by
    by_contra rest
    have size := ((inv.processor k).idle (by simpa using rest)).2
    omega
  have fed := inv.fed k
  refine ⟨busy, ?_⟩
  change (((run cfg env t).edge cfg (env.sched t)).processors k).thread.busy = true
  rw [edge_processor cfg (env.sched t) wires.go]
  apply Processor.process_busy
  · rw [fed.thread]
    exact busy
  · rw [fed.thread, fed.queue]
    intro store none
    have size := (run_taken cfg env t k).queue store
    rw [(List.append_eq_nil_iff.1 none).1, List.length_nil] at size
    omega

omit comp in
/-- When no processor idles, all servers of the pool work. -/
lemma working_eq (comp : Computes cfg env i b u) {t : Nat}
    (busy : ∀ k, ((run cfg env t).processors k).thread.busy = true) :
    comp.pool.working t = Fintype.card (Fin hw.countPcUnit) := by
  have one : ∀ k, ((run cfg env t).processors k).busyCount = 1 := fun k => if_pos (busy k)
  calc comp.pool.working t = ∑ _k : Fin hw.countPcUnit, 1 :=
        Finset.sum_congr rfl fun k _ => one k
    _ = Fintype.card (Fin hw.countPcUnit) := by simp

/-- Behind the first edge the generator is idle only when it is done. -/
lemma idle_done {t : Nat} (lo : b + 2 ≤ t) (hi : t < u)
    (idle : (run cfg env t).generator.thread = .idle) :
    (history cfg env t).dispatched = cfg.dispatches i := by
  obtain ⟨v, rfl⟩ : ∃ v, t = v + 1 := ⟨t - 1, by omega⟩
  have gen := (comp.layer (Nat.le_of_succ_le lo) hi).1.generator
  have ended : (run cfg env (v + 1)).generator.endGenerateO = true := by
    rcases comp.moves (t := v) (by omega) (by omega) with
      ⟨-, -, th, -⟩ | ⟨-, -, -, ended, -⟩ | ⟨-, th, -⟩ | ⟨-, th, -⟩ | ⟨-, th, -⟩ |
        ⟨-, -, -, ended, -⟩
    · rw [th] at idle; cases idle
    · exact ended
    · rw [th] at idle; cases idle
    · rw [th] at idle; cases idle
    · rw [th] at idle; cases idle
    · exact ended
  exact (gen.ended ended).1

/-- While neurons are left a processor idles only in the first edge and around a dispatch. -/
lemma attempts {t : Nat} (lo : b + 1 ≤ t) (hi : t < u)
    (more : (history cfg env t).dispatched < cfg.dispatches i)
    (idles : comp.pool.working t < Fintype.card (Fin hw.countPcUnit)) :
    t = b + 1 ∨ 0 < comp.pool.bus t ∨ 0 < comp.pool.bus (t + 1) := by
  by_contra none
  simp only [not_or, Nat.pos_iff_ne_zero, not_not] at none
  obtain ⟨late, now, next⟩ := none
  have bus : ∀ v, comp.pool.bus v = 0 → (run cfg env v).generator.wO = false := by
    intro v zero
    by_contra word
    exact absurd zero (by simp [pool, word])
  have busy : ∀ k, ((run cfg env t).processors k).thread.busy = true := by
    rcases comp.moves lo hi with ⟨idle, -⟩ | ⟨-, done, -⟩ | ⟨-, -, word⟩ | ⟨-, -, -, full⟩ |
      ⟨after, -⟩ | ⟨-, done, -⟩
    · exact absurd (comp.idle_done (by omega) hi idle) more.ne
    · exact absurd done more.ne
    · rw [bus _ next] at word
      cases word
    · exact fun k => (comp.full_busy lo hi full k).1
    · -- the attempt in front of the edge has found every queue full
      obtain ⟨v, rfl⟩ : ∃ v, t = v + 1 := ⟨t - 1, by omega⟩
      rcases comp.moves (t := v) (by omega) (by omega) with
        ⟨-, -, th, -⟩ | ⟨-, -, th, -⟩ | ⟨-, -, word⟩ | ⟨-, -, -, full⟩ | ⟨-, th, -⟩ | ⟨-, -, th, -⟩
      · rw [th] at after; cases after
      · rw [th] at after; cases after
      · rw [bus _ now] at word; cases word
      · exact fun k => (comp.full_busy (by omega) (by omega) full k).2
      · rw [th] at after; cases after
      · rw [th] at after; cases after
    · exact absurd done more.ne
  rw [comp.working_eq busy] at idles
  exact absurd idles (lt_irrefl _)

/-- A dispatch takes two edges. -/
lemma pace {t : Nat} (lo : b + 1 ≤ t) (hi : t ≤ u) :
    2 * (history cfg env t).dispatched +
      (if (run cfg env t).generator.thread = .generate then 1 else 0) + (b + 1) ≤ t := by
  induction t, lo using Nat.le_induction with
  | base =>
    obtain ⟨-, th, -, none⟩ := comp.first
    simp [th, none]
  | succ t le ih =>
    have before := ih (Nat.le_of_succ_le hi)
    rw [comp.dispatched_succ le hi]
    rcases comp.moves le hi with ⟨th, -, th', quiet⟩ | ⟨th, -, th', -, quiet⟩ | ⟨th, th', word⟩ |
      ⟨th, th', quiet, -⟩ | ⟨th, th', quiet⟩ | ⟨th, -, th', -, quiet⟩
    · simp [th', quiet, th] at before ⊢; omega
    · simp [th', quiet, th] at before ⊢; omega
    · simp [th', word, th] at before ⊢; omega
    · simp [th', quiet, th] at before ⊢; omega
    · simp [th', quiet, th] at before ⊢; omega
    · simp [th', quiet, th] at before ⊢; omega

/-- The last edge of the wait shows the end. -/
lemma shown : b + 2 < u ∧ (run cfg env (u - 1)).cycleEnded = true := by
  have lt := comp.lt
  have phase := comp.phase (t := u - 1) (by omega) (by omega)
  refine ⟨lt, ?_⟩
  by_contra off
  have next := phaseAt_succ phase
  rw [Bool.not_eq_true] at off
  rw [show u - 1 + 1 = u by omega, comp.ended, off] at next
  cases next

/-- When the end is shown, the generator and the processors rest. -/
lemma rest {t : Nat} (lo : b + 2 ≤ t) (hi : t < u) (ended : (run cfg env t).cycleEnded = true) :
    UnitsIdle (run cfg env t) ∧ (history cfg env t).dispatched = cfg.dispatches i ∧
      ∀ k, ((run cfg env t).processors k).contrEmptyO = true := by
  have inv := (comp.layer (by omega) hi).1
  rw [comp.cycleEnded lo hi] at ended
  obtain ⟨idle, all, -⟩ := inv.finish ended
  exact ⟨idle, all, ((reduce_eq_true _ _).1 ended).2⟩

/-- `contr_empty_o` is that of the state one edge ago. -/
lemma contr {t : Nat} (lo : b + 1 ≤ t) (hi : t < u) (k : Fin hw.countPcUnit) :
    ((run cfg env (t + 1)).processors k).contrEmptyO =
      (decide (((run cfg env t).processors k).queueNnNumber ++
        pushed k (run cfg env t).generator.addressO (run cfg env t).generator.dataO
          (run cfg env t).generator.wO = []) &&
        !((run cfg env t).processors k).thread.busy) := by
  obtain ⟨inv, wires⟩ := comp.layer lo hi
  have fed := inv.fed k
  change (((run cfg env t).edge cfg (env.sched t)).processors k).contrEmptyO = _
  rw [edge_processor cfg (env.sched t) wires.go, Processor.process_contrEmptyO, fed.contr,
    fed.queue]

/-- One edge before the end is shown, nothing is left to do, and nothing comes. -/
lemma none_left : (∀ k, comp.pool.load k (u - 2) = 0) ∧ comp.pool.bus (u - 2) = 0 ∧
    comp.pool.bus (u - 1) = 0 := by
  obtain ⟨lt, ended⟩ := comp.shown
  obtain ⟨idle, -, contr⟩ := comp.rest (by omega) (by omega) ended
  have both : ∀ k, (((run cfg env (u - 2)).processors k).queueNnNumber ++
        pushed k (run cfg env (u - 2)).generator.addressO (run cfg env (u - 2)).generator.dataO
          (run cfg env (u - 2)).generator.wO = []) ∧
      ((run cfg env (u - 2)).processors k).thread.busy = false := by
    intro k
    have shown := contr k
    rw [show u - 1 = u - 2 + 1 by omega, comp.contr (by omega) (by omega)] at shown
    simpa using shown
  refine ⟨fun k => ?_, ?_, ?_⟩
  · exact ((comp.layer (t := u - 2) (by omega) (by omega)).1.processor k).load_idle (both k).2
  · rw [← comp.pool.arrives (u - 2) (by omega) (by omega)]
    refine Finset.sum_eq_zero fun k _ => ?_
    exact List.length_eq_zero_iff.2 (List.append_eq_nil_iff.1 (both k).1).2
  · simp [pool, idle.generator.quiet]

/-- The last neuron is dispatched in front of the edge `y`: it is on the bus there, and none is
behind. -/
lemma last_job : ∃ y, b + 1 < y ∧ y < u - 2 ∧ 0 < comp.pool.bus y ∧
    comp.pool.sent y = cfg.dispatches i ∧
    (∀ t, t < y → comp.pool.sent t < cfg.dispatches i) ∧
    (∀ x, y < x → x < u → comp.pool.bus x = 0) := by
  have pos : 0 < cfg.dispatches i := Nat.lt_of_lt_of_le Nat.one_pos (Nat.le_max_right _ _)
  obtain ⟨lt, ended⟩ := comp.shown
  have le : ∀ t, b + 1 ≤ t → t < u → comp.pool.sent t ≤ cfg.dispatches i := by
    intro t lo hi
    rw [comp.sent_eq lo hi.le]
    exact (comp.layer lo hi).1.generator.le
  obtain ⟨idle, all, -⟩ := comp.rest (t := u - 1) (by omega) (by omega) ended
  have all' : comp.pool.sent (u - 1) = cfg.dispatches i := by
    rw [comp.sent_eq (by omega) (by omega), all]
  obtain ⟨v, lo, here, gone⟩ := given_up (P := fun t => comp.pool.sent t < cfg.dispatches i)
    (t := b + 1) (u := u - 1) (by omega) (by simpa [Pool.sent] using pos) (by omega)
  have hi : v + 1 ≤ u - 1 := by
    by_contra late
    have mono := comp.pool.sent_mono (t := u - 1) (u := v) (by omega)
    omega
  have sent : comp.pool.sent (v + 1) = cfg.dispatches i :=
    le_antisymm (le _ (by omega) (by omega)) (not_lt.1 gone)
  have word : 0 < comp.pool.bus (v + 1) := by
    have succ := comp.pool.sent_succ lo
    omega
  have before : ∀ t, t < v + 1 → comp.pool.sent t < cfg.dispatches i := fun t less =>
    lt_of_le_of_lt (comp.pool.sent_mono (Nat.le_of_lt_succ less)) here
  have quiet : ∀ x, v + 1 < x → x < u → comp.pool.bus x = 0 := by
    intro x more less
    obtain ⟨z, rfl⟩ : ∃ z, x = z + 1 := ⟨x - 1, by omega⟩
    have succ := comp.pool.sent_succ (t := z) (by omega)
    have mono := comp.pool.sent_mono (t := v + 1) (u := z) (by omega)
    have most := le (z + 1) (by omega) less
    omega
  refine ⟨v + 1, by omega, ?_, word, sent, before, quiet⟩
  obtain ⟨-, none, none'⟩ := comp.none_left
  by_contra late
  rcases (by omega : v + 1 = u - 2 ∨ v + 1 = u - 1) with eq | eq
  · rw [eq, none] at word
    cases word
  · rw [eq, none'] at word
    cases word

/-- The computation of a layer takes at least the time of its last neuron behind its dispatch, and
at least the time of all neurons on all processors. -/
lemma lower : 2 * cfg.dispatches i + Processor.span (cfg.job i) + 3 + (b + 1) ≤ u ∧
    Processor.span (cfg.job i) * cfg.dispatches i + 5 * hw.countPcUnit ≤
      hw.countPcUnit * (u - (b + 1)) := by
  obtain ⟨y, lo, hi, word, sent, -, quiet⟩ := comp.last_job
  obtain ⟨done, none, -⟩ := comp.none_left
  have paced := comp.pace lo.le (by omega)
  rw [← comp.sent_eq lo.le (by omega), sent] at paced
  -- one server gets the last job, and has done it two edges before the end
  obtain ⟨k, got⟩ : ∃ k, 0 < comp.pool.arrive k y := by
    by_contra nobody
    have zero : ∑ k, comp.pool.arrive k y = 0 := Finset.sum_eq_zero fun k _ =>
      Nat.eq_zero_of_not_pos fun pos => nobody ⟨k, pos⟩
    rw [comp.pool.arrives y (by omega) (by omega)] at zero
    omega
  have step := comp.pool.step k y (by omega) (by omega)
  have busy := comp.pool.busy_le_load k y
  have job := Nat.mul_le_mul_left (Processor.span (cfg.job i)) (Nat.succ_le_of_lt got)
  have drained := comp.pool.drain (by omega) quiet k (j := u - 2 - (y + 1)) (by omega)
  rw [show y + 1 + (u - 2 - (y + 1)) = u - 2 by omega, done k] at drained
  have last : 2 * cfg.dispatches i + Processor.span (cfg.job i) + 3 + (b + 1) ≤ u := by omega
  refine ⟨last, ?_⟩
  have total : comp.pool.total (u - 2) = 0 := by
    unfold Pool.total
    rw [none, Nat.mul_zero, Nat.add_zero]
    exact Finset.sum_eq_zero fun k _ => done k
  have all : comp.pool.sent (u - 2) = cfg.dispatches i := by
    refine le_antisymm ?_ (le_of_eq_of_le sent.symm (comp.pool.sent_mono (by omega)))
    rw [comp.sent_eq (by omega) (by omega)]
    exact (comp.layer (t := u - 2) (by omega) (by omega)).1.generator.le
  have one : comp.pool.bus (b + 1 + 1) = 0 := by
    rcases comp.moves (le_refl (b + 1)) (by omega) with ⟨-, -, -, quiet⟩ | ⟨-, -, -, -, quiet⟩ |
      ⟨th, -⟩ | ⟨th, -⟩ | ⟨th, -⟩ | ⟨th, -⟩
    · simp [pool, quiet]
    · simp [pool, quiet]
    · rw [comp.first.2.1] at th; cases th
    · rw [comp.first.2.1] at th; cases th
    · rw [comp.first.2.1] at th; cases th
    · rw [comp.first.2.1] at th; cases th
  have pos : 1 ≤ cfg.dispatches i := Nat.le_max_right _ _
  have work := comp.pool.work_le (c := b + 4) (t := u - 2) (by omega) (by omega) (by omega) total
    fun x h1 h2 => comp.pool.working_eq_zero h1 (by omega) fun z h3 h4 => by
      rwa [show z = b + 1 + 1 by omega]
  rw [all, Fintype.card_fin] at work
  have split : u - (b + 1) = (u - 2 - (b + 4)) + 5 := by omega
  rw [split, Nat.mul_add, Nat.mul_comm 5]
  exact Nat.add_le_add_right work _

/-- Behind the last dispatch the generator shows its end. -/
lemma generator_done {y : Nat} (lo : b + 1 < y) (hi : y < u) (word : 0 < comp.pool.bus y)
    (sent : comp.pool.sent y = cfg.dispatches i) {t : Nat} (lt : y < t) (hi' : t < u) :
    (run cfg env t).generator.endGenerateO = true ∧ (run cfg env t).generator.thread = .idle := by
  have all : ∀ v, y ≤ v → v < u → (history cfg env v).dispatched = cfg.dispatches i := by
    intro v h1 h2
    refine le_antisymm (comp.layer (by omega) h2).1.generator.le ?_
    rw [← comp.sent_eq (by omega) h2.le, ← sent]
    exact comp.pool.sent_mono h1
  induction t, lt using Nat.le_induction with
  | base =>
    have gen := (comp.layer (by omega) hi).1.generator
    have high : (run cfg env y).generator.wO = true := by
      by_contra low
      exact absurd word (by simp [pool, low])
    have th : (run cfg env y).generator.thread = .dispatched := by
      by_contra ne
      rw [gen.quiet ne] at high
      cases high
    rcases comp.moves (by omega) hi with ⟨th', -⟩ | ⟨th', -⟩ | ⟨th', -⟩ | ⟨th', -⟩ | ⟨-, th', -⟩ |
      ⟨-, -, th', ended, -⟩
    · rw [th] at th'; cases th'
    · rw [th] at th'; cases th'
    · rw [th] at th'; cases th'
    · rw [th] at th'; cases th'
    · -- the generator does not try again when all neurons are dispatched
      have gen' := (comp.layer (t := y + 1) (by omega) hi').1.generator
      simp only [GenInv, th'] at gen'
      have more := gen'.2.2.2.1
      rw [all (y + 1) (by omega) hi'] at more
      exact absurd more (lt_irrefl _)
    · exact ⟨ended, th'⟩
  | succ t le ih =>
    obtain ⟨-, idle⟩ := ih (Nat.lt_of_succ_lt hi')
    have le : y < t := le
    rcases comp.moves (t := t) (by omega) (by omega) with ⟨-, state, -⟩ | ⟨-, -, th', ended, -⟩ |
      ⟨th, -⟩ | ⟨th, -⟩ | ⟨th, -⟩ | ⟨th, -⟩
    · have gen := (comp.layer (t := t) (by omega) (by omega)).1.generator
      simp only [GenInv, idle, state] at gen
      rcases gen.2 with ⟨-, -, more, -⟩ | ⟨ne, -⟩
      · rw [all t le.le (by omega)] at more
        exact absurd more (lt_irrefl _)
      · cases ne
    · exact ⟨ended, th'⟩
    · rw [idle] at th; cases th
    · rw [idle] at th; cases th
    · rw [idle] at th; cases th
    · rw [idle] at th; cases th

/-- When the last server is done, the end is seen two edges later. -/
lemma ends_le {y m : Nat} (lo : b + 1 < y) (word : 0 < comp.pool.bus y)
    (sent : comp.pool.sent y = cfg.dispatches i)
    (quiet : ∀ x, y < x → x < u → comp.pool.bus x = 0)
    (most : ∀ k, comp.pool.load k (y + 1) ≤ m) : u ≤ y + 3 + m := by
  by_contra late
  have lt : y + 1 + m + 1 < u := by omega
  have done : ∀ k, comp.pool.load k (y + 1 + m) = 0 := by
    intro k
    rw [comp.pool.drain (by omega) quiet k (by omega)]
    have le := most k
    omega
  have shown : (run cfg env (y + 1 + m + 1)).cycleEnded = true := by
    rw [comp.cycleEnded (by omega) lt, reduce_eq_true]
    refine ⟨(comp.generator_done lo (by omega) word sent (by omega) lt).1, fun k => ?_⟩
    have rest : ((run cfg env (y + 1 + m)).processors k).load (cfg.job i) = 0 := done k
    have left := Processor.busyCount_le_left (cfg.job i) ((run cfg env (y + 1 + m)).processors k)
    have none : (pushed k (run cfg env (y + 1 + m)).generator.addressO
        (run cfg env (y + 1 + m)).generator.dataO
        (run cfg env (y + 1 + m)).generator.wO : List Nat) = [] := by
      have low : (run cfg env (y + 1 + m)).generator.wO = false := by
        by_contra high
        exact absurd (quiet (y + 1 + m) (by omega) (by omega)) (by simp [pool, high])
      simp [pushed, low]
    unfold Processor.load at rest
    have queue : ((run cfg env (y + 1 + m)).processors k).queueNnNumber.length = 0 := by
      have zero := (Nat.add_eq_zero_iff.1 rest).2
      rcases Nat.mul_eq_zero.1 zero with span | empty
      · simp [Processor.span] at span
      · exact empty
    have idle : ((run cfg env (y + 1 + m)).processors k).thread.busy = false := by
      by_contra busy
      rw [Processor.busyCount, if_pos (by simpa using busy)] at left
      omega
    rw [comp.contr (by omega) (by omega), none, List.append_nil,
      List.length_eq_zero_iff.1 queue, idle]
    rfl
  have next := phaseAt_succ (comp.phase (by omega) lt)
  rw [shown] at next
  have clear : phaseAt cfg env (y + 1 + m + 1 + 1) = .clear i := next
  have eq := phaseAt_unique (clear.trans comp.ended.symm) (by simp [clear]) (by simp [clear])
  omega

/-- But for the edges of the dispatch and the neurons behind the last one, all processors work. -/
lemma upper : hw.countPcUnit * (u - (b + 1)) ≤
    Processor.span (cfg.job i) * cfg.dispatches i +
      (hw.countPcUnit - 1) *
        (Processor.span (cfg.job i) * min (cfg.dispatches i) (hw.queueSize + 1)) +
      hw.countPcUnit * (2 * cfg.dispatches i + 3) := by
  obtain ⟨y, lo, hi, word, sent, before, quiet⟩ := comp.last_job
  -- the most loaded server behind the last dispatch
  obtain ⟨m, hm⟩ : ∃ m, m = Finset.univ.sup fun k => comp.pool.load k (y + 1) := ⟨_, rfl⟩
  have most : ∀ k, comp.pool.load k (y + 1) ≤ m := fun k =>
    hm ▸ Finset.le_sup (f := fun k => comp.pool.load k (y + 1)) (Finset.mem_univ k)
  have below : ∀ n, (∀ k, comp.pool.load k (y + 1) ≤ n) → m ≤ n := fun n le =>
    hm ▸ Finset.sup_le fun k _ => le k
  have total : m ≤ comp.pool.total y :=
    below _ fun k => comp.pool.load_succ_le (by omega) (by omega) k
  have queued : m ≤ Processor.span (cfg.job i) * (hw.queueSize + 1) :=
    below _ fun k => Processor.load_le _ (run_length_le cfg env (y + 1) k)
  have jobs := comp.pool.total_le (t := y) (by omega) (by omega)
  have makespan := comp.pool.makespan_le (t := y) (by omega) (by omega) total
  have wasted := comp.pool.wasted_le (y := y) (by omega) word fun x h1 h2 idles =>
    comp.attempts h1 (by omega) (by rw [← comp.sent_eq h1 (by omega)]; exact before x h2) idles
  have ends := comp.ends_le lo word sent quiet most
  rw [sent, Fintype.card_fin] at makespan
  rw [sent] at jobs wasted
  have tail : m ≤ Processor.span (cfg.job i) * min (cfg.dispatches i) (hw.queueSize + 1) := by
    rcases Nat.le_total (cfg.dispatches i) (hw.queueSize + 1) with le | le
    · rw [min_eq_left le]
      exact total.trans jobs
    · rw [min_eq_right le]
      exact queued
  have waste := Nat.mul_le_mul_left hw.countPcUnit wasted
  have last := Nat.mul_le_mul_left (hw.countPcUnit - 1) tail
  have time := Nat.mul_le_mul_left hw.countPcUnit
    (show u - (b + 1) ≤ y - (b + 1) + m + 3 by omega)
  rw [Nat.mul_add] at time ⊢
  omega

/-- The time of the computation. -/
lemma layerTime : LayerTime hw (cfg.dispatches i) (cfg.job i).inputs (u - (b + 1)) := by
  obtain ⟨dispatch, work⟩ := comp.lower
  have lt := comp.lt
  exact ⟨work, by unfold Processor.span at dispatch; omega, comp.upper⟩

/-- The threads at the ends of the computation. -/
lemma threads : (∀ t, (run cfg env t).controller.thread = .settle i ↔ t = b + 1) ∧
    ∀ t, (run cfg env t).controller.thread = .clear i ↔ t = u := by
  have only : ∀ (th : ControlThread) (ph : Phase) {x : Nat}, Config.phaseOf th = some ph →
      (cfg.controllerAt ph).thread = th → phaseAt cfg env x = ph → ph ≠ .stopped →
      (∀ j, ph ≠ .compute j) → ∀ y, (run cfg env y).controller.thread = th ↔ y = x := by
    intro th ph x of at_ here ns nc y
    rw [(mainInv_run cfg env comp.finite y).controller]
    constructor
    · intro eq
      have phase : phaseAt cfg env y = ph :=
        Config.phase_of_thread cfg (by rw [eq]; exact of)
      exact phaseAt_unique (phase.trans here.symm) (by rw [phase]; exact ns)
        (by rw [phase]; exact nc)
    · rintro rfl
      rw [here]
      exact at_
  constructor
  · exact only (.settle i) (.settle i) rfl rfl comp.settle (by simp) (by simp)
  · exact only (.clear i) (.clear i) rfl rfl comp.ended (by simp) (by simp)

end Computes

/-- Between the edge `a` at which the generator starts and the edge `u` at which the controller has
seen the end, the computation of a layer takes a time that its neurons (or the one that an empty layer
gets), its inputs and the processors bound on both sides. -/
theorem compute_length (env : Env hw F) (inside : cfg.Inside hw)
    (picture : cfg.layers.length ≤ 1 → ∀ x ∈ cfg.picture, ¬IsInfinite x) {i : Nat}
    (lt : i < cfg.iterations) :
    ∃ a u, a < u ∧ (∀ t, (run cfg env t).controller.thread = .settle i ↔ t = a) ∧
      (∀ t, (run cfg env t).controller.thread = .clear i ↔ t = u) ∧
      LayerTime hw (max (cfg.layerSize (i + 1)) 1) (cfg.layerSize i) (u - a) := by
  have finite := finite_results cfg picture
  obtain ⟨t, start⟩ := savePrev_reached finite env lt
  obtain ⟨-, pulse, -, -, u, -, clear, -⟩ := iteration_ends finite start
  have comp : Computes cfg env i (t + 2) u := ⟨finite, pulse, clear⟩
  refine ⟨t + 3, u, comp.lt.le, comp.threads.1, comp.threads.2, ?_⟩
  rw [← inside.domain.dispatches_eq, ← inside.domain.inputs_eq]
  exact comp.layerTime

/-- The computation of three neurons. -/
theorem compute_length_three :
    ∃ a u, a < u ∧ (∀ t, (run threeNeurons listedEnv t).controller.thread = .settle 0 ↔ t = a) ∧
      (∀ t, (run threeNeurons listedEnv t).controller.thread = .clear 0 ↔ t = u) ∧
      LayerTime .configH (max (threeNeurons.layerSize 1) 1) (threeNeurons.layerSize 0) (u - a) :=
  compute_length listedEnv ⟨threeNeurons_bounded.domain, by decide, by decide⟩
    (fun one => absurd one (by decide)) (by decide)

end NnProcessor.Correctness
