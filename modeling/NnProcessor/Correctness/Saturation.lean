import NnProcessor.Correctness.Serving

/-!
# How many processors a layer can use

`GENERATOR` sends a neuron in every other edge at most, and a neuron takes `2 * inputs + 3` edges. So
the first `inputs + 2` processors of a layer always have one with an empty queue among them, and as
`find_min_index` takes the first of the shortest queues, no other processor gets anything to do
(`processors_used`). With that many processors `GENERATOR` never finds all queues full, and the time
of a layer is known up to `2 * inputs + 1` edges (`saturated`).
-/

namespace NnProcessor.Model

variable {F : Type} [Binary32Ops F]

/-- The thread leaves `queue_size_o` to `add_to_queue`. -/
lemma Processor.process_queueSizeO (w : ProcessorIn F) (m : Processor F) :
    (m.process w).queueSizeO = m.queueSizeO := by
  have take : ∀ p : Processor F, (p.takeNeuron w).queueSizeO = p.queueSizeO := by
    intro p
    unfold Processor.takeNeuron
    split
    · rfl
    · rw [Processor.inputLoop_queueSizeO]
  unfold Processor.process
  cases m.thread with
  | start | waitQueue | store => rw [take]
  | inputAddr | biasAddr | biasWait => rfl
  | inputWait i => rw [Processor.inputLoop_queueSizeO]

end NnProcessor.Model

namespace NnProcessor.Correctness
open NnProcessor.Arith NnProcessor.Model NnProcessor.Edge NnProcessor.Invariant NnProcessor.Queueing

variable {hw : Hw} {F : Type} [Binary32 F] [DecidableEq F] {cfg : Config F} {env : Env hw F}

namespace Computes

variable {i b u : Nat} (comp : Computes cfg env i b u)
include comp

/-- Behind the neuron in service a processor has its queue. -/
lemma line_tail (k : Fin hw.countPcUnit) {t : Nat} (lo : b + 1 ≤ t) (hi : t < u) :
    ((comp.service k).line t).jobs.tail = ((run cfg env t).processors k).queueNnNumber := by
  have inv := (comp.layer lo hi).1.processor k
  change (((run cfg env t).processors k).line (cfg.job i)).jobs.tail = _
  cases busy : ((run cfg env t).processors k).thread.busy with
  | false => rw [Processor.line_waiting busy, (inv.idle busy).1]; rfl
  | true => rw [Processor.line_busy busy]; rfl

/-- A registered size is the one of the queue with the neuron that has come in the last edge, but
without what the thread has taken in it. -/
lemma size_succ (k : Fin hw.countPcUnit) {t : Nat} (lo : b + 1 ≤ t) (hi : t < u) :
    ((run cfg env (t + 1)).processors k).queueSizeO =
      (((comp.service k).line t).jobs.tail ++ (comp.service k).arrive t).length := by
  obtain ⟨inv, wires⟩ := comp.layer lo hi
  have fed := inv.fed k
  rw [comp.line_tail k lo hi]
  change (((run cfg env t).edge cfg (env.sched t)).processors k).queueSizeO = _
  rw [edge_processor cfg (env.sched t) wires.go, Processor.process_queueSizeO, fed.queueSizeO,
    fed.queue]
  rfl

/-- The load of a server is the one in the pool. -/
lemma service_load (k : Fin hw.countPcUnit) {t : Nat} (lo : b + 1 ≤ t) (hi : t < u) :
    ((comp.service k).line t).load (Processor.span (cfg.job i)) = comp.pool.load k t :=
  ((comp.layer lo hi).1.processor k).line_load

/-- In front of the first edge all sizes are zero. -/
lemma size_first (k : Fin hw.countPcUnit) :
    ((run cfg env (b + 1)).processors k).queueSizeO = 0 := (comp.first.1 k).queueSizeO

/-- Of two sent neurons one comes two edges behind the other one. -/
lemma sends_apart {k l : Fin hw.countPcUnit} {x y t v : Nat} (lo : b + 1 ≤ t) (hi : t < u)
    (lo' : b + 1 ≤ v) (hi' : v < u) (one : Sends (run cfg env t) i k x)
    (other : Sends (run cfg env v) i l y) (ne : k ≠ l) : t + 2 ≤ v ∨ v + 2 ≤ t := by
  have silent : ∀ {t : Nat}, b + 1 ≤ t → t + 1 < u → (run cfg env t).generator.wO = true →
      (run cfg env (t + 1)).generator.wO = false := by
    intro t lo hi word
    have gen := (comp.layer lo (Nat.lt_of_succ_lt hi)).1.generator
    have busy : (run cfg env t).generator.thread = .dispatched := by
      by_contra quiet
      rw [gen.quiet quiet] at word
      cases word
    rcases comp.moves lo (Nat.lt_of_succ_lt hi) with ⟨-, -, -, off⟩ | ⟨-, -, -, -, off⟩ |
      ⟨th, -⟩ | ⟨-, -, off, -⟩ | ⟨-, -, off⟩ | ⟨-, -, -, -, off⟩
    · exact off
    · exact off
    · rw [busy] at th; cases th
    · exact off
    · exact off
    · exact off
  rcases Nat.lt_trichotomy t v with lt | eq | gt
  · left
    by_contra near
    obtain rfl : v = t + 1 := by omega
    have off := silent lo hi' one.word
    rw [other.word] at off
    cases off
  · subst eq
    exact absurd (Fin.ext (one.address.symm.trans other.address)) ne
  · right
    by_contra near
    obtain rfl : t = v + 1 := by omega
    have off := silent lo' hi other.word
    rw [one.word] at off
    cases off

/-- Nothing is sent in the first edge, so a neuron has been chosen in an edge of the layer. -/
lemma sends_behind {k : Fin hw.countPcUnit} {x t : Nat} (lo : b + 1 ≤ t)
    (sends : Sends (run cfg env t) i k x) : ∃ v, t = v + 1 ∧ b + 1 ≤ v := by
  refine ⟨t - 1, by omega, ?_⟩
  by_contra first
  obtain rfl : t = b + 1 := by omega
  have quiet := comp.first.2.2.1
  rw [sends.word] at quiet
  cases quiet

/-- A neuron is sent to the first of the processors with the smallest registered size. -/
lemma sends_choice {k : Fin hw.countPcUnit} {x t : Nat} (lo : b + 1 ≤ t) (hi : t + 1 < u)
    (sends : Sends (run cfg env (t + 1)) i k x) :
    k = findMinIndex hw.countPcUnit_pos (fun j => ((run cfg env t).processors j).queueSizeO) ∧
      (run cfg env t).generator.wO = false := by
  obtain ⟨inv, wires⟩ := comp.layer lo (Nat.lt_of_succ_lt hi)
  have word := sends.word
  have address := sends.address
  change ((run cfg env t).edge cfg (env.sched t)).generator.wO = true at word
  change (((run cfg env t).edge cfg (env.sched t)).generator.addressO : Nat) = k at address
  rw [edge_generator cfg (env.sched t) wires.go] at word address
  obtain ⟨choice, -, silent⟩ := generate_choice inv.generator.quiet word
  exact ⟨Fin.ext (address.symm.trans choice), silent⟩

omit comp in
/-- Up to an edge every neuron has found no other one but the one in service, and that not in its
first edge. -/
def Fresh (comp : Computes cfg env i b u) (t : Nat) : Prop :=
  ∀ v, b + 1 ≤ v → v ≤ t → ∀ k, (comp.service k).arrive v ≠ [] →
    ((comp.service k).line v).jobs.length ≤ 1 ∧
      ((comp.service k).line v).left < Processor.span (cfg.job i)

/-- A processor whose registered size is not zero has got a neuron lately. -/
lemma sent_since {t : Nat} (lo : b + 1 ≤ t) (hi : t < u - 1) (fresh : comp.Fresh t)
    {k : Fin hw.countPcUnit} (some : ((run cfg env (t + 1)).processors k).queueSizeO ≠ 0) :
    ∃ v x, b + 1 ≤ v ∧ v ≤ t ∧ Sends (run cfg env v) i k x ∧
      t + 2 ≤ v + Processor.span (cfg.job i) := by
  rw [comp.size_succ k lo (by omega), ne_eq, List.length_eq_zero_iff] at some
  obtain ⟨v, x, from_, le, came, since⟩ := (comp.service k).waiting_since lo hi.le
    (by unfold Processor.span; omega) (fun v from_ lt => fresh v from_ lt.le k) some
  exact ⟨v, x, from_, le, (comp.sends_iff k x from_ (by omega)).2 came, since⟩

omit comp in
/-- Among the registered sizes there are no more than `inputs + 1` that are not zero. -/
lemma card_waiting (comp : Computes cfg env i b u) {t : Nat} (lo : b + 1 ≤ t) (hi : t < u)
    (fresh : ∀ v < t, b + 1 ≤ v → comp.Fresh v) :
    (Finset.univ.filter fun k =>
      ((run cfg env t).processors k).queueSizeO ≠ 0).card ≤ (cfg.job i).inputs + 1 := by
  cases Nat.eq_or_lt_of_le lo with
  | inl first =>
    rw [Finset.filter_false_of_mem fun k _ some => some (first ▸ comp.size_first k)]
    exact Nat.zero_le _
  | inr behind =>
    obtain ⟨v, rfl⟩ : ∃ v, t = v + 1 := ⟨t - 1, by omega⟩
    have each : ∀ k : Fin hw.countPcUnit, ∃ w,
        ((run cfg env (v + 1)).processors k).queueSizeO ≠ 0 →
          ∃ x, b + 1 ≤ w ∧ w ≤ v ∧ Sends (run cfg env w) i k x ∧
            v + 2 ≤ w + Processor.span (cfg.job i) := by
      intro k
      by_cases none : ((run cfg env (v + 1)).processors k).queueSizeO = 0
      · exact ⟨0, fun some => absurd none some⟩
      · obtain ⟨w, x, sent⟩ := comp.sent_since (by omega) (by omega)
          (fresh v (Nat.lt_succ_self v) (by omega)) none
        exact ⟨w, fun _ => ⟨x, sent⟩⟩
    choose time sent using each
    have window : (v - (v + 2 - Processor.span (cfg.job i))) / 2 ≤ (cfg.job i).inputs := by
      unfold Processor.span
      omega
    refine le_trans (card_le_of_spaced time 2 (v + 2 - Processor.span (cfg.job i)) v Nat.two_pos
      ?_ ?_) (Nat.succ_le_succ window)
    · intro k mem
      obtain ⟨x, -, le, -, since⟩ := sent k (Finset.mem_filter.1 mem).2
      exact ⟨by omega, le⟩
    · intro k mem l mem' ne
      obtain ⟨x, lo, le, sends, -⟩ := sent k (Finset.mem_filter.1 mem).2
      obtain ⟨y, lo', le', sends', -⟩ := sent l (Finset.mem_filter.1 mem').2
      exact comp.sends_apart lo (by omega) lo' (by omega) sends sends' ne

omit comp in
/-- With more than `inputs + 1` processors there is one whose registered size is zero. -/
lemma free (comp : Computes cfg env i b u) (enough : (cfg.job i).inputs + 2 ≤ hw.countPcUnit)
    {t : Nat} (lo : b + 1 ≤ t) (hi : t < u) (fresh : ∀ v < t, b + 1 ≤ v → comp.Fresh v) :
    ((run cfg env t).processors (findMinIndex hw.countPcUnit_pos fun j =>
      ((run cfg env t).processors j).queueSizeO)).queueSizeO = 0 := by
  obtain ⟨k, none⟩ : ∃ k, ((run cfg env t).processors k).queueSizeO = 0 := by
    by_contra all
    have card := card_waiting comp lo hi fresh
    have every : ∀ k ∈ Finset.univ, ((run cfg env t).processors k).queueSizeO ≠ 0 :=
      fun k _ zero => all ⟨k, zero⟩
    rw [Finset.filter_true_of_mem every, Finset.card_univ, Fintype.card_fin] at card
    omega
  have least := findMinIndex_le hw.countPcUnit_pos
    (fun j => ((run cfg env t).processors j).queueSizeO) k
  exact Nat.le_zero.1 (least.trans_eq none)

omit comp in
/-- With more than `inputs + 1` processors every neuron is fresh. -/
lemma fresh (comp : Computes cfg env i b u) (enough : (cfg.job i).inputs + 2 ≤ hw.countPcUnit)
    {t : Nat} (lo : b + 1 ≤ t) (hi : t < u) : comp.Fresh t := by
  induction t using Nat.strong_induction_on with
  | _ t ih =>
    intro v from_ le k new
    obtain ⟨x, came⟩ := List.length_eq_one_iff.1
      (le_antisymm ((comp.service k).one v) (List.length_pos_iff.2 new))
    have sends := (comp.sends_iff k x from_ (by omega)).2 came
    obtain ⟨w, rfl, behind⟩ := comp.sends_behind from_ sends
    obtain ⟨choice, silent⟩ := comp.sends_choice behind (by omega) sends
    have none := free comp enough behind (by omega) fun z lt from' =>
      ih z (by omega) from' (by omega)
    rw [← choice] at none
    have inv := (comp.layer behind (by omega)).1.processor k
    have empty : ((run cfg env w).processors k).queueNnNumber = [] :=
      List.length_eq_zero_iff.1 (Nat.le_zero.1 (inv.size_le.trans_eq none))
    have one : ((comp.service k).line w).jobs.length ≤ 1 := by
      have tail := comp.line_tail k behind (by omega)
      rw [empty, ← List.length_eq_zero_iff, List.length_tail] at tail
      omega
    have quiet : (comp.service k).arrive w = [] := by
      simp [service, pushed, silent]
    have before := comp.sends_before from_ (by omega) sends
    rw [(comp.service k).step w behind (by omega), quiet]
    exact ((comp.service k).valid behind (by omega)).step_quiet (comp.service k).pos one

/-- No processor behind the first `inputs + 2` ones is sent a neuron. -/
lemma sends_first {k : Fin hw.countPcUnit} {x t : Nat} (lo : b + 1 ≤ t) (hi : t < u)
    (sends : Sends (run cfg env t) i k x) : (k : Nat) < (cfg.job i).inputs + 2 := by
  cases Nat.lt_or_ge hw.countPcUnit ((cfg.job i).inputs + 2) with
  | inl few => exact k.isLt.trans few
  | inr enough =>
    obtain ⟨v, rfl, behind⟩ := comp.sends_behind lo sends
    obtain ⟨choice, -⟩ := comp.sends_choice behind hi sends
    have card := card_waiting comp behind (by omega) fun w lt from_ => comp.fresh enough from_ (by omega)
    have before : Finset.Iio k ⊆ Finset.univ.filter fun j =>
        ((run cfg env v).processors j).queueSizeO ≠ 0 := by
      intro j mem
      have lt := Finset.mem_Iio.1 mem
      rw [choice] at lt
      have least := findMinIndex_lt hw.countPcUnit_pos
        (fun j => ((run cfg env v).processors j).queueSizeO) lt
      exact Finset.mem_filter.2 ⟨Finset.mem_univ j, Nat.ne_zero_of_lt least⟩
    have below := (Finset.card_le_card before).trans card
    rw [Fin.card_Iio] at below
    exact Nat.lt_succ_of_le below

/-- As long as neurons are left the layer goes on. -/
lemma goes_on {t : Nat} (lo : b + 1 ≤ t) (hi : t < u)
    (more : (history cfg env t).dispatched < cfg.dispatches i) : t + 1 < u := by
  obtain ⟨lt, ended⟩ := comp.shown
  obtain ⟨-, all, -⟩ := comp.rest (t := u - 1) (by omega) (by omega) ended
  by_contra last
  obtain rfl : t = u - 1 := by omega
  exact absurd all more.ne

omit comp in
/-- With more than `inputs + 1` processors no attempt to send a neuron fails. -/
lemma attempt (comp : Computes cfg env i b u) (enough : (cfg.job i).inputs + 2 ≤ hw.countPcUnit)
    {t : Nat} (lo : b + 1 ≤ t) (hi : t < u) (tries : (run cfg env t).generator.thread = .generate) :
    (run cfg env (t + 1)).generator.thread = .dispatched ∧
      (run cfg env (t + 1)).generator.wO = true := by
  rcases comp.moves lo hi with ⟨th, -⟩ | ⟨th, -⟩ | ⟨-, th, word⟩ | ⟨-, -, -, full⟩ | ⟨th, -⟩ | ⟨th, -⟩
  · rw [tries] at th; cases th
  · rw [tries] at th; cases th
  · exact ⟨th, word⟩
  · have none := free comp enough lo hi fun v lt from_ => comp.fresh enough from_ (by omega)
    have size := full (findMinIndex hw.countPcUnit_pos fun j =>
      ((run cfg env t).processors j).queueSizeO)
    rw [none] at size
    exact absurd hw.queueSize_pos (not_lt.2 size)
  · rw [tries] at th; cases th
  · rw [tries] at th; cases th

omit comp in
/-- With more than `inputs + 1` processors the generator tries to send the neuron `x` `2 * x` edges
behind its first attempt. -/
lemma steady (comp : Computes cfg env i b u) (enough : (cfg.job i).inputs + 2 ≤ hw.countPcUnit)
    {x : Nat} (lt : x < cfg.dispatches i) :
    b + 2 + 2 * x < u ∧ (run cfg env (b + 2 + 2 * x)).generator.thread = .generate ∧
      (history cfg env (b + 2 + 2 * x)).dispatched = x := by
  induction x with
  | zero =>
    obtain ⟨-, idle, -, none⟩ := comp.first
    have before := comp.lt
    refine ⟨before, ?_⟩
    have next := comp.dispatched_succ (t := b + 1) (le_refl _) (by omega)
    rcases comp.moves (le_refl (b + 1)) (by omega) with ⟨-, -, th, quiet⟩ | ⟨-, all, -⟩ | ⟨th, -⟩ |
      ⟨th, -⟩ | ⟨th, -⟩ | ⟨th, -⟩
    · rw [none, quiet] at next
      exact ⟨th, next⟩
    · rw [none] at all
      exact absurd all lt.ne
    · rw [idle] at th; cases th
    · rw [idle] at th; cases th
    · rw [idle] at th; cases th
    · rw [idle] at th; cases th
  | succ x ih =>
    obtain ⟨hi, tries, count⟩ := ih (Nat.lt_of_succ_lt lt)
    obtain ⟨sent, word⟩ := attempt comp enough (by omega) hi tries
    have hi' := comp.goes_on (by omega) hi (by omega)
    have next := comp.dispatched_succ (t := b + 2 + 2 * x) (by omega) hi
    rw [count, word, if_pos rfl] at next
    have hi'' := comp.goes_on (t := b + 2 + 2 * x + 1) (by omega) hi' (by omega)
    have next' := comp.dispatched_succ (t := b + 2 + 2 * x + 1) (by omega) hi'
    rw [show b + 2 + 2 * (x + 1) = b + 2 + 2 * x + 1 + 1 by omega]
    refine ⟨hi'', ?_⟩
    rcases comp.moves (t := b + 2 + 2 * x + 1) (by omega) hi' with ⟨th, -⟩ | ⟨th, -⟩ | ⟨th, -⟩ |
      ⟨th, -⟩ | ⟨-, th, quiet⟩ | ⟨-, all, -⟩
    · rw [sent] at th; cases th
    · rw [sent] at th; cases th
    · rw [sent] at th; cases th
    · rw [sent] at th; cases th
    · rw [next, quiet] at next'
      exact ⟨th, next'⟩
    · omega

/-- The number of a neuron that is sent. -/
lemma sends_number {k : Fin hw.countPcUnit} {x t : Nat} (lo : b + 1 ≤ t) (hi : t < u)
    (sends : Sends (run cfg env t) i k x) : x + 1 = (history cfg env t).dispatched := by
  rw [← sends.neuron]
  exact (comp.layer lo hi).1.generator.word sends.word

omit comp in
/-- With more than `inputs + 1` processors the neuron `x` is sent `2 * x` edges behind the first one. -/
lemma sends_steady (comp : Computes cfg env i b u)
    (enough : (cfg.job i).inputs + 2 ≤ hw.countPcUnit) {x : Nat} (lt : x < cfg.dispatches i) :
    b + 3 + 2 * x < u ∧ ∃ k, Sends (run cfg env (b + 3 + 2 * x)) i k x := by
  obtain ⟨hi, tries, count⟩ := steady comp enough lt
  obtain ⟨-, word⟩ := attempt comp enough (by omega) hi tries
  have hi' := comp.goes_on (by omega) hi (by omega)
  have next := comp.dispatched_succ (t := b + 2 + 2 * x) (by omega) hi
  rw [count, word, if_pos rfl] at next
  obtain ⟨inv, wires⟩ := comp.layer (t := b + 2 + 2 * x + 1) (by omega) hi'
  obtain ⟨k, address, -⟩ := inv.room word
  have number := inv.generator.word word
  rw [show b + 3 + 2 * x = b + 2 + 2 * x + 1 by omega]
  exact ⟨hi', k, wires.layer, word, address, by omega⟩

omit comp in
/-- There is one edge for each neuron. -/
lemma sends_at (comp : Computes cfg env i b u) (enough : (cfg.job i).inputs + 2 ≤ hw.countPcUnit)
    {k : Fin hw.countPcUnit} {x t : Nat} (lo : b + 1 ≤ t) (hi : t < u)
    (sends : Sends (run cfg env t) i k x) : t = b + 3 + 2 * x := by
  have number := comp.sends_number lo hi sends
  have le := (comp.layer lo hi).1.generator.le
  obtain ⟨hi', l, sends'⟩ := sends_steady comp enough (x := x) (by omega)
  rcases Nat.lt_trichotomy t (b + 3 + 2 * x) with before | eq | behind
  · exact absurd (comp.sends_lt lo before hi' sends sends') (lt_irrefl x)
  · exact eq
  · exact absurd (comp.sends_lt (by omega) behind hi sends' sends) (lt_irrefl x)

omit comp in
/-- With more than `inputs + 1` processors a neuron is stored within two spans. -/
lemma response_le (comp : Computes cfg env i b u)
    (enough : (cfg.job i).inputs + 2 ≤ hw.countPcUnit) {k : Fin hw.countPcUnit} {x t : Nat}
    (lo : b + 1 ≤ t) (hi : t < u) (sends : Sends (run cfg env t) i k x) :
    response cfg env i k t ≤ 4 * (cfg.job i).inputs + 4 := by
  have before := comp.sends_before lo hi sends
  have came := (comp.sends_iff k x lo hi).1 sends
  obtain ⟨one, begun⟩ := comp.fresh enough lo hi t lo (le_refl t) k (by rw [came]; simp)
  have leaves := (comp.service k).response_fresh lo before (by unfold Processor.span; omega) one begun
  rw [comp.service_response k lo (by omega)] at leaves
  unfold Processor.span at leaves
  omega

omit comp in
/-- With more than `inputs + 1` processors the last neuron has its edge as well. -/
lemma last_steady (comp : Computes cfg env i b u)
    (enough : (cfg.job i).inputs + 2 ≤ hw.countPcUnit) {y : Nat}
    (eq : y = b + 1 + 2 * cfg.dispatches i) : y < u - 2 ∧ 0 < comp.pool.bus y ∧
      comp.pool.sent y = cfg.dispatches i ∧ ∀ x, y < x → x < u → comp.pool.bus x = 0 := by
  obtain ⟨v, lo, hi, word, sent, -, quiet⟩ := comp.last_job
  have sent' := sent
  rw [comp.sent_eq lo.le (by omega)] at sent'
  obtain ⟨inv, wires⟩ := comp.layer lo.le (by omega)
  have high : (run cfg env v).generator.wO = true := by
    by_contra low
    exact absurd word (by simp [pool, low])
  obtain ⟨k, address, -⟩ := inv.room high
  have number := inv.generator.word high
  have last := sends_at comp enough lo.le (by omega)
    (⟨wires.layer, high, address, rfl⟩ : Sends (run cfg env v) i k _)
  obtain rfl : y = v := by omega
  exact ⟨hi, word, sent, quiet⟩

omit comp in
/-- With more than `inputs + 1` processors the layer is done soon behind its last neuron. -/
lemma time_le (comp : Computes cfg env i b u) (enough : (cfg.job i).inputs + 2 ≤ hw.countPcUnit) :
    u - (b + 1) ≤ 2 * cfg.dispatches i + 4 * (cfg.job i).inputs + 7 := by
  obtain ⟨hi, word, sent, quiet⟩ := comp.last_steady enough rfl
  have some : 0 < cfg.dispatches i := Nat.lt_of_lt_of_le Nat.one_pos (Nat.le_max_right _ _)
  have ends := comp.ends_le (m := 4 * (cfg.job i).inputs + 4) (by omega) word sent quiet fun l => by
    have load := (comp.service l).load_fresh (t := b + 1 + 2 * cfg.dispatches i + 1) (by omega)
      (by omega) (by unfold Processor.span; omega) fun v from_ lt new =>
        comp.fresh enough from_ (by omega) v from_ (le_refl v) l new
    rw [comp.service_load l (by omega) (by omega)] at load
    unfold Processor.span at load
    omega
  omega

end Computes

omit [Binary32 F] [DecidableEq F] in
/-- Without a word for it a processor does what it does when the bus is quiet. -/
lemma addToQueue_other {p : Processor F} {queueSize k address data : Nat} {write : Bool}
    (other : ¬(address = k ∧ write = true)) :
    p.addToQueue queueSize k address data write = p.addToQueue queueSize k address data false := by
  have none : ¬(address = k ∧ write = true ∧ p.queueNnNumber.length < queueSize) :=
    fun push => other ⟨push.1, push.2.1⟩
  simp [Processor.addToQueue, none]

omit [DecidableEq F] in
/-- An idle processor counts no neuron. -/
lemma process_count {p : Processor F} (idle : p.thread.busy = false)
    (queueSize k address data : Nat) (w : ProcessorIn F) :
    ((p.addToQueue queueSize k address data false).process w).countNeuronsCalc =
      p.countNeuronsCalc := by
  unfold Processor.process
  cases ht : p.thread with
  | start | waitQueue => simp [Processor.addToQueue, ht]
  | inputAddr | inputWait | biasAddr | biasWait | store => simp [ht] at idle

/-- A processor that is sent no neuron rests. -/
lemma rests {k : Fin hw.countPcUnit}
    (none : ∀ t, ¬((run cfg env t).generator.addressO = k ∧ (run cfg env t).generator.wO = true))
    (t : Nat) : ProcIdle ((run cfg env t).processors k) ∧
      ((run cfg env t).processors k).countNeuronsCalc = 0 := by
  induction t with
  | zero =>
    rw [run, initialized_processor]
    exact ⟨⟨rfl, rfl, rfl, rfl, rfl⟩, rfl⟩
  | succ t ih =>
    obtain ⟨idle, count⟩ := ih
    change ProcIdle (((run cfg env t).edge cfg (env.sched t)).processors k) ∧
      (((run cfg env t).edge cfg (env.sched t)).processors k).countNeuronsCalc = 0
    cases st : (run cfg env t).stopped with
    | true =>
      rw [edge_stopped cfg (env.sched t) st]
      exact ⟨idle, count⟩
    | false =>
      rw [edge_processor cfg (env.sched t) st, addToQueue_other (none t)]
      refine ⟨idle.step _ _ _ _ _, ?_⟩
      rw [process_count idle.thread, count]

/-- **The processors a layer uses.** A layer with `inputs` inputs uses no more than its first
`inputs + 2` processors, however many there are and however long their queues are. A processor behind
the ones that the layers use never does anything. -/
theorem processors_used (env : Env hw F)
    (picture : cfg.layers.length ≤ 1 → ∀ x ∈ cfg.picture, ¬IsInfinite x) :
    (∀ t i k x, Sends (run cfg env t) i k x → (k : Nat) < (cfg.job i).inputs + 2) ∧
      ∀ k : Fin hw.countPcUnit, (∀ i < cfg.iterations, (cfg.job i).inputs + 2 ≤ k) → ∀ t,
        ProcIdle ((run cfg env t).processors k) ∧
          ((run cfg env t).processors k).countNeuronsCalc = 0 := by
  have finite := finite_results cfg picture
  constructor
  · intro t i k x sends
    obtain ⟨b, u, comp, lo, hi⟩ := computes_of_sends finite sends
    exact comp.sends_first lo hi sends
  · intro k behind
    refine rests fun t push => ?_
    obtain ⟨i, b, u, comp, lo, hi⟩ := computes_of_word finite push.2
    obtain ⟨-, wires⟩ := comp.layer lo hi
    have first := comp.sends_first lo hi
      (⟨wires.layer, push.2, push.1, rfl⟩ : Sends (run cfg env t) i k _)
    have valid := phaseAt_valid cfg env u
    rw [comp.ended] at valid
    exact absurd (behind i valid) (not_le.2 first)

/-- The small network uses three of the seven processors. -/
theorem processors_used_small :
    (∀ t i k x, Sends (run smallNetwork listedEnv t) i k x →
      (k : Nat) < (smallNetwork.job i).inputs + 2) ∧
      ∀ k : Fin Hw.configH.countPcUnit,
        (∀ i < smallNetwork.iterations, (smallNetwork.job i).inputs + 2 ≤ k) → ∀ t,
          ProcIdle ((run smallNetwork listedEnv t).processors k) ∧
            ((run smallNetwork listedEnv t).processors k).countNeuronsCalc = 0 :=
  processors_used listedEnv fun one => absurd one (by decide)

/-- **A layer with enough processors.** With at least `inputs + 2` processors `GENERATOR` sends a neuron
in every other edge, without ever finding all queues full; each is stored, by the processor it is sent
to, within `4 * inputs + 4` edges, and the computation of the layer takes two edges for each neuron
dispatched and between `2 * inputs + 6` and `4 * inputs + 7` more. Neither further processors nor longer
queues make a difference to this. -/
theorem saturated (env : Env hw F) (inside : cfg.Inside hw)
    (picture : cfg.layers.length ≤ 1 → ∀ x ∈ cfg.picture, ¬IsInfinite x) {i : Nat}
    (lt : i < cfg.iterations) (enough : cfg.layerSize i + 2 ≤ hw.countPcUnit) :
    ∃ a u, (∀ t, (run cfg env t).controller.thread = .settle i ↔ t = a) ∧
      (∀ t, (run cfg env t).controller.thread = .clear i ↔ t = u) ∧
      (∀ x < max (cfg.layerSize (i + 1)) 1, ∃ k, Sends (run cfg env (a + 2 + 2 * x)) i k x) ∧
      (∀ t k x, Sends (run cfg env t) i k x →
        x < max (cfg.layerSize (i + 1)) 1 ∧ t = a + 2 + 2 * x ∧
          ∃ v, t < v ∧ v ≤ t + 4 * cfg.layerSize i + 4 ∧ Stores cfg (run cfg env v) i k x) ∧
      a + 2 * max (cfg.layerSize (i + 1)) 1 + 2 * cfg.layerSize i + 6 ≤ u ∧
      u ≤ a + 2 * max (cfg.layerSize (i + 1)) 1 + 4 * cfg.layerSize i + 7 := by
  have finite := finite_results cfg picture
  obtain ⟨t, start⟩ := savePrev_reached finite env lt
  obtain ⟨-, pulse, -, -, u, -, clear, -⟩ := iteration_ends finite start
  have comp : Computes cfg env i (t + 2) u := ⟨finite, pulse, clear⟩
  rw [← inside.domain.inputs_eq i] at enough ⊢
  rw [← inside.domain.dispatches_eq i]
  have before := comp.lt
  have lower := comp.layerTime.dispatch
  have upper := comp.time_le enough
  refine ⟨t + 3, u, comp.threads.1, comp.threads.2, ?_, ?_, ?_, ?_⟩
  · intro x less
    exact (comp.sends_steady enough less).2
  · intro v k x sends
    obtain ⟨b, u', other, lo, hi⟩ := computes_of_sends finite sends
    obtain ⟨rfl, rfl⟩ := comp.unique other
    have number := comp.sends_number lo hi sends
    have le := (comp.layer lo hi).1.generator.le
    have bounds := comp.response_bounds lo hi sends
    have soon := comp.response_le enough lo hi sends
    have stores := (comp.stores_exact k x (by omega) (comp.stores_before lo hi sends)).2
      ⟨v, lo, hi, sends, rfl⟩
    unfold Processor.span at bounds
    exact ⟨by omega, comp.sends_at enough lo hi sends, _, by omega, by omega, stores⟩
  · omega
  · omega

/-- Three neurons with one input. -/
theorem saturated_three :
    ∃ a u, (∀ t, (run threeNeurons listedEnv t).controller.thread = .settle 0 ↔ t = a) ∧
      (∀ t, (run threeNeurons listedEnv t).controller.thread = .clear 0 ↔ t = u) ∧
      (∀ x < max (threeNeurons.layerSize 1) 1,
        ∃ k, Sends (run threeNeurons listedEnv (a + 2 + 2 * x)) 0 k x) ∧
      (∀ t k x, Sends (run threeNeurons listedEnv t) 0 k x →
        x < max (threeNeurons.layerSize 1) 1 ∧ t = a + 2 + 2 * x ∧
          ∃ v, t < v ∧ v ≤ t + 4 * threeNeurons.layerSize 0 + 4 ∧
            Stores threeNeurons (run threeNeurons listedEnv v) 0 k x) ∧
      a + 2 * max (threeNeurons.layerSize 1) 1 + 2 * threeNeurons.layerSize 0 + 6 ≤ u ∧
      u ≤ a + 2 * max (threeNeurons.layerSize 1) 1 + 4 * threeNeurons.layerSize 0 + 7 :=
  saturated listedEnv ⟨threeNeurons_bounded.domain, by decide, by decide⟩
    (fun one => absurd one (by decide)) (by decide) (by decide)

end NnProcessor.Correctness
