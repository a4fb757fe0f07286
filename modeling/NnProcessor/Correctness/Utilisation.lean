import NnProcessor.Correctness.Balance
import NnProcessor.Correctness.Saturation
import NnProcessor.Queueing.Feeder

/-!
# Processors that never rest

`GENERATOR` tries to send a neuron in every other edge, and prefers the processors with small numbers.
A neuron takes `2 * inputs + 3` edges, so `GENERATOR` is a `Feeder` for the processors numbered below
`inputs`: none of them waits long enough for a neuron to run out of work (`never_idle`).
-/

namespace NnProcessor.Correctness
open NnProcessor.Arith NnProcessor.Model NnProcessor.Edge NnProcessor.Invariant NnProcessor.Queueing

variable {hw : Hw} {F : Type} [Binary32 F] [DecidableEq F] {cfg : Config F} {env : Env hw F}

namespace Computes

variable {i b u : Nat} (comp : Computes cfg env i b u)
include comp

/-- In front of a dispatch neurons are left. -/
lemma left_over {l : Fin hw.countPcUnit} {y t w : Nat} (lo : b + 1 ≤ t) (lt : t < w) (hi : w < u)
    (last : Sends (run cfg env w) i l y) : (history cfg env t).dispatched < cfg.dispatches i := by
  obtain ⟨v, rfl⟩ : ∃ v, w = v + 1 := ⟨w - 1, by omega⟩
  have next := comp.dispatched_succ (t := v) (by omega) (by omega)
  rw [last.word, if_pos rfl] at next
  have mono := comp.pool.sent_mono (t := t) (u := v) (by omega)
  rw [comp.sent_eq lo (by omega), comp.sent_eq (by omega) (by omega)] at mono
  have le := (comp.layer (t := v + 1) (by omega) hi).1.generator.le
  omega

/-- In front of a dispatch the generator tries to send a neuron in every other edge. -/
lemma tries {l : Fin hw.countPcUnit} {y w : Nat} (hi : w < u) (last : Sends (run cfg env w) i l y)
    {c : Nat} (lt : b + 2 + 2 * c < w) : (run cfg env (b + 2 + 2 * c)).generator.thread = .generate := by
  induction c with
  | zero =>
    obtain ⟨-, idle, -, none⟩ := comp.first
    have more := comp.left_over (le_refl (b + 1)) (by omega) hi last
    rcases comp.moves (le_refl (b + 1)) (by omega) with ⟨-, -, th, -⟩ | ⟨-, all, -⟩ | ⟨th, -⟩ |
      ⟨th, -⟩ | ⟨th, -⟩ | ⟨th, -⟩
    · exact th
    · exact absurd all more.ne
    · rw [idle] at th; cases th
    · rw [idle] at th; cases th
    · rw [idle] at th; cases th
    · rw [idle] at th; cases th
  | succ c ih =>
    have before := ih (by omega)
    have done : (run cfg env (b + 2 + 2 * c + 1)).generator.thread = .dispatched := by
      rcases comp.moves (t := b + 2 + 2 * c) (by omega) (by omega) with ⟨th, -⟩ | ⟨th, -⟩ |
        ⟨-, th, -⟩ | ⟨-, th, -⟩ | ⟨th, -⟩ | ⟨th, -⟩
      · rw [before] at th; cases th
      · rw [before] at th; cases th
      · exact th
      · exact th
      · rw [before] at th; cases th
      · rw [before] at th; cases th
    have more := comp.left_over (t := b + 2 + 2 * c + 1) (by omega) (by omega) hi last
    rw [show b + 2 + 2 * (c + 1) = b + 2 + 2 * c + 1 + 1 by omega]
    rcases comp.moves (t := b + 2 + 2 * c + 1) (by omega) (by omega) with ⟨th, -⟩ | ⟨th, -⟩ |
      ⟨th, -⟩ | ⟨th, -⟩ | ⟨-, th, -⟩ | ⟨-, all, -⟩
    · rw [done] at th; cases th
    · rw [done] at th; cases th
    · rw [done] at th; cases th
    · rw [done] at th; cases th
    · exact th
    · exact absurd all more.ne

/-- A neuron is sent in the edge behind an attempt. -/
lemma sends_round {k l : Fin hw.countPcUnit} {x y t w : Nat} (lo : b + 1 ≤ t) (lt : t < w) (hi : w < u)
    (sends : Sends (run cfg env t) i k x) (last : Sends (run cfg env w) i l y) :
    ∃ c, t = b + 2 + 2 * c + 1 := by
  obtain ⟨v, rfl, behind⟩ := comp.sends_behind lo sends
  by_contra odd
  obtain ⟨c, time⟩ : ∃ c, v + 1 = b + 2 + 2 * c := by
    refine ⟨(v + 1 - (b + 2)) / 2, ?_⟩
    by_contra even
    exact odd ⟨(v + 1 - (b + 2)) / 2, by omega⟩
  rw [time] at lt sends
  have quiet := (comp.layer (t := b + 2 + 2 * c) (by omega) (by omega)).1.generator.quiet
    (by rw [comp.tries hi last lt]; simp)
  rw [sends.word] at quiet
  cases quiet

/-- If there is a processor with an empty queue, an attempt sends a neuron to the first of them. -/
lemma sends_hungry {t : Nat} (lo : b + 1 ≤ t) (hi : t + 1 < u)
    (tries : (run cfg env t).generator.thread = .generate) {l : Fin hw.countPcUnit}
    (hungry : ((run cfg env t).processors l).queueSizeO = 0) :
    ∃ k ≤ l, ((run cfg env t).processors k).queueSizeO = 0 ∧ ∃ x, Sends (run cfg env (t + 1)) i k x := by
  have word : (run cfg env (t + 1)).generator.wO = true := by
    rcases comp.moves lo (by omega) with ⟨th, -⟩ | ⟨th, -⟩ | ⟨-, -, word⟩ | ⟨-, -, -, full⟩ | ⟨th, -⟩ |
      ⟨th, -⟩
    · rw [tries] at th; cases th
    · rw [tries] at th; cases th
    · exact word
    · have size := full l
      rw [hungry] at size
      exact absurd hw.queueSize_pos (not_lt.2 size)
    · rw [tries] at th; cases th
    · rw [tries] at th; cases th
  obtain ⟨inv, wires⟩ := comp.layer (t := t + 1) (by omega) hi
  obtain ⟨k, address, -⟩ := inv.room word
  have sends : Sends (run cfg env (t + 1)) i k _ := ⟨wires.layer, word, address, rfl⟩
  obtain ⟨choice, -⟩ := comp.sends_choice lo hi sends
  refine ⟨k, ?_, ?_, _, sends⟩
  · by_contra behind
    have lt := not_le.1 behind
    rw [choice] at lt
    have least := findMinIndex_lt hw.countPcUnit_pos
      (fun j => ((run cfg env t).processors j).queueSizeO) lt
    rw [hungry] at least
    exact absurd least (Nat.not_lt_zero _)
  · have least := findMinIndex_le hw.countPcUnit_pos
      (fun j => ((run cfg env t).processors j).queueSizeO) l
    rw [← choice, hungry] at least
    exact Nat.le_zero.1 least

/-- A processor that has been sent a neuron is not waiting for one two edges later. -/
lemma size_sent {k : Fin hw.countPcUnit} {x t : Nat} (lo : b + 1 ≤ t) (hi : t < u)
    (sends : Sends (run cfg env t) i k x) : ((run cfg env (t + 1)).processors k).queueSizeO ≠ 0 := by
  rw [comp.size_succ k lo hi, (comp.sends_iff k x lo hi).1 sends]
  simp

/-- Between two edges in which the queue of a processor runs empty a neuron is computed. -/
lemma apart {k : Fin hw.countPcUnit} {t v : Nat} (lo : b + 2 ≤ t) (lt : t < v) (hi : v + 1 < u)
    (some : ((run cfg env t).processors k).queueSizeO ≠ 0)
    (none : ((run cfg env (t + 1)).processors k).queueSizeO = 0)
    (some' : ((run cfg env v).processors k).queueSizeO ≠ 0)
    (none' : ((run cfg env (v + 1)).processors k).queueSizeO = 0) :
    t + Processor.span (cfg.job i) ≤ v := by
  have taken : ∀ {t}, b + 2 ≤ t → t + 1 < u → ((run cfg env t).processors k).queueSizeO ≠ 0 →
      ((run cfg env (t + 1)).processors k).queueSizeO = 0 →
      ((comp.service k).line (t - 1)).left ≤ 1 ∧
        ((comp.service k).line (t + 1)).left + 1 = Processor.span (cfg.job i) := by
    intro t lo hi some none
    obtain ⟨s, rfl⟩ : ∃ s, t = s + 1 := ⟨t - 1, by omega⟩
    rw [comp.size_succ k (by omega) (by omega), ne_eq, List.length_eq_zero_iff] at some
    rw [comp.size_succ k (by omega) (by omega), List.length_eq_zero_iff] at none
    exact (comp.service k).taken (by omega) (by omega) (by unfold Processor.span; omega) some none
  obtain ⟨-, full⟩ := taken lo (by omega) some none
  obtain ⟨done, -⟩ := taken (by omega) hi some' none'
  have behind : t + 2 ≤ v := by
    by_contra next
    obtain rfl : v = t + 1 := by omega
    exact some' none
  have pass := (comp.service k).left_le (t := t + 1) (d := v - 1 - (t + 1)) (by omega) (by omega)
  rw [show t + 1 + (v - 1 - (t + 1)) = v - 1 by omega] at pass
  omega

/-- The attempts in front of the dispatch in the edge `w`. -/
def feeder {l : Fin hw.countPcUnit} {y w : Nat} (hi : w < u) (last : Sends (run cfg env w) i l y) :
    Feeder (Fin hw.countPcUnit) (cfg.job i).inputs ((w - (b + 1)) / 2) where
  hungry c k := ((run cfg env (b + 2 + 2 * c)).processors k).queueSizeO = 0
  fed c k := ∃ x, Sends (run cfg env (b + 2 + 2 * c + 1)) i k x
  first c lt k hungry :=
    comp.sends_hungry (by omega) (by omega) (comp.tries hi last (by omega)) hungry
  only c _ k k' := by
    rintro ⟨x, sends⟩ ⟨x', sends'⟩
    exact Fin.ext (sends.address.symm.trans sends'.address)
  sated c lt k := by
    rintro ⟨x, sends⟩
    exact comp.size_sent (t := b + 2 + 2 * c + 1) (by omega) (by omega) sends
  rest k s s' lt near off on off' on' := by
    have change : ∀ {c}, ¬((run cfg env (b + 2 + 2 * c)).processors k).queueSizeO = 0 →
        ((run cfg env (b + 2 + 2 * (c + 1))).processors k).queueSizeO = 0 →
        ∃ t, b + 2 + 2 * c ≤ t ∧ t < b + 2 + 2 * (c + 1) ∧
          ((run cfg env t).processors k).queueSizeO ≠ 0 ∧
          ((run cfg env (t + 1)).processors k).queueSizeO = 0 := fun off on =>
      exists_change (P := fun t => ((run cfg env t).processors k).queueSizeO = 0) (by omega) off on
    obtain ⟨t, from_, to_, some, none⟩ := change off on
    obtain ⟨v, from', to', some', none'⟩ := change off' on'
    have apart := comp.apart (by omega) (by omega) (by omega) some none some' none'
    unfold Processor.span at apart
    omega

/-- A processor that is left without a neuron has got none for a whole span, in which the neuron it
works at has been its only one. -/
lemma ran_out {k : Fin hw.countPcUnit} {v : Nat} (lo : b + 1 ≤ v) (hi : v + 1 < u)
    (some : ((comp.service k).line v).jobs ≠ []) (idle : ((comp.service k).line (v + 1)).jobs = []) :
    ∀ d < Processor.span (cfg.job i), b + 1 + d < v ∧
      ((comp.service k).line (v - d)).jobs.tail ++ (comp.service k).arrive (v - d) = [] := by
  have valid := (comp.service k).valid (t := v) lo (by omega)
  have pos : ((comp.service k).line v).left ≠ 0 := fun zero => some (valid.empty.1 zero)
  rw [(comp.service k).step v lo (by omega)] at idle
  have one : ((comp.service k).line v).left = 1 := by
    by_contra more
    rw [Line.step_of_lt (by omega)] at idle
    exact some (List.append_eq_nil_iff.1 idle).1
  rw [Line.step_of_le one.le] at idle
  intro d less
  obtain ⟨before, -, none⟩ := (comp.service k).alone lo (by omega) one idle less
  exact ⟨before, none⟩

/-- A processor numbered below `inputs` has a neuron from its first one to the last dispatch. -/
lemma occupied {k l : Fin hw.countPcUnit} {x y t v w : Nat} (below : (k : Nat) < (cfg.job i).inputs)
    (lo : b + 1 ≤ t) (hi : w < u) (sends : Sends (run cfg env t) i k x)
    (last : Sends (run cfg env w) i l y) (from_ : t < v) (to_ : v < w) :
    ((comp.service k).line v).jobs ≠ [] := by
  have came := (comp.sends_iff k x lo (by omega)).1 sends
  have before := comp.sends_before (by omega) hi last
  induction v, from_ using Nat.le_induction with
  | base =>
    obtain ⟨kept, jobs⟩ := ((comp.service k).line t).step_jobs (Processor.span (cfg.job i))
      ((comp.service k).arrive t)
    rw [← (comp.service k).step t lo (by omega), came] at jobs
    rw [jobs]
    exact List.append_ne_nil_of_right_ne_nil _ (List.cons_ne_nil x [])
  | succ v lt ih =>
    intro idle
    have alone := comp.ran_out (by omega) (by omega) (ih (by omega)) idle
    -- its registered queue is empty in all attempts of that span, and none of them serves it
    have hungry : ∀ e, v < e + 2 * (cfg.job i).inputs + 2 → e ≤ v + 1 → b + 1 < e →
        ((run cfg env e).processors k).queueSizeO = 0 := by
      intro e near le behind
      obtain ⟨-, none⟩ := alone (v + 1 - e) (by unfold Processor.span; omega)
      rw [show v - (v + 1 - e) = e - 1 by omega] at none
      obtain ⟨s, rfl⟩ : ∃ s, e = s + 1 := ⟨e - 1, by omega⟩
      rw [comp.size_succ k (by omega) (by omega)]
      exact List.length_eq_zero_iff.2 none
    have unfed : ∀ e, v ≤ e + 2 * (cfg.job i).inputs + 2 → e ≤ v →
        (comp.service k).arrive e = [] := by
      intro e near le
      obtain ⟨-, none⟩ := alone (v - e) (by unfold Processor.span; omega)
      rw [show v - (v - e) = e by omega] at none
      exact (List.append_eq_nil_iff.1 none).2
    have early : t + 2 * (cfg.job i).inputs + 2 < v := by
      by_contra late
      rw [unfed t (by omega) (by omega)] at came
      cases came
    obtain ⟨c, rfl⟩ := comp.sends_round lo (by omega) hi sends last
    obtain ⟨d, near, far⟩ : ∃ d, b + 2 + 2 * d + 2 * (cfg.job i).inputs + 2 ≤ v ∧
        v ≤ b + 2 + 2 * d + 2 * (cfg.job i).inputs + 3 :=
      ⟨(v - (b + 4 + 2 * (cfg.job i).inputs)) / 2, by omega, by omega⟩
    obtain ⟨e, behind, soon, z, fed⟩ := (comp.feeder hi last).fed_soon (c := c) (d := d)
      (by rw [Fin.card_Iic]; omega) ⟨x, sends⟩ (by omega) (by omega)
      fun e behind soon => hungry _ (by omega) (by omega) (by omega)
    have none := unfed (b + 2 + 2 * e + 1) (by omega) (by omega)
    rw [(comp.sends_iff k z (by omega) (by omega)).1 fed] at none
    cases none

/-- In front of its first neuron a processor has nothing to do. -/
lemma waits {k : Fin hw.countPcUnit} {t : Nat} (lo : b + 1 ≤ t) (hi : t < u)
    (none : ∀ v < t, ∀ z, ¬Sends (run cfg env v) i k z) :
    (comp.service k).line t = ⟨[], 0⟩ := by
  obtain ⟨before, -⟩ := comp.shown
  induction t, lo using Nat.le_induction with
  | base => exact (comp.service k).start
  | succ t le ih =>
    have quiet : (comp.service k).arrive t = [] := by
      cases new : (comp.service k).arrive t with
      | nil => rfl
      | cons x rest =>
        have one := (comp.service k).one t
        rw [new] at one
        obtain rfl : rest = [] := List.length_eq_zero_iff.1 (Nat.le_zero.1 (Nat.le_of_succ_le_succ one))
        exact absurd ((comp.sends_iff k x le (by omega)).2 new) (none t (Nat.lt_succ_self t) x)
    rw [(comp.service k).step t le (by omega), ih (by omega) fun v lt => none v (by omega), quiet]
    rfl

/-- A processor has a neuron if it works. -/
lemma working_iff (k : Fin hw.countPcUnit) {t : Nat} (lo : b + 1 ≤ t) (hi : t < u) :
    ((run cfg env t).processors k).isWorking = true ↔ ((comp.service k).line t).jobs ≠ [] := by
  have inv := (comp.layer lo hi).1.processor k
  change _ ↔ (((run cfg env t).processors k).line (cfg.job i)).jobs ≠ []
  rw [inv.working]
  cases busy : ((run cfg env t).processors k).thread.busy with
  | false => simp [inv.line_idle busy]
  | true => simp [Processor.line_busy busy]

/-- A result is on the write port in the last edge of a neuron. -/
lemma write_iff (k : Fin hw.countPcUnit) {t : Nat} (lo : b + 1 ≤ t) (hi : t < u) :
    ((run cfg env t).processors k).resmemWO = true ↔ ((comp.service k).line t).left = 1 := by
  have inv := (comp.layer lo hi).1.processor k
  change _ ↔ ((run cfg env t).processors k).left (cfg.job i) = 1
  rw [inv.write, decide_eq_true_iff]
  unfold Processor.left
  cases ((run cfg env t).processors k).thread with
  | start | waitQueue | inputAddr | inputWait | biasAddr | biasWait => simp
  | store => simp

end Computes

/-- **The first processors never rest.** From its first neuron of a layer to the last dispatch of the
layer a processor numbered below `inputs` works without a break, and stores a neuron in every edge
whose distance to the first dispatch is a multiple of `2 * inputs + 3`, and in no other one. -/
theorem never_idle (env : Env hw F) (inside : cfg.Inside hw)
    (picture : cfg.layers.length ≤ 1 → ∀ x ∈ cfg.picture, ¬IsInfinite x) {i t w x y : Nat}
    {k l : Fin hw.countPcUnit} (below : (k : Nat) < cfg.layerSize i)
    (first : Sends (run cfg env t) i k x) (none : ∀ v < t, ∀ z, ¬Sends (run cfg env v) i k z)
    (last : Sends (run cfg env w) i l y) :
    ∀ v, t < v → v < w → ((run cfg env v).processors k).isWorking = true ∧
      (((run cfg env v).processors k).resmemWO = true ↔ 2 * cfg.layerSize i + 3 ∣ v - t) := by
  have finite := finite_results cfg picture
  rw [← inside.domain.inputs_eq] at below ⊢
  obtain ⟨b, u, comp, lo, hi⟩ := computes_of_sends finite first
  obtain ⟨b', u', comp', lo', hi'⟩ := computes_of_sends finite last
  obtain ⟨rfl, rfl⟩ := comp.unique comp'
  intro v from_ to_
  have before := comp.sends_before lo' hi' last
  have some : ∀ v, t < v → v < w → ((comp.service k).line v).jobs ≠ [] := fun v from_ to_ =>
    comp.occupied below lo hi' first last from_ to_
  refine ⟨(comp.working_iff k (by omega) (by omega)).2 (some v from_ to_), ?_⟩
  have full : ((comp.service k).line (t + 1)).left = Processor.span (cfg.job i) := by
    rw [(comp.service k).step t lo (by omega), comp.waits lo hi none,
      (comp.sends_iff k x lo hi).1 first, Line.step_of_le (Nat.zero_le 1)]
    rfl
  obtain ⟨d, rfl⟩ : ∃ d, v = t + 1 + d := ⟨v - (t + 1), by omega⟩
  rw [comp.write_iff k (by omega) (by omega), (comp.service k).last_iff (by omega) (by omega) full
    fun e le => some (t + 1 + e) (by omega) (by omega), show t + 1 + d - t = d + 1 by omega]
  rfl

/-- The processor 0 works in front of the edge 14, between the first and the last dispatch of the three
neurons. -/
theorem never_idle_three :
    ((run threeNeurons listedEnv 14).processors ⟨0, Hw.configH.countPcUnit_pos⟩).isWorking = true ∧
      (((run threeNeurons listedEnv 14).processors ⟨0, Hw.configH.countPcUnit_pos⟩).resmemWO = true ↔
        2 * threeNeurons.layerSize 0 + 3 ∣ 14 - 12) := by
  have first : Sends (run threeNeurons listedEnv 12) 0 ⟨0, Hw.configH.countPcUnit_pos⟩ 0 := by
    constructor <;> decide +kernel
  have last : Sends (run threeNeurons listedEnv 16) 0 ⟨0, Hw.configH.countPcUnit_pos⟩ 2 := by
    constructor <;> decide +kernel
  have quiet : ∀ v < 12, (run threeNeurons listedEnv v).generator.wO = false := by decide +kernel
  refine never_idle listedEnv ⟨threeNeurons_bounded.domain, by decide, by decide⟩
    (fun one => absurd one (by decide)) (by decide) first ?_ last 14 (by decide) (by decide)
  intro v lt z sends
  exact Bool.noConfusion ((quiet v lt).symm.trans sends.word)

end NnProcessor.Correctness
