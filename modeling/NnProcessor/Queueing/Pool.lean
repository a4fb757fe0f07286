import Mathlib.Tactic

/-!
# A pool of servers behind a dispatcher

A dispatcher sends jobs to servers over a bus; a job is on the bus for one step and then keeps its
server busy for `span` steps. `Pool` is a stretch of such a run from the time `a` to the time `b`;
nothing is known about which server gets a job, or when. Every step of a server is accounted for by
the jobs that have been sent (`Pool.account`), so the steps in which some server idles bound the
time from above (`Pool.elapsed_le`), and behind the last job the servers are done one after the
other (`Pool.drain`).
-/

namespace NnProcessor.Queueing

/-- A run of the servers `ι` from the time `a`, at which they have nothing to do, to the time `b`.
The load of a server are the steps for which it will be busy. -/
structure Pool (ι : Type*) [Fintype ι] (span a b : ℕ) where
  load : ι → ℕ → ℕ
  busy : ι → ℕ → ℕ
  arrive : ι → ℕ → ℕ
  bus : ℕ → ℕ
  busy_le : ∀ k t, busy k t ≤ 1
  busy_le_load : ∀ k t, busy k t ≤ load k t
  start : ∀ k, load k a = 0
  silent : bus a = 0
  idle : ∀ k t, a ≤ t → t < b → busy k t = 0 → load k t = 0
  arrives : ∀ t, a ≤ t → t < b → ∑ k, arrive k t = bus t
  step : ∀ k t, a ≤ t → t < b → load k (t + 1) + busy k t = load k t + span * arrive k t

namespace Pool

variable {ι : Type*} [Fintype ι] {span a b : ℕ} (pool : Pool ι span a b)

/-- The jobs sent up to the time `t`. -/
def sent (t : ℕ) : ℕ := ∑ x ∈ Finset.Ioc a t, pool.bus x

/-- The load of all servers and of the job on the bus. -/
def total (t : ℕ) : ℕ := ∑ k, pool.load k t + span * pool.bus t

/-- The servers that are busy. -/
def working (t : ℕ) : ℕ := ∑ k, pool.busy k t

/-- The steps in front of `t` in which some server idles. -/
def wasted (t : ℕ) : ℕ :=
  ((Finset.Ico a t).filter fun x => pool.working x < Fintype.card ι).card

/-- No more servers work than there are. -/
lemma working_le (t : ℕ) : pool.working t ≤ Fintype.card ι := by
  calc pool.working t ≤ ∑ _k : ι, 1 := Finset.sum_le_sum fun k _ => pool.busy_le k t
    _ = Fintype.card ι := by simp

/-- What is sent grows by the word on the bus. -/
lemma sent_succ {t : ℕ} (le : a ≤ t) : pool.sent (t + 1) = pool.sent t + pool.bus (t + 1) := by
  exact Finset.sum_Ioc_succ_top le _

/-- What is sent never becomes less. -/
lemma sent_mono {t u : ℕ} (le : t ≤ u) : pool.sent t ≤ pool.sent u :=
  Finset.sum_le_sum_of_subset (Finset.Ioc_subset_Ioc_right le)

/-- One step of all servers. -/
lemma total_step {t : ℕ} (le : a ≤ t) (lt : t < b) :
    pool.total (t + 1) + pool.working t = pool.total t + span * pool.bus (t + 1) := by
  have each := Finset.sum_congr rfl fun k (_ : k ∈ Finset.univ) => pool.step k t le lt
  rw [Finset.sum_add_distrib, Finset.sum_add_distrib, ← Finset.mul_sum,
    pool.arrives t le lt] at each
  unfold total working
  omega

/-- The jobs that have been sent are what the servers have done and what they still have to do. -/
theorem account {t : ℕ} (le : a ≤ t) (le' : t ≤ b) :
    pool.total t + ∑ x ∈ Finset.Ico a t, pool.working x = span * pool.sent t := by
  induction t, le using Nat.le_induction with
  | base => simp [total, sent, pool.start, pool.silent]
  | succ t le ih =>
    have before := ih (Nat.le_of_succ_le le')
    have step := pool.total_step le le'
    rw [Finset.sum_Ico_succ_top le, pool.sent_succ le, Nat.mul_add, ← before]
    omega

/-- The work in the pool is that of the jobs sent, at most. -/
lemma total_le {t : ℕ} (le : a ≤ t) (le' : t ≤ b) : pool.total t ≤ span * pool.sent t :=
  le_of_le_of_eq (Nat.le_add_right _ _) (pool.account le le')

/-- The jobs bound the time, but for the steps in which some server idles. -/
theorem elapsed_le {t : ℕ} (le : a ≤ t) (le' : t ≤ b) :
    Fintype.card ι * (t - a) + pool.total t ≤
      Fintype.card ι * pool.wasted t + span * pool.sent t := by
  have full : ∀ x, Fintype.card ι ≤ pool.working x +
      if pool.working x < Fintype.card ι then Fintype.card ι else 0 := by
    intro x
    split <;> omega
  have sum := Finset.sum_le_sum fun x (_ : x ∈ Finset.Ico a t) => full x
  rw [Finset.sum_add_distrib, ← Finset.sum_filter, Finset.sum_const, Finset.sum_const,
    Nat.card_Ico, smul_eq_mul, smul_eq_mul] at sum
  have acc := pool.account le le'
  unfold wasted
  rw [Nat.mul_comm, Nat.mul_comm (Fintype.card ι)]
  omega

/-- With a last server that still works for `m` steps behind the time `t`, the other servers share
the rest of the jobs. -/
theorem makespan_le {t m : ℕ} (le : a ≤ t) (le' : t ≤ b) (tail : m ≤ pool.total t) :
    Fintype.card ι * (t - a + m) ≤
      Fintype.card ι * pool.wasted t + span * pool.sent t + (Fintype.card ι - 1) * m := by
  have elapsed := pool.elapsed_le le le'
  rw [Nat.mul_add]
  generalize Fintype.card ι = servers at elapsed ⊢
  cases servers with
  | zero => simp
  | succ n =>
    rw [Nat.add_sub_cancel, Nat.add_mul n 1 m, Nat.one_mul]
    omega

/-- No more than `n` servers work in a step. -/
lemma worked_le {t u : ℕ} :
    ∑ x ∈ Finset.Ico t u, pool.working x ≤ Fintype.card ι * (u - t) := by
  have sum := Finset.sum_le_sum fun x (_ : x ∈ Finset.Ico t u) => pool.working_le x
  rwa [Finset.sum_const, Nat.card_Ico, smul_eq_mul, Nat.mul_comm] at sum

/-- No server works before it has got a job. -/
lemma working_eq_zero {t : ℕ} (le : a ≤ t) (le' : t ≤ b)
    (none : ∀ x, a < x → x < t → pool.bus x = 0) : pool.working t = 0 := by
  have load : ∑ k, pool.load k t = 0 := by
    rcases Nat.eq_or_lt_of_le le with rfl | lt
    · exact Finset.sum_eq_zero fun k _ => pool.start k
    · have total := pool.total_le le le'
      obtain ⟨s, rfl⟩ : ∃ s, t = s + 1 := ⟨t - 1, by omega⟩
      have before : pool.sent s = 0 := Finset.sum_eq_zero fun x mem => by
        obtain ⟨lo, hi⟩ := Finset.mem_Ioc.1 mem
        exact none x lo (Nat.lt_succ_of_le hi)
      rw [pool.sent_succ (Nat.le_of_lt_succ lt), before, Nat.zero_add] at total
      unfold Pool.total at total
      omega
  exact Nat.le_zero.1 (le_of_le_of_eq (Finset.sum_le_sum fun k _ => pool.busy_le_load k t) load)

/-- When all jobs are done, the servers have been busy with them since the first one. -/
theorem work_le {c t : ℕ} (le : a ≤ c) (le' : c ≤ t) (lt : t ≤ b) (done : pool.total t = 0)
    (before : ∀ x, a ≤ x → x < c → pool.working x = 0) :
    span * pool.sent t ≤ Fintype.card ι * (t - c) := by
  have acc := pool.account (le.trans le') lt
  have none : ∑ x ∈ Finset.Ico a c, pool.working x = 0 := Finset.sum_eq_zero fun x mem =>
    before x (Finset.mem_Ico.1 mem).1 (Finset.mem_Ico.1 mem).2
  rw [done, Nat.zero_add, ← Finset.sum_Ico_consecutive _ le le', none, Nat.zero_add] at acc
  rw [← acc]
  exact pool.worked_le

/-- If a server idles only in the first step and in the steps in front of and behind a dispatch, two
steps are wasted for each job. -/
theorem wasted_le {y : ℕ} (le : a ≤ y) (last : 0 < pool.bus y)
    (attempts : ∀ x, a ≤ x → x < y → pool.working x < Fintype.card ι →
      x = a ∨ 0 < pool.bus x ∨ 0 < pool.bus (x + 1)) : pool.wasted y ≤ 2 * pool.sent y := by
  have each : ∀ x ∈ Finset.Ico a y, (if pool.working x < Fintype.card ι then 1 else 0) ≤
      (if x = a then 1 else 0) + (pool.bus x + pool.bus (x + 1)) := by
    intro x mem
    obtain ⟨h1, h2⟩ := Finset.mem_Ico.1 mem
    split
    · next idles =>
      rcases attempts x h1 h2 idles with rfl | now | next
      · simp
      · omega
      · omega
    · exact Nat.zero_le _
  have sum := Finset.sum_le_sum each
  have first : ∑ x ∈ Finset.Ico a y, (if x = a then 1 else 0) ≤ 1 := by
    rw [Finset.sum_ite_eq']
    split <;> decide
  have next : ∑ x ∈ Finset.Ico a y, pool.bus (x + 1) = pool.sent y := by
    rw [Finset.sum_Ico_add' pool.bus a y 1, sent]
    exact Finset.sum_congr (by ext x; simp only [Finset.mem_Ico, Finset.mem_Ioc]; omega) fun _ _ => rfl
  have now : ∑ x ∈ Finset.Ico a y, pool.bus x + pool.bus y = pool.sent y := by
    rw [← Finset.sum_Ico_succ_top le, Finset.sum_eq_sum_Ico_succ_bot (Nat.lt_succ_of_le le),
      pool.silent, Nat.zero_add, sent]
    exact Finset.sum_congr (by ext x; simp only [Finset.mem_Ico, Finset.mem_Ioc]; omega) fun _ _ => rfl
  rw [Finset.sum_add_distrib, Finset.sum_add_distrib, next, ← Finset.card_filter] at sum
  unfold wasted
  omega

/-- What a server is loaded with has been on the bus or with it before. -/
lemma load_succ_le {t : ℕ} (le : a ≤ t) (lt : t < b) (k : ι) :
    pool.load k (t + 1) ≤ pool.total t := by
  have step := pool.step k t le lt
  have own := Finset.single_le_sum (f := fun k => pool.load k t) (fun _ _ => Nat.zero_le _)
    (Finset.mem_univ k)
  have got := Finset.single_le_sum (f := fun k => pool.arrive k t) (fun _ _ => Nat.zero_le _)
    (Finset.mem_univ k)
  rw [pool.arrives t le lt] at got
  have more := Nat.mul_le_mul_left span got
  unfold total
  omega

/-- Behind the last job every server works until it is done. -/
theorem drain {y : ℕ} (le : a ≤ y) (quiet : ∀ x, y < x → x < b → pool.bus x = 0) (k : ι) {j : ℕ}
    (le' : y + 1 + j ≤ b) : pool.load k (y + 1 + j) = pool.load k (y + 1) - j := by
  induction j with
  | zero => rfl
  | succ j ih =>
    have lt : y + 1 + j < b := le'
    have step := pool.step k (y + 1 + j) (by omega) lt
    have got := Finset.single_le_sum (f := fun k => pool.arrive k (y + 1 + j))
      (fun _ _ => Nat.zero_le _) (Finset.mem_univ k)
    rw [pool.arrives _ (by omega) lt, quiet _ (by omega) lt] at got
    have none : pool.arrive k (y + 1 + j) = 0 := Nat.le_zero.1 got
    have before := ih lt.le
    have one := pool.busy_le k (y + 1 + j)
    rw [none, Nat.mul_zero] at step
    rw [← Nat.add_assoc]
    rcases Nat.eq_zero_or_pos (pool.busy k (y + 1 + j)) with rest | works
    · have zero := pool.idle k _ (by omega) lt rest
      omega
    · omega

end Pool

end NnProcessor.Queueing
