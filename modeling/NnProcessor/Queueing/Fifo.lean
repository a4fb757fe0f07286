import Mathlib.Tactic

/-!
# A server with a queue

A server takes its jobs in the order in which they arrive, and every job takes `span` steps. `Line` is
the state of such a server and `Line.step` its step; `Service` is a stretch of a run that begins with
nothing to do. When a job arrives it is already decided when it leaves (`Service.leaves`), every job
that leaves has arrived (`Service.came`), and no job overtakes another one (`Service.order`).
-/

namespace NnProcessor.Queueing

/-- The jobs at a server, the one being served in front, and the steps that one still takes. -/
@[ext] structure Line (α : Type*) where
  jobs : List α
  left : ℕ

namespace Line

variable {α : Type*} {span : ℕ}

/-- One step of a server that gets the jobs `new`. In its last step a job leaves, and the server takes
the next one. -/
def step (span : ℕ) (l : Line α) (new : List α) : Line α :=
  if l.left ≤ 1 then
    { jobs := l.jobs.tail ++ new, left := if l.jobs.tail ++ new = [] then 0 else span }
  else { jobs := l.jobs ++ new, left := l.left - 1 }

/-- The job in its last step. -/
def leaving (l : Line α) : Option α := if l.left = 1 then l.jobs.head? else none

/-- The steps until the server has nothing to do. -/
def load (span : ℕ) (l : Line α) : ℕ := l.left + span * (l.jobs.length - 1)

/-- A server serves a job as long as it has one, and none for more than `span` steps. -/
structure Valid (span : ℕ) (l : Line α) : Prop where
  empty : l.left = 0 ↔ l.jobs = []
  le : l.left ≤ span

/-- In its last edge a job leaves, and the next one starts. -/
lemma step_of_le {l : Line α} (le : l.left ≤ 1) (new : List α) :
    l.step span new =
      ⟨l.jobs.tail ++ new, if l.jobs.tail ++ new = [] then 0 else span⟩ := if_pos le

/-- A job that is not at its end is served one edge more. -/
lemma step_of_lt {l : Line α} (lt : 1 < l.left) (new : List α) :
    l.step span new = ⟨l.jobs ++ new, l.left - 1⟩ := if_neg (not_le.2 lt)

/-- A step keeps a server valid. -/
lemma Valid.step {l : Line α} (valid : l.Valid span) (pos : 0 < span) (new : List α) :
    (l.step span new).Valid span := by
  cases Nat.lt_or_ge 1 l.left with
  | inl lt =>
    have jobs : l.jobs ≠ [] := fun none => by
      have zero := valid.empty.2 none
      omega
    rw [step_of_lt lt]
    constructor
    · simp [jobs]
      omega
    · exact (Nat.sub_le _ _).trans valid.le
  | inr ge =>
    rw [step_of_le ge]
    constructor
    · simp only
      split
      · next none => simp [none]
      · next some => simp [some, pos.ne']
    · simp only
      split
      · exact Nat.zero_le _
      · exact le_refl _

/-- With no new job a server with one job is in the middle of it, or done. -/
lemma Valid.step_quiet {l : Line α} (valid : l.Valid span) (pos : 0 < span)
    (one : l.jobs.length ≤ 1) :
    (l.step span []).jobs.length ≤ 1 ∧ (l.step span []).left < span := by
  have le := valid.le
  cases Nat.lt_or_ge 1 l.left with
  | inl lt =>
    rw [step_of_lt lt, List.append_nil]
    exact ⟨one, Nat.lt_of_lt_of_le (Nat.sub_lt (by omega) Nat.one_pos) le⟩
  | inr ge =>
    have none : l.jobs.tail ++ [] = [] := by
      rw [List.append_nil, ← List.length_eq_zero_iff, List.length_tail]
      omega
    rw [step_of_le ge, none, if_pos rfl]
    exact ⟨Nat.zero_le 1, pos⟩

/-- In one step no more than one step of a job is done. -/
lemma left_step (span : ℕ) (l : Line α) (new : List α) : l.left ≤ (l.step span new).left + 1 := by
  cases Nat.lt_or_ge 1 l.left with
  | inl lt =>
    rw [step_of_lt lt]
    exact Nat.le_add_of_sub_le (le_refl _)
  | inr ge => exact ge.trans (Nat.le_add_left 1 _)

/-- Behind the job in service each job waits for one more span. -/
lemma load_cons (x : α) (rest : List α) (left : ℕ) :
    (Line.mk (x :: rest) left).load span = left + span * rest.length := rfl

/-- A server with nothing behind the job that leaves. -/
lemma load_taken (jobs : List α) :
    (Line.mk jobs (if jobs = [] then 0 else span)).load span = span * jobs.length := by
  cases jobs with
  | nil => rfl
  | cons x rest => rw [if_neg (List.cons_ne_nil x rest), load_cons, List.length_cons, Nat.mul_succ,
      Nat.add_comm]

/-- In one step a server with a job loses one step of its load, and gets a span for each new job. -/
lemma Valid.load_step {l : Line α} (valid : l.Valid span) (new : List α) :
    (l.step span new).load span + (if l.jobs = [] then 0 else 1) =
      l.load span + span * new.length := by
  obtain ⟨jobs, left⟩ := l
  cases jobs with
  | nil =>
    obtain rfl : left = 0 := valid.empty.2 rfl
    rw [step_of_le (Nat.zero_le 1), load_taken]
    simp [load]
  | cons x rest =>
    have some : left ≠ 0 := fun zero => absurd (valid.empty.1 zero) (List.cons_ne_nil x rest)
    cases Nat.lt_or_ge 1 left with
    | inl lt =>
      rw [step_of_lt lt]
      simp only [List.cons_append, load_cons, List.length_append, Nat.mul_add, reduceCtorEq,
        if_false]
      omega
    | inr ge =>
      rw [step_of_le ge, load_taken]
      simp only [List.tail_cons, load_cons, List.length_append, Nat.mul_add, reduceCtorEq, if_false]
      omega

/-- The steps until the job at a place of the line is in its last step. -/
def remaining (span : ℕ) (l : Line α) (j : ℕ) : ℕ := l.left - 1 + span * j

/-- The place of a job behind a step, unless it was in its last step. -/
lemma Valid.step_get {l : Line α} (valid : l.Valid span) {j : ℕ} {x : α}
    (get : l.jobs[j]? = some x) (more : 0 < l.remaining span j) (new : List α) :
    ∃ j', (l.step span new).jobs[j']? = some x ∧
      (l.step span new).remaining span j' + 1 = l.remaining span j := by
  obtain ⟨jobs, left⟩ := l
  have inside : j < jobs.length := (List.getElem?_eq_some_iff.1 get).1
  simp only [remaining] at more ⊢
  cases Nat.lt_or_ge 1 left with
  | inl lt =>
    rw [step_of_lt lt]
    refine ⟨j, ?_, ?_⟩
    · rw [List.getElem?_append_left inside]
      exact get
    · simp only
      omega
  | inr ge =>
    have last : left - 1 = 0 := by omega
    rw [step_of_le ge]
    cases j with
    | zero => simp [last] at more
    | succ j =>
      have behind : (jobs.tail ++ new)[j]? = some x := by
        rw [List.getElem?_append_left (by rw [List.length_tail]; omega), List.getElem?_tail]
        exact get
      have some : jobs.tail ++ new ≠ [] := fun none => by simp [none] at behind
      have pos : 0 < span := by
        cases Nat.eq_zero_or_pos span with
        | inl zero => simp [zero, last] at more
        | inr pos => exact pos
      refine ⟨j, behind, ?_⟩
      simp only [if_neg some, last, Nat.mul_succ]
      omega

/-- The last job of a line waits for the whole load. -/
lemma Valid.last {l : Line α} (valid : l.Valid span) {kept : List α} {x : α}
    (jobs : l.jobs = kept ++ [x]) :
    l.jobs[kept.length]? = some x ∧ l.remaining span kept.length + 1 = l.load span := by
  have some : l.left ≠ 0 := by
    intro zero
    rw [valid.empty, jobs] at zero
    exact absurd zero (by simp)
  have length : l.jobs.length - 1 = kept.length := by simp [jobs]
  constructor
  · simp [jobs]
  · rw [remaining, load, length]
    omega

/-- The new jobs come behind the ones that are kept. -/
lemma step_jobs (span : ℕ) (l : Line α) (new : List α) : ∃ kept, (l.step span new).jobs = kept ++ new := by
  cases Nat.lt_or_ge 1 l.left with
  | inl lt => exact ⟨l.jobs, by rw [step_of_lt lt]⟩
  | inr ge => exact ⟨l.jobs.tail, by rw [step_of_le ge]⟩

/-- Behind a step a job was in the line before or is the new one. -/
lemma Valid.step_came {l : Line α} (valid : l.Valid span) (pos : 0 < span) {new : List α}
    (one : new.length ≤ 1) {j : ℕ} {x : α} (get : (l.step span new).jobs[j]? = some x) :
    (∃ j', l.jobs[j']? = some x ∧
      (l.step span new).remaining span j + 1 = l.remaining span j') ∨
    (new = [x] ∧ (l.step span new).remaining span j + 1 = (l.step span new).load span) := by
  have fresh : ∀ kept, (l.step span new).jobs = kept ++ new → kept.length ≤ j →
      new = [x] ∧ (l.step span new).remaining span j + 1 = (l.step span new).load span := by
    intro kept jobs le
    rw [jobs, List.getElem?_append_right le] at get
    cases new with
    | nil => cases get
    | cons y rest =>
      obtain rfl : rest = [] := List.length_eq_zero_iff.1 (Nat.le_zero.1 (Nat.le_of_succ_le_succ one))
      obtain ⟨lt, eq⟩ := List.getElem?_eq_some_iff.1 get
      obtain rfl : j = kept.length := by
        simp only [List.length_singleton] at lt
        omega
      obtain rfl : y = x := by simpa using eq
      exact ⟨rfl, ((valid.step pos [y]).last jobs).2⟩
  cases Nat.lt_or_ge 1 l.left with
  | inl lt =>
    cases Nat.lt_or_ge j l.jobs.length with
    | inr ge => exact .inr (fresh l.jobs (by rw [step_of_lt lt]) ge)
    | inl inside =>
      left
      rw [step_of_lt lt] at get ⊢
      rw [List.getElem?_append_left inside] at get
      refine ⟨j, get, ?_⟩
      simp only [remaining]
      omega
  | inr le =>
    cases Nat.lt_or_ge j l.jobs.tail.length with
    | inr ge => exact .inr (fresh l.jobs.tail (by rw [step_of_le le]) ge)
    | inl inside =>
      left
      rw [step_of_le le] at get ⊢
      have some : l.jobs.tail ++ new ≠ [] := by
        intro none
        rw [(List.append_eq_nil_iff.1 none).1] at inside
        exact absurd inside (Nat.not_lt_zero j)
      rw [List.getElem?_append_left inside, List.getElem?_tail] at get
      refine ⟨j + 1, get, ?_⟩
      simp only [remaining, if_neg some, Nat.mul_succ]
      omega

end Line

/-- A run of a server from the time `a`, at which it has nothing to do, to the time `b`. At most one
job arrives in a step. -/
structure Service (α : Type*) (span a b : ℕ) where
  line : ℕ → Line α
  arrive : ℕ → List α
  pos : 0 < span
  start : line a = ⟨[], 0⟩
  one : ∀ t, (arrive t).length ≤ 1
  step : ∀ t, a ≤ t → t < b → line (t + 1) = (line t).step span (arrive t)

namespace Service

variable {α : Type*} {span a b : ℕ} (server : Service α span a b)

/-- The steps from the arrival of a job at the time `t` to its last step. -/
def response (t : ℕ) : ℕ := (server.line (t + 1)).load span

include server in
/-- The line is valid in the whole interval. -/
lemma valid {t : ℕ} (lo : a ≤ t) (hi : t ≤ b) : (server.line t).Valid span := by
  induction t, lo using Nat.le_induction with
  | base =>
    rw [server.start]
    exact ⟨Iff.intro (fun _ => rfl) (fun _ => rfl), Nat.zero_le _⟩
  | succ t le ih =>
    rw [server.step t le hi]
    exact (ih (Nat.le_of_succ_le hi)).step server.pos _

/-- The load behind a step. -/
lemma load_step {t : ℕ} (lo : a ≤ t) (hi : t < b) :
    (server.line (t + 1)).load span + (if (server.line t).jobs = [] then 0 else 1) =
      (server.line t).load span + span * (server.arrive t).length := by
  rw [server.step t lo hi]
  exact (server.valid lo hi.le).load_step _

/-- A server with nothing to do has no load. -/
lemma load_empty {t : ℕ} (lo : a ≤ t) (hi : t ≤ b) (none : (server.line t).jobs = []) :
    (server.line t).load span = 0 := by
  rw [Line.load, (server.valid lo hi).empty.2 none, none]
  rfl

/-- A server with a job has a load. -/
lemma load_pos {t : ℕ} (lo : a ≤ t) (hi : t ≤ b) (some : (server.line t).jobs ≠ []) :
    0 < (server.line t).load span :=
  Nat.add_pos_left (Nat.pos_of_ne_zero fun zero => some ((server.valid lo hi).empty.1 zero)) _

/-- A server never gets done sooner because time passes. -/
lemma done_mono {t u : ℕ} (lo : a ≤ t) (le : t ≤ u) (hi : u ≤ b) :
    t + (server.line t).load span ≤ u + (server.line u).load span := by
  induction u, le using Nat.le_induction with
  | base => exact le_refl _
  | succ u le ih =>
    have before := ih (Nat.le_of_succ_le hi)
    have step := server.load_step (lo.trans le) hi
    split at step <;> omega

/-- A job of the line leaves at its time. -/
lemma line_leaves {t d j : ℕ} {x : α} (lo : a ≤ t) (get : (server.line t).jobs[j]? = some x)
    (wait : (server.line t).remaining span j = d) (hi : t + d ≤ b) :
    (server.line (t + d)).leaving = some x := by
  induction d generalizing t j with
  | zero =>
    have valid := server.valid lo hi
    have inside := (List.getElem?_eq_some_iff.1 get).1
    have some : (server.line t).left ≠ 0 := by
      intro zero
      rw [valid.empty.1 zero] at inside
      exact absurd inside (Nat.not_lt_zero j)
    obtain ⟨left, place⟩ := Nat.add_eq_zero_iff.1 wait
    obtain rfl : j = 0 := (Nat.mul_eq_zero.1 place).resolve_left server.pos.ne'
    rw [Nat.add_zero, Line.leaving, if_pos (by omega), List.head?_eq_getElem?]
    exact get
  | succ d ih =>
    have valid := server.valid lo (by omega)
    obtain ⟨j', get', next⟩ := valid.step_get get (by omega) (server.arrive t)
    rw [← server.step t lo (by omega)] at get' next
    rw [show t + (d + 1) = t + 1 + d by omega]
    exact ih (Nat.le_succ_of_le lo) get' (by omega) (by omega)

/-- A job is in the line because it has arrived, and its time has not changed since. -/
lemma line_came {t j : ℕ} {x : α} (lo : a ≤ t) (hi : t ≤ b)
    (get : (server.line t).jobs[j]? = some x) :
    ∃ v, a ≤ v ∧ v < t ∧ server.arrive v = [x] ∧
      v + server.response v = t + (server.line t).remaining span j := by
  induction t, lo using Nat.le_induction generalizing j with
  | base =>
    rw [server.start] at get
    cases get
  | succ t le ih =>
    have valid := server.valid le (Nat.le_of_succ_le hi)
    have get' := get
    rw [server.step t le hi] at get'
    cases valid.step_came server.pos (server.one t) get' with
    | inl before =>
      obtain ⟨j', old, next⟩ := before
      rw [← server.step t le hi] at next
      obtain ⟨v, from_, lt, came, time⟩ := ih (Nat.le_of_succ_le hi) old
      exact ⟨v, from_, Nat.lt_succ_of_lt lt, came, by omega⟩
    | inr now =>
      obtain ⟨new, last⟩ := now
      rw [← server.step t le hi] at last
      refine ⟨t, le, Nat.lt_succ_self t, new, ?_⟩
      rw [response]
      omega

/-- A job that arrives leaves at its time. -/
theorem leaves {t : ℕ} {x : α} (lo : a ≤ t) (lt : t < b) (came : server.arrive t = [x])
    (hi : t + server.response t ≤ b) :
    (server.line (t + server.response t)).leaving = some x := by
  have valid := server.valid lo lt.le
  obtain ⟨kept, jobs⟩ := (server.line t).step_jobs span (server.arrive t)
  rw [← server.step t lo lt, came] at jobs
  obtain ⟨get, last⟩ := (server.valid (t := t + 1) (by omega) lt).last jobs
  have time : server.response t = (server.line (t + 1)).remaining span kept.length + 1 := by
    rw [response, last]
  rw [time, show t + ((server.line (t + 1)).remaining span kept.length + 1) =
    t + 1 + (server.line (t + 1)).remaining span kept.length by omega]
  exact server.line_leaves (Nat.le_succ_of_le lo) get rfl (by omega)

/-- A job that leaves has arrived. -/
theorem came {t : ℕ} {x : α} (lo : a ≤ t) (hi : t ≤ b) (leave : (server.line t).leaving = some x) :
    ∃ v, a ≤ v ∧ v < t ∧ server.arrive v = [x] ∧ t = v + server.response v := by
  rw [Line.leaving] at leave
  split at leave
  · next last =>
    rw [List.head?_eq_getElem?] at leave
    obtain ⟨v, from_, lt, came, time⟩ := server.line_came lo hi leave
    refine ⟨v, from_, lt, came, ?_⟩
    rw [time, Line.remaining, last]
    rfl
  · cases leave

/-- No job overtakes another one: two jobs leave at least a span apart. -/
theorem order {t u : ℕ} (lo : a ≤ t) (lt : t < u) (hi : u < b) (later : server.arrive u ≠ []) :
    t + server.response t + span ≤ u + server.response u := by
  have mono := server.done_mono (t := t + 1) (by omega) lt hi.le
  have step := server.load_step (lo.trans lt.le) hi
  have one : span * 1 ≤ span * (server.arrive u).length :=
    Nat.mul_le_mul_left span (List.length_pos_iff.2 later)
  rw [response, response]
  split at step <;> omega

/-- A job takes its own span at least. -/
lemma span_le {t : ℕ} (lo : a ≤ t) (hi : t < b) (new : server.arrive t ≠ []) :
    span ≤ server.response t := by
  have step := server.load_step lo hi
  have one : span * 1 ≤ span * (server.arrive t).length :=
    Nat.mul_le_mul_left span (List.length_pos_iff.2 new)
  rw [response]
  split at step
  · omega
  · next some =>
    have pos := server.load_pos lo hi.le some
    omega

/-- A server that has nothing to do in the end has served all jobs before. -/
lemma response_lt {t : ℕ} (lo : a ≤ t) (hi : t < b) (none : (server.line b).jobs = []) :
    t + server.response t < b := by
  have mono := server.done_mono (t := t + 1) (by omega) hi (le_refl b)
  rw [server.load_empty (lo.trans hi.le) (le_refl b) none] at mono
  rw [response]
  omega

/-- Time does not pass faster for a job than for its server. -/
lemma left_le {t d : ℕ} (lo : a ≤ t) (hi : t + d ≤ b) :
    (server.line t).left ≤ (server.line (t + d)).left + d := by
  induction d with
  | zero => exact le_refl _
  | succ d ih =>
    have before := ih (by omega)
    have step := (server.line (t + d)).left_step span (server.arrive (t + d))
    rw [← server.step (t + d) (by omega) (by omega)] at step
    rw [show t + (d + 1) = t + d + 1 from rfl]
    omega

/-- When the last job that waits is taken, another one has just left. -/
lemma taken {t : ℕ} (lo : a ≤ t) (hi : t + 1 < b) (two : 2 ≤ span)
    (some : (server.line t).jobs.tail ++ server.arrive t ≠ [])
    (none : (server.line (t + 1)).jobs.tail ++ server.arrive (t + 1) = []) :
    (server.line t).left ≤ 1 ∧ (server.line (t + 2)).left + 1 = span := by
  have le : (server.line t).left ≤ 1 := by
    by_contra lt
    have tail := (List.append_eq_nil_iff.1 none).1
    have jobs : (server.line t).jobs ≠ [] := fun none => by
      have zero := (server.valid lo (by omega)).empty.2 none
      omega
    rw [server.step t lo (Nat.lt_of_succ_lt hi), Line.step_of_lt (not_le.1 lt),
      List.tail_append_of_ne_nil jobs] at tail
    exact some tail
  refine ⟨le, ?_⟩
  have full : (server.line (t + 1)).left = span := by
    rw [server.step t lo (Nat.lt_of_succ_lt hi), Line.step_of_le le, if_neg some]
  rw [server.step (t + 1) (Nat.le_succ_of_le lo) hi, Line.step_of_lt (by omega), full]
  exact Nat.sub_add_cancel (by omega)

/-- A job in its last step with none behind it has been the only one since it was taken. -/
lemma alone {t d : ℕ} (lo : a ≤ t) (hi : t < b) (last : (server.line t).left = 1)
    (none : (server.line t).jobs.tail ++ server.arrive t = []) (lt : d < span) :
    a + d < t ∧ (server.line (t - d)).left = d + 1 ∧
      (server.line (t - d)).jobs.tail ++ server.arrive (t - d) = [] := by
  induction d with
  | zero =>
    refine ⟨Nat.lt_of_le_of_ne lo fun eq => ?_, last, none⟩
    rw [← eq, Nat.add_zero, server.start] at last
    cases last
  | succ d ih =>
    obtain ⟨before, left, none⟩ := ih (Nat.lt_of_succ_lt lt)
    obtain ⟨s, time⟩ : ∃ s, t - d = s + 1 := ⟨t - d - 1, by omega⟩
    rw [show t - (d + 1) = s by omega]
    rw [time, server.step s (by omega) (by omega)] at left none
    have more : 1 < (server.line s).left := by
      by_contra le
      rw [Line.step_of_le (not_lt.1 le)] at left
      simp only at left
      split at left <;> omega
    have jobs : (server.line s).jobs ≠ [] := fun empty => by
      have zero := (server.valid (t := s) (by omega) (by omega)).empty.2 empty
      omega
    rw [Line.step_of_lt more] at left none
    rw [List.tail_append_of_ne_nil jobs] at none
    refine ⟨Nat.lt_of_le_of_ne (by omega) fun eq => ?_, Nat.eq_add_of_sub_eq more.le left,
      (List.append_eq_nil_iff.1 none).1⟩
    obtain rfl : a = s := by omega
    rw [server.start] at more
    exact absurd more (by simp)

/-- A server that always has a job takes one in every `span` steps. -/
lemma steady {t d : ℕ} (lo : a ≤ t) (hi : t + d ≤ b) (full : (server.line t).left = span)
    (some : ∀ e ≤ d, (server.line (t + e)).jobs ≠ []) : span ∣ (server.line (t + d)).left + d := by
  induction d with
  | zero =>
    rw [Nat.add_zero, Nat.add_zero, full]
  | succ d ih =>
    have before := ih (by omega) fun e le => some e (Nat.le_succ_of_le le)
    have next := some (d + 1) (le_refl _)
    rw [show t + (d + 1) = t + d + 1 from rfl] at next ⊢
    have pos : (server.line (t + d)).left ≠ 0 := fun zero =>
      some d (Nat.le_succ d) ((server.valid (by omega) (by omega)).empty.1 zero)
    rw [server.step (t + d) (by omega) (by omega)] at next ⊢
    cases Nat.lt_or_ge 1 (server.line (t + d)).left with
    | inl lt =>
      rw [Line.step_of_lt lt]
      rwa [show (server.line (t + d)).left - 1 + (d + 1) = (server.line (t + d)).left + d by omega]
    | inr le =>
      rw [Line.step_of_le le] at next ⊢
      rw [if_neg next]
      refine (Nat.dvd_add_right (dvd_refl span)).2 ?_
      rwa [show d + 1 = (server.line (t + d)).left + d by omega]

/-- The steps in which a server that always has a job is done with one. -/
lemma last_iff {t d : ℕ} (lo : a ≤ t) (hi : t + d ≤ b) (full : (server.line t).left = span)
    (some : ∀ e ≤ d, (server.line (t + e)).jobs ≠ []) :
    (server.line (t + d)).left = 1 ↔ span ∣ d + 1 := by
  have steady := server.steady lo hi full some
  have valid := server.valid (t := t + d) (by omega) hi
  have pos : (server.line (t + d)).left ≠ 0 := fun zero => some d (le_refl d) (valid.empty.1 zero)
  constructor
  · intro last
    rwa [last, Nat.add_comm] at steady
  · intro dvd
    have rest : span ∣ (server.line (t + d)).left - 1 := by
      have sub := Nat.dvd_sub steady dvd
      rwa [show (server.line (t + d)).left + d - (d + 1) = (server.line (t + d)).left - 1 by omega]
        at sub
    have zero := Nat.eq_zero_of_dvd_of_lt rest (by have le := valid.le; omega)
    omega

/-- A job that finds no other one but the one in service, and that not in its first step, leaves
within two spans. -/
lemma response_fresh {t : ℕ} (lo : a ≤ t) (hi : t < b) (two : 2 ≤ span)
    (one : (server.line t).jobs.length ≤ 1) (begun : (server.line t).left < span) :
    server.response t + 2 ≤ 2 * span := by
  have step := server.load_step lo hi
  have new := Nat.mul_le_mul_left span (server.one t)
  rw [response]
  split at step
  · next none =>
    rw [server.load_empty lo hi.le none] at step
    omega
  · have load : (server.line t).load span = (server.line t).left := by
      rw [Line.load, Nat.sub_eq_zero_of_le one, Nat.mul_zero, Nat.add_zero]
    omega

/-- If every job has found no other one but the one in service, a server is done within two spans. -/
lemma load_fresh {t : ℕ} (lo : a ≤ t) (hi : t ≤ b) (two : 2 ≤ span)
    (fresh : ∀ v, a ≤ v → v < t → server.arrive v ≠ [] →
      (server.line v).jobs.length ≤ 1 ∧ (server.line v).left < span) :
    (server.line t).load span + 2 ≤ 2 * span := by
  cases List.eq_nil_or_concat (server.line t).jobs with
  | inl none =>
    rw [server.load_empty lo hi none]
    omega
  | inr some =>
    obtain ⟨kept, x, jobs⟩ := some
    rw [List.concat_eq_append] at jobs
    obtain ⟨get, last⟩ := (server.valid lo hi).last jobs
    obtain ⟨v, from_, lt, came, time⟩ := server.line_came lo hi get
    obtain ⟨one, begun⟩ := fresh v from_ lt (by rw [came]; simp)
    have leaves := server.response_fresh from_ (by omega) two one begun
    omega

/-- If every job has found no other one but the one in service, a job that waits has arrived within
the last span. -/
lemma waiting_since {t : ℕ} (lo : a ≤ t) (hi : t ≤ b) (two : 2 ≤ span)
    (fresh : ∀ v, a ≤ v → v < t → server.arrive v ≠ [] →
      (server.line v).jobs.length ≤ 1 ∧ (server.line v).left < span)
    (wait : (server.line t).jobs.tail ++ server.arrive t ≠ []) :
    ∃ v x, a ≤ v ∧ v ≤ t ∧ server.arrive v = [x] ∧ t + 2 ≤ v + span := by
  cases queue : (server.line t).jobs.tail with
  | nil =>
    rw [queue, List.nil_append] at wait
    obtain ⟨x, new⟩ := List.length_eq_one_iff.1
      (le_antisymm (server.one t) (List.length_pos_iff.2 wait))
    exact ⟨t, x, lo, le_refl t, new, by omega⟩
  | cons x rest =>
    have get : (server.line t).jobs[1]? = some x := by
      rw [← List.getElem?_tail, queue]
      rfl
    obtain ⟨v, from_, lt, came, time⟩ := server.line_came lo hi get
    obtain ⟨one, begun⟩ := fresh v from_ lt (by rw [came]; simp)
    have leaves := server.response_fresh from_ (by omega) two one begun
    rw [Line.remaining, Nat.mul_one] at time
    exact ⟨v, x, from_, lt.le, came, by omega⟩

end Service

/-- In a window there is only room for a certain number of times that lie apart. -/
lemma card_le_of_spaced {ι : Type*} {s : Finset ι} (time : ι → ℕ) (pace lo hi : ℕ) (pos : 0 < pace)
    (window : ∀ k ∈ s, lo ≤ time k ∧ time k ≤ hi)
    (spaced : ∀ k ∈ s, ∀ l ∈ s, k ≠ l → time k + pace ≤ time l ∨ time l + pace ≤ time k) :
    s.card ≤ (hi - lo) / pace + 1 := by
  rw [← Finset.card_range ((hi - lo) / pace + 1)]
  refine Finset.card_le_card_of_injOn (fun k => (time k - lo) / pace) ?_ ?_
  · intro k mem
    obtain ⟨from_, to_⟩ := window k mem
    have le : (time k - lo) / pace ≤ (hi - lo) / pace := Nat.div_le_div_right (by omega)
    exact Finset.mem_coe.2 (Finset.mem_range.2 (Nat.lt_succ_of_le le))
  · intro k mem l mem' same
    by_contra ne
    have apart : ∀ {x y : ℕ}, lo ≤ x → x + pace ≤ y → (x - lo) / pace ≠ (y - lo) / pace := by
      intro x y from_ le eq
      have next : (x - lo + pace) / pace ≤ (y - lo) / pace := Nat.div_le_div_right (by omega)
      rw [Nat.add_div_right _ pos] at next
      omega
    cases spaced k mem l mem' ne with
    | inl before => exact apart (window k mem).1 before same
    | inr behind => exact apart (window l mem').1 behind same.symm

end NnProcessor.Queueing
