import Mathlib.Tactic

/-!
# The evaluation phase of a simulation kernel

In one evaluation phase a kernel runs every runnable process once, in an order it is free to choose.
`evaluate exec order a` is the state after the processes of `order` have run one after the other on
`a`. The lemmas say what survives the choice of the order: a part of the state that evolves on its
own (`evaluate_proj`), a process that is the only one to act (`evaluate_single`), and two processes
that race (`evaluate_pair`). What every process keeps is kept by the phase, of one state
(`evaluate_keeps`) and of two (`evaluate_rel`).
-/

namespace NnProcessor.Kernel

variable {P α β : Type*}

/-- The state after the processes of `order` have run on `a`. -/
def evaluate (exec : P → α → α) (order : List P) (a : α) : α :=
  order.foldl (fun a p => exec p a) a

/-- No process changes nothing. -/
@[simp] lemma evaluate_nil (exec : P → α → α) (a : α) : evaluate exec [] a = a := rfl

/-- The first process is executed first. -/
@[simp] lemma evaluate_cons (exec : P → α → α) (p : P) (order : List P) (a : α) :
    evaluate exec (p :: order) a = evaluate exec order (exec p a) := rfl

/-- Two lists of processes are executed one behind the other. -/
lemma evaluate_append (exec : P → α → α) (l₁ l₂ : List P) (a : α) :
    evaluate exec (l₁ ++ l₂) a = evaluate exec l₂ (evaluate exec l₁ a) := List.foldl_append

/-- A part `π` of the state on which every process acts by itself. -/
lemma evaluate_proj (exec : P → α → α) (π : α → β) (exec' : P → β → β)
    (h : ∀ p a, π (exec p a) = exec' p (π a)) (order : List P) (a : α) :
    π (evaluate exec order a) = evaluate exec' order (π a) := by
  induction order generalizing a with
  | nil => rfl
  | cons p order ih => rw [evaluate_cons, ih, h, evaluate_cons]

/-- Two states on which every process acts in the same way run through the same phase. -/
lemma evaluate_rel {exec : P → α → α} {exec' : P → β → β} {R : α → β → Prop}
    (h : ∀ p a b, R a b → R (exec p a) (exec' p b)) (order : List P) {a : α} {b : β} (r : R a b) :
    R (evaluate exec order a) (evaluate exec' order b) := by
  induction order generalizing a b with
  | nil => exact r
  | cons p order ih => exact ih (h p a b r)

/-- What every process keeps is kept by the phase. -/
lemma evaluate_keeps {exec : P → α → α} {Q : α → Prop} (h : ∀ p a, Q a → Q (exec p a))
    (order : List P) {a : α} (q : Q a) : Q (evaluate exec order a) := by
  induction order generalizing a with
  | nil => exact q
  | cons p order ih => exact ih (h p a q)

/-- Processes that do nothing may run in any number. -/
lemma evaluate_inert {exec : P → α → α} {order : List P} (h : ∀ p ∈ order, ∀ a, exec p a = a)
    (a : α) : evaluate exec order a = a := by
  induction order generalizing a with
  | nil => rfl
  | cons p order ih =>
    rw [evaluate_cons, h p (by simp)]
    exact ih (fun q hq => h q (by simp [hq])) a

/-- One process acts: the phase is that process. -/
lemma evaluate_single {exec : P → α → α} {order : List P} {x : P} (nd : order.Nodup)
    (hx : x ∈ order) (h : ∀ p, p ≠ x → ∀ a, exec p a = a) (a : α) :
    evaluate exec order a = exec x a := by
  obtain ⟨l₁, l₂, rfl⟩ := List.append_of_mem hx
  obtain ⟨n₁, n₂, d⟩ := List.nodup_append.1 nd
  have h₁ : ∀ p ∈ l₁, ∀ a, exec p a = a := fun p hp =>
    h p (fun e => d p hp x (by simp) e)
  have h₂ : ∀ p ∈ l₂, ∀ a, exec p a = a := fun p hp =>
    h p (fun e => (List.nodup_cons.1 n₂).1 (e ▸ hp))
  rw [evaluate_append, evaluate_cons, evaluate_inert h₁, evaluate_inert h₂]

/-- One of the processes that run acts: the phase is that process. -/
lemma evaluate_only {exec : P → α → α} {order : List P} {x : P} (nd : order.Nodup)
    (hx : x ∈ order) (h : ∀ p ∈ order, p ≠ x → ∀ a, exec p a = a) (a : α) :
    evaluate exec order a = exec x a := by
  obtain ⟨l₁, l₂, rfl⟩ := List.append_of_mem hx
  obtain ⟨n₁, n₂, d⟩ := List.nodup_append.1 nd
  have h₁ : ∀ p ∈ l₁, ∀ a, exec p a = a := fun p hp =>
    h p (by simp [hp]) (fun e => d p hp x (by simp) e)
  have h₂ : ∀ p ∈ l₂, ∀ a, exec p a = a := fun p hp =>
    h p (by simp [hp]) (fun e => (List.nodup_cons.1 n₂).1 (e ▸ hp))
  rw [evaluate_append, evaluate_cons, evaluate_inert h₁, evaluate_inert h₂]

/-- Two processes act: the phase is one of the two sequences. -/
lemma evaluate_pair {exec : P → α → α} {order : List P} {x y : P} (nd : order.Nodup)
    (hx : x ∈ order) (hy : y ∈ order) (ne : x ≠ y)
    (h : ∀ p, p ≠ x → p ≠ y → ∀ a, exec p a = a) (a : α) :
    evaluate exec order a = exec y (exec x a) ∨ evaluate exec order a = exec x (exec y a) := by
  obtain ⟨l₁, l₂, rfl⟩ := List.append_of_mem hx
  obtain ⟨n₁, n₂, d⟩ := List.nodup_append.1 nd
  obtain ⟨nx, n₂⟩ := List.nodup_cons.1 n₂
  have out₁ : ∀ p ∈ l₁, p ≠ x := fun p hp e => d p hp x (by simp) e
  have out₂ : ∀ p ∈ l₂, p ≠ x := fun p hp e => nx (e ▸ hp)
  rw [evaluate_append, evaluate_cons]
  rcases List.mem_append.1 hy with hy₁ | hy₂
  · right
    have rest : ∀ p ∈ l₂, ∀ a, exec p a = a := fun p hp =>
      h p (out₂ p hp) (fun e => d y hy₁ p (by simp [hp]) e.symm)
    rw [evaluate_inert rest]
    congr 1
    obtain ⟨k₁, k₂, rfl⟩ := List.append_of_mem hy₁
    obtain ⟨-, m₂, e⟩ := List.nodup_append.1 n₁
    rw [evaluate_append, evaluate_cons,
      evaluate_inert (fun p hp => h p (out₁ p (by simp [hp])) (fun eq => e p hp y (by simp) eq)),
      evaluate_inert (fun p hp => h p (out₁ p (by simp [hp]))
        (fun eq => (List.nodup_cons.1 m₂).1 (eq ▸ hp)))]
  · left
    have hy₂ : y ∈ l₂ := (List.mem_cons.1 hy₂).resolve_left (Ne.symm ne)
    have rest : ∀ p ∈ l₁, ∀ a, exec p a = a := fun p hp =>
      h p (out₁ p hp) (fun e => d p hp y (by simp [hy₂]) e)
    rw [evaluate_inert rest]
    obtain ⟨k₁, k₂, rfl⟩ := List.append_of_mem hy₂
    obtain ⟨-, m₂, e⟩ := List.nodup_append.1 n₂
    rw [evaluate_append, evaluate_cons,
      evaluate_inert (fun p hp => h p (out₂ p (by simp [hp])) (fun eq => e p hp y (by simp) eq)),
      evaluate_inert (fun p hp => h p (out₂ p (by simp [hp]))
        (fun eq => (List.nodup_cons.1 m₂).1 (eq ▸ hp)))]

end NnProcessor.Kernel
