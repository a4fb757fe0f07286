import Mathlib.Data.List.MinMax
import NnProcessor.Kernel.Evaluate

/-!
# Delta cycles

The loop of a discrete event kernel. A delta cycle has three phases: the runnable processes run one
after the other, all of them on the values the channels had before (`evaluate`); the channels take
over what has been written; and the processes that are sensitive to a change are made runnable. When
none is left the time advances to the next timed notification. A simulation that has been stopped
finishes its delta cycle up to the update.

`Design` says what the processes do and what they are sensitive to. The rules at the end are for a
simulation whose cycles are known: a cycle in which somebody runs (`step_cycle`, `step_stop`), and an
advance to the only notification there is (`step_advance`).
-/

namespace NnProcessor.Kernel

variable {P M C : Type*}

/-- Processes `P` that act on the members `M`, among them the new values of the channels, and that
read the current values `C`. -/
structure Design (P M C : Type*) where
  /-- A process runs. -/
  exec : C → P → M → M
  /-- The update phase. -/
  update : C → M → C
  /-- The process is sensitive to an event of the update phase. -/
  wakes : C → C → P → Bool
  /-- The timed notification of a process: the one it is for, and the time until it. -/
  notify : P → Option (P × Nat)
  /-- The simulation has been stopped. -/
  stop : M → Bool

/-- The state of the kernel between two delta cycles. -/
structure State (P M C : Type*) where
  now : Nat
  /-- The delta cycles at this time. -/
  delta : Nat
  modules : M
  current : C
  runnable : P → Bool
  /-- The times of the notifications that are pending. -/
  timed : P → Option Nat
  finished : Bool

/-- The time advances to the next of the notifications of the processes in `order`; without one the
simulation is over. -/
def State.advance (order : List P) (k : State P M C) : State P M C :=
  match (order.filterMap k.timed).min? with
  | none => { k with finished := true }
  | some t =>
    { k with
      now := t
      delta := 0
      runnable := fun p => k.timed p == some t
      timed := fun p => if k.timed p = some t then none else k.timed p }

namespace Design

variable [DecidableEq P] (D : Design P M C)

/-- The timed notifications of the processes that run at a time. -/
def notified (now : Nat) (order : List P) (timed : P → Option Nat) : P → Option Nat :=
  evaluate (fun p timed =>
    match D.notify p with
    | some (q, d) => Function.update timed q (some (now + d))
    | none => timed) order timed

/-- One delta cycle; the processes run in the order of `order`. -/
def cycle (order : List P) (k : State P M C) : State P M C :=
  let ran := order.filter k.runnable
  let modules := evaluate (D.exec k.current) ran k.modules
  let current := D.update k.current modules
  { k with
    delta := k.delta + 1
    modules := modules
    current := current
    runnable := if D.stop modules then fun _ => false else D.wakes k.current current
    timed := D.notified k.now ran k.timed
    finished := D.stop modules }

/-- One step of the kernel, with all processes in `order`. -/
def step (order : List P) (k : State P M C) : State P M C :=
  if k.finished then k
  else if order.any k.runnable then D.cycle order k
  else k.advance order

/-- The state of the kernel after some steps; the order of a delta cycle may depend on the time and on
the number of delta cycles that have been at this time. -/
def simulate (order : Nat → Nat → List P) (start : State P M C) : Nat → State P M C
  | 0 => start
  | n + 1 =>
    let k := simulate order start n
    D.step (order k.now k.delta) k

variable {D} {order : List P} {k : State P M C}

/-- A finished simulation does not go on. -/
lemma step_finished (fin : k.finished = true) : D.step order k = k := if_pos fin

/-- A finished simulation stays as it is. -/
lemma simulate_finished {order : Nat → Nat → List P} {start : State P M C} {n m : Nat}
    (fin : (D.simulate order start n).finished = true) (le : n ≤ m) :
    D.simulate order start m = D.simulate order start n := by
  induction m, le using Nat.le_induction with
  | base => rfl
  | succ m _ ih => rw [simulate, ih, step_finished fin]

/-- A delta cycle in which somebody runs. -/
lemma step_cycle {p : P} (go : k.finished = false) (mem : p ∈ order) (run : k.runnable p = true) :
    D.step order k = D.cycle order k := by
  have any : order.any k.runnable = true := List.any_eq_true.2 ⟨p, mem, run⟩
  rw [step, go, if_neg Bool.false_ne_true, if_pos any]

/-- The only notification is the next one. -/
lemma min_only {timed : P → Option Nat} {p : P} {t : Nat} (nodup : order.Nodup) (mem : p ∈ order)
    (only : timed = Function.update (fun _ => none) p (some t)) :
    (order.filterMap timed).min? = some t := by
  have at_ : timed p = some t := by rw [only, Function.update_self]
  have others : ∀ q, q ≠ p → timed q = none := by
    intro q ne
    rw [only, Function.update_of_ne ne]
  obtain ⟨l₁, l₂, rfl⟩ := List.append_of_mem mem
  obtain ⟨-, n₂, apart⟩ := List.nodup_append.1 nodup
  have none₁ : l₁.filterMap timed = [] :=
    List.filterMap_eq_nil_iff.2 fun q hq => others q fun e => apart q hq p (by simp) e
  have none₂ : l₂.filterMap timed = [] :=
    List.filterMap_eq_nil_iff.2 fun q hq => others q fun e => (List.nodup_cons.1 n₂).1 (e ▸ hq)
  rw [List.filterMap_append, List.filterMap_cons, at_, none₁, none₂]
  rfl

/-- Nobody runs: the time advances to the only notification. -/
lemma step_advance {p : P} {t : Nat} (go : k.finished = false) (quiet : ∀ q, k.runnable q = false)
    (nodup : order.Nodup) (mem : p ∈ order)
    (only : k.timed = Function.update (fun _ => none) p (some t)) :
    D.step order k =
      { k with
        now := t
        delta := 0
        runnable := fun q => decide (q = p)
        timed := fun _ => none } := by
  have none_ : ¬order.any k.runnable = true := by simp [quiet]
  have runs : (fun q => k.timed q == some t) = fun q => decide (q = p) := by
    funext q
    rw [only]
    by_cases eq : q = p
    · subst eq
      simp
    · simp [eq]
  have left : (fun q => if k.timed q = some t then none else k.timed q) = fun _ => none := by
    funext q
    rw [only]
    by_cases eq : q = p
    · subst eq
      simp
    · simp [eq]
  rw [step, go, if_neg Bool.false_ne_true, if_neg none_, State.advance, min_only nodup mem only]
  simp only [runs, left, go]

end Design

end NnProcessor.Kernel
