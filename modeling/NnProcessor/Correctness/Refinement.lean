import NnProcessor.Correctness.Program
import NnProcessor.Correctness.Words
import NnProcessor.Model.Simulation

/-!
# The kernel and the edges

`simulation` runs the processes as the kernel does, one delta cycle after the other; `run` goes from
edge to edge. `kernel_refines` says that the kernel computes exactly the edges of `run`, for every
order in which it takes the processes from its queues: the delta cycles of the clock and of
`END_REDUCER` in between change nothing that an edge reads. The moments of the kernel and what follows
each of them are listed in `Moment`.
-/

namespace NnProcessor.Model
open NnProcessor.Kernel

variable {hw : Hw} {F : Type}

/-- The output of `END_REDUCER` with another value. -/
def System.withEnded (s : System hw F) (b : Bool) : System hw F := { s with cycleEnded := b }

/-- What `END_REDUCER` computes from its inputs. -/
def System.ended (s : System hw F) : Bool := reduce s.wires.genEnd s.wires.contrEmptyBus

/-- Only the last level that is put in counts. -/
@[simp] lemma System.withEnded_withEnded (s : System hw F) (b b' : Bool) :
    (s.withEnded b).withEnded b' = s.withEnded b' := rfl

/-- The own level of a state changes nothing. -/
@[simp] lemma System.withEnded_self (s : System hw F) : s.withEnded s.cycleEnded = s := rfl

/-- What `END_REDUCER` reads does not depend on what it shows. -/
@[simp] lemma System.withEnded_ended (s : System hw F) (b : Bool) :
    (s.withEnded b).ended = s.ended := rfl

/-- The level is no part of the stop. -/
@[simp] lemma System.withEnded_stopped (s : System hw F) (b : Bool) :
    (s.withEnded b).stopped = s.stopped := rfl

/-- A state is what it is apart from the output of `END_REDUCER`, with this output. -/
lemma System.eq_withEnded {s s' : System hw F} (same : s.withEnded false = s'.withEnded false) :
    s = s'.withEnded s.cycleEnded := by
  rw [← s'.withEnded_withEnded false, ← same]
  rfl

/-- No word on the signals is the zero with a sign. -/
def Plain [Binary32Ops F] (w : Wires hw F) : Prop := WordsOn (fun x => ¬IsNegZero x) w

/-- The update phase takes over every new value, if no word is the zero with a sign. -/
lemma Signals.update_eq [Binary32Ops F] {same : F → F → Bool} (floats : FloatEq same)
    {cur : Signals hw F} {m : Instances hw F} (plain : Plain cur.wires)
    (plain' : Plain m.system.wires) :
    Signals.update same cur m = { wires := m.system.wires, clk := m.clk } := by
  have take : ∀ x y : F, ¬IsNegZero x → ¬IsNegZero y → takeOver same x y = y := by
    intro x y hx hy
    unfold takeOver
    split
    · next eq => exact (floats.faithful hy hx eq).symm
    · rfl
  simp only [Signals.update, take _ _ plain.io plain'.io,
    take _ _ (plain.weight _) (plain'.weight _), take _ _ (plain.previous _) (plain'.previous _),
    take _ _ plain.next plain'.next, take _ _ (plain.result _) (plain'.result _)]

variable [Binary32Ops F] [DecidableEq F] (cfg : Config F)

/-- What a process does to everything but the clock and `END_REDUCER`. -/
def Process.act (w : Wires hw F) : Process hw → System hw F → System hw F
  | .method (.clocked m), s => m.exec w s
  | .cthread t, s => t.exec cfg w s
  | .method .reduce, s | .method .posedgeAction, s | .method .negedgeAction, s => s

/-- The output of `END_REDUCER` is a signal like any other: nobody else writes it, and it is read off
the wires. -/
lemma Process.exec_act (cur : Signals hw F) (p : Process hw) (a : Instances hw F) :
    (p.exec cfg cur a).system.withEnded false = p.act cfg cur.wires (a.system.withEnded false) := by
  cases p with
  | method c =>
    cases c with
    | clocked m => cases m <;> rfl
    | reduce | posedgeAction | negedgeAction => rfl
  | cthread t => cases t <;> rfl

variable {cfg}

/-- The methods of an order that run at an edge. -/
lemma act_methods {runnable : Process hw → Bool} (w : Wires hw F)
    (methods : ∀ m, runnable (.method (.clocked m)) = true) (l : List (Callback hw))
    (s : System hw F) :
    evaluate (Process.act cfg w) ((l.map Process.method).filter runnable) s =
      evaluate (Method.exec w) (l.filterMap Order.clocked?) s := by
  induction l generalizing s with
  | nil => rfl
  | cons c l ih =>
    cases c with
    | clocked m =>
      rw [List.map_cons, List.filter_cons_of_pos (methods m), evaluate_cons, ih]
      rfl
    | reduce | posedgeAction | negedgeAction =>
      rw [List.map_cons, List.filter_cons]
      split
      · exact ih s
      · exact ih s

/-- The threads of an order that run at an edge. -/
lemma act_threads {runnable : Process hw → Bool} (w : Wires hw F)
    (threads : ∀ t, runnable (.cthread t) = true) (l : List (Thread hw)) (s : System hw F) :
    evaluate (Process.act cfg w) ((l.map Process.cthread).filter runnable) s =
      evaluate (Thread.exec cfg w) l s := by
  induction l generalizing s with
  | nil => rfl
  | cons t l ih =>
    rw [List.map_cons, List.filter_cons_of_pos (threads t), evaluate_cons, ih]
    rfl

variable {order : Order hw} {runnable : Process hw → Bool} {cur : Signals hw F}
variable {a : Instances hw F}

omit [Binary32Ops F] [DecidableEq F] in
/-- Every process is in the list of an order. -/
lemma Order.mem_list (o : Order hw) (p : Process hw) : p ∈ o.list := by
  cases p with
  | method c => exact List.mem_append_left _ (List.mem_map_of_mem (o.mem_methods c))
  | cthread t => exact List.mem_append_right _ (List.mem_map_of_mem (o.mem_threads t))

omit [Binary32Ops F] [DecidableEq F] in
/-- No process is twice in the list of an order. -/
lemma Order.nodup_list (o : Order hw) : o.list.Nodup := by
  refine List.Nodup.append (o.methods_nodup.map fun _ _ h => Process.method.inj h)
    (o.threads_nodup.map fun _ _ h => Process.cthread.inj h) ?_
  intro p method cthread
  obtain ⟨c, -, rfl⟩ := List.mem_map.1 method
  obtain ⟨t, -, eq⟩ := List.mem_map.1 cthread
  cases eq

/-- Where the methods and the threads run, it is an edge. -/
lemma system_edge (methods : ∀ m, runnable (.method (.clocked m)) = true)
    (threads : ∀ t, runnable (.cthread t) = true) :
    (evaluate (Process.exec cfg cur) (order.list.filter runnable) a).system.withEnded false =
      evaluate (Thread.exec cfg cur.wires) order.schedule.threads
        (evaluate (Method.exec cur.wires) order.schedule.methods (a.system.withEnded false)) := by
  rw [evaluate_proj (Process.exec cfg cur) (fun a => a.system.withEnded false)
      (Process.act cfg cur.wires) fun p a => p.exec_act cfg cur a,
    Order.list, List.filter_append, evaluate_append, act_methods _ methods,
    act_threads _ threads]
  rfl

/-- Where the methods run but no thread, it is the initialization. -/
lemma system_boot (methods : ∀ m, runnable (.method (.clocked m)) = true)
    (threads : ∀ t, runnable (.cthread t) = false) :
    (evaluate (Process.exec cfg cur) (order.list.filter runnable) a).system.withEnded false =
      evaluate (Method.exec cur.wires) order.schedule.methods (a.system.withEnded false) := by
  have none : (order.threads.map Process.cthread).filter runnable = [] := by
    rw [List.filter_eq_nil_iff]
    intro p mem
    obtain ⟨t, -, rfl⟩ := List.mem_map.1 mem
    rw [threads t]
    exact Bool.false_ne_true
  rw [evaluate_proj (Process.exec cfg cur) (fun a => a.system.withEnded false)
      (Process.act cfg cur.wires) fun p a => p.exec_act cfg cur a,
    Order.list, List.filter_append, none, List.append_nil, act_methods _ methods]
  rfl

/-- Where neither run, nothing happens. -/
lemma system_quiet (methods : ∀ m, runnable (.method (.clocked m)) = false)
    (threads : ∀ t, runnable (.cthread t) = false) :
    (evaluate (Process.exec cfg cur) (order.list.filter runnable) a).system.withEnded false =
      a.system.withEnded false := by
  rw [evaluate_proj (Process.exec cfg cur) (fun a => a.system.withEnded false)
      (Process.act cfg cur.wires) fun p a => p.exec_act cfg cur a]
  apply evaluate_inert
  intro p mem s
  have run := (List.mem_filter.1 mem).2
  cases p with
  | method c =>
    cases c with
    | clocked m =>
      rw [methods m] at run
      cases run
    | reduce | posedgeAction | negedgeAction => rfl
  | cthread t =>
    rw [threads t] at run
    cases run

/-- `END_REDUCER` writes its output where it runs. -/
lemma cycleEnded_phase :
    (evaluate (Process.exec cfg cur) (order.list.filter runnable) a).system.cycleEnded =
      if runnable (.method .reduce) then reduce cur.wires.genEnd cur.wires.contrEmptyBus
      else a.system.cycleEnded := by
  have proj := evaluate_proj (Process.exec cfg cur) (fun a => a.system.cycleEnded)
    (fun p b => if p = .method .reduce then reduce cur.wires.genEnd cur.wires.contrEmptyBus else b)
    (by
      intro p a
      cases p with
      | method c =>
        cases c with
        | clocked m => cases m <;> rfl
        | reduce | posedgeAction | negedgeAction => rfl
      | cthread t => cases t <;> rfl) (order.list.filter runnable) a
  rw [proj]
  split
  · next run =>
    rw [evaluate_only (order.nodup_list.filter _) (List.mem_filter.2 ⟨order.mem_list _, run⟩)
      fun p _ ne b => if_neg ne]
    exact if_pos rfl
  · next still =>
    apply evaluate_inert
    intro p mem b
    apply if_neg
    rintro rfl
    exact still (List.mem_filter.1 mem).2

/-- The pending notification of the clock: the process it is for, and its time. -/
def pending (p : Process hw) (t : Nat) : Process hw → Option Nat :=
  Function.update (fun _ => none) p (some t)

/-- What a process does to the clock. -/
def Process.tick : Process hw → Bool → Bool
  | .method .posedgeAction, _ => true
  | .method .negedgeAction, _ => false
  | .method (.clocked _), b | .method .reduce, b | .cthread _, b => b

/-- A process does with the clock what its tick says. -/
lemma Process.exec_tick (p : Process hw) (a : Instances hw F) :
    (p.exec cfg cur a).clk = p.tick a.clk := by
  cases p with
  | method c =>
    cases c with
    | clocked m => rfl
    | reduce | posedgeAction | negedgeAction => rfl
  | cthread t => rfl

variable {same : F → F → Bool} {now : Nat} {timed : Process hw → Option Nat}

/-- The clock where only one of its two processes runs: it gets a new value, and the other process is
notified. -/
lemma clock_acts {p q : Process hw} {b : Bool} (runs : runnable p = true)
    (alone : ∀ r, runnable r = true → r ≠ p → r.tick = id ∧ r.notify = none)
    (value : ∀ b', p.tick b' = b) (notify : p.notify = some (q, 5000)) :
    (evaluate (Process.exec cfg cur) (order.list.filter runnable) a).clk = b ∧
      (design same cfg).notified now (order.list.filter runnable) (fun _ => none) =
        pending q (now + 5000) := by
  have mem : p ∈ order.list.filter runnable := List.mem_filter.2 ⟨order.mem_list _, runs⟩
  constructor
  · rw [evaluate_proj (Process.exec cfg cur) (fun a => a.clk) Process.tick
      fun p a => p.exec_tick a]
    rw [evaluate_only (order.nodup_list.filter _) mem fun r run ne b => by
      rw [(alone r (List.mem_filter.1 run).2 ne).1]
      rfl]
    exact value _
  · rw [Design.notified, evaluate_only (order.nodup_list.filter _) mem fun r run ne b => by
      have none : (design same cfg).notify r = none := (alone r (List.mem_filter.1 run).2 ne).2
      rw [none]]
    have some_ : (design same cfg).notify p = some (q, 5000) := notify
    rw [some_]
    rfl

/-- The clock where none of its two processes runs. -/
lemma clock_rests (alone : ∀ r, runnable r = true → r.tick = id ∧ r.notify = none) :
    (evaluate (Process.exec cfg cur) (order.list.filter runnable) a).clk = a.clk ∧
      (design same cfg).notified now (order.list.filter runnable) timed = timed := by
  constructor
  · rw [evaluate_proj (Process.exec cfg cur) (fun a => a.clk) Process.tick
      fun p a => p.exec_tick a]
    apply evaluate_inert
    intro r run b
    rw [(alone r (List.mem_filter.1 run).2).1]
    rfl
  · apply evaluate_inert
    intro r run timed
    have none : (design same cfg).notify r = none := (alone r (List.mem_filter.1 run).2).2
    rw [none]

/-- An input of `END_REDUCER` is not the same in two states. -/
def changed (s s' : System hw F) : Bool :=
  decide (s.wires.genEnd ≠ s'.wires.genEnd ∨
    ∃ k, s.wires.contrEmptyBus k ≠ s'.wires.contrEmptyBus k)

omit [Binary32Ops F] [DecidableEq F] in
/-- Where no input has changed, `END_REDUCER` computes the same. -/
lemma ended_eq {s s' : System hw F} (same : changed s s' = false) : s.ended = s'.ended := by
  rw [changed, decide_eq_false_iff_not, not_or, not_exists] at same
  unfold System.ended
  rw [not_ne_iff.1 same.1, funext fun k => not_ne_iff.1 (same.2 k)]

/-- The processes that run behind a delta cycle: the clocked ones, or `END_REDUCER`. -/
def awake (edge ended : Bool) : Process hw → Bool
  | .method (.clocked _) | .cthread _ => edge
  | .method .reduce => ended
  | .method .posedgeAction | .method .negedgeAction => false

omit [Binary32Ops F] [DecidableEq F] in
/-- A rising clock wakes the clocked processes, and a change on the wires `END_REDUCER`. -/
lemma wakes_eq (s s' : System hw F) (clk clk' : Bool) :
    Signals.wakes { wires := s.wires, clk := clk } { wires := s'.wires, clk := clk' } =
      awake (!clk && clk') (changed s s') := by
  funext p
  cases p with
  | method c => cases c <;> rfl
  | cthread t => rfl

/-- A moment at which nothing is half written. -/
def between (s : System hw F) (now delta : Nat) (clk : Bool) (runnable : Process hw → Bool)
    (timed : Process hw → Option Nat) : State (Process hw) (Instances hw F) (Signals hw F) where
  now := now
  delta := delta
  modules := { system := s, clk := clk }
  current := { wires := s.wires, clk := clk }
  runnable := runnable
  timed := timed
  finished := false

/-- A delta cycle between two such moments. -/
lemma cycle_between (floats : FloatEq same) {s s' : System hw F} (plain : Plain s.wires)
    (plain' : Plain s'.wires) {delta : Nat} {clk clk' : Bool} {timed' : Process hw → Option Nat}
    (system : (evaluate (Process.exec cfg { wires := s.wires, clk := clk })
      (order.list.filter runnable) { system := s, clk := clk }).system = s')
    (clock : (evaluate (Process.exec cfg { wires := s.wires, clk := clk })
        (order.list.filter runnable) { system := s, clk := clk }).clk = clk' ∧
      (design same cfg).notified now (order.list.filter runnable) timed = timed') :
    (design same cfg).cycle order.list (between s now delta clk runnable timed) =
      { between s' now (delta + 1) clk'
          (if s'.stopped then fun _ => false else awake (!clk && clk') (changed s s')) timed' with
        finished := s'.stopped } := by
  obtain ⟨clock, notified⟩ := clock
  have modules : evaluate (Process.exec cfg { wires := s.wires, clk := clk })
      (order.list.filter runnable) { system := s, clk := clk } =
        { system := s', clk := clk' } := by
    rw [← system, ← clock]
  have update : Signals.update same { wires := s.wires, clk := clk } { system := s', clk := clk' } =
      { wires := s'.wires, clk := clk' } := Signals.update_eq floats plain plain'
  unfold Design.cycle between
  simp only [design, modules, update, wakes_eq]
  congr 1

/-- The moments of a simulation. The edge `t` is `edge t`, where `END_REDUCER` may still have to run
for the initialization; behind it the signals settle, the clock falls and rises again. -/
inductive Moment where
  | boot
  | rise (t : Nat)
  | edge (t : Nat) (ended : Bool)
  | settle (t : Nat)
  | high (t delta : Nat)
  | fall (t : Nat)
  | low (t : Nat)
  | halt (t : Nat)

namespace Moment

/-- The edges that have been computed. -/
def edges : Moment → Nat
  | boot => 0
  | rise t | edge t _ => t
  | settle t | high t _ | fall t | low t | halt t => t + 1

variable (cfg) (c : Choices hw F)

/-- The state of the kernel at a moment. -/
def state : Moment → State (Process hw) (Instances hw F) (Signals hw F)
  | boot => simulationStart c.junk
  | rise t =>
    between (run cfg c.env t) (edgeTime t) 0 false (fun p => decide (p = .method .posedgeAction))
      fun _ => none
  | edge t ended =>
    between (run cfg c.env t) (edgeTime t) 1 true (awake true ended)
      (pending (.method .negedgeAction) (edgeTime t + 5000))
  | settle t =>
    between ((run cfg c.env (t + 1)).withEnded (run cfg c.env t).ended) (edgeTime t) 2 true
      (awake false true) (pending (.method .negedgeAction) (edgeTime t + 5000))
  | high t delta =>
    between (run cfg c.env (t + 1)) (edgeTime t) delta true (awake false false)
      (pending (.method .negedgeAction) (edgeTime t + 5000))
  | fall t =>
    between (run cfg c.env (t + 1)) (edgeTime t + 5000) 0 true
      (fun p => decide (p = .method .negedgeAction)) fun _ => none
  | low t =>
    between (run cfg c.env (t + 1)) (edgeTime t + 5000) 1 false (awake false false)
      (pending (.method .posedgeAction) (edgeTime t + 5000 + 5000))
  | halt t =>
    { between (run cfg c.env (t + 1)) (edgeTime t) 2 true (fun _ => false)
        (pending (.method .negedgeAction) (edgeTime t + 5000)) with
      finished := true }

/-- The moment behind a moment. -/
def next : Moment → Moment
  | boot => edge 0 (changed (System.elaborated c.junk) (run cfg c.env 0))
  | rise t => edge t false
  | edge t _ =>
    if (run cfg c.env (t + 1)).stopped then halt t
    else if changed (run cfg c.env t) (run cfg c.env (t + 1)) then settle t
    else high t 2
  | settle t => high t 3
  | high t _ => fall t
  | fall t => low t
  | low t => rise (t + 1)
  | halt t => halt t

/-- What is known at a moment: only at the end the simulation has been stopped, and from the second
edge on the output of `END_REDUCER` is up to date in front of an edge. -/
def Valid : Moment → Prop
  | boot => True
  | edge t ended =>
    (run cfg c.env t).stopped = false ∧
      (ended = false → (run cfg c.env t).cycleEnded = (run cfg c.env t).ended) ∧
        (ended = true → t = 0)
  | rise t =>
    (run cfg c.env t).stopped = false ∧ (run cfg c.env t).cycleEnded = (run cfg c.env t).ended
  | settle t | high t _ | fall t | low t => (run cfg c.env (t + 1)).stopped = false
  | halt t => (run cfg c.env (t + 1)).stopped = true

end Moment

variable {c : Choices hw F}

/-- A simulation that goes on has not been stopped before. -/
lemma running_before {env : Env hw F} {t : Nat} (go : (run cfg env (t + 1)).stopped = false) :
    (run cfg env t).stopped = false := by
  cases st : (run cfg env t).stopped with
  | false => rfl
  | true =>
    rw [show run cfg env (t + 1) = run cfg env t from Edge.edge_stopped cfg (env.sched t) st,
      st] at go
    cases go

/-- Behind an edge that does not stop the simulation the output of `END_REDUCER` is up to date. -/
lemma cycleEnded_settled {env : Env hw F} {t : Nat} (go : (run cfg env (t + 1)).stopped = false) :
    (run cfg env (t + 1)).cycleEnded = (run cfg env (t + 1)).ended :=
  Edge.edge_cycleEnded cfg (env.sched t) (running_before go) go

/-- The first edge does not stop the simulation. -/
lemma running_start (env : Env hw F) :
    (run cfg env 0).stopped = false ∧ (run cfg env 1).stopped = false := by
  have start : (run cfg env 0).stopped = false :=
    (Edge.methodPhase_previousLayer_add env.boot (System.elaborated env.junk) rfl rfl).2.2.1
  have copy : (run cfg env 0).previousLayerController = {} :=
    Edge.methodPhase_previousLayerController env.boot (System.elaborated env.junk)
  refine ⟨start, ?_⟩
  have out : (run cfg env 0).previousLayerController.wrToOutO = false := by rw [copy]
  have clr : (run cfg env 0).previousLayerController.clrO = false := by rw [copy]
  have stays := (Edge.methodPhase_previousLayer_add (env.sched 0) (run cfg env 0) out clr).2.2.1
  change ((run cfg env 0).edge cfg (env.sched 0)).previousLayer.stopped = false
  rw [Edge.edge_previousLayer cfg (env.sched 0) start, stays]
  exact start

omit [Binary32Ops F] [DecidableEq F] in
/-- A state has not changed against itself. -/
@[simp] lemma changed_self (s : System hw F) : changed s s = false := by simp [changed]

/-- A phase does not look at the output of `END_REDUCER` in the module itself. -/
lemma phase_withEnded (w : Wires hw F) (sch : Schedule hw) (s : System hw F) (b : Bool) :
    evaluate (Thread.exec cfg w) sch.threads (evaluate (Method.exec w) sch.methods (s.withEnded b)) =
      (evaluate (Thread.exec cfg w) sch.threads (evaluate (Method.exec w) sch.methods s)).withEnded
        b := by
  have methods := evaluate_proj (Method.exec w) (fun s => s.withEnded b) (Method.exec w)
    (fun m s => by cases m <;> rfl) sch.methods s
  have threads := evaluate_proj (Thread.exec cfg w) (fun s => s.withEnded b) (Thread.exec cfg w)
    (fun t s => by cases t <;> rfl) sch.threads (evaluate (Method.exec w) sch.methods s)
  rw [← methods, ← threads]

/-- A phase leaves the output of `END_REDUCER`. -/
lemma phase_cycleEnded (sch : Schedule hw) (s : System hw F) :
    (Edge.threadPhase cfg sch s).cycleEnded = s.cycleEnded := by
  have methods := evaluate_proj (Method.exec s.wires) System.cycleEnded (fun _ b => b)
    (fun m s => by cases m <;> rfl) sch.methods s
  have threads := evaluate_proj (Thread.exec cfg s.wires) System.cycleEnded (fun _ b => b)
    (fun t s => by cases t <;> rfl) sch.threads (s.methodPhase sch)
  rw [evaluate_inert fun _ _ _ => rfl] at methods threads
  exact threads.trans methods

variable (floats : FloatEq same)
include floats

/-- The initialization. -/
lemma step_boot (plain : Plain (run cfg c.env 0).wires) :
    (design same cfg).step (c.order 0 0).list (Moment.boot.state cfg c) =
    (Moment.boot.next cfg c).state cfg c := by
  have runs : (Moment.boot.state cfg c).runnable (.method .posedgeAction) = true := rfl
  rw [Design.step_cycle rfl ((c.order 0 0).mem_list _) runs]
  have system : (evaluate (Process.exec cfg (Moment.boot.state cfg c).current)
      ((c.order 0 0).list.filter (Moment.boot.state cfg c).runnable)
      (Moment.boot.state cfg c).modules).system = run cfg c.env 0 := by
    have rest : (evaluate (Process.exec cfg (Moment.boot.state cfg c).current)
        ((c.order 0 0).list.filter (Moment.boot.state cfg c).runnable)
        (Moment.boot.state cfg c).modules).system.withEnded false =
          ((System.elaborated c.junk).methodPhase (c.order 0 0).schedule).withEnded false :=
      (system_boot (fun _ => rfl) fun _ => rfl).trans
        (evaluate_proj (Method.exec (System.elaborated c.junk).wires) (fun s => s.withEnded false)
          (Method.exec (System.elaborated c.junk).wires) (fun m s => by cases m <;> rfl) _ _).symm
    rw [System.eq_withEnded rest, cycleEnded_phase]
    rfl
  have alone : ∀ r, (Moment.boot.state cfg c).runnable r = true → r ≠ .method .posedgeAction →
      r.tick = id ∧ r.notify = none := by
    intro r run ne
    cases r with
    | method m =>
      cases m with
      | clocked m => exact ⟨rfl, rfl⟩
      | reduce => exact ⟨rfl, rfl⟩
      | posedgeAction => exact absurd rfl ne
      | negedgeAction => cases run
    | cthread t => exact ⟨rfl, rfl⟩
  have start : Plain (System.elaborated c.junk : System hw F).wires :=
    ⟨floats.int 0, fun _ => floats.int 0, fun _ => floats.int 0, floats.int 0, fun _ => floats.int 0⟩
  refine (cycle_between floats start plain system
    (clock_acts runs alone (fun _ => rfl) rfl)).trans ?_
  rw [(running_start c.env).1]
  rfl

/-- Only the clock rises, or only it falls. -/
lemma step_clock {s : System hw F} (plain : Plain s.wires) {delta : Nat} {clk b : Bool} {p q : Process hw}
    (go : s.stopped = false) (clock : ∃ m, p = .method m ∧ Order.clocked? m = none ∧ m ≠ .reduce)
    (value : ∀ b', p.tick b' = b) (notify : p.notify = some (q, 5000)) :
    (design same cfg).step order.list
        (between s now delta clk (fun r => decide (r = p)) fun _ => none) =
      between s now (delta + 1) b (awake (!clk && b) false) (pending q (now + 5000)) := by
  obtain ⟨m, rfl, unclocked, other⟩ := clock
  have runs : decide (Process.method m = .method m) = true := decide_eq_true rfl
  rw [Design.step_cycle rfl (order.mem_list _) runs]
  have methods : ∀ n, decide (Process.method (.clocked n) = .method m) = false := by
    intro n
    refine decide_eq_false fun eq => ?_
    cases Process.method.inj eq
    cases unclocked
  have threads : ∀ t : Thread hw, decide (Process.cthread t = .method m) = false := fun t =>
    decide_eq_false fun eq => by cases eq
  have reduce : decide (Process.method .reduce = .method m) = false :=
    decide_eq_false fun eq => other (Process.method.inj eq).symm
  have system : (evaluate (Process.exec cfg { wires := s.wires, clk := clk })
      (order.list.filter fun r => decide (r = .method m)) { system := s, clk := clk }).system =
        s := by
    rw [System.eq_withEnded (system_quiet methods threads), cycleEnded_phase, reduce]
    rfl
  have alone : ∀ r, decide (r = Process.method m) = true → r ≠ .method m →
      r.tick = id ∧ r.notify = none := fun r run ne => absurd (of_decide_eq_true run) ne
  refine (cycle_between floats plain plain system (clock_acts runs alone value notify)).trans ?_
  rw [go, changed_self]
  rfl

/-- `END_REDUCER` runs alone. -/
lemma step_settle {s : System hw F} (plain : Plain s.wires) {delta : Nat} (go : s.stopped = false) :
    (design same cfg).step order.list (between s now delta true (awake false true) timed) =
      between (s.withEnded s.ended) now (delta + 1) true (awake false false) timed := by
  rw [Design.step_cycle rfl (order.mem_list (.method .reduce)) rfl]
  have system : (evaluate (Process.exec cfg { wires := s.wires, clk := true })
      (order.list.filter (awake false true)) { system := s, clk := true }).system =
        s.withEnded s.ended := by
    rw [System.eq_withEnded (system_quiet (fun _ => rfl) fun _ => rfl), cycleEnded_phase]
    rfl
  have alone : ∀ r : Process hw, awake false true r = true → r.tick = id ∧ r.notify = none := by
    intro r run
    cases r with
    | method m =>
      cases m with
      | reduce => exact ⟨rfl, rfl⟩
      | clocked | posedgeAction | negedgeAction => cases run
    | cthread t => cases run
  have plain' : Plain (s.withEnded s.ended).wires :=
    ⟨plain.io, plain.weight, plain.previous, plain.next, plain.result⟩
  refine (cycle_between floats plain plain' system (clock_rests alone)).trans ?_
  have still : changed s (s.withEnded s.ended) = false := changed_self s
  rw [System.withEnded_stopped, go, still]
  rfl

/-- An edge. -/
lemma step_edge (plain : ∀ t, Plain (run cfg c.env t).wires) {t : Nat} {ended : Bool}
    (valid : (Moment.edge t ended).Valid cfg c) :
    (design same cfg).step (c.order (edgeTime t) 1).list ((Moment.edge t ended).state cfg c) =
      ((Moment.edge t ended).next cfg c).state cfg c := by
  obtain ⟨go, old, first⟩ := valid
  rw [Design.step_cycle rfl ((c.order (edgeTime t) 1).mem_list (.cthread .process)) rfl]
  have system : (evaluate (Process.exec cfg { wires := (run cfg c.env t).wires, clk := true })
      ((c.order (edgeTime t) 1).list.filter (awake true ended))
      { system := run cfg c.env t, clk := true }).system =
        (Edge.threadPhase cfg (c.env.sched t) (run cfg c.env t)).withEnded
          (run cfg c.env t).ended := by
    have rest : (evaluate (Process.exec cfg { wires := (run cfg c.env t).wires, clk := true })
        ((c.order (edgeTime t) 1).list.filter (awake true ended))
        { system := run cfg c.env t, clk := true }).system.withEnded false =
          (Edge.threadPhase cfg (c.env.sched t) (run cfg c.env t)).withEnded false :=
      (system_edge (fun _ => rfl) fun _ => rfl).trans
        (phase_withEnded (run cfg c.env t).wires (c.env.sched t) (run cfg c.env t) false)
    rw [System.eq_withEnded rest, cycleEnded_phase]
    cases ended with
    | true => rfl
    | false => exact congrArg _ (old rfl)
  have alone : ∀ r : Process hw, awake true ended r = true → r.tick = id ∧ r.notify = none := by
    intro r run
    cases r with
    | method m =>
      cases m with
      | clocked m => exact ⟨rfl, rfl⟩
      | reduce => exact ⟨rfl, rfl⟩
      | posedgeAction | negedgeAction => cases run
    | cthread t => exact ⟨rfl, rfl⟩
  have edge : run cfg c.env (t + 1) =
      (Edge.threadPhase cfg (c.env.sched t) (run cfg c.env t)).settle :=
    Edge.edge_running cfg (c.env.sched t) go
  have plain' : Plain ((Edge.threadPhase cfg (c.env.sched t) (run cfg c.env t)).withEnded
      (run cfg c.env t).ended).wires := by
    have next := plain (t + 1)
    rw [edge, System.settle] at next
    split at next
    · exact ⟨next.io, next.weight, next.previous, next.next, next.result⟩
    · exact ⟨next.io, next.weight, next.previous, next.next, next.result⟩
  refine (cycle_between floats (plain t) plain' system (clock_rests alone)).trans ?_
  rw [System.withEnded_stopped, Moment.next]
  cases st : (Edge.threadPhase cfg (c.env.sched t) (run cfg c.env t)).stopped with
  | true =>
    -- the stop ends the delta cycle, and the output of `END_REDUCER` stays as it is
    have last : run cfg c.env (t + 1) =
        Edge.threadPhase cfg (c.env.sched t) (run cfg c.env t) := by
      rw [edge, System.settle, if_pos st]
    have late : ended = false := by
      cases ended with
      | false => rfl
      | true =>
        obtain rfl := first rfl
        rw [← last, (running_start c.env).2] at st
        cases st
    have same_ : (Edge.threadPhase cfg (c.env.sched t) (run cfg c.env t)).withEnded
        (run cfg c.env t).ended = run cfg c.env (t + 1) := by
      rw [last, ← old late, ← phase_cycleEnded (c.env.sched t)]
      rfl
    have halted : (run cfg c.env (t + 1)).stopped = true := by rw [last]; exact st
    rw [same_, halted, if_pos rfl, if_pos rfl]
    rfl
  | false =>
    have last : run cfg c.env (t + 1) =
        (Edge.threadPhase cfg (c.env.sched t) (run cfg c.env t)).withEnded
          (Edge.threadPhase cfg (c.env.sched t) (run cfg c.env t)).ended := by
      rw [edge, System.settle, st, if_neg Bool.false_ne_true]
      rfl
    have running : (run cfg c.env (t + 1)).stopped = false := by rw [last]; exact st
    have same_ : (Edge.threadPhase cfg (c.env.sched t) (run cfg c.env t)).withEnded
        (run cfg c.env t).ended =
          (run cfg c.env (t + 1)).withEnded (run cfg c.env t).ended := by rw [last]; rfl
    rw [same_, running, if_neg Bool.false_ne_true, if_neg Bool.false_ne_true]
    have inputs : changed (run cfg c.env t)
        ((run cfg c.env (t + 1)).withEnded (run cfg c.env t).ended) =
          changed (run cfg c.env t) (run cfg c.env (t + 1)) := rfl
    rw [inputs]
    cases change : changed (run cfg c.env t) (run cfg c.env (t + 1)) with
    | true => rfl
    | false =>
      rw [ended_eq change, ← cycleEnded_settled running]
      rfl

/-- One step of the kernel. -/
lemma moment_step (plain : ∀ t, Plain (run cfg c.env t).wires) {m : Moment} (valid : m.Valid cfg c) :
    (design same cfg).step (c.order (m.state cfg c).now (m.state cfg c).delta).list
      (m.state cfg c) = (m.next cfg c).state cfg c := by
  cases m with
  | boot => exact step_boot floats (plain 0)
  | rise t =>
    exact step_clock floats (plain t) valid.1 ⟨_, rfl, rfl, fun eq => by cases eq⟩ (fun _ => rfl) rfl
  | edge t ended => exact step_edge floats plain valid
  | settle t =>
    have plain' : Plain ((run cfg c.env (t + 1)).withEnded (run cfg c.env t).ended).wires :=
      ⟨(plain (t + 1)).io, (plain (t + 1)).weight, (plain (t + 1)).previous, (plain (t + 1)).next,
        (plain (t + 1)).result⟩
    refine (step_settle floats plain' (System.withEnded_stopped _ _ ▸ valid)).trans ?_
    rw [System.withEnded_withEnded, System.withEnded_ended, ← cycleEnded_settled valid]
    rfl
  | high t delta =>
    exact Design.step_advance rfl (fun p => by cases p with
      | method m => cases m <;> rfl
      | cthread t => rfl) (Order.nodup_list _) (Order.mem_list _ _) rfl
  | fall t =>
    exact step_clock floats (plain (t + 1)) valid ⟨_, rfl, rfl, fun eq => by cases eq⟩ (fun _ => rfl) rfl
  | low t =>
    have period : edgeTime (t + 1) = edgeTime t + 5000 + 5000 := by
      rw [edgeTime, edgeTime]
      omega
    rw [Moment.next, Moment.state, Moment.state, period]
    exact Design.step_advance rfl (fun p => by cases p with
      | method m => cases m <;> rfl
      | cthread t => rfl) (Order.nodup_list _) (Order.mem_list _ _) rfl
  | halt t => exact Design.step_finished rfl

omit floats in
/-- What is known at a moment is known at the next one. -/
lemma Moment.Valid.next {m : Moment} (valid : m.Valid cfg c) : (m.next cfg c).Valid cfg c := by
  cases m with
  | boot =>
    refine ⟨(running_start c.env).1, fun same => ?_, fun _ => rfl⟩
    exact ended_eq same
  | rise t => exact ⟨valid.1, fun _ => valid.2, fun eq => by cases eq⟩
  | edge t ended =>
    rw [Moment.next]
    split
    · next st => exact st
    · next go =>
      split
      · exact Bool.eq_false_iff.2 go
      · exact Bool.eq_false_iff.2 go
  | settle t | high t delta | fall t => exact valid
  | low t => exact ⟨valid, cycleEnded_settled valid⟩
  | halt t => exact valid

omit floats

variable (cfg c) in
/-- The moment after some steps of the kernel. -/
def moment : Nat → Moment
  | 0 => .boot
  | n + 1 => (moment n).next cfg c

/-- Every moment of the schedule is valid. -/
lemma moment_valid (n : Nat) : (moment cfg c n).Valid cfg c := by
  induction n with
  | zero => trivial
  | succ n ih => exact ih.next

/-- The kernel goes through the moments. -/
lemma simulation_eq (floats : FloatEq same) (plain : ∀ t, Plain (run cfg c.env t).wires) (n : Nat) :
    simulation same cfg c n = (moment cfg c n).state cfg c := by
  induction n with
  | zero => rfl
  | succ n ih =>
    have step : simulation same cfg c (n + 1) =
        (design same cfg).step (c.order (simulation same cfg c n).now
          (simulation same cfg c n).delta).list (simulation same cfg c n) := rfl
    rw [step, ih]
    exact moment_step floats plain (moment_valid n)

/-- What has been printed at a moment has been printed in front of its edge. -/
lemma Moment.printed (m : Moment) :
    (m.state cfg c).modules.system.io.printed = (run cfg c.env m.edges).io.printed := by
  cases m with
  | boot =>
    have io : (run cfg c.env 0).io = {} :=
      (Edge.methodPhase_io c.env.boot (System.elaborated c.env.junk)).trans
        (Invariant.readData_quiet (.inr rfl))
    rw [Moment.edges, io]
    rfl
  | rise | edge | settle | high | fall | low | halt => rfl

/-- The text is the one of the edges. -/
lemma simulationText_eq [TextOps F] (floats : FloatEq same)
    (plain : ∀ t, Plain (run cfg c.env t).wires) (n : Nat) :
    simulationText same cfg c n = resultText cfg c.env (moment cfg c n).edges := by
  induction n with
  | zero => rfl
  | succ n ih =>
    rw [simulationText, ih]
    simp only [simulation_eq floats plain, Moment.printed]
    -- nothing is printed but at an edge
    have still : (moment cfg c (n + 1)).edges = (moment cfg c n).edges →
        resultText cfg c.env (moment cfg c n).edges ++
          ((run cfg c.env (moment cfg c (n + 1)).edges).io.printed.drop
            (run cfg c.env (moment cfg c n).edges).io.printed.length).flatMap
              (fun r => resultLine ((moment cfg c n).state cfg c).now r.1 r.2) =
        resultText cfg c.env (moment cfg c (n + 1)).edges := by
      intro same
      rw [same, List.drop_length]
      exact List.append_nil _
    cases at_ : moment cfg c n with
    | edge t ended =>
      have next : (moment cfg c (n + 1)).edges = t + 1 := by
        rw [moment, at_, Moment.next]
        split
        · rfl
        · split
          · rfl
          · rfl
      rw [next]
      rfl
    | boot | rise | settle | high | fall | low | halt =>
      rw [← at_]
      apply still
      rw [moment, at_]
      rfl

/-- When the signals have settled the next edge comes. -/
lemma moment_high {n t delta : Nat} (high : moment cfg c n = .high t delta) :
    moment cfg c (n + 4) = .edge (t + 1) false := by
  have fall : moment cfg c (n + 1) = .fall t := congrArg (Moment.next cfg c) high
  have low : moment cfg c (n + 2) = .low t := congrArg (Moment.next cfg c) fall
  have rise : moment cfg c (n + 3) = .rise (t + 1) := congrArg (Moment.next cfg c) low
  exact congrArg (Moment.next cfg c) rise

/-- Every edge comes. -/
lemma edge_reached {t : Nat} (go : (run cfg c.env t).stopped = false) :
    ∃ n ended, moment cfg c n = .edge t ended := by
  induction t with
  | zero => exact ⟨1, _, rfl⟩
  | succ t ih =>
    obtain ⟨n, ended, here⟩ := ih (running_before go)
    have behind : moment cfg c (n + 1) = .settle t ∨ moment cfg c (n + 1) = .high t 2 := by
      rw [moment, here, Moment.next, go, if_neg Bool.false_ne_true]
      split
      · exact .inl rfl
      · exact .inr rfl
    rcases behind with settle | high
    · have high : moment cfg c (n + 2) = .high t 3 := congrArg (Moment.next cfg c) settle
      exact ⟨n + 6, false, moment_high high⟩
    · exact ⟨n + 5, false, moment_high high⟩

/-- The end comes, and stays. -/
lemma halt_reached {t : Nat} (st : (run cfg c.env t).stopped = true) :
    ∃ u n, u + 1 ≤ t ∧ (run cfg c.env (u + 1)).stopped = true ∧
      ∀ m ≥ n, moment cfg c m = .halt u := by
  induction t with
  | zero =>
    rw [(running_start c.env).1] at st
    cases st
  | succ t ih =>
    cases go : (run cfg c.env t).stopped with
    | true =>
      obtain ⟨u, n, le, halt⟩ := ih go
      exact ⟨u, n, Nat.le_succ_of_le le, halt⟩
    | false =>
      obtain ⟨n, ended, here⟩ := edge_reached go
      refine ⟨t, n + 1, le_refl _, st, fun m le => ?_⟩
      induction m, le using Nat.le_induction with
      | base => rw [moment, here, Moment.next, st, if_pos rfl]
      | succ m _ ih => rw [moment, ih, Moment.next]

/-- A stopped simulation stays as it is, and so does its text. -/
lemma stopped_stays [TextOps F] {env : Env hw F} {u t : Nat}
    (st : (run cfg env u).stopped = true) (le : u ≤ t) :
    run cfg env t = run cfg env u ∧ resultText cfg env t = resultText cfg env u := by
  induction t, le using Nat.le_induction with
  | base => exact ⟨rfl, rfl⟩
  | succ t _ ih =>
    have same : run cfg env (t + 1) = run cfg env t :=
      Edge.edge_stopped cfg (env.sched t) (ih.1 ▸ st)
    refine ⟨same.trans ih.1, ?_⟩
    rw [resultText, same, List.drop_length, ih.2]
    exact List.append_nil _

/-- The system at a moment is the one of its edge, but for the output of `END_REDUCER`. -/
lemma Moment.system {m : Moment} (late : m ≠ .boot) :
    (run cfg c.env m.edges).withEnded false =
      (m.state cfg c).modules.system.withEnded false := by
  cases m with
  | boot => exact absurd rfl late
  | rise | edge | settle | high | fall | low | halt => rfl

/-- The kernel has finished when the simulation is stopped. -/
lemma Moment.Valid.finished {m : Moment} (valid : m.Valid cfg c) :
    (run cfg c.env m.edges).stopped = (m.state cfg c).finished := by
  cases m with
  | boot => exact (running_start c.env).1
  | rise t | edge t ended => exact valid.1
  | settle t | high t delta | fall t | low t | halt t => exact valid

/-- The initialization does not come again. -/
lemma moment_late (n : Nat) : moment cfg c (n + 1) ≠ .boot := by
  rw [moment]
  cases moment cfg c n with
  | edge t ended =>
    rw [Moment.next]
    split
    · exact Moment.noConfusion
    · split
      · exact Moment.noConfusion
      · exact Moment.noConfusion
  | boot | rise | settle | high | fall | low | halt => exact Moment.noConfusion

end NnProcessor.Model

namespace NnProcessor.Correctness
open NnProcessor.Model NnProcessor.Invariant

variable {hw : Hw} {F : Type}

/-- The kernel computes the edges of `run`: behind the initialization it is always in the state of an
edge, but for the output of `END_REDUCER`, and has written what has been written in front of it; every
edge comes, as a delta cycle of its time in which all clocked processes are runnable; when an edge
stops the simulation the kernel finishes in its state; and no storage is used outside of its words. -/
structure RefinesEdges [Binary32Ops F] [DecidableEq F] [TextOps F] (same : F → F → Bool)
    (cfg : Config F) (c : Choices hw F) : Prop where
  states : ∀ n, ∃ t, (run cfg c.env t).withEnded false =
      (simulation same cfg c (n + 1)).modules.system.withEnded false ∧
    (run cfg c.env t).stopped = (simulation same cfg c (n + 1)).finished ∧
      resultText cfg c.env t = simulationText same cfg c (n + 1)
  edges : ∀ t, (run cfg c.env t).stopped = false → ∃ n,
    (simulation same cfg c n).now = edgeTime t ∧
      (simulation same cfg c n).modules.system = run cfg c.env t ∧
      (simulation same cfg c n).current.wires = (run cfg c.env t).wires ∧
      (∀ m, (simulation same cfg c n).runnable (.method (.clocked m)) = true) ∧
      ∀ th, (simulation same cfg c n).runnable (.cthread th) = true
  stop : ∀ t, (run cfg c.env t).stopped = true → ∃ n, ∀ m ≥ n,
    (simulation same cfg c m).finished = true ∧
      (simulation same cfg c m).modules.system = run cfg c.env t ∧
      simulationText same cfg c m = resultText cfg c.env t
  bounds : ∀ n, InBounds (simulation same cfg c (n + 1)).modules.system

variable [Binary32 F] [DecidableEq F] [TextOps F] {same : F → F → Bool} {cfg : Config F}

omit [TextOps F] in
/-- If no zero with a sign is read, none is ever on a signal. -/
lemma plain_run (floats : FloatEq same) (positive : ∀ x ∈ cfg.picture ++ cfg.weights, ¬IsNegZero x)
    (finite : ∀ x ∈ cfg.results, ¬IsInfinite x) (env : Env hw F) (t : Nat) :
    Plain (run cfg env t).wires :=
  words_run ⟨floats.int, floats.infinite, floats.sigmoid, positive⟩ finite env t

/-- When an edge stops the simulation the kernel finishes. -/
lemma kernel_stops (floats : FloatEq same) {c : Choices hw F}
    (plain : ∀ t, Plain (run cfg c.env t).wires) {t : Nat}
    (st : (run cfg c.env t).stopped = true) :
    ∃ n, ∀ m ≥ n, (simulation same cfg c m).finished = true ∧
      (simulation same cfg c m).modules.system = run cfg c.env t ∧
      simulationText same cfg c m = resultText cfg c.env t := by
  obtain ⟨u, n, le, last, halted⟩ := halt_reached st
  obtain ⟨still, text⟩ := stopped_stays last le
  refine ⟨n, fun m late => ?_⟩
  rw [simulationText_eq floats plain, simulation_eq floats plain, halted m late, still, text]
  exact ⟨rfl, rfl, rfl⟩

/-- **The kernel refines the edges.** For every order in which the kernel takes the runnable processes
from its queues, delta cycle by delta cycle, the simulation is the one of `run` with the orders of the
edges. As `sc_signal` does not take over a new value that is equal to the current one, no word that is
read may be the zero with a sign. -/
theorem kernel_refines (floats : FloatEq same) (inside : cfg.Inside hw)
    (positive : ∀ x ∈ cfg.picture ++ cfg.weights, ¬IsNegZero x)
    (picture : cfg.layers.length ≤ 1 → ∀ x ∈ cfg.picture, ¬IsInfinite x) (c : Choices hw F) :
    RefinesEdges same cfg c := by
  have finite := finite_results cfg picture
  have plain := plain_run floats positive finite c.env
  constructor
  · intro n
    rw [simulation_eq floats plain]
    exact ⟨(moment cfg c (n + 1)).edges, Moment.system (moment_late n),
      (moment_valid (n + 1)).finished, (simulationText_eq floats plain _).symm⟩
  · intro t go
    obtain ⟨n, ended, here⟩ := edge_reached go
    refine ⟨n, ?_⟩
    rw [simulation_eq floats plain, here]
    exact ⟨rfl, rfl, rfl, fun _ => rfl, fun _ => rfl⟩
  · exact fun t => kernel_stops floats plain
  · intro n
    rw [simulation_eq floats plain]
    -- the output of `END_REDUCER` is no address
    have edge : InBounds ((run cfg c.env (moment cfg c (n + 1)).edges).withEnded false) := by
      obtain ⟨weight, previous, slots⟩ :=
        inBounds_run finite inside c.env (moment cfg c (n + 1)).edges
      exact ⟨weight, previous, slots⟩
    rw [Moment.system (moment_late n)] at edge
    exact ⟨edge.weight, edge.previous, edge.slots⟩

/-- The kernel that takes the processes in the order of `Order.listed`. -/
theorem kernel_refines_deep :
    RefinesEdges Extended.sameWord deepNetwork
      { junk := fun _ => .negZero, order := fun _ _ => .listed .configH } :=
  kernel_refines Extended.sameWord_floatEq deepNetwork_supported.inside
    deepNetwork_supported.positive (fun one => absurd one (by decide)) _

/-- **What the kernel writes.** Files that `loadData` accepts, with a configuration that is supported,
give the same `RESULT` lines: whatever is on the heap, and in whatever order the kernel takes the
processes from its queues in each delta cycle, it comes to an end, and then it has written the words of
the reference network, each behind `sc_time_stamp()`, which has advanced by one period of the clock
from line to line. -/
theorem kernel_output {files : String → Option (List Char)} {f g : String}
    (floats : FloatEq same) (ok : loadData F files f g = .ok cfg) (supported : cfg.Supported hw) :
    ∃ first, ∀ c : Choices hw F, ∃ n, ∀ m ≥ n, (simulation same cfg c m).finished = true ∧
      simulationText same cfg c m = (numbered cfg.reference).flatMap fun r =>
        resultLine (edgeTime (first + r.1)) r.1 r.2 := by
  have finite := loadData_results ok
  obtain ⟨first, text⟩ := program_output ok supported
  refine ⟨first, fun c => ?_⟩
  obtain ⟨stops, lines, -⟩ := text c.env (first + cfg.reference.length)
  obtain ⟨n, ends⟩ := kernel_stops floats (plain_run floats supported.positive finite c.env)
    (stops.2 (le_refl _))
  refine ⟨n, fun m le => ⟨(ends m le).1, ?_⟩⟩
  rw [(ends m le).2.2, lines, Nat.add_sub_cancel_left, List.take_length]

/-- The files of the small network. -/
theorem kernel_output_small : ∃ first, ∀ c : Choices .configH Extended, ∃ n, ∀ m ≥ n,
    (simulation Extended.sameWord smallNetwork c m).finished = true ∧
      simulationText Extended.sameWord smallNetwork c m =
        (numbered smallNetwork.reference).flatMap fun r =>
          resultLine (edgeTime (first + r.1)) r.1 r.2 :=
  kernel_output Extended.sameWord_floatEq loadData_smallFiles smallNetwork_supported

end NnProcessor.Correctness
