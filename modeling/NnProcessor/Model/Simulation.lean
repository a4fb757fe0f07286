import NnProcessor.Kernel.Delta
import NnProcessor.Model.Files

/-!
# The simulation by the kernel

`run` steps from edge to edge. Here `sc_start()` is run one delta cycle after the other: the clock is
a channel with two processes of its own that notify each other, the signals have a current and a new
value, `END_REDUCER::reduce` is run when one of its inputs has changed, and `sc_stop()` takes effect
behind the update phase. The new values of the signals are the output ports of the modules.
-/

namespace NnProcessor.Model
open NnProcessor.Kernel

deriving instance DecidableEq for Method, Thread

variable {hw : Hw} {F : Type}

/-- The `SC_METHOD`s of `sc_main`, and the two that `sc_clock` spawns. -/
inductive Callback (hw : Hw) where
  | clocked (m : Method hw)
  | reduce
  | posedgeAction
  | negedgeAction
  deriving DecidableEq

/-- The processes of the simulation. -/
inductive Process (hw : Hw) where
  | method (c : Callback hw)
  | cthread (t : Thread hw)
  deriving DecidableEq

/-- The instances of `sc_main` with the new value of `clk`. -/
structure Instances (hw : Hw) (F : Type) where
  system : System hw F
  clk : Bool

/-- The current values of the signals. -/
structure Signals (hw : Hw) (F : Type) where
  wires : Wires hw F
  clk : Bool

/-- `sc_signal_t::update`; `same` is the comparison of two words with `==`. -/
def takeOver (same : F → F → Bool) (cur new : F) : F := if same new cur then cur else new

/-- The update phase. -/
def Signals.update (same : F → F → Bool) (cur : Signals hw F) (m : Instances hw F) :
    Signals hw F where
  wires :=
    { m.system.wires with
      dataIoBus := takeOver same cur.wires.dataIoBus m.system.wires.dataIoBus
      dataWeightBus := fun k =>
        takeOver same (cur.wires.dataWeightBus k) (m.system.wires.dataWeightBus k)
      dataPrevLayerBus := fun k =>
        takeOver same (cur.wires.dataPrevLayerBus k) (m.system.wires.dataPrevLayerBus k)
      dataFromNowLayerToNextLayer :=
        takeOver same cur.wires.dataFromNowLayerToNextLayer
          m.system.wires.dataFromNowLayerToNextLayer
      resmemDataBus := fun k =>
        takeOver same (cur.wires.resmemDataBus k) (m.system.wires.resmemDataBus k) }
  clk := m.clk

/-- The events of the update phase the processes are sensitive to: the positive edge of the clock, or
a change of an input of `END_REDUCER`. -/
def Signals.wakes (cur new : Signals hw F) : Process hw → Bool
  | .method (.clocked _) | .cthread _ => !cur.clk && new.clk
  | .method .reduce =>
    decide (cur.wires.genEnd ≠ new.wires.genEnd ∨
      ∃ k, cur.wires.contrEmptyBus k ≠ new.wires.contrEmptyBus k)
  | .method .posedgeAction | .method .negedgeAction => false

/-- `sc_clock::posedge_action` and `sc_clock::negedge_action` notify each other; the period of the
clock is 10 ns and its duty cycle one half. -/
def Process.notify : Process hw → Option (Process hw × Nat)
  | .method .posedgeAction => some (.method .negedgeAction, 5000)
  | .method .negedgeAction => some (.method .posedgeAction, 5000)
  | .method (.clocked _) | .method .reduce | .cthread _ => none

variable [Binary32Ops F] [DecidableEq F]

/-- A process runs. -/
def Process.exec (cfg : Config F) (cur : Signals hw F) :
    Process hw → Instances hw F → Instances hw F
  | .method (.clocked m), s => { s with system := m.exec cur.wires s.system }
  | .method .reduce, s =>
    { s with
      system :=
        { s.system with cycleEnded := reduce cur.wires.genEnd cur.wires.contrEmptyBus } }
  | .method .posedgeAction, s => { s with clk := true }
  | .method .negedgeAction, s => { s with clk := false }
  | .cthread t, s => { s with system := t.exec cfg cur.wires s.system }

/-- What the kernel has to know of the program. -/
def design (same : F → F → Bool) (cfg : Config F) :
    Design (Process hw) (Instances hw F) (Signals hw F) where
  exec := Process.exec cfg
  update := Signals.update same
  wakes := Signals.wakes
  notify := Process.notify
  stop m := m.system.stopped

/-- An order of the processes: the methods run in front of the threads. -/
structure Order (hw : Hw) where
  methods : List (Callback hw)
  threads : List (Thread hw)
  methods_nodup : methods.Nodup
  threads_nodup : threads.Nodup
  mem_methods : ∀ c, c ∈ methods
  mem_threads : ∀ t, t ∈ threads

namespace Order

/-- All processes in the order. -/
def list (o : Order hw) : List (Process hw) :=
  o.methods.map .method ++ o.threads.map .cthread

/-- The method is one of those that are sensitive to the clock. -/
def clocked? : Callback hw → Option (Method hw)
  | .clocked m => some m
  | .reduce | .posedgeAction | .negedgeAction => none

/-- What is clocked is the method of a callback. -/
lemma clocked?_eq {c : Callback hw} {m : Method hw} (eq : clocked? c = some m) : c = .clocked m := by
  cases c with
  | clocked n => exact congrArg Callback.clocked (Option.some.inj eq)
  | reduce | posedgeAction | negedgeAction => cases eq

/-- What is left of an order at an edge of the clock. -/
def schedule (o : Order hw) : Schedule hw where
  methods := o.methods.filterMap clocked?
  threads := o.threads
  methods_nodup := o.methods_nodup.filterMap fun _ _ _ at_ at_' =>
    (clocked?_eq at_).trans (clocked?_eq at_').symm
  threads_nodup := o.threads_nodup
  mem_methods m := List.mem_filterMap.2 ⟨.clocked m, o.mem_methods _, rfl⟩
  mem_threads := o.mem_threads

/-- One of the orders. -/
def listed (hw : Hw) : Order hw where
  methods := [.reduce, .posedgeAction, .negedgeAction] ++ (Schedule.listed hw).methods.map .clocked
  threads := (Schedule.listed hw).threads
  methods_nodup := by
    refine List.Nodup.append (by simp) ?_ (by simp [List.Disjoint])
    exact (Schedule.listed hw).methods_nodup.map fun _ _ h => Callback.clocked.inj h
  threads_nodup := (Schedule.listed hw).threads_nodup
  mem_methods c := by
    cases c with
    | clocked m =>
      exact List.mem_append_right _ (List.mem_map_of_mem ((Schedule.listed hw).mem_methods m))
    | reduce | posedgeAction | negedgeAction => simp
  mem_threads := (Schedule.listed hw).mem_threads

end Order

/-- Everything the kernel and the heap are free in: the words on the heap, and the order of each delta
cycle, given by the time and the number of delta cycles that have been at this time. -/
structure Choices (hw : Hw) (F : Type) where
  junk : Nat → F
  order : Nat → Nat → Order hw

omit [DecidableEq F] in
/-- The kernel behind `prepare_to_simulate`: every method is runnable, and so is `posedge_action`,
whose notification is due at once. -/
def simulationStart (junk : Nat → F) : State (Process hw) (Instances hw F) (Signals hw F) where
  now := 0
  delta := 0
  modules := { system := System.elaborated junk, clk := false }
  current := { wires := (System.elaborated junk).wires, clk := false }
  runnable
    | .method .negedgeAction | .cthread _ => false
    | .method _ => true
  timed _ := none
  finished := false

/-- `sc_start()`, after some steps of the kernel. -/
def simulation (same : F → F → Bool) (cfg : Config F) (c : Choices hw F) :
    Nat → State (Process hw) (Instances hw F) (Signals hw F) :=
  (design same cfg).simulate (fun now delta => (c.order now delta).list) (simulationStart c.junk)

/-- The environment of `run` that belongs to the choices: the edge `t` is the second delta cycle at its
time. -/
def Choices.env (c : Choices hw F) : Env hw F where
  junk := c.junk
  boot := (c.order 0 0).schedule
  sched t := (c.order (edgeTime t) 1).schedule

variable [TextOps F]

/-- What `IO::read_data_from_system` has written after some steps of the kernel. -/
def simulationText (same : F → F → Bool) (cfg : Config F) (c : Choices hw F) : Nat → List Char
  | 0 => []
  | n + 1 =>
    let k := simulation same cfg c n
    let k' := simulation same cfg c (n + 1)
    simulationText same cfg c n ++
      ((k'.modules.system.io.printed.drop k.modules.system.io.printed.length).flatMap
        fun r => resultLine k.now r.1 r.2)

/-- How a run of the program can end: `sc_abort()` behind a last line of `IO`, an exception that nobody
catches in `sc_main`, or `return(0)`. The lines of SystemC itself are left out, also the one of
`sc_abort()`. -/
inductive Outcome where
  | abort (console : List Char)
  | exception
  | returned (w : Written)

/-- What `IO::write_data_to_system` writes in front of `sc_abort()`. -/
def fatal : List Char := "[FATAL] Не удалось открыть один из файлов.\n".toList

/-- The lines of a program that has written those of `IO` and the statistics. -/
def streams (dest : Option String) (text stat : List Char) : Written :=
  match dest with
  | none => { console := text ++ stat, file := [] }
  | some _ => { console := stat, file := text }

/-- The lines that the program has written behind some steps of the kernel, with the statistics behind
them. -/
def simulationWritten (dest : Option String) (same : F → F → Bool) (cfg : Config F)
    (c : Choices hw F) (n : Nat) : Written :=
  streams dest (simulationText same cfg c n) (statText (simulation same cfg c n).modules.system)

/-- `sc_main`: the outcomes of the program with the arguments `args`, the texts of the files that can be
read and the files that can be written, and with the choices `c`. `sc_start()` returns when the
simulation is finished; that `wave.vcd` can be written is taken for granted. -/
inductive ScMain (same : F → F → Bool) (files : String → Option (List Char))
    (writable : String → Bool) (args : List String) (c : Choices hw F) : Outcome → Prop
  | closed (failed : loadData F files (Options.parse args {}).configFile
        (Options.parse args {}).pictureFile = .error .closed) :
    ScMain same files writable args c (.abort fatal)
  | lengthError (failed : loadData F files (Options.parse args {}).configFile
        (Options.parse args {}).pictureFile = .error .lengthError) :
    ScMain same files writable args c .exception
  | finished {cfg : Config F} {n : Nat} (loaded : loadData F files
        (Options.parse args {}).configFile (Options.parse args {}).pictureFile = .ok cfg)
      (ends : (simulation same cfg c n).finished = true) :
    ScMain same files writable args c
      (.returned (simulationWritten ((Options.parse args {}).destination writable) same cfg c n))

end NnProcessor.Model
