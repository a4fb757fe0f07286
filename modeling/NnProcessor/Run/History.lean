import NnProcessor.Network.Machine

/-!
# What an observer of a run sees

The results about a run speak about its past: which neurons have been dispatched and stored since
the layer iteration began, and which weights have been added into sums since the run began. A
`History` collects these from the states in front of and behind each edge. It only looks at the
states and never acts on them.
-/

namespace NnProcessor.Model

variable {hw : Hw} {F : Type}

namespace Processor

/-- The neuron number on the write port. -/
def written (p : Processor F) : Multiset Nat := if p.resmemWO then {p.resmemAddrO} else 0

/-- The neuron a processor computes. -/
def computed (p : Processor F) : Multiset Nat :=
  match p.thread with
  | .start | .waitQueue => 0
  | _ => {p.numberOfNn}

/-- The weight the next edge adds to the sum, when the weight storage has read the address `f`
last. -/
def adding (f : Int) (p : Processor F) : Multiset WeightUse :=
  match p.thread with
  | .inputWait _ => {{ neuron := p.numberOfNn, bias := false, address := f }}
  | .biasWait => {{ neuron := p.numberOfNn, bias := true, address := f }}
  | _ => 0

end Processor

/-- The neuron on the generator bus. -/
def Generator.sent (g : Generator) : Multiset Nat := if g.wO then {g.dataO} else 0

/-- A layer iteration of `CONTROLLER::process` begins. -/
def ControlThread.begins : ControlThread → Bool
  | .savePrev _ => true
  | _ => false

/-- What has been observed of a run: the number of neurons dispatched and the neurons stored since
the layer iteration began, the weights used since the run began, and the weight addresses that were
read in the last edge. -/
structure History (hw : Hw) where
  dispatched : Nat := 0
  stored : Multiset Nat := 0
  used : Multiset (Option Nat × WeightUse) := 0
  fetched : Fin hw.countPcUnit → Int := fun _ => 0

/-- The observation of the edge from `s` to `s'`. -/
def History.observe (s s' : System hw F) (h : History hw) : History hw where
  dispatched :=
    if s'.controller.thread.begins then 0 else h.dispatched + if s'.generator.wO then 1 else 0
  stored := if s'.controller.thread.begins then 0 else h.stored + ∑ k, (s.processors k).written
  used :=
    h.used +
      (∑ k, (s.processors k).adding (h.fetched k)).map fun u => (s.controller.thread.layer, u)
  fetched k := (s.processors k).weightAddrO

variable [Binary32Ops F] [DecidableEq F]

/-- What has been observed in front of the edge `t`. -/
def history (cfg : Config F) (env : Env hw F) : Nat → History hw
  | 0 => {}
  | t + 1 => (history cfg env t).observe (run cfg env t) (run cfg env (t + 1))

end NnProcessor.Model
