import NnProcessor.Correctness.Slots

/-!
# The words of a run

Every word on a signal is one that `loadData` has read, an `int`, a marker or a sigmoid: the modules
pass words on and compute no others that they show. So a property of all of these (`Closed`) is one of
the words on the signals in front of every edge (`words_run`). Only `NEXT_LAYER` might show a word of the
heap, and it does not, since a clone reads results only.
-/

namespace NnProcessor.Model

variable {hw : Hw} {F : Type}

/-- The words that a `wait()` of `IO::write_data_to_system` still has to send. -/
def WriteThread.rest : WriteThread F → List F
  | .picture rest | .weights rest => rest
  | .start | .sentMarker | .sentCount | .layers _ | .sentStart | .finished => []

/-- All words on the signals have the property `P`. -/
structure WordsOn (P : F → Prop) (w : Wires hw F) : Prop where
  io : P w.dataIoBus
  weight : ∀ k, P (w.dataWeightBus k)
  previous : ∀ k, P (w.dataPrevLayerBus k)
  next : P w.dataFromNowLayerToNextLayer
  result : ∀ k, P (w.resmemDataBus k)

/-- All words that the modules hold have the property `P`, but for those of `NEXT_LAYER`. -/
structure WordsIn (P : F → Prop) (s : System hw F) : Prop where
  io : P s.bus.data
  rest : ∀ x ∈ s.io.thread.rest, P x
  weight : ∀ k, P (s.weightStorage.dataOutBusO k)
  weights : ∀ x ∈ s.weightStorage.memory, P x
  previous : ∀ k, P (s.previousLayer.dataPcBusO k)
  previouses : ∀ x ∈ s.previousLayer.memory, P x
  result : ∀ k, P (s.processors k).resmemDataO

/-- With the word that `NEXT_LAYER` shows these are the words on the signals. -/
lemma WordsIn.on {P : F → Prop} {s : System hw F} (words : WordsIn P s) (next : P s.nextLayer.dataO) :
    WordsOn P s.wires :=
  ⟨words.io, words.weight, words.previous, next, words.result⟩

/-- What is taken from a list is a word of it, or the default. -/
lemma getD_mem {P : F → Prop} {l : List F} {d : F} (words : ∀ x ∈ l, P x) (default : P d) (n : Nat) :
    P (l.getD n d) := by
  rw [List.getD_eq_getElem?_getD]
  cases at_ : l[n]? with
  | none => exact default
  | some x => exact words x (List.mem_of_getElem? at_)

/-- A guarded read gives a word of the list, or the default. -/
lemma guardedRead_mem {P : F → Prop} {l : List F} {a : Int} {d : F} (words : ∀ x ∈ l, P x) (default : P d) :
    P (guardedRead l a d) := by
  unfold guardedRead
  split
  · exact getD_mem words default _
  · exact default

variable [Binary32Ops F]

/-- The property `P` of words holds of all words that the modules get or make. -/
structure Closed (cfg : Config F) (P : F → Prop) : Prop where
  int : ∀ k, P (ofInt k)
  infinite : ∀ x, IsInfinite x → P x
  sigmoid : ∀ x, P (Model.sigmoid x)
  given : ∀ x ∈ cfg.picture ++ cfg.weights, P x

variable {cfg : Config F} {P : F → Prop}

namespace Closed

variable (closed : Closed cfg P)
include closed

/-- Behind the weights the marker is sent. -/
lemma sendWeights {rest : List F} {m : IoModule F × IoBus F} (words : ∀ x ∈ rest, P x) :
    P (IoModule.sendWeights rest m).2.data ∧
      ∀ x ∈ (IoModule.sendWeights rest m).1.thread.rest, P x := by
  cases rest with
  | nil => exact ⟨closed.infinite _ (.inr rfl), List.forall_mem_nil _⟩
  | cons item rest => exact ⟨words item List.mem_cons_self, (List.forall_mem_cons.1 words).2⟩

/-- Behind the picture the weights are sent. -/
lemma sendPicture {rest : List F} {m : IoModule F × IoBus F} (words : ∀ x ∈ rest, P x) :
    P (IoModule.sendPicture cfg rest m).2.data ∧
      ∀ x ∈ (IoModule.sendPicture cfg rest m).1.thread.rest, P x := by
  cases rest with
  | nil => exact closed.sendWeights fun x mem => closed.given x (List.mem_append_right _ mem)
  | cons item rest => exact ⟨words item List.mem_cons_self, (List.forall_mem_cons.1 words).2⟩

/-- Behind the sizes the picture is sent. -/
lemma sendLayers {rest : List Int} {m : IoModule F × IoBus F} :
    P (IoModule.sendLayers cfg rest m).2.data ∧
      ∀ x ∈ (IoModule.sendLayers cfg rest m).1.thread.rest, P x := by
  cases rest with
  | nil => exact closed.sendPicture fun x mem => closed.given x (List.mem_append_left _ mem)
  | cons item rest => exact ⟨closed.int item, List.forall_mem_nil _⟩

/-- `IO::write_data_to_system` sends what it has been given. -/
lemma writeDataToSystem {m : IoModule F × IoBus F} (io : P m.2.data)
    (rest : ∀ x ∈ m.1.thread.rest, P x) :
    P (IoModule.writeDataToSystem cfg m).2.data ∧
      ∀ x ∈ (IoModule.writeDataToSystem cfg m).1.thread.rest, P x := by
  unfold IoModule.writeDataToSystem
  cases thread : m.1.thread with
  | start => exact ⟨closed.infinite _ (.inl rfl), List.forall_mem_nil _⟩
  | sentMarker => exact ⟨closed.int _, List.forall_mem_nil _⟩
  | sentCount | layers => exact closed.sendLayers
  | picture =>
    rw [thread] at rest
    exact closed.sendPicture rest
  | weights =>
    rw [thread] at rest
    exact closed.sendWeights rest
  | sentStart => exact ⟨io, List.forall_mem_nil _⟩
  | finished => exact ⟨io, rest⟩

omit closed [Binary32Ops F] in
/-- A word from the bus is appended to the weights. -/
lemma addToMemory {n : Nat} {m : WeightStorage F n} {addr : Int} {data : F} {wr : Bool} (io : P data)
    (weights : ∀ x ∈ m.memory, P x) : ∀ x ∈ (m.addToMemory addr data wr).memory, P x := by
  unfold WeightStorage.addToMemory
  split
  · exact List.forall_mem_append.2 ⟨weights, List.forall_mem_singleton.2 io⟩
  · exact weights

omit closed [Binary32Ops F] in
/-- What arrives at `PREVIOUS_LAYER` comes from the bus or from `NEXT_LAYER`. -/
lemma arriving {addr : Int} {data word : F} {wr copy : Bool} (io : P data) (next : P word) :
    ∀ x ∈ PreviousLayer.arriving addr data wr copy word, P x := by
  unfold PreviousLayer.arriving
  refine List.forall_mem_append.2 ⟨?_, ?_⟩
  · split
    · exact List.forall_mem_singleton.2 io
    · exact List.forall_mem_nil _
  · split
    · exact List.forall_mem_singleton.2 next
    · exact List.forall_mem_nil _

/-- A processor shows sigmoids. -/
lemma process {p : Processor F} (w : ProcessorIn F) (result : P p.resmemDataO) :
    P (p.process w).resmemDataO := by
  unfold Processor.process
  cases p.thread with
  | start | waitQueue =>
    rw [Processor.takeNeuron_resmemDataO]
    exact result
  | inputAddr | biasAddr => exact result
  | inputWait i =>
    rw [Processor.inputLoop_resmemDataO]
    exact result
  | biasWait => exact closed.sigmoid _
  | store =>
    rw [Processor.takeNeuron_resmemDataO]
    exact result

variable [DecidableEq F] {w : Wires hw F} {s : System hw F}

/-- Every method passes on what is on the signals or in the memories. -/
lemma method (on : WordsOn P w) (m : Method hw) (words : WordsIn P s) :
    WordsIn P (m.exec w s) := by
  obtain ⟨io, rest, weight, weights, previous, previouses, result⟩ := words
  cases m with
  | stateReadData | stateStartConv | layersNextElement | layersAddToQueue | layersIssueElement
  | writeOutToIo | clearController | saveNewElement | passNewElement | nextIssueElement
  | nextAddToMemory => exact ⟨io, rest, weight, weights, previous, previouses, result⟩
  | readDataFromSystem =>
    refine ⟨io, ?_, weight, weights, previous, previouses, result⟩
    have thread : (s.io.readDataFromSystem w.dataIoBus w.wrIoBus).thread = s.io.thread := by
      unfold IoModule.readDataFromSystem
      split <;> rfl
    exact thread ▸ rest
  | weightIssueElement =>
    exact ⟨io, rest, fun k => guardedRead_mem weights (closed.int 0), weights, previous, previouses,
      result⟩
  | weightAddToMemory =>
    refine ⟨io, rest, ?_, ?_, previous, previouses, result⟩
    · intro k
      simp only [Method.exec, WeightStorage.addToMemory]
      split <;> exact weight k
    · exact addToMemory on.io weights
  | addToMem =>
    simp only [Method.exec, PreviousLayer.addToMem_eq]
    exact ⟨io, rest, weight, weights, previous,
      List.forall_mem_append.2 ⟨previouses, arriving on.io on.next⟩, result⟩
  | issueElementIo =>
    simp only [Method.exec, PreviousLayer.issueElementIo]
    split_ifs
    · exact ⟨getD_mem previouses (closed.int 0) _, rest, weight, weights, previous, previouses, result⟩
    · exact ⟨io, rest, weight, weights, previous, previouses, result⟩
    · exact ⟨io, rest, weight, weights, previous, previouses, result⟩
  | issueElementPc =>
    exact ⟨io, rest, weight, weights, fun k => guardedRead_mem previouses (closed.int (-1)),
      previouses, result⟩
  | clearPrevious =>
    simp only [Method.exec, PreviousLayer.clear]
    split
    · exact ⟨io, rest, weight, weights, previous, List.forall_mem_nil _, result⟩
    · exact ⟨io, rest, weight, weights, previous, previouses, result⟩
  | addToQueue k =>
    refine ⟨io, rest, weight, weights, previous, previouses, fun l => ?_⟩
    simp only [Method.exec, Function.update_apply]
    split
    · next eq =>
      subst eq
      unfold Processor.addToQueue
      split <;> exact result l
    · exact result l

omit [DecidableEq F] in
/-- So does every thread. -/
lemma thread (t : Thread hw) (words : WordsIn P s) : WordsIn P (t.exec cfg w s) := by
  obtain ⟨io, rest, weight, weights, previous, previouses, result⟩ := words
  cases t with
  | process | generate | copyMemory =>
    exact ⟨io, rest, weight, weights, previous, previouses, result⟩
  | writeDataToSystem =>
    obtain ⟨io', rest'⟩ := closed.writeDataToSystem (m := (s.io, s.bus)) io rest
    exact ⟨io', rest', weight, weights, previous, previouses, result⟩
  | processor k =>
    refine ⟨io, rest, weight, weights, previous, previouses, fun l => ?_⟩
    simp only [Thread.exec, Function.update_apply]
    split
    · next eq =>
      subst eq
      exact closed.process _ (result l)
    · exact result l

/-- So does an edge. -/
lemma edge (sch : Schedule hw) (words : WordsIn P s) (next : P s.nextLayer.dataO) :
    WordsIn P (s.edge cfg sch) := by
  have on := words.on next
  unfold System.edge System.settle
  split
  · exact words
  · have phases := Kernel.evaluate_keeps (fun t a => closed.thread (w := s.wires) t) sch.threads
      (Kernel.evaluate_keeps (fun m a => closed.method on m) sch.methods words)
    split
    · exact phases
    · exact ⟨phases.io, phases.rest, phases.weight, phases.weights, phases.previous,
        phases.previouses, phases.result⟩

omit [DecidableEq F] in
/-- The instances hold zeros. -/
lemma elaborated (junk : Nat → F) : WordsIn P (System.elaborated junk : System hw F) :=
  ⟨closed.int 0, List.forall_mem_nil _, fun _ => closed.int 0, List.forall_mem_nil _,
    fun _ => closed.int 0, List.forall_mem_nil _, fun _ => closed.int 0⟩

/-- So do the instances behind the initialization. -/
lemma initialized (sch : Schedule hw) (junk : Nat → F) :
    WordsIn P (System.initialized sch junk : System hw F) := by
  have start : WordsIn P (System.elaborated junk : System hw F) := closed.elaborated junk
  have phase := Kernel.evaluate_keeps
    (fun m a => closed.method (start.on (closed.int 0)) m) sch.methods start
  exact ⟨phase.io, phase.rest, phase.weight, phase.weights, phase.previous, phase.previouses,
    phase.result⟩

end Closed

end NnProcessor.Model

namespace NnProcessor.Correctness
open NnProcessor.Model NnProcessor.Edge NnProcessor.Invariant

variable {hw : Hw} {F : Type} [Binary32 F] [DecidableEq F] {cfg : Config F} {P : F → Prop}

/-- `NEXT_LAYER` shows results. -/
lemma next_word (closed : Closed cfg P) (finite : ∀ x ∈ cfg.results, ¬IsInfinite x)
    (env : Env hw F) (t : Nat) : P (run cfg env t).nextLayer.dataO := by
  induction t with
  | zero =>
    rw [run, initialized_nextLayer]
    exact closed.int 0
  | succ t ih =>
    have inv := mainInv_run cfg env finite t
    change P ((run cfg env t).edge cfg (env.sched t)).nextLayer.dataO
    cases st : (run cfg env t).stopped with
    | true => rwa [edge_stopped cfg (env.sched t) st]
    | false =>
      rcases inv.units_or_rest inv with ⟨i, -, ⟨-, wires⟩, -⟩ | ⟨idle, -⟩
      · rw [wires.nextLayer (env.sched t), addToMemory_dataO]
        exact ih
      · rw [idle.step_nextLayer cfg (env.sched t) st]
        unfold NextLayer.issueElement
        split
        · next next =>
          obtain ⟨i, -, word⟩ := inv.clone_word next
          change P ((run cfg env t).nextLayer.memory (run cfg env t).nextLayer.index)
          rw [word]
          exact closed.sigmoid _
        · exact ih

/-- In front of every edge the words on the signals have a property that all words have which the
modules get or make. -/
theorem words_run (closed : Closed cfg P) (finite : ∀ x ∈ cfg.results, ¬IsInfinite x)
    (env : Env hw F) (t : Nat) : WordsOn P (run cfg env t).wires := by
  have words : ∀ t, WordsIn P (run cfg env t) := by
    intro t
    induction t with
    | zero => exact closed.initialized env.boot env.junk
    | succ t ih => exact closed.edge (env.sched t) ih (next_word closed finite env t)
  exact (words t).on (next_word closed finite env t)

end NnProcessor.Correctness
