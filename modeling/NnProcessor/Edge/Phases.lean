import NnProcessor.Model.System

/-!
# What the two phases of an edge do to each module

A module is touched by its own processes only, so its part of an evaluation phase is the evaluation
of these. For every module the lemmas below name that part and evaluate it: a module with a single
active process is that process, a module with two is one of the two sequences.
-/

namespace NnProcessor.Edge
open NnProcessor.Arith NnProcessor.Model NnProcessor.Kernel

variable {hw : Hw} {F : Type} [Binary32Ops F] [DecidableEq F]
variable (cfg : Config F) (sch : Schedule hw) (s : System hw F)

/-- The threads of an edge, started behind its methods. -/
def threadPhase : System hw F := evaluate (Thread.exec cfg s.wires) sch.threads (s.methodPhase sch)

omit [Binary32Ops F] [DecidableEq F] in
/-- `END_REDUCER` changes its own output only. -/
lemma settle_eq (s : System hw F) : ∃ b, s.settle = { s with cycleEnded := b } := by
  unfold System.settle
  split
  · exact ⟨_, rfl⟩
  · exact ⟨_, rfl⟩

/-- An edge of a simulation that has not been stopped. -/
lemma edge_running {s : System hw F} (go : s.stopped = false) :
    s.edge cfg sch = (threadPhase cfg sch s).settle := by
  simp [System.edge, go, threadPhase]

/-- An edge of a simulation that has been stopped. -/
lemma edge_stopped {s : System hw F} (st : s.stopped = true) : s.edge cfg sch = s := by
  simp [System.edge, st]

/-- Of the methods only `IO::read_data_from_system` steps `IO`. -/
lemma methodPhase_io :
    (s.methodPhase sch).io = s.io.readDataFromSystem s.bus.data s.bus.wr := by
  have proj := evaluate_proj (Method.exec s.wires) System.io
    (fun m io => match m with
      | .readDataFromSystem => io.readDataFromSystem s.bus.data s.bus.wr
      | _ => io)
    (by rintro (_ | _) a <;> rfl) sch.methods s
  rw [System.methodPhase, proj]
  exact evaluate_single sch.methods_nodup (sch.mem_methods .readDataFromSystem)
    (by rintro (_ | _) ne a <;> first | rfl | exact absurd rfl ne) _

/-- The two methods of `CONTROLLER` run in one of two orders. -/
lemma methodPhase_controller :
    (s.methodPhase sch).controller =
        (s.controller.stateReadData s.io.addrO s.bus.data s.bus.wr).stateStartConv
          s.io.addrO s.bus.data s.bus.wr ∨
      (s.methodPhase sch).controller =
        (s.controller.stateStartConv s.io.addrO s.bus.data s.bus.wr).stateReadData
          s.io.addrO s.bus.data s.bus.wr := by
  have proj := evaluate_proj (Method.exec s.wires) System.controller
    (fun m c => match m with
      | .stateReadData => c.stateReadData s.io.addrO s.bus.data s.bus.wr
      | .stateStartConv => c.stateStartConv s.io.addrO s.bus.data s.bus.wr
      | _ => c)
    (by rintro (_ | _) a <;> rfl) sch.methods s
  rw [System.methodPhase, proj]
  exact evaluate_pair sch.methods_nodup (sch.mem_methods .stateReadData)
    (sch.mem_methods .stateStartConv) (by simp)
    (by rintro (_ | _) ne1 ne2 a <;> first | rfl | exact absurd rfl ne1 | exact absurd rfl ne2) _

/-- A word sent to `LAYERS_STORAGE` is appended as an `int`. -/
lemma methodPhase_layersMemory :
    (s.methodPhase sch).layersStorage.memory =
      if s.io.addrO = 1 ∧ s.bus.wr = true then s.layersStorage.memory ++ [toInt s.bus.data]
      else s.layersStorage.memory := by
  have proj := evaluate_proj (Method.exec s.wires) (fun s => s.layersStorage.memory)
    (fun m l => match m with
      | .layersAddToQueue => if s.io.addrO = 1 ∧ s.bus.wr = true then l ++ [toInt s.bus.data] else l
      | _ => l)
    (by
      rintro (_ | _) a <;> try rfl
      · simp only [Method.exec, LayersStorage.nextElement]; split <;> rfl
      · by_cases h : s.io.addrO = 1 ∧ s.bus.wr = true <;>
          simp [Method.exec, LayersStorage.addToQueue, h])
    sch.methods s
  exact proj.trans (evaluate_single sch.methods_nodup (sch.mem_methods .layersAddToQueue)
    (by rintro (_ | _) ne a <;> first | rfl | exact absurd rfl ne) _)

/-- The pulse of `CONTROLLER` moves the layer queue on. -/
lemma methodPhase_layersIndex :
    (s.methodPhase sch).layersStorage.index =
      if s.controller.nextLayerO then s.layersStorage.index + 1 else s.layersStorage.index := by
  have proj := evaluate_proj (Method.exec s.wires) (fun s => s.layersStorage.index)
    (fun m l => match m with
      | .layersNextElement => if s.controller.nextLayerO then l + 1 else l
      | _ => l)
    (by
      rintro (_ | _) a <;> try rfl
      · by_cases h : s.controller.nextLayerO = true <;>
          simp [Method.exec, LayersStorage.nextElement, h]
      · simp only [Method.exec, LayersStorage.addToQueue]; split <;> rfl)
    sch.methods s
  exact proj.trans (evaluate_single sch.methods_nodup (sch.mem_methods .layersNextElement)
    (by rintro (_ | _) ne a <;> first | rfl | exact absurd rfl ne) _)

/-- With no race the layer queue issues the element at its index. -/
lemma methodPhase_layersStorage (next : s.controller.nextLayerO = false)
    (wr : ¬(s.io.addrO = 1 ∧ s.bus.wr = true)) :
    (s.methodPhase sch).layersStorage = s.layersStorage.issueElement := by
  have proj := evaluate_proj (Method.exec s.wires) System.layersStorage
    (fun m l => match m with
      | .layersIssueElement => l.issueElement
      | _ => l)
    (by
      rintro (_ | _) a <;> try rfl
      · simp [Method.exec, LayersStorage.nextElement, next]
      · simp [Method.exec, LayersStorage.addToQueue, wr])
    sch.methods s
  rw [System.methodPhase, proj]
  exact evaluate_single sch.methods_nodup (sch.mem_methods .layersIssueElement)
    (by rintro (_ | _) ne a <;> first | rfl | exact absurd rfl ne) _

/-- The two methods of `WEIGHT_STORAGE` run in one of two orders. -/
lemma methodPhase_weightStorage :
    (s.methodPhase sch).weightStorage =
        (s.weightStorage.issueElement s.wires.addrWeightBus).addToMemory
          s.io.addrO s.bus.data s.bus.wr ∨
      (s.methodPhase sch).weightStorage =
        (s.weightStorage.addToMemory s.io.addrO s.bus.data s.bus.wr).issueElement
          s.wires.addrWeightBus := by
  have proj := evaluate_proj (Method.exec s.wires) System.weightStorage
    (fun m l => match m with
      | .weightIssueElement => l.issueElement s.wires.addrWeightBus
      | .weightAddToMemory => l.addToMemory s.io.addrO s.bus.data s.bus.wr
      | _ => l)
    (by rintro (_ | _) a <;> rfl) sch.methods s
  rw [System.methodPhase, proj]
  exact evaluate_pair sch.methods_nodup (sch.mem_methods .weightIssueElement)
    (sch.mem_methods .weightAddToMemory) (by simp)
    (by rintro (_ | _) ne1 ne2 a <;> first | rfl | exact absurd rfl ne1 | exact absurd rfl ne2) _

/-- The two methods of `PREVIOUS_LAYER_SIZE` run in one of two orders. -/
lemma methodPhase_previousLayerSize :
    (s.methodPhase sch).previousLayerSize =
        (s.previousLayerSize.saveNewElement s.controller.savePrevLayerSizeO
          s.layersStorage.dataO).passNewElement ∨
      (s.methodPhase sch).previousLayerSize =
        (s.previousLayerSize.passNewElement).saveNewElement s.controller.savePrevLayerSizeO
          s.layersStorage.dataO := by
  have proj := evaluate_proj (Method.exec s.wires) System.previousLayerSize
    (fun m l => match m with
      | .saveNewElement => l.saveNewElement s.controller.savePrevLayerSizeO s.layersStorage.dataO
      | .passNewElement => l.passNewElement
      | _ => l)
    (by rintro (_ | _) a <;> rfl) sch.methods s
  rw [System.methodPhase, proj]
  exact evaluate_pair sch.methods_nodup (sch.mem_methods .saveNewElement)
    (sch.mem_methods .passNewElement) (by simp)
    (by rintro (_ | _) ne1 ne2 a <;> first | rfl | exact absurd rfl ne1 | exact absurd rfl ne2) _

/-- The method of `PREVIOUS_LAYER_CONTROLLER` forwards the command to write out. -/
lemma methodPhase_previousLayerController :
    (s.methodPhase sch).previousLayerController =
      { s.previousLayerController with
        wrToOutO := s.controller.writeOutControllerLayerO
        clrO := s.controller.clrControllerLayerO } := by
  have proj := evaluate_proj (Method.exec s.wires) System.previousLayerController
    (fun m l => match m with
      | .writeOutToIo => l.writeOutToIo s.controller.writeOutControllerLayerO
      | .clearController => l.clear s.controller.clrControllerLayerO
      | _ => l)
    (by rintro (_ | _) a <;> rfl) sch.methods s
  have race :
      (s.methodPhase sch).previousLayerController =
          (s.previousLayerController.writeOutToIo s.controller.writeOutControllerLayerO).clear
            s.controller.clrControllerLayerO ∨
        (s.methodPhase sch).previousLayerController =
          (s.previousLayerController.clear s.controller.clrControllerLayerO).writeOutToIo
            s.controller.writeOutControllerLayerO := by
    rw [System.methodPhase, proj]
    exact evaluate_pair sch.methods_nodup (sch.mem_methods .writeOutToIo)
      (sch.mem_methods .clearController) (by simp)
      (by rintro (_ | _) ne1 ne2 a <;> first | rfl | exact absurd rfl ne1 | exact absurd rfl ne2) _
  rcases race with h | h
  · exact h
  · exact h

/-- The two methods of `NEXT_LAYER` run in one of two orders. -/
lemma methodPhase_nextLayer :
    (s.methodPhase sch).nextLayer =
        (s.nextLayer.issueElement hw.memSize s.previousLayerController.nextO).addToMemory hw.memSize
          s.wires.resmemWBus s.wires.resmemAddrBus s.wires.resmemDataBus ∨
      (s.methodPhase sch).nextLayer =
        (s.nextLayer.addToMemory hw.memSize s.wires.resmemWBus s.wires.resmemAddrBus
          s.wires.resmemDataBus).issueElement hw.memSize s.previousLayerController.nextO := by
  have proj := evaluate_proj (Method.exec s.wires) System.nextLayer
    (fun m l => match m with
      | .nextIssueElement => l.issueElement hw.memSize s.previousLayerController.nextO
      | .nextAddToMemory =>
        l.addToMemory hw.memSize s.wires.resmemWBus s.wires.resmemAddrBus s.wires.resmemDataBus
      | _ => l)
    (by rintro (_ | _) a <;> rfl) sch.methods s
  rw [System.methodPhase, proj]
  exact evaluate_pair sch.methods_nodup (sch.mem_methods .nextIssueElement)
    (sch.mem_methods .nextAddToMemory) (by simp)
    (by rintro (_ | _) ne1 ne2 a <;> first | rfl | exact absurd rfl ne1 | exact absurd rfl ne2) _

/-- The part of a method that acts on `PREVIOUS_LAYER` and the shared bus. -/
def previousAct (w : Wires hw F) :
    Method hw → PreviousLayer F hw.countPcUnit × IoBus F →
      PreviousLayer F hw.countPcUnit × IoBus F
  | .addToMem, m =>
    (m.1.addToMem w.addrIoBus w.dataIoBus w.wrIoBus w.wrToMemFromMemCtrlMemBus
      w.dataFromNowLayerToNextLayer, m.2)
  | .issueElementIo, m => PreviousLayer.issueElementIo w.wrToIoCtrlMemBus m
  | .issueElementPc, m => (m.1.issueElementPc w.addrPrevLayerBus, m.2)
  | .clearPrevious, m => (m.1.clear w.clrPrevLayerCtrlMemBus, m.2)
  | _, m => m

/-- When one of the four methods of `PREVIOUS_LAYER` acts besides the reads of the processors, the
phase is one of the two sequences of that method and the reads. -/
lemma methodPhase_previousLayer {x : Method hw} (ne : x ≠ .issueElementPc)
    (h : ∀ m, m ≠ x → m ≠ .issueElementPc → ∀ a, previousAct s.wires m a = a) :
    ((s.methodPhase sch).previousLayer, (s.methodPhase sch).bus) =
        previousAct s.wires .issueElementPc (previousAct s.wires x (s.previousLayer, s.bus)) ∨
      ((s.methodPhase sch).previousLayer, (s.methodPhase sch).bus) =
        previousAct s.wires x (previousAct s.wires .issueElementPc (s.previousLayer, s.bus)) := by
  have proj := evaluate_proj (Method.exec s.wires)
    (fun s => (s.previousLayer, s.bus)) (previousAct s.wires)
    (by rintro (_ | _) a <;> rfl) sch.methods s
  rw [System.methodPhase, proj]
  exact evaluate_pair sch.methods_nodup (sch.mem_methods x) (sch.mem_methods .issueElementPc) ne h _

/-- Words arrive, from the bus or from `NEXT_LAYER`. -/
lemma methodPhase_previousLayer_add (out : s.previousLayerController.wrToOutO = false)
    (clr : s.previousLayerController.clrO = false) :
    (s.methodPhase sch).previousLayer.memory =
        s.previousLayer.memory ++ PreviousLayer.arriving s.io.addrO s.bus.data s.bus.wr
          s.previousLayerController.wrToMemoryFromMemO s.nextLayer.dataO ∧
      (s.methodPhase sch).previousLayer.indexToOut = s.previousLayer.indexToOut ∧
      (s.methodPhase sch).previousLayer.stopped = s.previousLayer.stopped ∧
      (s.methodPhase sch).bus = s.bus := by
  have race := methodPhase_previousLayer sch s (x := .addToMem) (by simp) (by
    rintro (_ | _) ne1 ne2 a <;>
      first
      | rfl
      | exact absurd rfl ne1
      | exact absurd rfl ne2
      | simp [previousAct, PreviousLayer.issueElementIo, PreviousLayer.clear, out, clr])
  simp only [Prod.ext_iff] at race
  rcases race with ⟨h, hb⟩ | ⟨h, hb⟩ <;> rw [h, hb] <;>
    simp [previousAct, PreviousLayer.addToMem_eq]

/-- The last word of a finished run and every result word leave here. -/
lemma methodPhase_previousLayer_issue
    (quiet : ¬(s.bus.wr = true ∧ s.io.addrO = 2))
    (copy : s.previousLayerController.wrToMemoryFromMemO = false)
    (out : s.previousLayerController.wrToOutO = true)
    (clr : s.previousLayerController.clrO = false) :
    (s.methodPhase sch).previousLayer.memory = s.previousLayer.memory ∧
      (if i32 s.previousLayer.memory.length > s.previousLayer.indexToOut then
        (s.methodPhase sch).previousLayer.indexToOut = s.previousLayer.indexToOut + 1 ∧
        (s.methodPhase sch).previousLayer.stopped = s.previousLayer.stopped ∧
        (s.methodPhase sch).bus =
          { data := s.previousLayer.memory.getD s.previousLayer.indexToOut (ofInt 0), wr := true }
      else
        (s.methodPhase sch).previousLayer.indexToOut = s.previousLayer.indexToOut ∧
        (s.methodPhase sch).previousLayer.stopped = true ∧ (s.methodPhase sch).bus = s.bus) := by
  have race := methodPhase_previousLayer sch s (x := .issueElementIo) (by simp) (by
    rintro (_ | _) ne1 ne2 a <;>
      first
      | rfl
      | exact absurd rfl ne1
      | exact absurd rfl ne2
      | simp [previousAct, PreviousLayer.addToMem, PreviousLayer.clear, quiet, copy, clr])
  simp only [Prod.ext_iff] at race
  rcases race with ⟨h, hb⟩ | ⟨h, hb⟩ <;> rw [h, hb] <;>
    by_cases more : i32 s.previousLayer.memory.length > s.previousLayer.indexToOut <;>
    simp [previousAct, PreviousLayer.issueElementIo, out, more]

/-- The memory is cleared. -/
lemma methodPhase_previousLayer_clear
    (quiet : ¬(s.bus.wr = true ∧ s.io.addrO = 2))
    (copy : s.previousLayerController.wrToMemoryFromMemO = false)
    (out : s.previousLayerController.wrToOutO = false)
    (clr : s.previousLayerController.clrO = true) :
    (s.methodPhase sch).previousLayer.memory = [] ∧
      (s.methodPhase sch).previousLayer.indexToOut = 0 ∧
      (s.methodPhase sch).previousLayer.stopped = s.previousLayer.stopped ∧
      (s.methodPhase sch).bus = s.bus := by
  have race := methodPhase_previousLayer sch s (x := .clearPrevious) (by simp) (by
    rintro (_ | _) ne1 ne2 a <;>
      first
      | rfl
      | exact absurd rfl ne1
      | exact absurd rfl ne2
      | simp [previousAct, PreviousLayer.addToMem, PreviousLayer.issueElementIo, quiet, copy, out])
  simp only [Prod.ext_iff] at race
  rcases race with ⟨h, hb⟩ | ⟨h, hb⟩ <;> rw [h, hb] <;>
    simp [previousAct, PreviousLayer.clear, clr]

/-- With no writer the reads of the processors see the memory as it is. -/
lemma methodPhase_previousLayer_quiet
    (quiet : ¬(s.bus.wr = true ∧ s.io.addrO = 2))
    (copy : s.previousLayerController.wrToMemoryFromMemO = false)
    (out : s.previousLayerController.wrToOutO = false)
    (clr : s.previousLayerController.clrO = false) :
    (s.methodPhase sch).previousLayer =
      s.previousLayer.issueElementPc s.wires.addrPrevLayerBus := by
  have race := methodPhase_previousLayer sch s (x := .addToMem) (by simp) (by
    rintro (_ | _) ne1 ne2 a <;>
      first
      | rfl
      | exact absurd rfl ne1
      | exact absurd rfl ne2
      | simp [previousAct, PreviousLayer.issueElementIo, PreviousLayer.clear, out, clr])
  simp only [Prod.ext_iff] at race
  rcases race with ⟨h, hb⟩ | ⟨h, hb⟩ <;> rw [h] <;>
    simp [previousAct, PreviousLayer.addToMem, PreviousLayer.issueElementPc, quiet, copy]

/-- Unless the memory changes, the processors read it as it is, also while results are sent. -/
lemma methodPhase_previousLayer_reads
    (quiet : ¬(s.bus.wr = true ∧ s.io.addrO = 2))
    (copy : s.previousLayerController.wrToMemoryFromMemO = false)
    (clr : s.previousLayerController.clrO = false) :
    (s.methodPhase sch).previousLayer.memory = s.previousLayer.memory ∧
      ∀ k, (s.methodPhase sch).previousLayer.dataPcBusO k =
        guardedRead s.previousLayer.memory (s.processors k).prevmemAddrO (ofInt (-1)) := by
  have proj := evaluate_proj (Method.exec s.wires)
    (fun s => (s.previousLayer.memory, s.previousLayer.dataPcBusO))
    (fun m l => match m with
      | .issueElementPc =>
        (l.1, fun k => guardedRead l.1 (s.processors k).prevmemAddrO (ofInt (-1)))
      | _ => l)
    (by
      rintro (_ | _) a <;> try rfl
      · simp [Method.exec, PreviousLayer.addToMem, quiet, copy]
      · simp only [Method.exec, PreviousLayer.issueElementIo]
        split
        · split <;> rfl
        · rfl
      · simp [Method.exec, PreviousLayer.clear, clr])
    sch.methods s
  have all := proj.trans (evaluate_single sch.methods_nodup (sch.mem_methods .issueElementPc)
    (by rintro (_ | _) ne a <;> first | rfl | exact absurd rfl ne) _)
  obtain ⟨memory, data⟩ := Prod.mk.inj all
  exact ⟨memory, fun k => congrFun data k⟩

/-- `GENERATOR` has no method. -/
lemma methodPhase_generator : (s.methodPhase sch).generator = s.generator := by
  have proj := evaluate_proj (Method.exec s.wires) System.generator
    (fun _ l => l) (by rintro (_ | _) a <;> rfl) sch.methods s
  rw [System.methodPhase, proj]
  exact evaluate_inert (fun _ _ _ => rfl) _

/-- Of the methods only its own `add_to_queue` steps a processor. -/
lemma methodPhase_processor (k : Fin hw.countPcUnit) :
    (s.methodPhase sch).processors k =
      (s.processors k).addToQueue hw.queueSize k s.generator.addressO s.generator.dataO
        s.generator.wO := by
  have proj := evaluate_proj (Method.exec s.wires) (fun s => s.processors k)
    (fun m p => match m with
      | .addToQueue j =>
        if k = j then
          p.addToQueue hw.queueSize k s.generator.addressO s.generator.dataO s.generator.wO
        else p
      | _ => p)
    (by
      rintro (_ | _) a <;> try rfl
      rename_i j
      by_cases h : k = j
      · subst h; simp [Method.exec]
      · simp [Method.exec, h])
    sch.methods s
  simp only [System.methodPhase]
  rw [proj, evaluate_single sch.methods_nodup (sch.mem_methods (.addToQueue k))]
  · simp
  · rintro (_ | _) ne a <;> try rfl
    rename_i j
    have : k ≠ j := fun h => ne (by rw [h])
    simp [this]

end NnProcessor.Edge
