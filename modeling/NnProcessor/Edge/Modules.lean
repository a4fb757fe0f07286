import NnProcessor.Edge.Phases

/-!
# One edge, module by module

The state of every module behind an edge of a running simulation, in terms of the state in front of
it. These are the only facts about `System.edge` that the later files use.
-/

namespace NnProcessor.Edge
open NnProcessor.Arith NnProcessor.Model NnProcessor.Kernel

variable {hw : Hw} {F : Type} [Binary32Ops F] [DecidableEq F]
variable (cfg : Config F) (sch : Schedule hw) {s : System hw F}

/-- Of the threads only that of `IO` steps the module and the bus. -/
lemma threadPhase_io_bus :
    ((threadPhase cfg sch s).io, (threadPhase cfg sch s).bus) =
      IoModule.writeDataToSystem cfg ((s.methodPhase sch).io, (s.methodPhase sch).bus) := by
  have proj := evaluate_proj (Thread.exec cfg s.wires) (fun s => (s.io, s.bus))
    (fun t m => match t with
      | .writeDataToSystem => IoModule.writeDataToSystem cfg m
      | _ => m)
    (by rintro (_ | _) a <;> rfl) sch.threads (s.methodPhase sch)
  exact proj.trans (evaluate_single sch.threads_nodup (sch.mem_threads .writeDataToSystem)
    (by rintro (_ | _) ne a <;> first | rfl | exact absurd rfl ne) _)

/-- Of the threads only its own one steps `CONTROLLER`. -/
lemma threadPhase_controller :
    (threadPhase cfg sch s).controller =
      (s.methodPhase sch).controller.process s.wires.controllerIn := by
  have proj := evaluate_proj (Thread.exec cfg s.wires) System.controller
    (fun t c => match t with
      | .process => c.process s.wires.controllerIn
      | _ => c)
    (by rintro (_ | _) a <;> rfl) sch.threads (s.methodPhase sch)
  exact proj.trans (evaluate_single sch.threads_nodup (sch.mem_threads .process)
    (by rintro (_ | _) ne a <;> first | rfl | exact absurd rfl ne) _)

/-- Of the threads only its own one steps `GENERATOR`. -/
lemma threadPhase_generator :
    (threadPhase cfg sch s).generator =
      s.generator.generate hw.countPcUnit_pos hw.queueSize s.controller.startGeneratorO
        s.layersStorage.dataO s.wires.genSize := by
  have proj := evaluate_proj (Thread.exec cfg s.wires) System.generator
    (fun t g => match t with
      | .generate =>
        g.generate hw.countPcUnit_pos hw.queueSize s.controller.startGeneratorO
          s.layersStorage.dataO s.wires.genSize
      | _ => g)
    (by rintro (_ | _) a <;> rfl) sch.threads (s.methodPhase sch)
  rw [methodPhase_generator] at proj
  exact proj.trans (evaluate_single sch.threads_nodup (sch.mem_threads .generate)
    (by rintro (_ | _) ne a <;> first | rfl | exact absurd rfl ne) _)

/-- Of the threads only its own one steps `PREVIOUS_LAYER_CONTROLLER`. -/
lemma threadPhase_previousLayerController :
    (threadPhase cfg sch s).previousLayerController =
      (s.methodPhase sch).previousLayerController.copyMemory
        s.controller.startCloneControllerLayerO s.layersStorage.dataO := by
  have proj := evaluate_proj (Thread.exec cfg s.wires)
    System.previousLayerController
    (fun t m => match t with
      | .copyMemory =>
        m.copyMemory s.controller.startCloneControllerLayerO s.layersStorage.dataO
      | _ => m)
    (by rintro (_ | _) a <;> rfl) sch.threads (s.methodPhase sch)
  exact proj.trans (evaluate_single sch.threads_nodup (sch.mem_threads .copyMemory)
    (by rintro (_ | _) ne a <;> first | rfl | exact absurd rfl ne) _)

/-- A processor is stepped by `add_to_queue` and then by its thread. -/
lemma threadPhase_processor (k : Fin hw.countPcUnit) :
    (threadPhase cfg sch s).processors k =
      ((s.processors k).addToQueue hw.queueSize k s.generator.addressO s.generator.dataO
        s.generator.wO).process (s.wires.processorIn k) := by
  have proj := evaluate_proj (Thread.exec cfg s.wires) (fun s => s.processors k)
    (fun t p => match t with
      | .processor j => if k = j then p.process (s.wires.processorIn k) else p
      | _ => p)
    (by
      rintro (_ | _) a <;> try rfl
      rename_i j
      by_cases h : k = j
      · subst h; simp [Thread.exec]
      · simp [Thread.exec, h])
    sch.threads (s.methodPhase sch)
  rw [methodPhase_processor] at proj
  refine proj.trans ((evaluate_single sch.threads_nodup (sch.mem_threads (.processor k)) ?_ _).trans
    ?_)
  · rintro (_ | _) ne a <;> try rfl
    rename_i j
    have : k ≠ j := fun h => ne (by rw [h])
    simp [this]
  · simp

/-- The modules without an `SC_CTHREAD`. -/
lemma threadPhase_storages :
    (threadPhase cfg sch s).layersStorage = (s.methodPhase sch).layersStorage ∧
      (threadPhase cfg sch s).weightStorage = (s.methodPhase sch).weightStorage ∧
      (threadPhase cfg sch s).previousLayer = (s.methodPhase sch).previousLayer ∧
      (threadPhase cfg sch s).previousLayerSize = (s.methodPhase sch).previousLayerSize ∧
      (threadPhase cfg sch s).nextLayer = (s.methodPhase sch).nextLayer := by
  have proj := evaluate_proj (Thread.exec cfg s.wires)
    (fun s => (s.layersStorage, s.weightStorage, s.previousLayer, s.previousLayerSize,
      s.nextLayer))
    (fun _ m => m) (by rintro (_ | _) a <;> rfl) sch.threads (s.methodPhase sch)
  rw [evaluate_inert (fun _ _ _ => rfl)] at proj
  simp only [Prod.ext_iff] at proj
  exact proj

variable (go : s.stopped = false)
include go

/-- The step of `IO` and of the bus in an edge. -/
lemma edge_io_bus :
    ((s.edge cfg sch).io, (s.edge cfg sch).bus) =
      IoModule.writeDataToSystem cfg
        (s.io.readDataFromSystem s.bus.data s.bus.wr, (s.methodPhase sch).bus) := by
  obtain ⟨b, h⟩ := settle_eq (threadPhase cfg sch s)
  rw [edge_running cfg sch go, h, ← methodPhase_io sch]
  exact threadPhase_io_bus cfg sch

/-- The step of `CONTROLLER` in an edge. -/
lemma edge_controller :
    (s.edge cfg sch).controller =
      (s.methodPhase sch).controller.process s.wires.controllerIn := by
  obtain ⟨b, h⟩ := settle_eq (threadPhase cfg sch s)
  rw [edge_running cfg sch go, h]
  exact threadPhase_controller cfg sch

/-- The step of `GENERATOR` in an edge. -/
lemma edge_generator :
    (s.edge cfg sch).generator =
      s.generator.generate hw.countPcUnit_pos hw.queueSize s.controller.startGeneratorO
        s.layersStorage.dataO (fun k => (s.processors k).queueSizeO) := by
  obtain ⟨b, h⟩ := settle_eq (threadPhase cfg sch s)
  rw [edge_running cfg sch go, h]
  exact threadPhase_generator cfg sch

/-- The step of `PREVIOUS_LAYER_CONTROLLER` in an edge. -/
lemma edge_previousLayerController :
    (s.edge cfg sch).previousLayerController =
      { s.previousLayerController with
        wrToOutO := s.controller.writeOutControllerLayerO
        clrO := s.controller.clrControllerLayerO : PreviousLayerController }.copyMemory
        s.controller.startCloneControllerLayerO s.layersStorage.dataO := by
  obtain ⟨b, h⟩ := settle_eq (threadPhase cfg sch s)
  rw [edge_running cfg sch go, h, ← methodPhase_previousLayerController sch]
  exact threadPhase_previousLayerController cfg sch

/-- The step of a processor in an edge. -/
lemma edge_processor (k : Fin hw.countPcUnit) :
    (s.edge cfg sch).processors k =
      ((s.processors k).addToQueue hw.queueSize k s.generator.addressO s.generator.dataO
        s.generator.wO).process (s.wires.processorIn k) := by
  obtain ⟨b, h⟩ := settle_eq (threadPhase cfg sch s)
  rw [edge_running cfg sch go, h]
  exact threadPhase_processor cfg sch k

/-- `LAYERS_STORAGE` has no thread. -/
lemma edge_layersStorage : (s.edge cfg sch).layersStorage = (s.methodPhase sch).layersStorage := by
  obtain ⟨b, h⟩ := settle_eq (threadPhase cfg sch s)
  rw [edge_running cfg sch go, h]
  exact (threadPhase_storages cfg sch).1

/-- `WEIGHT_STORAGE` has no thread. -/
lemma edge_weightStorage : (s.edge cfg sch).weightStorage = (s.methodPhase sch).weightStorage := by
  obtain ⟨b, h⟩ := settle_eq (threadPhase cfg sch s)
  rw [edge_running cfg sch go, h]
  exact (threadPhase_storages cfg sch).2.1

/-- `PREVIOUS_LAYER` has no thread. -/
lemma edge_previousLayer : (s.edge cfg sch).previousLayer = (s.methodPhase sch).previousLayer := by
  obtain ⟨b, h⟩ := settle_eq (threadPhase cfg sch s)
  rw [edge_running cfg sch go, h]
  exact (threadPhase_storages cfg sch).2.2.1

/-- `PREVIOUS_LAYER_SIZE` has no thread. -/
lemma edge_previousLayerSize :
    (s.edge cfg sch).previousLayerSize = (s.methodPhase sch).previousLayerSize := by
  obtain ⟨b, h⟩ := settle_eq (threadPhase cfg sch s)
  rw [edge_running cfg sch go, h]
  exact (threadPhase_storages cfg sch).2.2.2.1

/-- `NEXT_LAYER` has no thread. -/
lemma edge_nextLayer : (s.edge cfg sch).nextLayer = (s.methodPhase sch).nextLayer := by
  obtain ⟨b, h⟩ := settle_eq (threadPhase cfg sch s)
  rw [edge_running cfg sch go, h]
  exact (threadPhase_storages cfg sch).2.2.2.2

/-- Unless the edge stops the simulation, `END_REDUCER` shows the reduction of its inputs. -/
lemma edge_cycleEnded (go' : (s.edge cfg sch).stopped = false) :
    (s.edge cfg sch).cycleEnded =
      reduce (s.edge cfg sch).generator.endGenerateO
        (fun k => ((s.edge cfg sch).processors k).contrEmptyO) := by
  rw [edge_running cfg sch go] at go' ⊢
  unfold System.settle at go' ⊢
  split at go' <;> rename_i st
  · rw [st] at go'; cases go'
  · rw [if_neg st]
    rfl

omit go

variable (boot : Schedule hw) (junk : Nat → F)

/-- Every processor shows that it has nothing to do. -/
lemma initialized_processor (k : Fin hw.countPcUnit) :
    (System.initialized boot junk).processors k = Processor.initial := by
  change ((System.elaborated junk).methodPhase boot).processors k = _
  rw [methodPhase_processor]
  simp [System.elaborated, Processor.addToQueue, Processor.initial]

/-- Initialization leaves `GENERATOR` in its first state. -/
lemma initialized_generator : (System.initialized boot junk : System hw F).generator = {} :=
  methodPhase_generator boot _

end NnProcessor.Edge
