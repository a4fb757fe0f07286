import NnProcessor.Edge.Modules
import NnProcessor.Invariant.Generator
import NnProcessor.Invariant.Processor

/-!
# The computation of a layer

`LayerInv cfg i h s` ties the generator, the processors and `NEXT_LAYER` together while the layer
iteration `i` is computed: the neurons on the generator bus, the ones held by processors and the
stored ones are the dispatched ones. `LayerInv.step` keeps it, `LayerInv.finish` says what is left
when `END_REDUCER` shows the end, and `LayerInv.progress` bounds the edges until then by
`layerWork`.
-/

namespace NnProcessor.Invariant
open NnProcessor.Arith NnProcessor.Model NnProcessor.Edge

variable {hw : Hw} {F : Type}

/-- A sum of multisets is bound summand by summand. -/
lemma sum_bind {α β : Type*} {n : Nat} (a : Fin n → Multiset α) (f : α → Multiset β) :
    (∑ k, a k).bind f = ∑ k, (a k).bind f := by
  let hom : Multiset α →+ Multiset β :=
    { toFun s := s.bind f
      map_zero' := Multiset.zero_bind f
      map_add' _ _ := Multiset.add_bind _ _ _ }
  exact map_sum hom a Finset.univ

/-- One word goes to one processor. -/
lemma sum_pushed {n : Nat} (g : Generator) (k : Fin n) (address : g.addressO = k) :
    ∑ j : Fin n, (pushed j g.addressO g.dataO g.wO : Multiset Nat) = g.sent := by
  rw [Finset.sum_eq_single k]
  · cases hw : g.wO <;> simp [pushed, Generator.sent, address, hw]
  · intro j _ ne
    have : (k : Nat) ≠ j := fun e => ne (Fin.ext e.symm)
    simp [pushed, address, this]
  · exact fun h => absurd (Finset.mem_univ k) h

section NextLayer

variable {n : Nat} (memSize : Nat) (w : Fin n → Bool) (addr : Fin n → Nat) (data : Fin n → F)

/-- The writes of one edge; two of them never disagree about a slot. -/
lemma addToMemory_memory {r : Nat → F} (h : ∀ k, w k = true → data k = r (addr k))
    (m : NextLayer F) (x : Nat) :
    (m.addToMemory memSize w addr data).memory x =
      if ∃ k, w k = true ∧ addr k = x then r x else m.memory x := by
  have scan : ∀ (l : List (Fin n)) (m : NextLayer F),
      (l.foldl (fun m i => m.store memSize (w i) (addr i) (data i)) m).memory x =
        if ∃ k ∈ l, w k = true ∧ addr k = x then r x else m.memory x := by
    intro l
    induction l with
    | nil => simp
    | cons k l ih =>
      intro m
      rw [List.foldl_cons, ih]
      by_cases rest : ∃ k ∈ l, w k = true ∧ addr k = x
      · simp [rest]
      · by_cases hit : w k = true ∧ addr k = x
        · obtain ⟨hk, rfl⟩ := hit
          simp [NextLayer.store, hk, h k hk]
        · have : (m.store memSize (w k) (addr k) (data k)).memory x = m.memory x := by
            unfold NextLayer.store
            split
            · next hk =>
              have : x ≠ addr k := fun e => hit ⟨hk, e.symm⟩
              simp [Function.update_of_ne this]
            · rfl
          simp [rest, hit, this]
  rw [NextLayer.addToMemory, scan]
  simp

/-- A write resets the read index. -/
lemma addToMemory_index (m : NextLayer F) :
    (m.addToMemory memSize w addr data).index = if ∃ k, w k = true then 0 else m.index := by
  have scan : ∀ (l : List (Fin n)) (m : NextLayer F),
      (l.foldl (fun m i => m.store memSize (w i) (addr i) (data i)) m).index =
        if ∃ k ∈ l, w k = true then 0 else m.index := by
    intro l
    induction l with
    | nil => simp
    | cons k l ih =>
      intro m
      rw [List.foldl_cons, ih]
      by_cases rest : ∃ k ∈ l, w k = true
      · simp [rest]
      · cases hk : w k <;> simp [NextLayer.store, rest, hk]
  rw [NextLayer.addToMemory, scan]
  simp

/-- A write behind the reserved storage is recorded. -/
lemma addToMemory_overrun (m : NextLayer F) :
    (m.addToMemory memSize w addr data).overrun = true ↔
      m.overrun = true ∨ ∃ k, w k = true ∧ memSize ≤ addr k := by
  have scan : ∀ (l : List (Fin n)) (m : NextLayer F),
      (l.foldl (fun m i => m.store memSize (w i) (addr i) (data i)) m).overrun = true ↔
        m.overrun = true ∨ ∃ k ∈ l, w k = true ∧ memSize ≤ addr k := by
    intro l
    induction l with
    | nil => simp
    | cons k l ih =>
      intro m
      rw [List.foldl_cons, ih]
      cases hk : w k <;> simp [NextLayer.store, hk, or_assoc]
  rw [NextLayer.addToMemory, scan]
  simp

/-- A write leaves the word that is shown. -/
lemma addToMemory_dataO (m : NextLayer F) :
    (m.addToMemory memSize w addr data).dataO = m.dataO := by
  have scan : ∀ (l : List (Fin n)) (m : NextLayer F),
      (l.foldl (fun m i => m.store memSize (w i) (addr i) (data i)) m).dataO = m.dataO := by
    intro l
    induction l with
    | nil => exact fun m => rfl
    | cons k l ih =>
      intro m
      rw [List.foldl_cons, ih]
      cases hk : w k <;> simp [NextLayer.store]
  exact scan _ m

/-- With no write the memory rests. -/
lemma addToMemory_quiet (h : ∀ k, w k = false) (m : NextLayer F) :
    m.addToMemory memSize w addr data = m := by
  have scan : ∀ l : List (Fin n),
      l.foldl (fun m i => m.store memSize (w i) (addr i) (data i)) m = m := by
    intro l
    induction l with
    | nil => rfl
    | cons k l ih => simpa [NextLayer.store, h k] using ih
  exact scan _

end NextLayer

/-- The initialization leaves the heap as it is. -/
lemma initialized_nextLayer [Binary32Ops F] [DecidableEq F] (boot : Schedule hw) (junk : Nat → F) :
    (System.initialized boot junk : System hw F).nextLayer = { memory := junk, dataO := ofInt 0 } := by
  have quiet : ∀ m : NextLayer F,
      m.addToMemory hw.memSize (System.elaborated junk : System hw F).wires.resmemWBus
        (System.elaborated junk : System hw F).wires.resmemAddrBus
        (System.elaborated junk : System hw F).wires.resmemDataBus = m :=
    addToMemory_quiet hw.memSize _ _ _ fun _ => rfl
  rcases methodPhase_nextLayer boot (System.elaborated junk : System hw F) with eq | eq
  · exact eq.trans (by rw [quiet]; rfl)
  · exact eq.trans (by rw [quiet]; rfl)

/-- `END_REDUCER` shows the end when all of its inputs do. -/
lemma reduce_eq_true {n : Nat} (b : Bool) (f : Fin n → Bool) :
    reduce b f = true ↔ b = true ∧ ∀ k, f k = true := by
  have scan : ∀ (l : List (Fin n)) (b : Bool),
      l.foldl (fun ok i => ok && f i) b = true ↔ b = true ∧ ∀ k ∈ l, f k = true := by
    intro l
    induction l with
    | nil => simp
    | cons k l ih =>
      intro b
      rw [List.foldl_cons, ih]
      simp [and_assoc]
  rw [reduce, scan]
  simp

variable [Binary32Ops F]

/-- The invariant of the layer iteration `i` while it is computed. -/
structure LayerInv (cfg : Config F) (i : Nat) (h : History hw) (s : System hw F) : Prop where
  generator : GenInv (cfg.dispatches i) h.dispatched s.generator
  processor : ∀ k, ProcInv (cfg.job i) (s.processors k) (s.weightStorage.dataOutBusO k)
    (s.previousLayer.dataPcBusO k) (h.fetched k)
  room : s.generator.wO = true → ∃ k : Fin hw.countPcUnit, s.generator.addressO = k ∧
    (s.processors k).queueNnNumber.length < hw.queueSize
  conserved : s.generator.sent + ∑ k, (s.processors k).held + h.stored =
    Multiset.range h.dispatched
  slots : ∀ x ∈ h.stored, s.nextLayer.memory x = (cfg.job i).result x
  index : h.stored ≠ 0 → s.nextLayer.index = 0
  used : h.used = cfg.usesBefore i +
    (h.stored.bind (cfg.job i).uses + ∑ k, (s.processors k).summed (cfg.job i)).map
      fun u => (some i, u)

/-- The signals the units of the computation read in the layer iteration `i`. -/
structure LayerWires (cfg : Config F) (i : Nat) (s : System hw F) : Prop where
  go : s.stopped = false
  layer : s.controller.thread.layer = some i
  start : s.controller.startWeightAdderessO = cfg.base i
  size : s.previousLayerSize.dataO = cfg.size i
  width : s.layersStorage.dataO = cfg.size (i + 1)
  weights : s.weightStorage.memory = cfg.weights
  memory : s.previousLayer.memory = cfg.activation i
  generate : s.controller.startGeneratorO = false
  quiet : s.bus.wr = false
  next : s.previousLayerController.nextO = false
  copy : s.previousLayerController.wrToMemoryFromMemO = false
  out : s.previousLayerController.wrToOutO = false
  clr : s.previousLayerController.clrO = false

section Step

variable [DecidableEq F] {cfg : Config F} {i : Nat} {h : History hw} {s : System hw F}
variable (sch : Schedule hw)

/-- The weight storage answers the addresses of the edge. -/
lemma LayerWires.weight (wires : LayerWires cfg i s) (k : Fin hw.countPcUnit) :
    (s.edge cfg sch).weightStorage.dataOutBusO k =
      (cfg.job i).weight (s.processors k).weightAddrO := by
  rw [edge_weightStorage cfg sch wires.go]
  rcases methodPhase_weightStorage sch s with h | h <;> rw [h] <;>
    simp [WeightStorage.issueElement, WeightStorage.addToMemory, wires.quiet, wires.weights,
      LayerJob.weight, Config.job, Config.jobOn]

/-- The previous layer answers the addresses of the edge. -/
lemma LayerWires.input (wires : LayerWires cfg i s) (k : Fin hw.countPcUnit) :
    (s.edge cfg sch).previousLayer.dataPcBusO k =
      (cfg.job i).input (s.processors k).prevmemAddrO := by
  rw [edge_previousLayer cfg sch wires.go,
    methodPhase_previousLayer_quiet sch s (by simp [wires.quiet]) wires.copy wires.out wires.clr]
  simp [PreviousLayer.issueElementPc, wires.memory, LayerJob.input, Config.job, Config.jobOn]

/-- The step of the generator. -/
lemma LayerInv.step_generator (inv : LayerInv cfg i h s) (wires : LayerWires cfg i s)
    (send : Nat) :
    GenStep send (cfg.dispatches i) h.dispatched s.generator (s.edge cfg sch).generator
      hw.queueSize (fun k => (s.processors k).queueSizeO) := by
  rw [edge_generator cfg sch wires.go, wires.generate, wires.width]
  exact inv.generator.step send hw.countPcUnit_pos hw.queueSize _ rfl

/-- The step of a processor. -/
lemma LayerInv.step_processor (inv : LayerInv cfg i h s) (wires : LayerWires cfg i s)
    (k : Fin hw.countPcUnit) :
    ProcStep (cfg.job i) (s.processors k) ((s.edge cfg sch).processors k) (h.fetched k)
      (pushed k s.generator.addressO s.generator.dataO s.generator.wO) := by
  have fed := (inv.processor k).fed hw.queueSize k s.generator.addressO s.generator.dataO
    s.generator.wO (by
      intro address word
      obtain ⟨j, hj, room⟩ := inv.room word
      have : k = j := Fin.ext (address.symm.trans hj)
      rwa [this])
  rw [edge_processor cfg sch wires.go]
  exact (inv.processor k).step fed wires.start wires.size rfl rfl

omit [DecidableEq F] in
/-- The numbers on the write ports are the ones of the neurons being stored. -/
lemma LayerInv.written (inv : LayerInv cfg i h s) (k : Fin hw.countPcUnit) :
    (s.processors k).written = (s.processors k).storing := (inv.processor k).written

omit [DecidableEq F] in
/-- A write port carries the result of its neuron. -/
lemma LayerInv.result (inv : LayerInv cfg i h s) (k : Fin hw.countPcUnit)
    (write : (s.processors k).resmemWO = true) :
    (s.processors k).resmemDataO = (cfg.job i).result (s.processors k).resmemAddrO := by
  have stage := (inv.processor k).stage
  have ht : (s.processors k).thread = .store := by
    simpa [(inv.processor k).write] using write
  simp only [Stage, ht] at stage
  rw [stage.1, stage.2]

/-- The result memory behind an edge. -/
lemma LayerWires.nextLayer (wires : LayerWires cfg i s) :
    (s.edge cfg sch).nextLayer =
      s.nextLayer.addToMemory hw.memSize (fun k => (s.processors k).resmemWO)
        (fun k => (s.processors k).resmemAddrO) (fun k => (s.processors k).resmemDataO) := by
  rw [edge_nextLayer cfg sch wires.go]
  rcases methodPhase_nextLayer sch s with h | h <;> rw [h]
  · simp only [NextLayer.issueElement, wires.next, Bool.false_eq_true, if_false]
    rfl
  · simp only [NextLayer.issueElement, wires.next, Bool.false_eq_true, if_false]
    rfl

/-- The neurons dispatched are the ones on the bus, in the processors and in `NEXT_LAYER`, also
behind the edge. -/
lemma LayerInv.step_conserved (inv : LayerInv cfg i h s) (wires : LayerWires cfg i s) :
    (s.edge cfg sch).generator.sent + ∑ k, ((s.edge cfg sch).processors k).held +
        (h.stored + ∑ k, (s.processors k).written) =
      Multiset.range (h.dispatched + if (s.edge cfg sch).generator.wO then 1 else 0) := by
  have gen := inv.step_generator sch wires 0
  have moved : ∑ k, ((s.edge cfg sch).processors k).held + ∑ k, (s.processors k).written =
      ∑ k, (s.processors k).held + s.generator.sent := by
    have each : ∀ k, ((s.edge cfg sch).processors k).held + (s.processors k).written =
        (s.processors k).held +
          (pushed k s.generator.addressO s.generator.dataO s.generator.wO : Multiset Nat) := by
      intro k
      rw [inv.written]
      exact (inv.step_processor sch wires k).held
    have bus : ∑ k : Fin hw.countPcUnit,
        (pushed k s.generator.addressO s.generator.dataO s.generator.wO : Multiset Nat) =
          s.generator.sent := by
      cases word : s.generator.wO with
      | false => simp [pushed, Generator.sent, word]
      | true =>
        obtain ⟨j, hj, -⟩ := inv.room word
        rw [← word]
        exact sum_pushed s.generator j hj
    rw [← Finset.sum_add_distrib, Finset.sum_congr rfl (fun k _ => each k),
      Finset.sum_add_distrib, bus]
  have sent : (s.edge cfg sch).generator.sent + Multiset.range h.dispatched =
      Multiset.range (h.dispatched + if (s.edge cfg sch).generator.wO then 1 else 0) := by
    cases word : (s.edge cfg sch).generator.wO with
    | false => simp [Generator.sent, word]
    | true => simp [Generator.sent, word, (gen.word word).2.1, Multiset.range_succ]
  rw [← sent, ← inv.conserved]
  calc (s.edge cfg sch).generator.sent + ∑ k, ((s.edge cfg sch).processors k).held +
        (h.stored + ∑ k, (s.processors k).written)
      = (s.edge cfg sch).generator.sent + (∑ k, ((s.edge cfg sch).processors k).held +
          ∑ k, (s.processors k).written) + h.stored := by abel
    _ = (s.edge cfg sch).generator.sent + (s.generator.sent + ∑ k, (s.processors k).held +
          h.stored) := by rw [moved]; abel

/-- The weights used, also behind the edge. -/
lemma LayerInv.step_used (inv : LayerInv cfg i h s) (wires : LayerWires cfg i s) :
    h.used + (∑ k, (s.processors k).adding (h.fetched k)).map
        (fun u => (s.controller.thread.layer, u)) =
      cfg.usesBefore i + ((h.stored + ∑ k, (s.processors k).written).bind (cfg.job i).uses +
        ∑ k, ((s.edge cfg sch).processors k).summed (cfg.job i)).map fun u => (some i, u) := by
  have moved : (∑ k, (s.processors k).written).bind (cfg.job i).uses +
      ∑ k, ((s.edge cfg sch).processors k).summed (cfg.job i) =
        ∑ k, (s.processors k).summed (cfg.job i) +
          ∑ k, (s.processors k).adding (h.fetched k) := by
    rw [sum_bind, ← Finset.sum_add_distrib, ← Finset.sum_add_distrib]
    refine Finset.sum_congr rfl fun k _ => ?_
    rw [← (inv.step_processor sch wires k).summed, inv.written, add_comm]
    by_cases ht : (s.processors k).thread = .store <;> simp [Processor.storing, ht]
  rw [inv.used, wires.layer, Multiset.add_bind, add_assoc _ _ (∑ k, _ : Multiset WeightUse), moved]
  simp only [Multiset.map_add, add_assoc]

/-- The invariant of a layer is kept while the controller waits. -/
lemma LayerInv.step (inv : LayerInv cfg i h s) (wires : LayerWires cfg i s)
    (stay : (s.edge cfg sch).controller.thread.begins = false) :
    LayerInv cfg i (h.observe s (s.edge cfg sch)) (s.edge cfg sch) := by
  have gen := inv.step_generator sch wires 0
  have observed : h.observe s (s.edge cfg sch) =
      { dispatched := h.dispatched + if (s.edge cfg sch).generator.wO then 1 else 0
        stored := h.stored + ∑ k, (s.processors k).written
        used := h.used + (∑ k, (s.processors k).adding (h.fetched k)).map
          (fun u => (s.controller.thread.layer, u))
        fetched := fun k => (s.processors k).weightAddrO } := by
    simp [History.observe, stay]
  have wrote : ∀ x, x ∈ ∑ k, (s.processors k).written ↔
      ∃ k, (s.processors k).resmemWO = true ∧ (s.processors k).resmemAddrO = x := by
    intro x
    simp only [Multiset.mem_sum, Finset.mem_univ, true_and, Processor.written]
    refine exists_congr fun k => ?_
    cases (s.processors k).resmemWO <;> simp [eq_comm]
  rw [observed]
  refine ⟨gen.inv, ?_, ?_, inv.step_conserved sch wires, ?_, ?_, inv.step_used sch wires⟩
  · intro k
    exact (inv.step_processor sch wires k).inv _ _ (wires.weight sch k) (wires.input sch k)
  · -- the queue chosen had room before the edge, and nothing was pushed in it
    intro word
    obtain ⟨silent, -, k, hk, room, -⟩ := gen.word word
    refine ⟨k, hk, lt_of_le_of_lt ?_ room⟩
    have shorter := (inv.step_processor sch wires k).queue.length_le
    simp only [pushed, silent, Bool.false_eq_true, and_false, if_false, List.append_nil] at shorter
    exact le_trans shorter (inv.processor k).size_le
  · intro x hx
    rw [wires.nextLayer sch, addToMemory_memory _ _ _ _ (fun k => inv.result k)]
    split
    · rfl
    · next none =>
      refine inv.slots x ((Multiset.mem_add.1 hx).resolve_right ?_)
      rwa [wrote]
  · intro some
    rw [wires.nextLayer sch, addToMemory_index]
    split
    · rfl
    · next none =>
      refine inv.index fun empty => some ?_
      simp only [empty, zero_add]
      refine Multiset.eq_zero_of_forall_notMem fun x hx => none ?_
      obtain ⟨k, hk, -⟩ := (wrote x).1 hx
      exact ⟨k, hk⟩

/-- A bound on the edges until the layer is computed. -/
def layerWork (cfg : Config F) (i : Nat) (h : History hw) (s : System hw F) : Nat :=
  2 * (∑ k, (s.processors k).work (cfg.job i) +
    if s.generator.wO then Processor.cost (cfg.job i) else 0) +
  genWork (2 * Processor.cost (cfg.job i) + 2) (cfg.dispatches i) h.dispatched s.generator

/-- All processors together make progress, and each that has work makes some. -/
lemma LayerInv.work_le (inv : LayerInv cfg i h s) (wires : LayerWires cfg i s) :
    (∑ k, ((s.edge cfg sch).processors k).work (cfg.job i) ≤
      ∑ k, (s.processors k).work (cfg.job i) +
        if s.generator.wO then Processor.cost (cfg.job i) else 0) ∧
    ((∃ k, 0 < (s.processors k).work (cfg.job i)) →
      ∑ k, ((s.edge cfg sch).processors k).work (cfg.job i) <
        ∑ k, (s.processors k).work (cfg.job i) +
          if s.generator.wO then Processor.cost (cfg.job i) else 0) := by
  have bus : ∑ k : Fin hw.countPcUnit, Processor.cost (cfg.job i) *
      (pushed k s.generator.addressO s.generator.dataO s.generator.wO).length =
        if s.generator.wO then Processor.cost (cfg.job i) else 0 := by
    cases word : s.generator.wO with
    | false => simp [pushed]
    | true =>
      obtain ⟨j, hj, -⟩ := inv.room word
      have eq := congrArg Multiset.card (sum_pushed s.generator j hj)
      rw [word] at eq
      simp only [Multiset.card_sum, Multiset.coe_card, Generator.sent, word, if_true,
        Multiset.card_singleton] at eq
      rw [← Finset.mul_sum, eq]
      simp
  rw [← bus, ← Finset.sum_add_distrib]
  have step := fun k => (inv.step_processor sch wires k).work
  constructor
  · refine Finset.sum_le_sum fun k _ => ?_
    rcases step k with h | ⟨h, -, -⟩ <;> omega
  · rintro ⟨k, pos⟩
    refine Finset.sum_lt_sum (fun k _ => ?_) ⟨k, Finset.mem_univ k, ?_⟩
    · rcases step k with h | ⟨h, -, -⟩ <;> omega
    · rcases step k with h | ⟨-, h, -⟩ <;> omega

/-- Until the end shows, every edge brings it nearer. -/
lemma LayerInv.progress (inv : LayerInv cfg i h s) (wires : LayerWires cfg i s)
    (ended : s.cycleEnded =
      reduce s.generator.endGenerateO (fun k => (s.processors k).contrEmptyO))
    (running : s.cycleEnded = false)
    (stay : (s.edge cfg sch).controller.thread.begins = false) :
    layerWork cfg i (h.observe s (s.edge cfg sch)) (s.edge cfg sch) < layerWork cfg i h s := by
  obtain ⟨le, lt⟩ := inv.work_le sch wires
  have gen := inv.step_generator sch wires (2 * Processor.cost (cfg.job i) + 2)
  have observed : (h.observe s (s.edge cfg sch)).dispatched =
      h.dispatched + if (s.edge cfg sch).generator.wO then 1 else 0 := by
    simp [History.observe, stay]
  unfold layerWork
  rw [observed]
  rcases gen.work with ⟨word, work⟩ | ⟨word, work⟩ | ⟨word, work, full⟩ | ⟨word, work, done⟩
  · -- a neuron is sent: its cost moves to the bus
    have silent := (gen.word word).1
    simp only [word, silent, if_true, Bool.false_eq_true, if_false, add_zero] at le ⊢
    omega
  · rw [word]
    simp only [Bool.false_eq_true, if_false, add_zero]
    omega
  · -- every queue is full, so some processor works
    have busy : ∃ k, 0 < (s.processors k).work (cfg.job i) := by
      refine ⟨⟨0, hw.countPcUnit_pos⟩, (inv.processor _).work_pos (.inl ?_)⟩
      exact lt_of_lt_of_le hw.queueSize_pos (full _)
    have less := lt busy
    rw [word]
    simp only [Bool.false_eq_true, if_false, add_zero]
    omega
  · -- everything is sent, so some processor is not done
    have busy : ∃ k, 0 < (s.processors k).work (cfg.job i) := by
      by_contra none
      have all : s.cycleEnded = true := by
        rw [ended, reduce_eq_true]
        refine ⟨done, fun k => ?_⟩
        by_contra contr
        exact none ⟨k, (inv.processor k).work_pos (.inr (by simpa using contr))⟩
      rw [running] at all
      cases all
    have less := lt busy
    rw [word]
    simp only [Bool.false_eq_true, if_false, add_zero]
    omega

end Step

/-- The generator and the processors between two layers. -/
structure UnitsIdle (s : System hw F) : Prop where
  generator : GenIdle s.generator
  processor : ∀ k, ProcIdle (s.processors k)

/-- The end is shown only when the layer is done: everything is dispatched and stored, and nothing
is on its way. -/
lemma LayerInv.finish {cfg : Config F} {i : Nat} {h : History hw} {s : System hw F}
    (inv : LayerInv cfg i h s)
    (ended : reduce s.generator.endGenerateO (fun k => (s.processors k).contrEmptyO) = true) :
    UnitsIdle s ∧ h.dispatched = cfg.dispatches i ∧
      h.stored = Multiset.range (cfg.dispatches i) ∧ h.used = cfg.usesBefore (i + 1) := by
  obtain ⟨gen, procs⟩ := (reduce_eq_true _ _).1 ended
  obtain ⟨all, idle⟩ := inv.generator.ended gen
  have idles : ∀ k, ProcIdle (s.processors k) := fun k => (inv.processor k).to_idle (procs k)
  have stored : h.stored = Multiset.range (cfg.dispatches i) := by
    have eq := inv.conserved
    have none : ∑ k, (s.processors k).held = 0 := Finset.sum_eq_zero fun k _ => by
      rw [Processor.held_waiting (idles k).thread, (idles k).queue, Multiset.coe_nil]
    rwa [none, Generator.sent, idle.quiet, all, if_neg (by simp), zero_add, zero_add] at eq
  refine ⟨⟨idle, idles⟩, all, stored, ?_⟩
  have none : ∑ k, (s.processors k).summed (cfg.job i) = 0 := Finset.sum_eq_zero fun k _ => by
    have waiting := (idles k).thread
    unfold Processor.summed
    cases ht : (s.processors k).thread <;> simp_all
  rw [inv.used, none, stored, add_zero, Config.usesBefore_succ]
  rfl

namespace UnitsIdle

variable [DecidableEq F] {cfg : Config F} {s : System hw F} (idle : UnitsIdle s)
variable (sch : Schedule hw) (go : s.stopped = false)
include idle

omit [Binary32Ops F] [DecidableEq F] in
/-- Idle processors write nothing. -/
lemma sum_written : ∑ k, (s.processors k).written = 0 :=
  Finset.sum_eq_zero fun k _ => by simp [Processor.written, (idle.processor k).write]

omit [Binary32Ops F] [DecidableEq F] in
/-- Idle processors add nothing. -/
lemma sum_adding (f : Fin hw.countPcUnit → Int) : ∑ k, (s.processors k).adding (f k) = 0 :=
  Finset.sum_eq_zero fun k _ => by
    have waiting := (idle.processor k).thread
    unfold Processor.adding
    cases ht : (s.processors k).thread <;> simp_all

omit [Binary32Ops F] [DecidableEq F] in
/-- The result memory gets no writes. -/
lemma addToMemory (memSize : Nat) (m : NextLayer F) :
    m.addToMemory memSize s.wires.resmemWBus s.wires.resmemAddrBus s.wires.resmemDataBus = m :=
  addToMemory_quiet memSize _ _ _ (fun k => (idle.processor k).write) m

variable (cfg) in
include go in
/-- The processors rest in every edge. -/
lemma step_processor (k : Fin hw.countPcUnit) : ProcIdle ((s.edge cfg sch).processors k) := by
  rw [edge_processor cfg sch go, idle.generator.quiet]
  exact (idle.processor k).step _ _ _ _ _

variable (cfg) in
include go in
/-- Without a start pulse the units rest. -/
lemma step (noStart : s.controller.startGeneratorO = false) : UnitsIdle (s.edge cfg sch) := by
  refine ⟨?_, fun k => idle.step_processor cfg sch go k⟩
  rw [edge_generator cfg sch go, noStart]
  exact idle.generator.rest _ _ _ _

omit [Binary32Ops F] [DecidableEq F] in
/-- Nothing happens that an observer would note, unless an iteration begins. -/
lemma observe {s' : System hw F} (quiet : s'.generator.wO = false) (h : History hw) :
    h.observe s s' =
      { dispatched := if s'.controller.thread.begins then 0 else h.dispatched
        stored := if s'.controller.thread.begins then 0 else h.stored
        used := h.used
        fetched := fun k => (s.processors k).weightAddrO } := by
  simp [History.observe, quiet, idle.sum_written, idle.sum_adding]

include go in
/-- The start pulse begins the computation of a layer. -/
lemma begin {i : Nat} (start : s.controller.startGeneratorO = true) {h : History hw}
    (dispatched : h.dispatched = 0) (stored : h.stored = 0) (used : h.used = cfg.usesBefore i)
    (stay : (s.edge cfg sch).controller.thread.begins = false) :
    LayerInv cfg i (h.observe s (s.edge cfg sch)) (s.edge cfg sch) ∧
      (s.edge cfg sch).generator.state = .generate := by
  obtain ⟨gen, state, quiet⟩ : GenInv (cfg.dispatches i) 0 (s.edge cfg sch).generator ∧
      (s.edge cfg sch).generator.state = .generate ∧ (s.edge cfg sch).generator.wO = false := by
    rw [edge_generator cfg sch go, start]
    exact idle.generator.begin _ _ _ _ (Nat.lt_of_lt_of_le Nat.one_pos (Nat.le_max_right _ _))
  have procs := fun k => idle.step_processor cfg sch go k
  rw [idle.observe quiet h, stay]
  refine ⟨⟨by simpa [dispatched] using gen, fun k => (procs k).inv _ _ _ _, ?_, ?_, ?_, ?_, ?_⟩,
    state⟩
  · simp [quiet]
  · simp [dispatched, stored, Generator.sent, quiet,
      fun k => Processor.held_waiting (procs k).thread, fun k => (procs k).queue]
  · simp [stored]
  · simp [stored]
  · have none : ∑ k, ((s.edge cfg sch).processors k).summed (cfg.job i) = 0 :=
      Finset.sum_eq_zero fun k _ => by
        have waiting := (procs k).thread
        unfold Processor.summed
        cases ht : ((s.edge cfg sch).processors k).thread <;> simp_all
    simp [stored, used, none]

end UnitsIdle

end NnProcessor.Invariant
