import NnProcessor.Invariant.Control

/-!
# The storages follow the phases

What `LAYERS_STORAGE`, `WEIGHT_STORAGE`, `PREVIOUS_LAYER_SIZE` and `PREVIOUS_LAYER` hold in every
phase. The two methods that race inside a storage only disagree about what is issued in the edge in
which the storage changes; in the phases in which its output is read the storage is at rest.
-/

namespace NnProcessor.Invariant
open NnProcessor.Arith NnProcessor.Model NnProcessor.Edge

variable {hw : Hw} {F : Type}

/-- The words that have arrived at the address `a` in a phase. -/
def loadedAt [Binary32Ops F] (cfg : Config F) (a : Int) : Phase → List F
  | .load t => cfg.loaded a (t - 1)
  | _ => cfg.loaded a cfg.words.length

/-- `LAYERS_STORAGE` in a phase. -/
structure LayersInv [Binary32Ops F] (cfg : Config F) (ph : Phase) (m : LayersStorage) : Prop where
  memory : m.memory = (loadedAt cfg 1 ph).map toInt
  index : m.index = cfg.indexAt ph
  issued : ∀ v ∈ cfg.issuedAt ph, m.dataO = v

/-- `PREVIOUS_LAYER_SIZE` in a phase. Its output is one edge behind its register. -/
structure KeptInv [Binary32Ops F] (cfg : Config F) (ph : Phase) (m : PreviousLayerSize) : Prop where
  kept : ∀ v ∈ cfg.keptAt ph, m.layerSize = v
  issued : ∀ v ∈ cfg.keptAt ph, (∀ i, ph ≠ .nextLayer i) → m.dataO = v

/-- `PREVIOUS_LAYER` in a phase. -/
structure PreviousInv [Binary32Ops F] (cfg : Config F) (ph : Phase)
    (m : PreviousLayer F hw.countPcUnit) : Prop where
  memory : m.memory = cfg.previousAt ph
  out : m.indexToOut = cfg.outAt ph
  stopped : m.stopped = decide (ph = .stopped)

/-- A store gets the words that carry its address. -/
lemma loadedAt_next [Binary32Ops F] {cfg : Config F} {ph : Phase} {s : System hw F}
    (bus : BusInv cfg ph s) (valid : cfg.Valid ph) (running : ph ≠ .stopped) (ended : Bool)
    {a : Int} (store : a ≠ 0) :
    loadedAt cfg a (cfg.next ended ph) =
      loadedAt cfg a ph ++ if s.io.addrO = a ∧ s.bus.wr = true then [s.bus.data] else [] := by
  have three := three_le_length_words cfg
  have after : ∀ i, loadedAt cfg a (cfg.afterLayers i) = cfg.loaded a cfg.words.length := by
    intro i
    unfold Config.afterLayers
    split <;> rfl
  have quiet : s.bus.wr = false →
      loadedAt cfg a (cfg.next ended ph) = loadedAt cfg a ph →
      loadedAt cfg a (cfg.next ended ph) =
        loadedAt cfg a ph ++ if s.io.addrO = a ∧ s.bus.wr = true then [s.bus.data] else [] := by
    intro wr eq
    simp [wr, eq]
  cases ph with
  | load t =>
    cases t with
    | zero =>
      have more : 0 < cfg.words.length := by omega
      exact quiet bus.2 (by simp [Config.next, more, loadedAt])
    | succ t =>
      obtain ⟨-, -, -, wr, word, -, -⟩ := bus
      have step : cfg.loaded a (t + 1) =
          cfg.loaded a t ++ if s.io.addrO = a then [s.bus.data] else [] :=
        loaded_succ cfg word a
      simp only [wr, and_true, Config.next]
      split
      · exact step
      · next none =>
        have last : t + 1 = cfg.words.length := le_antisymm valid (not_lt.1 none)
        rw [after, ← last]
        exact step
  | compute i => cases ended <;> exact quiet bus.2 rfl
  | copyFirst i =>
    refine quiet bus.2 ?_
    simp only [Config.next]
    split <;> rfl
  | copying i j =>
    refine quiet bus.2 ?_
    simp only [Config.next]
    split <;> rfl
  | cloned i => exact quiet bus.2 (after (i + 1))
  | output k =>
    have addr : s.io.addrO = 0 := by
      cases k with
      | zero => exact bus.1.addr
      | succ k => exact bus.1.addr
    have eq : loadedAt cfg a (cfg.next ended (.output k)) = loadedAt cfg a (.output k) := by
      simp only [Config.next]
      split <;> rfl
    rw [eq, if_neg (by rw [addr]; exact fun h => store h.1.symm), List.append_nil]
  | stopped => exact absurd rfl running
  | savePrev | nextLayer | startGenerator | settle | clear | startClone | writeOut =>
    exact quiet bus.2 rfl

variable [Binary32 F] [DecidableEq F] {cfg : Config F} {ph : Phase} {s : System hw F}
variable (sch : Schedule hw)

omit [DecidableEq F] in
/-- The sizes behind the transmission. -/
lemma loaded_received (cfg : Config F) :
    (cfg.loaded 1 cfg.words.length).map toInt = cfg.received := by
  rw [(loaded_all cfg (le_refl _)).1, List.map_map, Config.received]
  refine List.map_congr_left fun l hl => ?_
  exact Binary32.toInt_ofInt l (cfg.layers_fit l hl)

/-- `WEIGHT_STORAGE` follows the phases. -/
lemma weights_step (weights : s.weightStorage.memory = loadedAt cfg 3 ph) (bus : BusInv cfg ph s)
    (valid : cfg.Valid ph) (running : ph ≠ .stopped) (go : s.stopped = false) (ended : Bool) :
    (s.edge cfg sch).weightStorage.memory = loadedAt cfg 3 (cfg.next ended ph) := by
  rw [edge_weightStorage cfg sch go, loadedAt_next bus valid running ended (by decide), ← weights]
  rcases methodPhase_weightStorage sch s with h | h <;> rw [h] <;>
    simp only [WeightStorage.issueElement, WeightStorage.addToMemory] <;> split_ifs <;> simp

omit [Binary32 F] [DecidableEq F] in
/-- The guard of `LAYERS_STORAGE` and the end of its vector agree. -/
lemma guardedRead_received [Binary32Ops F] (cfg : Config F) (j : Nat) :
    guardedRead cfg.received j 0 = cfg.size j := by
  have length : cfg.received.length = cfg.layers.length := List.length_map _
  have fits : i32 (cfg.received.length : Int) = cfg.received.length :=
    i32_eq ⟨by omega, by have := cfg.layersCount_lt; omega⟩
  unfold guardedRead Config.size
  rw [fits]
  split
  · simp
  · next none =>
    have : cfg.received.length ≤ j := by omega
    simp [List.getD_eq_getElem?_getD, List.getElem?_eq_none this]

/-- At rest the layer queue issues the size at its index. -/
lemma layers_issue (layers : LayersInv cfg ph s.layersStorage) (go : s.stopped = false)
    (done : loadedAt cfg 1 ph = cfg.loaded 1 cfg.words.length)
    (next : s.controller.nextLayerO = false) (quiet : ¬(s.io.addrO = 1 ∧ s.bus.wr = true)) :
    (s.edge cfg sch).layersStorage.dataO = cfg.size (cfg.indexAt ph) := by
  rw [edge_layersStorage cfg sch go, methodPhase_layersStorage sch s next quiet]
  simp only [LayersStorage.issueElement, layers.memory, layers.index, done, loaded_received]
  exact guardedRead_received cfg _

omit [DecidableEq F] in
/-- The bus rests in every phase of a layer iteration. -/
lemma BusInv.rest {i : Nat} (bus : BusInv cfg ph s) (layer : ph.layer = some i) :
    Receiving [] s.io ∧ s.bus.wr = false := by
  cases ph <;> first | exact bus | cases layer

/-- `LAYERS_STORAGE` follows the phases. -/
lemma layers_step (layers : LayersInv cfg ph s.layersStorage) (bus : BusInv cfg ph s)
    (ctrl : s.controller = cfg.controllerAt ph) (valid : cfg.Valid ph) (running : ph ≠ .stopped)
    (go : s.stopped = false) (ended : Bool) :
    LayersInv cfg (cfg.next ended ph) (s.edge cfg sch).layersStorage := by
  have three := three_le_length_words cfg
  refine ⟨?_, ?_, ?_⟩
  · rw [edge_layersStorage cfg sch go, methodPhase_layersMemory, layers.memory,
      loadedAt_next bus valid running ended (by decide)]
    split_ifs <;> simp
  · rw [edge_layersStorage cfg sch go, methodPhase_layersIndex, layers.index, ctrl,
      cfg.indexAt_next valid]
  · -- the phases whose successor is read
    have rest : ∀ i, ph.layer = some i → (∀ i, ph ≠ .nextLayer i) →
        (s.edge cfg sch).layersStorage.dataO = cfg.size (cfg.indexAt ph) := by
      intro i layer ne
      have wr := (bus.rest layer).2
      refine layers_issue sch layers go ?_ ?_ (by simp [wr])
      · cases ph <;> first | rfl | cases layer
      · rw [ctrl]
        cases ph <;> first | rfl | exact absurd rfl (ne _) | cases layer
    -- a layer iteration begins
    have begin : ∀ {i : Nat}, (s.edge cfg sch).layersStorage.dataO = cfg.size i →
        ∀ v ∈ cfg.issuedAt (cfg.afterLayers i), (s.edge cfg sch).layersStorage.dataO = v := by
      intro i data v hv
      unfold Config.afterLayers at hv
      split at hv
      · exact data.trans (Option.some.inj hv)
      · cases hv
    cases ph with
    | load t =>
      simp only [Config.next]
      split
      · rintro _ ⟨⟩
      · next none =>
        have last : t = cfg.words.length := le_antisymm valid (not_lt.1 none)
        obtain ⟨u, rfl⟩ : ∃ u, t = u + 3 := ⟨t - 3, by omega⟩
        have addr : s.io.addrO = 0 := (bus.last cfg last).1
        refine begin (layers_issue sch layers go ?_ (by rw [ctrl]; rfl) (by simp [addr]))
        rw [last]
        exact loaded_last cfg (by decide)
    | compute i =>
      have data := rest i rfl (by simp)
      cases ended <;> exact fun v hv => data.trans (Option.some.inj hv)
    | copyFirst i =>
      have data := rest i rfl (by simp)
      simp only [Config.next]
      split <;> exact fun v hv => data.trans (Option.some.inj hv)
    | copying i j =>
      have data := rest i rfl (by simp)
      simp only [Config.next]
      split <;> exact fun v hv => data.trans (Option.some.inj hv)
    | cloned i => exact begin (rest i rfl (by simp))
    | output k =>
      simp only [Config.next]
      split <;> rintro _ ⟨⟩
    | stopped => exact absurd rfl running
    | nextLayer | writeOut => rintro _ ⟨⟩
    | savePrev i | startGenerator i | settle i | clear i | startClone i =>
      have data := rest i rfl (by simp)
      exact fun v hv => data.trans (Option.some.inj hv)

/-- `PREVIOUS_LAYER_SIZE` follows the phases. -/
lemma kept_step (kept : KeptInv cfg ph s.previousLayerSize)
    (layers : LayersInv cfg ph s.layersStorage) (ctrl : s.controller = cfg.controllerAt ph)
    (running : ph ≠ .stopped) (go : s.stopped = false) (ended : Bool) :
    KeptInv cfg (cfg.next ended ph) (s.edge cfg sch).previousLayerSize := by
  -- outside of the first phase of an iteration the register is passed on
  have pass : s.controller.savePrevLayerSizeO = false →
      cfg.keptAt (cfg.next ended ph) = cfg.keptAt ph ∨ cfg.keptAt (cfg.next ended ph) = none →
      KeptInv cfg (cfg.next ended ph) (s.edge cfg sch).previousLayerSize := by
    intro save same
    have eq : (s.edge cfg sch).previousLayerSize = s.previousLayerSize.passNewElement := by
      rw [edge_previousLayerSize cfg sch go]
      rcases methodPhase_previousLayerSize sch s with h | h <;> rw [h] <;>
        simp [PreviousLayerSize.saveNewElement, save]
    rw [eq]
    rcases same with same | none
    · exact ⟨fun v hv => kept.kept v (same ▸ hv), fun v hv _ => kept.kept v (same ▸ hv)⟩
    · exact ⟨fun v hv => by simp [none] at hv, fun v hv _ => by simp [none] at hv⟩
  have after : ∀ i, cfg.keptAt (cfg.afterLayers i) = none := by
    intro i
    unfold Config.afterLayers
    split <;> rfl
  have quiet : ∀ ph : Phase, (∀ i, ph ≠ .savePrev i) →
      (cfg.controllerAt ph).savePrevLayerSizeO = false := by
    intro ph ne
    cases ph with
    | load t => rcases t with _ | _ | _ | t <;> rfl
    | savePrev i => exact absurd rfl (ne i)
    | nextLayer | startGenerator | settle | compute | clear | startClone | copyFirst | copying
    | cloned | writeOut | output | stopped => rfl
  cases ph with
  | savePrev i =>
    have data := layers.issued _ rfl
    have save : s.controller.savePrevLayerSizeO = true := by rw [ctrl]; rfl
    refine ⟨fun v hv => ?_, fun v _ ne => absurd rfl (ne i)⟩
    rw [← Option.some.inj hv, ← data, edge_previousLayerSize cfg sch go]
    rcases methodPhase_previousLayerSize sch s with h | h <;> rw [h] <;>
      simp [PreviousLayerSize.saveNewElement, PreviousLayerSize.passNewElement, save]
  | load t =>
    refine pass (by rw [ctrl]; exact quiet _ (by simp)) (.inr ?_)
    simp only [Config.next]
    split
    · rfl
    · exact after 0
  | compute i => cases ended <;> exact pass (by rw [ctrl]; rfl) (.inl rfl)
  | copyFirst i =>
    refine pass (by rw [ctrl]; rfl) (.inl ?_)
    simp only [Config.next]
    split <;> rfl
  | copying i j =>
    refine pass (by rw [ctrl]; rfl) (.inl ?_)
    simp only [Config.next]
    split <;> rfl
  | cloned i => exact pass (by rw [ctrl]; rfl) (.inr (after (i + 1)))
  | output k =>
    refine pass (by rw [ctrl]; rfl) (.inr ?_)
    simp only [Config.next]
    split <;> rfl
  | stopped => exact absurd rfl running
  | nextLayer | startGenerator | settle | clear | startClone | writeOut =>
    exact pass (by rw [ctrl]; rfl) (.inl rfl)

omit [Binary32 F] [DecidableEq F] in
/-- `copy_memory` rebuilds the activation word by word. -/
lemma take_activation [Binary32Ops F] (cfg : Config F) {i j : Nat} (lt : j < cfg.width i) :
    (cfg.activation (i + 1)).take (j + 1) =
      (cfg.activation (i + 1)).take j ++ [(cfg.job i).result j] := by
  have len : j < (cfg.activation (i + 1)).length := by rwa [Config.length_activation_succ]
  rw [List.take_succ_eq_append_getElem len]
  simp [Config.activation_succ]

omit [DecidableEq F] in
/-- In the output phase the next word of the memory is the next result. -/
lemma results_getElem? (cfg : Config F) {k : Nat} (lt : k < cfg.resultCount) :
    cfg.results[k]? = some ((cfg.activation cfg.iterations).getD k (ofInt 0)) := by
  have len : k < (cfg.activation cfg.iterations).length := by
    have le : i32 (cfg.activation cfg.iterations).length ≤ (cfg.activation cfg.iterations).length :=
      i32_le
    unfold Config.resultCount at lt
    omega
  rw [Config.results, List.getElem?_take_of_lt lt, List.getElem?_eq_getElem len]
  simp [List.getElem?_eq_getElem len]

omit [Binary32 F] [DecidableEq F] in
/-- Between two layers the memory holds the activation. -/
lemma previousAt_afterLayers [Binary32Ops F] (cfg : Config F) {i : Nat}
    (le : i ≤ cfg.iterations) : cfg.previousAt (cfg.afterLayers i) = cfg.activation i ∧
      cfg.outAt (cfg.afterLayers i) = 0 ∧ cfg.afterLayers i ≠ .stopped := by
  unfold Config.afterLayers
  split
  · exact ⟨rfl, rfl, by simp⟩
  · next more =>
    obtain rfl : i = cfg.iterations := le_antisymm le (not_lt.1 more)
    exact ⟨rfl, rfl, by simp⟩

/-- An edge in which words arrive, or nothing happens. -/
lemma previous_add (prev : PreviousInv cfg ph s.previousLayer) (go : s.stopped = false)
    (running : ph ≠ .stopped) (silent : ∀ k, ph ≠ .output k)
    (out : s.previousLayerController.wrToOutO = false)
    (clr : s.previousLayerController.clrO = false) (ph' : Phase) (ns : ph' ≠ .stopped)
    (same : cfg.outAt ph' = cfg.outAt ph)
    (mem : cfg.previousAt ph' = cfg.previousAt ph ++
      PreviousLayer.arriving s.io.addrO s.bus.data s.bus.wr
        s.previousLayerController.wrToMemoryFromMemO s.nextLayer.dataO) :
    PreviousInv cfg ph' (s.edge cfg sch).previousLayer ∧
      BusDriven cfg ph s.bus (s.methodPhase sch).bus := by
  obtain ⟨memory, index, stopped, driven⟩ := methodPhase_previousLayer_add sch s out clr
  rw [edge_previousLayer cfg sch go]
  refine ⟨⟨by rw [memory, mem, prev.memory], by rw [index, same, prev.out], ?_⟩, ?_⟩
  · rw [stopped, prev.stopped, decide_eq_false ns, decide_eq_false running]
  · cases ph <;> first | exact driven | exact absurd rfl (silent _)

/-- The words of the picture arrive. -/
lemma previous_load {t : Nat} (prev : PreviousInv cfg (.load t) s.previousLayer)
    (copy : s.previousLayerController = cfg.copyAt (.load t)) (bus : BusInv cfg (.load t) s)
    (valid : cfg.Valid (.load t)) (go : s.stopped = false) (ended : Bool) :
    PreviousInv cfg (cfg.next ended (.load t)) (s.edge cfg sch).previousLayer ∧
      BusDriven cfg (.load t) s.bus (s.methodPhase sch).bus := by
  have flags : s.previousLayerController.wrToOutO = false ∧
      s.previousLayerController.clrO = false ∧
      s.previousLayerController.wrToMemoryFromMemO = false := by
    rw [copy]
    rcases t with _ | t <;> exact ⟨rfl, rfl, rfl⟩
  have add := previous_add sch prev go (by simp) (by simp)
    flags.1 flags.2.1
  have step := loadedAt_next bus valid (by simp) ended (a := 2) (by decide)
  have arrive : PreviousLayer.arriving s.io.addrO s.bus.data s.bus.wr
      s.previousLayerController.wrToMemoryFromMemO s.nextLayer.dataO =
        if s.io.addrO = 2 ∧ s.bus.wr = true then [s.bus.data] else [] := by
    simp [PreviousLayer.arriving, flags.2.2, and_comm]
  obtain ⟨first, zero, ns⟩ := previousAt_afterLayers cfg (Nat.zero_le _)
  by_cases more : t < cfg.words.length
  · have eq : cfg.next ended (.load t) = .load (t + 1) := by simp [Config.next, more]
    rw [eq] at step ⊢
    exact add _ (by simp) rfl (by rw [arrive]; exact step)
  · have eq : cfg.next ended (.load t) = cfg.afterLayers 0 := by simp [Config.next, more]
    have all : loadedAt cfg 2 (cfg.afterLayers 0) = cfg.previousAt (cfg.afterLayers 0) := by
      rw [first]
      refine Eq.trans ?_ (loaded_all cfg (le_refl _)).2.1
      unfold Config.afterLayers
      split <;> rfl
    rw [eq] at step ⊢
    exact add _ ns zero (by rw [arrive, ← all]; exact step)

/-- A word of the next activation is copied. -/
lemma previous_copying {i j : Nat} (prev : PreviousInv cfg (.copying i j) s.previousLayer)
    (copy : s.previousLayerController = cfg.copyAt (.copying i j))
    (bus : BusInv cfg (.copying i j) s) (lt : j < cfg.width i) (go : s.stopped = false)
    (slot : s.nextLayer.dataO = (cfg.job i).result j) (ended : Bool) :
    PreviousInv cfg (cfg.next ended (.copying i j)) (s.edge cfg sch).previousLayer ∧
      BusDriven cfg (.copying i j) s.bus (s.methodPhase sch).bus := by
  have arrive : PreviousLayer.arriving s.io.addrO s.bus.data s.bus.wr
      s.previousLayerController.wrToMemoryFromMemO s.nextLayer.dataO =
        [(cfg.job i).result j] := by
    rw [copy, slot]
    simp [PreviousLayer.arriving, (bus.rest rfl).2, Config.copyAt]
  have add := previous_add sch prev go (by simp) (by simp)
    (by rw [copy]; rfl) (by rw [copy]; rfl)
  have push := take_activation cfg lt
  by_cases more : j + 1 < cfg.width i
  · have eq : cfg.next ended (.copying i j) = .copying i (j + 1) := by simp [Config.next, more]
    rw [eq]
    exact add _ (by simp) rfl (by rw [arrive]; exact push)
  · have eq : cfg.next ended (.copying i j) = .cloned i := by simp [Config.next, more]
    have all : (cfg.activation (i + 1)).take (j + 1) = cfg.activation (i + 1) :=
      List.take_of_length_le (by rw [Config.length_activation_succ]; omega)
    rw [eq]
    exact add _ (by simp) rfl (by rw [arrive]; exact all.symm.trans push)

/-- A result is sent, or the simulation is stopped behind the last one. -/
lemma previous_output {k : Nat} (prev : PreviousInv cfg (.output k) s.previousLayer)
    (copy : s.previousLayerController = cfg.copyAt (.output k)) (bus : BusInv cfg (.output k) s)
    (valid : cfg.Valid (.output k)) (go : s.stopped = false) (ended : Bool) :
    PreviousInv cfg (cfg.next ended (.output k)) (s.edge cfg sch).previousLayer ∧
      BusDriven cfg (.output k) s.bus (s.methodPhase sch).bus := by
  have quiet : ¬(s.bus.wr = true ∧ s.io.addrO = 2) := by
    have addr : s.io.addrO = 0 := by
      cases k with
      | zero => exact bus.1.addr
      | succ k => exact bus.1.addr
    simp [addr]
  obtain ⟨memory, issue⟩ := methodPhase_previousLayer_issue sch s quiet (by rw [copy]; rfl)
    (by rw [copy]; rfl) (by rw [copy]; rfl)
  rw [prev.memory, prev.out] at issue
  have test : i32 ((cfg.previousAt (.output k)).length : Int) > (cfg.outAt (.output k) : Int) ↔
      k < cfg.resultCount := by
    simp only [Config.previousAt, Config.outAt, Config.resultCount]
    omega
  rw [edge_previousLayer cfg sch go]
  by_cases more : k < cfg.resultCount
  · rw [if_pos (test.2 more)] at issue
    obtain ⟨index, stopped, driven⟩ := issue
    simp only [Config.next, BusDriven, if_pos more]
    refine ⟨⟨by rw [memory, prev.memory]; rfl, index, by rw [stopped, prev.stopped]; rfl⟩, ?_⟩
    rw [driven]
    exact ⟨rfl, results_getElem? cfg more⟩
  · rw [if_neg (fun h => more (test.1 h))] at issue
    obtain ⟨index, stopped, driven⟩ := issue
    simp only [Config.next, BusDriven, if_neg more]
    refine ⟨⟨by rw [memory, prev.memory]; rfl, ?_, by simp [stopped]⟩, driven⟩
    rw [index]
    exact le_antisymm valid (not_lt.1 more)

/-- `PREVIOUS_LAYER` follows the phases, and it is the only one to drive the bus with results. -/
lemma previous_step (prev : PreviousInv cfg ph s.previousLayer)
    (copy : s.previousLayerController = cfg.copyAt ph) (bus : BusInv cfg ph s)
    (valid : cfg.Valid ph) (running : ph ≠ .stopped) (go : s.stopped = false)
    (slot : ∀ i j, ph = .copying i j → s.nextLayer.dataO = (cfg.job i).result j) (ended : Bool) :
    PreviousInv cfg (cfg.next ended ph) (s.edge cfg sch).previousLayer ∧
      BusDriven cfg ph s.bus (s.methodPhase sch).bus := by
  have add := previous_add sch prev go running
  have none : ∀ {i : Nat}, ph.layer = some i →
      s.previousLayerController.wrToMemoryFromMemO = false →
      PreviousLayer.arriving s.io.addrO s.bus.data s.bus.wr
        s.previousLayerController.wrToMemoryFromMemO s.nextLayer.dataO = [] := by
    intro i layer wm
    simp [PreviousLayer.arriving, (bus.rest layer).2, wm]
  cases ph with
  | load t => exact previous_load sch prev copy bus valid go ended
  | startClone i =>
    obtain ⟨memory, index, stopped, driven⟩ := methodPhase_previousLayer_clear sch s
      (by simp [(bus.rest rfl).2]) (by rw [copy]; rfl) (by rw [copy]; rfl) (by rw [copy]; rfl)
    rw [edge_previousLayer cfg sch go]
    exact ⟨⟨memory, index, by rw [stopped, prev.stopped]; rfl⟩, driven⟩
  | copying i j => exact previous_copying sch prev copy bus valid.2 go (slot i j rfl) ended
  | output k => exact previous_output sch prev copy bus valid go ended
  | stopped => exact absurd rfl running
  | compute i =>
    refine add (by simp) (by rw [copy]; rfl) (by rw [copy]; rfl) _ ?_ ?_ ?_
    · cases ended <;> rintro ⟨⟩
    · cases ended <;> rfl
    · rw [none rfl (by rw [copy]; rfl)]
      cases ended <;> exact (List.append_nil _).symm
  | copyFirst i =>
    have arrive := none rfl (by rw [copy]; rfl)
    have out : s.previousLayerController.wrToOutO = false := by rw [copy]; rfl
    have clr : s.previousLayerController.clrO = false := by rw [copy]; rfl
    by_cases more : 0 < cfg.width i
    · have eq : cfg.next ended (.copyFirst i) = .copying i 0 := by simp [Config.next, more]
      rw [eq]
      exact add (by simp) out clr _ (by simp) rfl (by rw [arrive]; rfl)
    · have eq : cfg.next ended (.copyFirst i) = .cloned i := by simp [Config.next, more]
      have all : cfg.activation (i + 1) = [] := by
        rw [← List.length_eq_zero_iff, Config.length_activation_succ]
        omega
      rw [eq]
      exact add (by simp) out clr _ (by simp) rfl (by rw [arrive]; exact all)
  | cloned i =>
    obtain ⟨first, zero, ns⟩ := previousAt_afterLayers cfg (show i + 1 ≤ cfg.iterations from valid)
    refine add (by simp) (by rw [copy]; rfl) (by rw [copy]; rfl) _ ns zero ?_
    rw [none rfl (by rw [copy]; rfl), List.append_nil]
    exact first
  | writeOut =>
    refine add (by simp) (by rw [copy]; rfl) (by rw [copy]; rfl) _ (by rintro ⟨⟩) rfl ?_
    have wm : s.previousLayerController.wrToMemoryFromMemO = false := by rw [copy]; rfl
    simp [PreviousLayer.arriving, bus.2, wm, Config.next, Config.previousAt]
  | savePrev | nextLayer | startGenerator | settle | clear =>
    refine add (by simp) (by rw [copy]; rfl) (by rw [copy]; rfl) _ (by rintro ⟨⟩) rfl ?_
    rw [none rfl (by rw [copy]; rfl)]
    exact (List.append_nil _).symm

end NnProcessor.Invariant
