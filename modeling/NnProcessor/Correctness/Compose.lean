import NnProcessor.Correctness.Termination
import NnProcessor.Correctness.Output

/-!
# Networks in parts

A network can be cut behind any layer: the first layers give words that the other layers, with the
weights behind the ones of the first layers, turn into the output of the whole network
(`split_run`). Of its input and of its weights a network needs a first part only (`needed_words`). Both
are facts about the reference network, and both hold for the runs of any two hardwares.
-/

namespace NnProcessor.Model.Config
open NnProcessor.Arith

variable {F : Type}

section Neurons

variable [Binary32Ops F] {cfg cfg' : Config F} {a a' : List F} {b b' : Nat}

/-- A sum depends on its inputs and on its weights. -/
lemma dot_congr {m : Nat} (inputs : ∀ k < m, a.getD k (ofInt (-1)) = a'.getD k (ofInt (-1)))
    (weights : ∀ k < m, cfg.weightAt (b + k) = cfg'.weightAt (b' + k)) :
    cfg.dot a b m = cfg'.dot a' b' m := by
  induction m with
  | zero => rfl
  | succ m ih =>
    rw [dot, dot, inputs m (Nat.lt_succ_self m), weights m (Nat.lt_succ_self m),
      ih (fun k lt => inputs k (Nat.lt_succ_of_lt lt)) fun k lt => weights k (Nat.lt_succ_of_lt lt)]

/-- A neuron depends on its inputs, on its weights and on its bias. -/
lemma neuron_congr {m : Nat} (inputs : ∀ k < m, a.getD k (ofInt (-1)) = a'.getD k (ofInt (-1)))
    (weights : ∀ k ≤ m, cfg.weightAt (b + k) = cfg'.weightAt (b' + k)) :
    cfg.neuron a m b = cfg'.neuron a' m b' := by
  rw [neuron, neuron, dot_congr inputs fun k lt => weights k lt.le, weights m (le_refl m)]

omit [Binary32Ops F] in
/-- The weights of a neuron lie in front of the ones of the next layer. -/
lemma row_lt (cfg : Config F) {j n k : Nat} (neuron : n < cfg.layerSize (j + 1))
    (input : k ≤ cfg.layerSize j) :
    cfg.offset j + (cfg.layerSize j + 1) * n + k < cfg.offset (j + 1) := by
  have row : (cfg.layerSize j + 1) * (n + 1) ≤ (cfg.layerSize j + 1) * cfg.layerSize (j + 1) :=
    Nat.mul_le_mul_left _ neuron
  rw [Nat.mul_succ] at row
  rw [offset_succ]
  omega

omit [Binary32Ops F] in
/-- The weights of the first layers come first. -/
lemma offset_mono (cfg : Config F) {i j : Nat} (le : i ≤ j) : cfg.offset i ≤ cfg.offset j :=
  Finset.sum_le_sum_of_subset (Finset.range_subset_range.2 le)

/-- Two networks of the same sizes that agree in what a layer reads agree in the layer. -/
lemma referenceLayer_succ_congr {i j : Nat} (size : cfg.layerSize j = cfg'.layerSize i)
    (next : cfg.layerSize (j + 1) = cfg'.layerSize (i + 1))
    (inputs : ∀ k < cfg.layerSize j, (cfg.referenceLayer j).getD k (ofInt (-1)) =
      (cfg'.referenceLayer i).getD k (ofInt (-1)))
    (weights : ∀ a, cfg.offset j + a < cfg.offset (j + 1) →
      cfg.weightAt (cfg.offset j + a) = cfg'.weightAt (cfg'.offset i + a)) :
    cfg.referenceLayer (j + 1) = cfg'.referenceLayer (i + 1) := by
  rw [referenceLayer, referenceLayer, ← next]
  refine List.map_congr_left fun n mem => ?_
  rw [← size]
  refine neuron_congr inputs fun k le => ?_
  have row := cfg.row_lt (List.mem_range.1 mem) le
  rw [Nat.add_assoc] at row
  rw [Nat.add_assoc, Nat.add_assoc]
  exact weights _ row

/-- The layers behind the first one need the inputs of the first one and the weights in front. -/
lemma referenceLayer_reads (layers : cfg.layers = cfg'.layers)
    (inputs : ∀ k < cfg.layerSize 0,
      cfg.picture.getD k (ofInt (-1)) = cfg'.picture.getD k (ofInt (-1))) {j : Nat}
    (weights : ∀ a < cfg.offset (j + 1), cfg.weightAt a = cfg'.weightAt a) :
    cfg.referenceLayer (j + 1) = cfg'.referenceLayer (j + 1) := by
  have sizes : ∀ i, cfg.layerSize i = cfg'.layerSize i := by
    intro i
    rw [layerSize, layerSize, layers]
  have offsets : ∀ i, cfg.offset i = cfg'.offset i := by
    intro i
    simp only [offset, sizes]
  induction j with
  | zero =>
    refine referenceLayer_succ_congr (sizes 0) (sizes 1) inputs fun a lt => ?_
    rw [← offsets]
    exact weights _ lt
  | succ j ih =>
    have before := ih fun a lt => weights a (lt.trans_le (cfg.offset_mono (Nat.le_succ _)))
    refine referenceLayer_succ_congr (sizes _) (sizes _) (fun k _ => by rw [before])
      fun a lt => ?_
    rw [← offsets]
    exact weights _ lt

end Neurons

/-- The network up to the layer `j`. -/
def front (cfg : Config F) (j : Nat) : Config F where
  layers := cfg.layers.take (j + 1)
  weights := cfg.weights
  picture := cfg.picture
  layersCount_lt := lt_of_le_of_lt (List.length_take_le' _ _) cfg.layersCount_lt
  layers_fit l mem := cfg.layers_fit l (List.mem_of_mem_take mem)

/-- The network from the layer `j` on, with the words of this layer as its picture. -/
def back (cfg : Config F) (j : Nat) (words : List F) : Config F where
  layers := cfg.layers.drop j
  weights := cfg.weights.drop (cfg.offset j)
  picture := words
  layersCount_lt := by
    rw [List.length_drop]
    exact lt_of_le_of_lt (Nat.sub_le _ _) cfg.layersCount_lt
  layers_fit l mem := cfg.layers_fit l (List.mem_of_mem_drop mem)

variable {cfg : Config F} {j : Nat} {words : List F}

/-- The first part has the sizes of the first layers. -/
lemma front_layerSize {i : Nat} (le : i ≤ j) : (cfg.front j).layerSize i = cfg.layerSize i := by
  rw [layerSize, layerSize, front, List.getD_eq_getElem?_getD, List.getD_eq_getElem?_getD,
    List.getElem?_take_of_lt (Nat.lt_succ_of_le le)]

/-- The weights of the first part are the first ones. -/
lemma front_offset {i : Nat} (le : i ≤ j) : (cfg.front j).offset i = cfg.offset i := by
  refine Finset.sum_congr rfl fun k mem => ?_
  have lt := Finset.mem_range.1 mem
  rw [front_layerSize (by omega), front_layerSize (by omega)]

/-- The other part has the sizes of the layers behind. -/
lemma back_layerSize (i : Nat) : (cfg.back j words).layerSize i = cfg.layerSize (j + i) := by
  rw [layerSize, layerSize, back, List.getD_eq_getElem?_getD, List.getD_eq_getElem?_getD,
    List.getElem?_drop]

/-- The weights of the first part are the ones that are left out. -/
lemma back_offset (i : Nat) : cfg.offset j + (cfg.back j words).offset i = cfg.offset (j + i) := by
  induction i with
  | zero => rfl
  | succ i ih =>
    rw [offset_succ, ← Nat.add_assoc, ih, back_layerSize, back_layerSize, ← Nat.add_assoc,
      offset_succ]

section Reference

variable [Binary32Ops F]

/-- The other part starts with the weights behind the first ones. -/
lemma back_weightAt (a : Nat) :
    (cfg.back j words).weightAt a = cfg.weightAt (cfg.offset j + a) := by
  rw [weightAt, weightAt, back, List.getD_eq_getElem?_getD, List.getD_eq_getElem?_getD,
    List.getElem?_drop]

/-- The first part computes the first layers. -/
lemma front_referenceLayer {i : Nat} (le : i ≤ j) :
    (cfg.front j).referenceLayer i = cfg.referenceLayer i := by
  induction i with
  | zero => rfl
  | succ i ih =>
    have before := ih (Nat.le_of_succ_le le)
    refine referenceLayer_succ_congr (front_layerSize (Nat.le_of_succ_le le)) (front_layerSize le)
      (fun k _ => by rw [before]) fun a _ => ?_
    rw [front_offset (Nat.le_of_succ_le le)]
    rfl

/-- The other part computes the layers behind. -/
lemma back_referenceLayer (i : Nat) :
    (cfg.back j (cfg.referenceLayer j)).referenceLayer i = cfg.referenceLayer (j + i) := by
  induction i with
  | zero => rfl
  | succ i ih =>
    change _ = cfg.referenceLayer ((j + i) + 1)
    refine referenceLayer_succ_congr (back_layerSize i) (back_layerSize (i + 1))
      (fun k _ => by rw [ih]) fun a _ => ?_
    rw [back_weightAt, ← Nat.add_assoc, back_offset]

end Reference

variable {hw : Hw}

/-- The terms of the sum that bounds a network. -/
lemma bound_congr {cfg' : Config F} {n d : Nat}
    (sizes : ∀ i ≤ n, cfg.layerSize i = cfg'.layerSize (d + i)) :
    ∑ k ∈ Finset.range n, (cfg.layerSize k + 1) * (cfg.layerSize (k + 1) + 1) =
      ∑ k ∈ Finset.range n, (cfg'.layerSize (d + k) + 1) * (cfg'.layerSize (d + k + 1) + 1) := by
  refine Finset.sum_congr rfl fun k mem => ?_
  have lt := Finset.mem_range.1 mem
  rw [sizes k lt.le, sizes (k + 1) lt, ← Nat.add_assoc]

/-- The first part of a network is not larger than the network. -/
lemma Bounded.front (bounded : cfg.Bounded hw) (lt : j < cfg.layers.length) :
    (cfg.front j).Bounded hw := by
  have length : (cfg.front j).layers.length - 1 = j := by
    rw [Config.front, List.length_take]
    omega
  refine ⟨fun l mem => bounded.nonneg l (List.mem_of_mem_take mem),
    fun l mem => bounded.le l (List.mem_of_mem_take mem), fun l mem => bounded.fits l ?_, ?_⟩
  · rw [Config.front, List.tail_take_eq_take_tail] at mem
    exact List.mem_of_mem_take mem
  · have sum := bounded.sum
    rw [show cfg.layers.length - 1 = j + (cfg.layers.length - 1 - j) by omega,
      Finset.sum_range_add] at sum
    rw [length, bound_congr fun i le => (front_layerSize le).trans (by rw [Nat.zero_add])]
    simp only [Nat.zero_add]
    omega

/-- The other part of a network is not larger than the network. -/
lemma Bounded.back (bounded : cfg.Bounded hw) (lt : j < cfg.layers.length) :
    (cfg.back j words).Bounded hw := by
  have length : (cfg.back j words).layers.length - 1 = cfg.layers.length - 1 - j := by
    rw [Config.back, List.length_drop]
    omega
  refine ⟨fun l mem => bounded.nonneg l (List.mem_of_mem_drop mem),
    fun l mem => bounded.le l (List.mem_of_mem_drop mem), fun l mem => bounded.fits l ?_, ?_⟩
  · rw [Config.back, List.tail_drop] at mem
    rw [← List.drop_one]
    exact (List.drop_sublist_drop_left _ (Nat.le_add_left 1 j)).subset mem
  · have sum := bounded.sum
    rw [show cfg.layers.length - 1 = j + (cfg.layers.length - 1 - j) by omega,
      Finset.sum_range_add] at sum
    rw [length, bound_congr fun i _ => back_layerSize i]
    omega

end NnProcessor.Model.Config

namespace NnProcessor.Correctness
open NnProcessor.Model NnProcessor.Invariant

variable {hw hw' hw₁ hw₂ : Hw} {F : Type} [Binary32 F] [DecidableEq F] {cfg cfg' : Config F}

/-- A simulation ends and has then printed certain words. -/
structure Ends (cfg : Config F) (env : Env hw F) (out : List F) : Prop where
  stop : ∃ t, (run cfg env t).stopped = true
  printed : ∀ t, (run cfg env t).stopped = true → (run cfg env t).io.printed = numbered out

/-- The end of the simulations of the reference network. -/
lemma ends_reference (env : Env hw F) (bounded : cfg.Bounded hw)
    (count : cfg.count = cfg.layers.length) (lists : cfg.ListsFit)
    (picture : cfg.layers.length ≤ 1 → ∀ x ∈ cfg.picture, ¬IsInfinite x) :
    Ends cfg env cfg.reference := by
  have finite := finite_results cfg picture
  obtain ⟨t, st⟩ := stopped_reached finite env
  refine ⟨⟨t, (stopped_iff finite).2 st⟩, fun u stop => ?_⟩
  rw [printed_stopped finite stop, results_reference bounded.domain count lists]

omit [DecidableEq F] in
/-- A computed layer has no infinite words. -/
lemma referenceLayer_finite (j : Nat) : ∀ x ∈ cfg.referenceLayer (j + 1), ¬IsInfinite x := by
  intro x mem
  obtain ⟨n, -, rfl⟩ := List.mem_map.1 mem
  exact Binary32.sigmoid_finite _

/-- **Networks in parts.** A network can be cut behind any of its layers: the words that the first part
prints, given to the other part as its picture, make it print what the whole network prints. The whole
network and its parts may run on different hardware, with any orders of the processes. -/
theorem split_run {j : Nat} (inside : 1 ≤ j ∧ j < cfg.layers.length) (bounded : cfg.Bounded hw)
    (bounded₁ : cfg.Bounded hw₁) (bounded₂ : cfg.Bounded hw₂)
    (count : cfg.layers.length ≤ 2 ^ 24) (lists : cfg.ListsFit) (env : Env hw F)
    (env₁ : Env hw₁ F) (env₂ : Env hw₂ F) :
    ∃ words all, Ends cfg env all ∧ Ends (cfg.front j) env₁ words ∧
      Ends (cfg.back j words) env₂ all := by
  obtain ⟨some, lt⟩ := inside
  obtain ⟨i, rfl⟩ : ∃ i, j = i + 1 := ⟨j - 1, by omega⟩
  have length₁ : (cfg.front (i + 1)).layers.length = i + 2 := by
    rw [Config.front, List.length_take]
    omega
  have length₂ : (cfg.back (i + 1) (cfg.referenceLayer (i + 1))).layers.length =
      cfg.layers.length - (i + 1) := by
    rw [Config.back, List.length_drop]
  have first : (cfg.front (i + 1)).reference = cfg.referenceLayer (i + 1) := by
    rw [Config.reference, length₁]
    exact Config.front_referenceLayer (le_refl _)
  have second : (cfg.back (i + 1) (cfg.referenceLayer (i + 1))).reference = cfg.reference := by
    rw [Config.reference, length₂, Config.back_referenceLayer, Config.reference]
    congr 1
    omega
  have width := bounded.domain.layerSize_le (i + 1)
  refine ⟨cfg.referenceLayer (i + 1), cfg.reference, ?_, ?_, ?_⟩
  · exact ends_reference env bounded (Config.count_eq count) lists fun one => by omega
  · rw [← first]
    exact ends_reference env₁ (bounded₁.front lt) (Config.count_eq (by omega))
      ⟨lists.weights, lists.picture⟩ fun one => by omega
  · rw [← second]
    refine ends_reference env₂ (bounded₂.back lt) (Config.count_eq (by omega)) ⟨?_, ?_⟩
      fun _ => referenceLayer_finite i
    · rw [Config.back, List.length_drop]
      exact lt_of_le_of_lt (Nat.sub_le _ _) lists.weights
    · rw [Config.back, Config.length_referenceLayer]
      omega

/-- **The words a network needs.** Two networks of the same sizes print the same, on any two hardwares
and in any orders of the processes, if their pictures agree in the words of the first layer and their
weights in as many words as the network has weights and biases. A missing word counts as -1 in the
picture and as 0 in the weights; what comes behind is never used. -/
theorem needed_words (layers : cfg.layers = cfg'.layers) (two : 2 ≤ cfg.layers.length)
    (inputs : ∀ k < cfg.layerSize 0,
      cfg.picture.getD k (ofInt (-1)) = cfg'.picture.getD k (ofInt (-1)))
    (weights : ∀ a < cfg.offset (cfg.layers.length - 1),
      cfg.weights.getD a (ofInt 0) = cfg'.weights.getD a (ofInt 0))
    (bounded : cfg.Bounded hw) (bounded' : cfg'.Bounded hw') (count : cfg.layers.length ≤ 2 ^ 24)
    (lists : cfg.ListsFit) (lists' : cfg'.ListsFit) (env : Env hw F) (env' : Env hw' F) :
    ∃ out, Ends cfg env out ∧ Ends cfg' env' out := by
  have same : cfg.reference = cfg'.reference := by
    obtain ⟨j, last⟩ : ∃ j, cfg.layers.length - 1 = j + 1 := ⟨cfg.layers.length - 2, by omega⟩
    rw [last] at weights
    rw [Config.reference, Config.reference, ← layers, last]
    exact Config.referenceLayer_reads layers inputs weights
  refine ⟨cfg.reference, ?_, ?_⟩
  · exact ends_reference env bounded (Config.count_eq count) lists fun one => by omega
  · rw [same]
    exact ends_reference env' bounded' (Config.count_eq (layers ▸ count)) lists' fun one => by
      rw [← layers] at one
      omega

/-- The network of two layers, cut behind the first one. -/
theorem split_run_deep : ∃ words all, Ends deepNetwork listedEnv all ∧
    Ends (deepNetwork.front 1) listedEnv words ∧
      Ends (deepNetwork.back 1 words) (.listed .configH (.finite 0)) all :=
  split_run ⟨le_refl 1, by decide⟩ deepNetwork_bounded deepNetwork_bounded deepNetwork_bounded
    (by decide) ⟨by decide, by decide⟩ listedEnv listedEnv (.listed .configH (.finite 0))

/-- The same network without its last bias, which is 0, and with a word too many in its picture. -/
def trimmedNetwork : Config Extended :=
  { deepNetwork with
    weights := [.finite 2, .finite (-2), .finite 1]
    picture := [.finite 1, .finite 7] }

/-- Both print the same. -/
theorem needed_words_deep :
    ∃ out, Ends deepNetwork listedEnv out ∧ Ends trimmedNetwork listedEnv out :=
  needed_words (show deepNetwork.layers = trimmedNetwork.layers from rfl) (by decide) (by decide)
    (by decide) deepNetwork_bounded (by constructor <;> decide) (by decide) ⟨by decide, by decide⟩
    ⟨by decide, by decide⟩ listedEnv listedEnv

end NnProcessor.Correctness
