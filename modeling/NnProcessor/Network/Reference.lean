import NnProcessor.Model.Extended
import NnProcessor.Network.Machine

/-!
# The reference network

The feed-forward network the hardware is built to compute, with exact integers and no storage
guards: `Config.reference`. In the domain `Config.Domain`, in which no `int` of the address
computation overflows, the parameters of every layer iteration are the exact ones (`base_eq`,
`addr_eq`), and where no list is too long for the `(int)` in its guard the network of
`Network/Machine.lean` is the reference network (`activation_eq`).
-/

namespace NnProcessor.Model
open NnProcessor.Arith

variable {F : Type}

namespace Config

/-- The size of the layer `j`. -/
def layerSize (cfg : Config F) (j : Nat) : Nat := (cfg.layers.getD j 0).toNat

/-- The first weight address of the layer iteration `j`. -/
def offset (cfg : Config F) (j : Nat) : Nat :=
  ∑ k ∈ Finset.range j, (cfg.layerSize k + 1) * cfg.layerSize (k + 1)

/-- The weights of a layer follow those of the layers before. -/
lemma offset_succ (cfg : Config F) (j : Nat) :
    cfg.offset (j + 1) = cfg.offset j + (cfg.layerSize j + 1) * cfg.layerSize (j + 1) :=
  Finset.sum_range_succ _ _

/-- The configurations the hardware is built for: the sizes are not negative, the bus carries the
first one exactly, the other ones fit in `NEXT_LAYER`, and no address sum of a layer overflows. An
empty layer still gets the addresses of one neuron. -/
structure Domain (hw : Hw) (cfg : Config F) : Prop where
  nonneg : ∀ l ∈ cfg.layers, 0 ≤ l
  first : cfg.layerSize 0 ≤ 2 ^ 24
  fits : ∀ l ∈ cfg.layers.tail, l ≤ hw.memSize
  offset : ∀ j < cfg.layers.length, cfg.offset j < 2 ^ 31
  address : ∀ j, j + 1 < cfg.layers.length →
    cfg.offset j + (cfg.layerSize j + 1) * max (cfg.layerSize (j + 1)) 1 ≤ 2 ^ 31

/-- The size of a layer is the one in the list. -/
lemma layerSize_eq_getElem {cfg : Config F} {j : Nat} (lt : j < cfg.layers.length) :
    cfg.layerSize j = (cfg.layers[j]).toNat := by
  rw [layerSize, List.getD_eq_getElem?_getD, List.getElem?_eq_getElem lt, Option.getD_some]

/-- Behind the last layer there is no neuron. -/
lemma layerSize_eq_zero {cfg : Config F} {j : Nat} (le : cfg.layers.length ≤ j) :
    cfg.layerSize j = 0 := by
  rw [layerSize, List.getD_eq_getElem?_getD, List.getElem?_eq_none le]
  rfl

/-- A size that the bus carries exactly is issued as it is. -/
lemma size_eq_of_le {cfg : Config F} (nonneg : ∀ l ∈ cfg.layers, 0 ≤ l) {j : Nat}
    (le : cfg.layerSize j ≤ 2 ^ 24) : cfg.size j = cfg.layerSize j := by
  by_cases lt : j < cfg.layers.length
  · have pos := nonneg _ (List.getElem_mem lt)
    rw [layerSize_eq_getElem lt] at le ⊢
    rw [size, received, List.getD_eq_getElem?_getD, List.getElem?_map,
      List.getElem?_eq_getElem lt, Option.map_some, Option.getD_some,
      floatInt_eq (abs_le.2 ⟨by omega, by omega⟩)]
    omega
  · rw [layerSize_eq_zero (not_lt.1 lt), size, received, List.getD_eq_getElem?_getD,
      List.getElem?_map, List.getElem?_eq_none (not_lt.1 lt)]
    rfl

/-- Every layer but the first is a later one. -/
lemma getElem_mem_tail {cfg : Config F} {j : Nat} (lt : j + 1 < cfg.layers.length) :
    cfg.layers[j + 1] ∈ cfg.layers.tail := by
  have tail : j < cfg.layers.tail.length := by
    rw [List.length_tail]
    omega
  rw [← List.getElem_tail tail]
  exact List.getElem_mem tail

/-- Where no later layer is empty, every layer behind the first has a neuron. -/
lemma one_le_layerSize {cfg : Config F} (pos : ∀ l ∈ cfg.layers.tail, 1 ≤ l) {j : Nat}
    (lt : j + 1 < cfg.layers.length) : 1 ≤ cfg.layerSize (j + 1) := by
  have one := pos _ (getElem_mem_tail lt)
  rw [layerSize_eq_getElem lt]
  omega

namespace Domain

variable {hw : Hw} {cfg : Config F} (dom : cfg.Domain hw)
include dom

/-- Every size is exact on the bus. -/
lemma layerSize_le (j : Nat) : cfg.layerSize j ≤ 2 ^ 24 := by
  cases j with
  | zero => exact dom.first
  | succ j =>
    by_cases lt : j + 1 < cfg.layers.length
    · have fits := dom.fits _ (getElem_mem_tail lt)
      have mem := hw.memSize_le
      rw [layerSize_eq_getElem lt]
      omega
    · rw [layerSize_eq_zero (not_lt.1 lt)]
      exact Nat.zero_le _

/-- The layer queue issues the sizes of the configuration. -/
lemma size_eq (j : Nat) : cfg.size j = cfg.layerSize j :=
  size_eq_of_le dom.nonneg (dom.layerSize_le j)

/-- The layer queue issues the width of the next layer. -/
lemma width_eq (i : Nat) : cfg.width i = cfg.layerSize (i + 1) := by
  rw [width, dom.size_eq, Int.toNat_natCast]

/-- For an empty layer one neuron is dispatched. -/
lemma dispatches_eq (i : Nat) : cfg.dispatches i = max (cfg.layerSize (i + 1)) 1 := by
  rw [dispatches, dom.width_eq]

/-- The inputs of a layer iteration are the neurons of the layer in front. -/
lemma inputs_eq [Binary32Ops F] (i : Nat) : (cfg.job i).inputs = cfg.layerSize i := by
  simp [LayerJob.inputs, job, jobOn, dom.size_eq]

/-- The weight base stays an `int`, also behind the last layer. -/
lemma offset_lt (j : Nat) : cfg.offset j < 2 ^ 31 := by
  rcases Nat.eq_zero_or_pos cfg.layers.length with none | some
  · have empty : cfg.layers = [] := List.eq_nil_of_length_eq_zero none
    have zero : cfg.offset j = 0 := by simp [Config.offset, layerSize, empty]
    omega
  · -- behind the last layer nothing is added any more
    have flat : ∀ d,
        cfg.offset (cfg.layers.length - 1 + d) = cfg.offset (cfg.layers.length - 1) := by
      intro d
      induction d with
      | zero => rfl
      | succ d ih =>
        have zero : cfg.layerSize (cfg.layers.length - 1 + d + 1) = 0 :=
          layerSize_eq_zero (by omega)
        rw [← Nat.add_assoc, offset_succ, zero, Nat.mul_zero, Nat.add_zero, ih]
    by_cases lt : j < cfg.layers.length
    · exact dom.offset j lt
    · obtain ⟨d, rfl⟩ : ∃ d, j = cfg.layers.length - 1 + d :=
        ⟨j - (cfg.layers.length - 1), by omega⟩
      rw [flat]
      exact dom.offset _ (by omega)

/-- The accumulated weight base is the exact sum. -/
lemma base_eq (i : Nat) : cfg.base i = cfg.offset i := by
  induction i with
  | zero => simp [base, Config.offset]
  | succ i ih =>
    have lt := dom.offset_lt (i + 1)
    have le := dom.layerSize_le i
    rw [offset_succ] at lt ⊢
    have e1 : i32 ((cfg.layerSize i : Int) + 1) = ((cfg.layerSize i + 1 : Nat) : Int) := by
      exact_mod_cast i32_natCast (n := cfg.layerSize i + 1) (by omega)
    have e2 : i32 (((cfg.layerSize i + 1 : Nat) : Int) * cfg.layerSize (i + 1)) =
        (((cfg.layerSize i + 1) * cfg.layerSize (i + 1) : Nat) : Int) := by
      rw [← Nat.cast_mul]
      exact i32_natCast (by omega)
    rw [base, dom.size_eq, dom.size_eq, e1, e2, ih, ← Nat.cast_add, i32_natCast (by omega),
      Nat.add_comm]

/-- The weight addresses of a layer iteration are exact. -/
lemma addr_eq {j x i : Nat} (lt : j + 1 < cfg.layers.length)
    (hx : x < max (cfg.layerSize (j + 1)) 1) (hi : i ≤ cfg.layerSize j) [Binary32Ops F]
    (memory : List F) :
    (cfg.jobOn j memory).addr x i = (cfg.offset j + (cfg.layerSize j + 1) * x + i : Nat) := by
  have le := dom.layerSize_le j
  have total := dom.address j lt
  have row : (cfg.layerSize j + 1) * x + (cfg.layerSize j + 1) ≤
      (cfg.layerSize j + 1) * max (cfg.layerSize (j + 1)) 1 := by
    rw [← Nat.mul_succ]
    exact Nat.mul_le_mul_left _ hx
  have e1 : i32 ((cfg.layerSize j : Int) + 1) = ((cfg.layerSize j + 1 : Nat) : Int) := by
    exact_mod_cast i32_natCast (n := cfg.layerSize j + 1) (by omega)
  simp only [LayerJob.addr, jobOn, weightAddress, dom.base_eq, dom.size_eq, e1]
  rw [← Nat.cast_mul, i32_natCast (by omega), ← Nat.cast_add, i32_natCast (by omega),
    ← Nat.cast_add, i32_natCast (by omega)]

end Domain

/-- The configurations with which the program stays inside of its memory: they are in the domain,
`CONTROLLER` gets no more layers over the bus than there are, so that none is computed behind the
last one, and there is a slot for the neuron that an empty layer gets. -/
structure Inside (hw : Hw) (cfg : Config F) : Prop where
  domain : cfg.Domain hw
  count : 0 ≤ cfg.count ∧ cfg.count ≤ cfg.layers.length
  slot : 0 < hw.memSize

/-- There is an iteration for the layers behind the first one only, if no more layers arrive than there
are. -/
lemma lt_of_lt_iterations {cfg : Config F} (count : 0 ≤ cfg.count ∧ cfg.count ≤ cfg.layers.length)
    {i : Nat} (lt : i < cfg.iterations) : i + 1 < cfg.layers.length := by
  have fits := cfg.layersCount_lt
  obtain ⟨lo, hi⟩ := count
  rw [iterations, i32_eq ⟨by omega, by omega⟩] at lt
  omega

namespace Inside

variable {hw : Hw} {cfg : Config F} (inside : cfg.Inside hw)
include inside

/-- Every iteration computes a layer of the configuration. -/
lemma lt {i : Nat} (lt : i < cfg.iterations) : i + 1 < cfg.layers.length :=
  lt_of_lt_iterations inside.count lt

/-- Every neuron that is dispatched has a slot. -/
lemma dispatches_le {i : Nat} (lt : i < cfg.iterations) : cfg.dispatches i ≤ hw.memSize := by
  have less := inside.lt lt
  have fits := inside.domain.fits _ (getElem_mem_tail less)
  have slot := inside.slot
  rw [inside.domain.dispatches_eq, layerSize_eq_getElem less]
  omega

end Inside

/-- The bounds under which the network is meant to be exact: they are given for each size and for
one sum over the whole network, and put the configuration into `Domain`. -/
structure Bounded (hw : Hw) (cfg : Config F) : Prop where
  nonneg : ∀ l ∈ cfg.layers, 0 ≤ l
  le : ∀ l ∈ cfg.layers, l ≤ 2 ^ 24
  fits : ∀ l ∈ cfg.layers.tail, l ≤ hw.memSize
  sum : ∑ j ∈ Finset.range (cfg.layers.length - 1),
    (cfg.layerSize j + 1) * (cfg.layerSize (j + 1) + 1) < 2 ^ 31

/-- A size that is not bounded by the list is zero. -/
lemma layerSize_le_of_forall (cfg : Config F) {n : Nat} (le : ∀ l ∈ cfg.layers, l ≤ n) (j : Nat) :
    cfg.layerSize j ≤ n := by
  by_cases lt : j < cfg.layers.length
  · have bound := le cfg.layers[j] (List.getElem_mem lt)
    rw [layerSize_eq_getElem lt]
    omega
  · rw [layerSize_eq_zero (not_lt.1 lt)]
    exact Nat.zero_le n

/-- The bounds imply the domain. -/
lemma Bounded.domain {hw : Hw} {cfg : Config F} (bounded : cfg.Bounded hw) : cfg.Domain hw := by
  obtain ⟨nonneg, le, fits, sum⟩ := bounded
  -- the weights of the first layers are part of the whole sum
  have offset_le : ∀ j, cfg.offset j ≤
      ∑ k ∈ Finset.range j, (cfg.layerSize k + 1) * (cfg.layerSize (k + 1) + 1) := fun j =>
    Finset.sum_le_sum fun k _ => Nat.mul_le_mul_left _ (Nat.le_succ _)
  have part : ∀ j < cfg.layers.length,
      ∑ k ∈ Finset.range j, (cfg.layerSize k + 1) * (cfg.layerSize (k + 1) + 1) < 2 ^ 31 := by
    intro j lt
    refine lt_of_le_of_lt (Finset.sum_le_sum_of_subset ?_) sum
    exact Finset.range_subset_range.2 (by omega)
  refine ⟨nonneg, layerSize_le_of_forall cfg (n := 2 ^ 24) (by exact_mod_cast le) 0, fits, ?_, ?_⟩
  · exact fun j lt => lt_of_le_of_lt (offset_le j) (part j lt)
  · intro j lt
    have whole := part (j + 1) lt
    rw [Finset.sum_range_succ] at whole
    have term : (cfg.layerSize j + 1) * max (cfg.layerSize (j + 1)) 1 ≤
        (cfg.layerSize j + 1) * (cfg.layerSize (j + 1) + 1) :=
      Nat.mul_le_mul_left _ (by omega)
    have before := offset_le j
    omega

variable [Binary32Ops F] (cfg : Config F)

/-- The weight `a`; past the end of the list it reads 0. -/
def weightAt (a : Nat) : F := cfg.weights.getD a (ofInt 0)

/-- The first `m` products of a neuron with the weights from `b` on, added up from left to right. A
position past the end of the previous layer reads -1. -/
def dot (a : List F) (b : Nat) : Nat → F
  | 0 => ofInt 0
  | m + 1 =>
    Binary32Ops.add (dot a b m)
      (Binary32Ops.mul (a.getD m (ofInt (-1))) (cfg.weightAt (b + m)))

/-- A neuron with `m` inputs, and its bias behind their weights. -/
def neuron (a : List F) (m b : Nat) : F :=
  sigmoid (Binary32Ops.add (cfg.dot a b m) (cfg.weightAt (b + m)))

/-- The layer `j` of the reference network. -/
def referenceLayer : Nat → List F
  | 0 => cfg.picture
  | j + 1 =>
    (List.range (cfg.layerSize (j + 1))).map fun n =>
      cfg.neuron (referenceLayer j) (cfg.layerSize j)
        (cfg.offset j + (cfg.layerSize j + 1) * n)

/-- A computed layer of the reference network has its size. -/
@[simp] lemma length_referenceLayer (j : Nat) :
    (cfg.referenceLayer (j + 1)).length = cfg.layerSize (j + 1) := by
  rw [referenceLayer, List.length_map, List.length_range]

/-- The output of the reference network; with at most one layer it is the picture. -/
def reference : List F := cfg.referenceLayer (cfg.layers.length - 1)

/-- No list is too long for the `(int)` in the guard of its storage. -/
structure ListsFit : Prop where
  weights : cfg.weights.length < 2 ^ 31
  picture : cfg.picture.length < 2 ^ 31

/-- The configurations for which the program prints the output of the reference network, digit by
digit: it stays inside of its memory, the number of layers arrives as it is, no list is too long, and
no word is a zero with a sign, which `sc_signal` takes for the other zero. -/
structure Supported (hw : Hw) : Prop where
  domain : cfg.Domain hw
  count : cfg.count = cfg.layers.length
  slot : 0 < hw.memSize
  lists : cfg.ListsFit
  positive : ∀ x ∈ cfg.picture ++ cfg.weights, ¬IsNegZero x

omit [Binary32Ops F] in
/-- A number of layers that arrives as it is is none too large. -/
lemma count_le_of_eq (count : cfg.count = cfg.layers.length) :
    0 ≤ cfg.count ∧ cfg.count ≤ cfg.layers.length := ⟨by omega, count.le⟩

/-- With them the program stays inside of its memory. -/
lemma Supported.inside {cfg : Config F} {hw : Hw} (supported : cfg.Supported hw) : cfg.Inside hw :=
  ⟨supported.domain, cfg.count_le_of_eq supported.count, supported.slot⟩

omit [Binary32Ops F] in
/-- A guarded read of a list that fits is a read with a default. -/
lemma guardedRead_eq {α : Type} {l : List α} (fits : l.length < 2 ^ 31) (a : Nat) (d : α) :
    guardedRead l a d = l.getD a d := by
  unfold guardedRead
  rw [i32_natCast fits]
  split
  · simp
  · next none =>
    have : l.length ≤ a := by omega
    simp [List.getD_eq_getElem?_getD, List.getElem?_eq_none this]

omit [Binary32Ops F] in
/-- The shortest list that does not fit is read as if it were empty. -/
lemma guardedRead_long {α : Type} {l : List α} (long : l.length = 2 ^ 31) {a : Int} (pos : 0 ≤ a)
    (d : α) : guardedRead l a d = d := by
  have none : i32 (2 ^ 31 : Nat) ≤ 0 := by decide
  rw [guardedRead, long, if_neg (not_lt.2 (none.trans pos))]

variable {cfg} {hw : Hw}

/-- The sum a processor has built after `m` products. -/
lemma Domain.partialSum_eq (dom : cfg.Domain hw) (lists : cfg.ListsFit) {j x : Nat}
    (lt : j + 1 < cfg.layers.length) (hx : x < max (cfg.layerSize (j + 1)) 1) {a : List F}
    (fits : a.length < 2 ^ 31) {m : Nat} (hm : m ≤ cfg.layerSize j) :
    (cfg.jobOn j a).partialSum x m =
      cfg.dot a (cfg.offset j + (cfg.layerSize j + 1) * x) m := by
  induction m with
  | zero => rfl
  | succ m ih =>
    rw [LayerJob.partialSum, dot, ih (Nat.le_of_succ_le hm), LayerJob.weight, LayerJob.input,
      dom.addr_eq lt hx (Nat.le_of_succ_le hm)]
    simp only [jobOn]
    rw [guardedRead_eq fits, guardedRead_eq lists.weights, weightAt]

/-- The word a processor stores is the value of the neuron. -/
lemma Domain.result_eq (dom : cfg.Domain hw) (lists : cfg.ListsFit) {j x : Nat}
    (lt : j + 1 < cfg.layers.length) (hx : x < max (cfg.layerSize (j + 1)) 1) {a : List F}
    (fits : a.length < 2 ^ 31) :
    (cfg.jobOn j a).result x =
      cfg.neuron a (cfg.layerSize j) (cfg.offset j + (cfg.layerSize j + 1) * x) := by
  have inputs : (cfg.jobOn j a).inputs = cfg.layerSize j := by
    simp [LayerJob.inputs, jobOn, dom.size_eq]
  have bias : (cfg.jobOn j a).addr x (cfg.jobOn j a).size =
      (cfg.offset j + (cfg.layerSize j + 1) * x + cfg.layerSize j : Nat) := by
    rw [← dom.addr_eq lt hx (le_refl _) a]
    simp [jobOn, dom.size_eq]
  rw [LayerJob.result, neuron, inputs, dom.partialSum_eq lists lt hx fits (le_refl _), bias,
    LayerJob.weight]
  simp only [jobOn]
  rw [guardedRead_eq lists.weights, weightAt]

/-- In the domain the hardware computes the layers of the reference network. -/
theorem Domain.activation_eq (dom : cfg.Domain hw) (lists : cfg.ListsFit) {j : Nat}
    (lt : j < cfg.layers.length ∨ j = 0) : cfg.activation j = cfg.referenceLayer j := by
  induction j with
  | zero => rfl
  | succ j ih =>
    have lt : j + 1 < cfg.layers.length := by omega
    have eq := ih (.inl (Nat.lt_of_succ_lt lt))
    have fits : (cfg.activation j).length < 2 ^ 31 := by
      cases j with
      | zero => exact lists.picture
      | succ j =>
        have le := dom.layerSize_le (j + 1)
        rw [length_activation_succ, dom.width_eq]
        omega
    rw [activation_succ, referenceLayer, dom.width_eq]
    refine List.map_congr_left fun x hx => ?_
    rw [← eq]
    exact dom.result_eq lists lt (lt_max_of_lt_left (List.mem_range.1 hx)) fits

omit [Binary32Ops F] in
/-- Up to `2 ^ 24` layers are counted exactly. -/
lemma count_eq (le : cfg.layers.length ≤ 2 ^ 24) : cfg.count = cfg.layers.length :=
  floatInt_eq (abs_le.2 ⟨by omega, by omega⟩)

omit [Binary32Ops F] in
/-- A number of layers that arrives exactly gives one iteration for each layer behind the first. -/
lemma iterations_eq (count : cfg.count = cfg.layers.length) :
    cfg.iterations = cfg.layers.length - 1 := by
  have fits := cfg.layersCount_lt
  rw [iterations, count, i32_eq ⟨by omega, by omega⟩]
  omega

omit [Binary32Ops F] in
/-- Two layers always give an iteration, however their number is rounded on the bus. -/
lemma iterations_pos (two : 2 ≤ cfg.layers.length) : 0 < cfg.iterations := by
  have lo := two_le_roundTo24 two
  have hi := roundTo24_le cfg.layersCount_lt
  have count : cfg.count = i32 (roundTo24 cfg.layers.length) := by
    have sign : (cfg.layers.length : Int).sign = 1 := Int.sign_eq_one_of_pos (by omega)
    rw [count, floatInt, sign, one_mul, Int.natAbs_natCast]
  rw [iterations, count]
  rcases Nat.lt_or_eq_of_le hi with lt | eq
  · rw [i32_natCast lt, i32_eq ⟨by omega, by omega⟩]
    omega
  · rw [eq]
    decide

end Config

/-- One neuron with one input, small enough to be evaluated: its sum is 0. -/
def smallNetwork : Config Extended where
  layers := [1, 1]
  weights := [.finite 2, .finite (-2)]
  picture := [.finite 1]
  layersCount_lt := by decide
  layers_fit := by decide

/-- The small network is within the bounds. -/
lemma smallNetwork_bounded : smallNetwork.Bounded .configH := by
  constructor <;> decide

/-- The small network is supported. -/
lemma smallNetwork_supported : smallNetwork.Supported .configH := by
  refine ⟨smallNetwork_bounded.domain, by decide, by decide, ⟨by decide, by decide⟩, ?_⟩
  simp only [Extended.isNegZero_iff]
  decide

/-- A simulation of the hardware of `config.h`. -/
def listedEnv : Env .configH Extended := .listed .configH .nan

/-- Three neurons with one input each. -/
def threeNeurons : Config Extended where
  layers := [1, 3]
  weights := []
  picture := [.finite 1]
  layersCount_lt := by decide
  layers_fit := by decide

/-- The network of three neurons is within the bounds. -/
lemma threeNeurons_bounded : threeNeurons.Bounded .configH := by
  constructor <;> decide

/-- Two layers of one neuron behind one input. -/
def deepNetwork : Config Extended where
  layers := [1, 1, 1]
  weights := [.finite 2, .finite (-2), .finite 1, .finite 0]
  picture := [.finite 1]
  layersCount_lt := by decide
  layers_fit := by decide

/-- The deep network is within the bounds. -/
lemma deepNetwork_bounded : deepNetwork.Bounded .configH := by
  constructor <;> decide

/-- The deep network is supported. -/
lemma deepNetwork_supported : deepNetwork.Supported .configH := by
  refine ⟨deepNetwork_bounded.domain, by decide, by decide, ⟨by decide, by decide⟩, ?_⟩
  simp only [Extended.isNegZero_iff]
  decide

/-- A network whose number of layers, `2 ^ 24 + 1`, is rounded on the bus. Only the last layer has
two neurons. -/
def longNetwork : Config Extended where
  layers := List.replicate (2 ^ 24) 1 ++ [2]
  weights := []
  picture := []
  layersCount_lt := by
    rw [List.length_append, List.length_replicate]
    decide
  layers_fit l mem := by
    rcases List.mem_append.1 mem with one | two
    · rw [List.eq_of_mem_replicate one]
      decide
    · rw [List.mem_singleton.1 two]
      decide

/-- The long network has one layer too many for the bus. -/
lemma longNetwork_length : longNetwork.layers.length = 2 ^ 24 + 1 := by
  unfold longNetwork
  rw [List.length_append, List.length_replicate, List.length_singleton]

/-- The sizes of the long network. -/
lemma longNetwork_mem {l : Int} (mem : l ∈ longNetwork.layers) : l = 1 ∨ l = 2 := by
  unfold longNetwork at mem
  rcases List.mem_append.1 mem with one | two
  · exact .inl (List.eq_of_mem_replicate one)
  · exact .inr (List.mem_singleton.1 two)

/-- All layers of the long network but the last have one neuron. -/
lemma longNetwork_layerSize {j : Nat} (lt : j < 2 ^ 24) : longNetwork.layerSize j = 1 := by
  unfold longNetwork Config.layerSize
  rw [List.getD_eq_getElem?_getD, List.getElem?_append_left (by rwa [List.length_replicate]),
    List.getElem?_replicate_of_lt lt]
  rfl

/-- The last layer of the long network has two neurons. -/
lemma longNetwork_layerSize_last : longNetwork.layerSize (2 ^ 24) = 2 := by
  unfold longNetwork Config.layerSize
  rw [List.getD_eq_getElem?_getD, List.getElem?_append_right (by rw [List.length_replicate]),
    List.length_replicate, Nat.sub_self]
  rfl

/-- The long network is within the bounds. -/
lemma longNetwork_bounded : longNetwork.Bounded .configH := by
  have le : ∀ l ∈ longNetwork.layers, l ≤ 2 := by
    intro l mem
    rcases longNetwork_mem mem with rfl | rfl <;> decide
  have size := longNetwork.layerSize_le_of_forall (n := 2) le
  refine ⟨?_, ?_, ?_, ?_⟩
  · intro l mem
    rcases longNetwork_mem mem with rfl | rfl <;> decide
  · exact fun l mem => (le l mem).trans (by decide)
  · exact fun l mem => (le l (List.mem_of_mem_tail mem)).trans (by decide)
  · rw [longNetwork_length]
    refine lt_of_le_of_lt (Finset.sum_le_card_nsmul _ _ 9 fun j _ => ?_) ?_
    · exact Nat.mul_le_mul (Nat.succ_le_succ (size j)) (Nat.succ_le_succ (size (j + 1)))
    · rw [Finset.card_range]
      decide

/-- The last layer of the long network gets no iteration. -/
lemma longNetwork_iterations : longNetwork.iterations = 2 ^ 24 - 1 := by
  have count : longNetwork.count = 2 ^ 24 := by
    rw [Config.count, longNetwork_length]
    exact floatInt_two_pow_24_succ
  rw [Config.iterations, count]
  decide

/-- A network whose number of layers, `2 ^ 24 + 3`, is rounded up on the bus. -/
def roundedNetwork : Config Extended where
  layers := List.replicate (2 ^ 24 + 3) 1
  weights := []
  picture := []
  layersCount_lt := by
    rw [List.length_replicate]
    decide
  layers_fit l mem := by
    rw [List.eq_of_mem_replicate mem]
    decide

/-- The number of layers of the rounded network. -/
lemma roundedNetwork_length : roundedNetwork.layers.length = 2 ^ 24 + 3 := List.length_replicate

/-- Every layer of the rounded network has one neuron. -/
lemma roundedNetwork_mem {l : Int} (mem : l ∈ roundedNetwork.layers) : l = 1 :=
  List.eq_of_mem_replicate mem

/-- The rounded network is within the bounds. -/
lemma roundedNetwork_bounded : roundedNetwork.Bounded .configH := by
  have size := roundedNetwork.layerSize_le_of_forall (n := 1) fun l mem =>
    (roundedNetwork_mem mem).le
  refine ⟨?_, ?_, ?_, ?_⟩
  · intro l mem
    rw [roundedNetwork_mem mem]
    decide
  · intro l mem
    rw [roundedNetwork_mem mem]
    decide
  · intro l mem
    rw [roundedNetwork_mem (List.mem_of_mem_tail mem)]
    decide
  · rw [roundedNetwork_length]
    refine lt_of_le_of_lt (Finset.sum_le_card_nsmul _ _ 4 fun j _ => ?_) ?_
    · exact Nat.mul_le_mul (Nat.succ_le_succ (size j)) (Nat.succ_le_succ (size (j + 1)))
    · rw [Finset.card_range]
      decide

/-- One layer too many is counted. -/
lemma roundedNetwork_iterations : roundedNetwork.iterations = 2 ^ 24 + 3 := by
  have count : roundedNetwork.count = 2 ^ 24 + 4 := by
    rw [Config.count, roundedNetwork_length]
    decide
  rw [Config.iterations, count]
  decide

/-- A network of one layer whose picture brings both markers and a number of layers in between. -/
def infinitePicture : Config Extended where
  layers := [1]
  weights := []
  picture := [.infinite false, .finite 2, .infinite true] ++ List.replicate 18 (.finite 1)
  layersCount_lt := by decide
  layers_fit := by decide

end NnProcessor.Model
