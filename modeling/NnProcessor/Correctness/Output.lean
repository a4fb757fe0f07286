import NnProcessor.Correctness.Termination

/-!
# The output

What the simulation prints is decided by the configuration alone (`order_irrelevant`), and it is the
output of the reference network (`end_to_end`). The bounds of `end_to_end` are needed: where the
number of layers is rounded on the bus, a list is too long for the `(int)` in its guard or a picture
brings the markers back to the bus, the output is another one (`end_to_end_bounds`).
-/

namespace NnProcessor.Correctness
open NnProcessor.Arith NnProcessor.Model NnProcessor.Edge NnProcessor.Invariant

variable {hw : Hw} {F : Type}

/-- There is a line for each word. -/
@[simp] lemma length_numbered (out : List F) : (numbered out).length = out.length := by
  simp [numbered]

/-- The lines of the first words come first. -/
lemma numbered_prefix {out all : List F} (pre : out <+: all) : numbered out <+: numbered all := by
  obtain ⟨rest, rfl⟩ := pre
  simp only [numbered, List.zipIdx_append, List.map_append]
  exact List.prefix_append _ _

/-- The lines tell the words. -/
lemma numbered_injective {out out' : List F} (eq : numbered out = numbered out') : out = out' := by
  have words : ∀ l : List F, (numbered l).map Prod.snd = l := by
    intro l
    simp only [numbered, List.map_map]
    exact List.zipIdx_map_fst 0 l
  rw [← words out, eq, words out']

/-- In every phase a first part of the results has been printed. -/
lemma printed_take [Binary32Ops F] {cfg : Config F} {ph : Phase} {s : System hw F}
    (bus : BusInv cfg ph s) : ∃ n, s.io.printed = numbered (cfg.results.take n) := by
  cases ph with
  | load t =>
    cases t with
    | zero => exact ⟨0, by rw [bus.1]; rfl⟩
    | succ t => exact ⟨0, bus.printed⟩
  | output k =>
    cases k with
    | zero => exact ⟨0, bus.1.printed⟩
    | succ k => exact ⟨k, bus.1.printed⟩
  | stopped =>
    refine ⟨cfg.results.length, ?_⟩
    rw [List.take_length]
    exact Receiving.printed bus
  | savePrev | nextLayer | startGenerator | settle | compute | clear | startClone | copyFirst
  | copying | cloned | writeOut => exact ⟨0, bus.1.printed⟩

variable [Binary32 F] [DecidableEq F] {cfg : Config F} {env : Env hw F}

/-- At every edge a first part of the results has been printed. -/
lemma printed_prefix (finite : ∀ x ∈ cfg.results, ¬IsInfinite x) (t : Nat) :
    (run cfg env t).io.printed <+: numbered cfg.results := by
  obtain ⟨n, eq⟩ := printed_take (mainInv_run cfg env finite t).bus
  rw [eq]
  exact numbered_prefix (List.take_prefix _ _)

/-- A stopped simulation has printed the results. -/
lemma printed_stopped (finite : ∀ x ∈ cfg.results, ¬IsInfinite x) {t : Nat}
    (st : (run cfg env t).stopped = true) : (run cfg env t).io.printed = numbered cfg.results := by
  have bus := (mainInv_run cfg env finite t).bus
  rw [(stopped_iff finite).1 st] at bus
  exact Receiving.printed bus

/-- The output does not depend on the order in which the processes run within the edges. -/
theorem order_irrelevant (picture : cfg.layers.length ≤ 1 → ∀ x ∈ cfg.picture, ¬IsInfinite x) :
    ∃ out, ∀ env : Env hw F, (∃ t, (run cfg env t).stopped = true) ∧
      ∀ t, (run cfg env t).stopped = true → (run cfg env t).io.printed = out := by
  have finite := finite_results cfg picture
  refine ⟨numbered cfg.results, fun env => ⟨?_, fun t st => printed_stopped finite st⟩⟩
  obtain ⟨t, st⟩ := stopped_reached finite env
  exact ⟨t, (stopped_iff finite).2 st⟩

/-- The small network prints the same in every order. -/
theorem order_irrelevant_small : ∃ out, ∀ env : Env .configH Extended,
    (∃ t, (run smallNetwork env t).stopped = true) ∧
      ∀ t, (run smallNetwork env t).stopped = true → (run smallNetwork env t).io.printed = out :=
  order_irrelevant fun one => absurd one (by decide)

/-- A simulation prints the output of the reference network: a part of it at every edge, and all of
it when it is stopped. -/
structure PrintsReference (cfg : Config F) (env : Env hw F) : Prop where
  part : ∀ t, (run cfg env t).io.printed <+: numbered cfg.reference
  all : ∀ t, (run cfg env t).stopped = true → (run cfg env t).io.printed = numbered cfg.reference

omit [DecidableEq F] in
/-- If the number of layers arrives as it is, the results are the output of the reference network. -/
lemma results_reference (dom : cfg.Domain hw) (count : cfg.count = cfg.layers.length)
    (lists : cfg.ListsFit) : cfg.results = cfg.reference := by
  have eq : cfg.activation cfg.iterations = cfg.reference := by
    rw [Config.iterations_eq count]
    exact dom.activation_eq lists (by omega)
  have fits : (cfg.activation cfg.iterations).length < 2 ^ 31 := by
    cases iter : cfg.iterations with
    | zero => exact lists.picture
    | succ i =>
      have le := dom.layerSize_le (i + 1)
      rw [Config.length_activation_succ, dom.width_eq]
      omega
  rw [Config.results, Config.resultCount, i32_natCast fits, Int.toNat_natCast, List.take_length, eq]

/-- The simulation ends, and it prints the output of the reference network, if the number of layers
arrives as it is (`Config.count_eq`). -/
theorem end_to_end (env : Env hw F) (bounded : cfg.Bounded hw)
    (count : cfg.count = cfg.layers.length) (lists : cfg.ListsFit)
    (picture : cfg.layers.length ≤ 1 → ∀ x ∈ cfg.picture, ¬IsInfinite x) :
    (∃ t, (run cfg env t).stopped = true) ∧ PrintsReference cfg env := by
  have finite := finite_results cfg picture
  have eq := results_reference bounded.domain count lists
  obtain ⟨t, st⟩ := stopped_reached finite env
  refine ⟨⟨t, (stopped_iff finite).2 st⟩, ?_, ?_⟩
  · intro t
    rw [← eq]
    exact printed_prefix finite t
  · intro t st
    rw [← eq]
    exact printed_stopped finite st

/-- The deep network prints its output. -/
theorem end_to_end_deep :
    (∃ t, (run deepNetwork listedEnv t).stopped = true) ∧ PrintsReference deepNetwork listedEnv :=
  end_to_end listedEnv deepNetwork_bounded (by decide) ⟨by decide, by decide⟩
    fun one => absurd one (by decide)

example : deepNetwork.reference = [.finite (8 / 13)] := by decide +kernel

/-- A network without layers whose picture is too long for the `(int)` in the guard of
`PREVIOUS_LAYER`. -/
def longPicture : Config Extended where
  layers := []
  weights := []
  picture := List.replicate (2 ^ 31) (.finite 0)
  layersCount_lt := by decide
  layers_fit := by decide

/-- One neuron without inputs whose list of weights is too long for the `(int)` in the guard of
`WEIGHT_STORAGE`. -/
def longWeights : Config Extended where
  layers := [0, 1]
  weights := List.replicate (2 ^ 31) (.finite 1)
  picture := []
  layersCount_lt := by decide
  layers_fit := by decide

/-- A simulation that prints the reference has it as its results. -/
lemma PrintsReference.results_eq (prints : PrintsReference cfg env)
    (finite : ∀ x ∈ cfg.results, ¬IsInfinite x) : cfg.results = cfg.reference := by
  obtain ⟨t, st⟩ := stopped_reached finite env
  have stop := (stopped_iff finite).2 st
  exact numbered_injective ((printed_stopped finite stop).symm.trans (prints.all t stop))

/-- The long network prints its last layer but one. -/
lemma longNetwork_fails : ¬PrintsReference longNetwork listedEnv := by
  intro prints
  have two : ¬longNetwork.layers.length ≤ 1 := by
    rw [longNetwork_length]
    decide
  have eq := congrArg List.length (prints.results_eq (finite_results _ fun one => absurd one two))
  have last : longNetwork.layers.length - 1 = (2 ^ 24 - 1) + 1 := by
    rw [longNetwork_length]
    decide
  have iter : longNetwork.iterations = (2 ^ 24 - 2) + 1 := longNetwork_iterations
  have width : longNetwork.width (2 ^ 24 - 2) = 1 := by
    rw [longNetwork_bounded.domain.width_eq]
    exact longNetwork_layerSize (by decide)
  have reference : longNetwork.reference.length = 2 := by
    rw [Config.reference, last, Config.length_referenceLayer]
    exact longNetwork_layerSize_last
  rw [length_results, Config.resultCount, iter, Config.length_activation_succ, width,
    reference] at eq
  cases eq

/-- The long picture has one word too many for an `int`. -/
lemma longPicture_length : longPicture.picture.length = 2 ^ 31 := List.length_replicate

/-- The long picture brings no marker to the bus. -/
lemma longPicture_finite : ∀ x ∈ longPicture.picture, ¬IsInfinite x := by
  intro x mem infinite
  obtain ⟨s, rfl⟩ := (Extended.isInfinite_iff x).1 infinite
  cases List.eq_of_mem_replicate mem

/-- Nothing of the long picture is printed. -/
lemma longPicture_fails : ¬PrintsReference longPicture listedEnv := by
  intro prints
  have eq := congrArg List.length
    (prints.results_eq (finite_results _ fun _ => longPicture_finite))
  have iter : longPicture.iterations = 0 := by decide
  have reference : longPicture.reference = longPicture.picture := rfl
  rw [length_results, Config.resultCount, iter, Config.activation, reference,
    longPicture_length] at eq
  revert eq
  decide

/-- The weights of the long list are read as 0. -/
lemma longWeights_fails : ¬PrintsReference longWeights listedEnv := by
  intro prints
  have eq := prints.results_eq (finite_results _ fun one => absurd one (by decide))
  have length : longWeights.weights.length = 2 ^ 31 := List.length_replicate
  have weight : (longWeights.jobOn 0 []).weight 0 = .finite 0 :=
    Config.guardedRead_long length (le_refl 0) _
  have result : longWeights.results = [.finite (1 / 2)] := by
    have start : longWeights.results = [sigmoid (Extended.add (Extended.ofInt 0)
      ((longWeights.jobOn 0 []).weight 0))] := rfl
    rw [start, weight]
    decide +kernel
  have word : longWeights.weightAt 0 = .finite 1 := by
    unfold Config.weightAt longWeights
    rw [List.getD_eq_getElem?_getD, List.getElem?_replicate_of_lt (by decide)]
    rfl
  have reference : longWeights.reference = [.finite (2 / 3)] := by
    have start : longWeights.reference = [sigmoid (Extended.add (Extended.ofInt 0)
      (longWeights.weightAt 0))] := rfl
    rw [start, word]
    decide +kernel
  rw [result, reference] at eq
  revert eq
  decide +kernel

/-- The markers in the picture start a layer iteration, and the clone clears the picture. -/
lemma infinitePicture_fails : ¬PrintsReference infinitePicture listedEnv := by
  intro prints
  have stop : (run infinitePicture listedEnv 47).stopped = true := by decide +kernel
  have length : (run infinitePicture listedEnv 47).io.printed.length = 19 := by decide +kernel
  have reference : infinitePicture.reference.length = 21 := by decide +kernel
  have printed := prints.all 47 stop
  rw [printed, length_numbered, reference] at length
  cases length

/-- Without one of the bounds of `end_to_end` the output can be another one. -/
theorem end_to_end_bounds :
    (longNetwork.Bounded .configH ∧ ¬PrintsReference longNetwork listedEnv) ∧
      (longPicture.Bounded .configH ∧ ¬PrintsReference longPicture listedEnv) ∧
      (longWeights.Bounded .configH ∧ ¬PrintsReference longWeights listedEnv) ∧
      (infinitePicture.Bounded .configH ∧ ¬PrintsReference infinitePicture listedEnv) := by
  refine ⟨⟨longNetwork_bounded, longNetwork_fails⟩, ⟨?_, longPicture_fails⟩,
    ⟨?_, longWeights_fails⟩, ⟨?_, infinitePicture_fails⟩⟩
  · constructor <;> decide
  · constructor <;> decide
  · constructor <;> decide

end NnProcessor.Correctness
