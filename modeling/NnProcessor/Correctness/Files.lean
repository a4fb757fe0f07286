import NnProcessor.Correctness.Duration
import NnProcessor.Correctness.Output
import NnProcessor.Model.Files

/-!
# The files

A `ConfigText` is a configuration written as the program reads it: the number of layers, their sizes
and the weights, with any white space between them. `load_written` says that `loadData` gets exactly
these numbers, however they are laid out. A file can be anything else too: `load_sound` says what
every configuration that `loadData` accepts is good for, and `load_short` what becomes of a list of
sizes that breaks off.
-/

namespace NnProcessor.Model
open NnProcessor.Arith NnProcessor.Stream

/-- The format of an `int`. -/
abbrev int32 : Format IntField Int Int := intFormat (-2 ^ 31) (2 ^ 31 - 1)

variable {F : Type} [Binary32Ops F] [DecidableEq F] [TextOps F]

omit [Binary32Ops F] [DecidableEq F] [TextOps F] in
/-- A configuration is its three lists. -/
lemma Config.eq_of_lists {cfg cfg' : Config F} (layers : cfg.layers = cfg'.layers)
    (weights : cfg.weights = cfg'.weights) (picture : cfg.picture = cfg'.picture) : cfg = cfg' := by
  cases cfg
  cases cfg'
  cases layers
  cases weights
  cases picture
  rfl

variable (F) in
/-- A configuration as it is written: every number behind the first one has white space in front of
it, and behind the last one there is nothing that could be read as a weight. -/
structure ConfigText where
  count : Item int32
  sizes : List (Item int32)
  weights : List (Item (readFloat F))
  tail : List Char
  counted : count.token.value = sizes.length
  apart : Item.Apart sizes ∧ Item.Apart weights
  barren : Barren (readFloat F) tail

/-- The characters of a configuration. -/
def ConfigText.text (c : ConfigText F) : List Char :=
  c.count.text ++ Item.render c.sizes (Item.render c.weights c.tail)

variable (F) in
/-- A picture as it is written. -/
structure PictureText where
  pixels : List (Item (readFloat F))
  tail : List Char
  apart : Item.Apart pixels.tail
  barren : Barren (readFloat F) tail

/-- The characters of a picture. -/
def PictureText.text (p : PictureText F) : List Char := Item.render p.pixels p.tail

/-- The number of a token is an `int`. -/
lemma int32_range (token : Token int32) : -2 ^ 31 ≤ token.value ∧ token.value ≤ 2 ^ 31 - 1 := by
  have range := intFormat_range (-2 ^ 31) (2 ^ 31 - 1) token.field
  have valid : (intFormat (-2 ^ 31) (2 ^ 31 - 1)).value token.field = .ok token.value := token.valid
  rwa [valid] at range

/-- The first number of a file. -/
lemma readInt_file (item : Item int32) {old : Int} {tail : List Char} (stops : Over tail) :
    readInt old { rest := item.text ++ tail } = (item.token.value, Token.behind tail) := by
  have read : extract int32 { rest := item.text ++ tail } =
      (.ok item.token.value, Token.behind tail) :=
    item.token.extract_gap rfl (List.append_assoc _ _ _) item.space stops
  unfold readInt
  rw [read]

/-- The sizes are read one after the other. -/
lemma readSizes_items {sizes : List (Item int32)} (apart : Item.Apart sizes) {tail : List Char}
    (stops : Over tail) (n : Nat) :
    readSizes (sizes.length + n) (Token.behind (Item.render sizes tail)) =
      (Item.values sizes ++ (readSizes n (Token.behind tail)).1,
        (readSizes n (Token.behind tail)).2) := by
  induction sizes with
  | nil =>
    rw [List.length_nil, Nat.zero_add]
    rfl
  | cons item sizes ih =>
    have apart' : Item.Apart sizes := fun x mem => apart x (by simp [mem])
    have some : Item.render (item :: sizes) tail ≠ [] := by
      rw [Item.render_cons]
      intro none
      exact apart item (by simp) (List.append_eq_nil_iff.1 none).1
    have read : extract int32 (Token.behind (Item.render (item :: sizes) tail)) =
        (.ok item.token.value, Token.behind (Item.render sizes tail)) :=
      item.token.extract_gap (Token.behind_good some) (Item.render_cons item sizes tail) item.space
        (Item.over_render apart' stops)
    have first : readInt 0 (Token.behind (Item.render (item :: sizes) tail)) =
        (item.token.value, Token.behind (Item.render sizes tail)) := by
      unfold readInt
      rw [read]
    rw [List.length_cons, Nat.add_right_comm, readSizes, first]
    simp only [ih apart']
    rfl

/-- From a stream that has failed only zeros are read. -/
lemma readSizes_fail (n : Nat) {s : Istream} (fail : s.fail = true) :
    (readSizes n s).1 = List.replicate n 0 ∧ (readSizes n s).2.fail = true := by
  induction n generalizing s with
  | zero => exact ⟨rfl, fail⟩
  | succ n ih =>
    obtain ⟨none, fail'⟩ : (extract int32 s).1 = .error none ∧ (extract int32 s).2.fail = true :=
      extract_fail fail
    have first : readInt 0 s = (0, (extract int32 s).2) := by
      unfold readInt
      rcases eq : extract int32 s with ⟨b | v, s'⟩ <;> rw [eq] at none <;> cases none
      rfl
    rw [readSizes, first]
    obtain ⟨zeros, fails⟩ := ih fail'
    exact ⟨by rw [List.replicate_succ, zeros], fails⟩

/-- The loader behind the first number of a file. -/
lemma loadData_eq {files : String → Option (List Char)} {f g : String} {count : Item int32}
    {tail : List Char} (config : files f = some (count.text ++ tail)) (stops : Over tail) :
    loadData F files f g =
      loadLayers F count.token.value (Int.lt_of_le_sub_one (int32_range count.token).2)
        (Token.behind tail) (files g) := by
  unfold loadData
  rw [config]
  simp only [readInt_file count stops]

variable (F) in
/-- The loader behind a number of layers that is none too small. -/
lemma loadLayers_ok {count : Int} {n : Nat} (eq : count = n) (lt : count < 2 ^ 31) (cfg : Istream)
    (text : List Char) : ∃ c, loadLayers F count lt cfg (some text) = .ok c ∧
      c.layers = (readSizes n cfg).1 ∧
      c.weights = (extractAll (readFloat F) (readSizes n cfg).2).1 ∧
      c.picture = (extractAll (readFloat F) { rest := text }).1 := by
  subst eq
  unfold loadLayers
  rw [if_neg (by omega)]
  exact ⟨_, rfl, rfl, rfl, rfl⟩

/-- A configuration that is accepted has been read by that part of the loader. -/
lemma loadData_ok {files : String → Option (List Char)} {f g : String} {cfg : Config F}
    (ok : loadData F files f g = .ok cfg) : ∃ (text : List Char) (picture : List Char) (s : Istream),
      files f = some text ∧ files g = some picture ∧
        cfg.weights = (extractAll (readFloat F) s).1 ∧
        cfg.picture = (extractAll (readFloat F) { rest := picture }).1 := by
  unfold loadData at ok
  cases config : files f with
  | none => simp [config] at ok
  | some text =>
    simp only [config, loadLayers] at ok
    split at ok
    · cases ok
    · cases image : files g with
      | none => simp [image] at ok
      | some picture =>
        simp only [image, Except.ok.injEq] at ok
        subst ok
        exact ⟨text, picture, _, rfl, rfl, rfl, rfl⟩

/-- No number that is read is infinite: where `strtof` gives an infinity the extraction fails. -/
lemma readFloat_finite (s : Istream) : ∀ x ∈ (extractAll (readFloat F) s).1, ¬IsInfinite x := by
  refine extractAll_forall (fun field v conv infinite => ?_) s
  simp only [readFloat, floatFormat] at conv
  split at conv
  · split at conv
    · next eq =>
      split at eq
      · cases eq
      · next finite =>
        cases eq
        cases conv
        exact finite infinite
    · cases conv
  · cases conv

end NnProcessor.Model

namespace NnProcessor.Correctness
open NnProcessor.Arith NnProcessor.Model NnProcessor.Invariant NnProcessor.Stream

variable {hw : Hw} {F : Type} [Binary32 F] [DecidableEq F] [TextOps F]
variable {files : String → Option (List Char)} {f g : String}

/-- **Written files.** `loadData` gets the numbers of a configuration and of a picture that have been
written, whatever the white space between them is and whatever follows them. -/
theorem load_written (c : ConfigText F) (p : PictureText F) (config : files f = some c.text)
    (picture : files g = some p.text) :
    ∃ cfg, loadData F files f g = .ok cfg ∧ cfg.layers = Item.values c.sizes ∧
      cfg.weights = Item.values c.weights ∧ cfg.picture = Item.values p.pixels := by
  have stops := Item.over_render c.apart.1 (Item.over_render c.apart.2 c.barren.1)
  have sizes := readSizes_items c.apart.1 (Item.over_render c.apart.2 c.barren.1) 0
  have weights := extractAll_items c.barren c.apart.2
  have pixels := extractAll_file p.barren p.apart
  rw [Nat.add_zero] at sizes
  rw [loadData_eq config stops, picture]
  obtain ⟨cfg, ok, layers, loaded, image⟩ := loadLayers_ok F c.counted
    (Int.lt_of_le_sub_one (int32_range c.count.token).2) _ p.text
  rw [sizes] at layers loaded
  refine ⟨cfg, ok, ?_, loaded.trans weights, image.trans pixels⟩
  rw [layers]
  exact List.append_nil _

/-- The small network, written with a fraction and with line breaks. -/
def smallConfigText : ConfigText Extended where
  count := ⟨[], printToken 2 (by decide), List.forall_mem_nil _⟩
  sizes :=
    [⟨['\n'], printToken 1 (by decide), List.forall_mem_singleton.2 rfl⟩,
      ⟨[' '], printToken 1 (by decide), List.forall_mem_singleton.2 rfl⟩]
  weights :=
    [⟨['\n'], floatToken { sign := none, whole := ['2'], frac := none, exp := none }
        ⟨List.forall_mem_singleton.2 rfl, by simp, by simp, by decide⟩ (.finite 2) (by decide +kernel),
        List.forall_mem_singleton.2 rfl⟩,
      ⟨[' '], floatToken { sign := some true, whole := ['2'], frac := some ['0'], exp := none }
        ⟨List.forall_mem_singleton.2 rfl, by simp, by simp, by decide⟩ (.finite (-2))
        (by decide +kernel), List.forall_mem_singleton.2 rfl⟩]
  tail := ['\n']
  counted := rfl
  apart := by simp [Item.Apart]
  barren := barren_space (List.forall_mem_singleton.2 rfl)

/-- The picture of the small network. -/
def smallPictureText : PictureText Extended where
  pixels :=
    [⟨[], floatToken { sign := none, whole := ['1'], frac := none, exp := some ('e', none, ['0']) }
      ⟨List.forall_mem_singleton.2 rfl, by simp, by simp, by decide⟩ (.finite 1) (by decide +kernel),
      List.forall_mem_nil _⟩]
  tail := []
  apart := by simp [Item.Apart]
  barren := barren_space (by simp)

/-- The two files of the small network. -/
def smallFiles (name : String) : Option (List Char) :=
  if name = "config" then some smallConfigText.text
  else if name = "picture" then some smallPictureText.text
  else none

example : smallConfigText.text = "2\n1 1\n2 -2.0\n".toList := by decide +kernel

/-- The files of the small network are read. -/
theorem load_written_small : ∃ cfg, loadData Extended smallFiles "config" "picture" = .ok cfg ∧
    cfg.layers = Item.values smallConfigText.sizes ∧
    cfg.weights = Item.values smallConfigText.weights ∧
    cfg.picture = Item.values smallPictureText.pixels :=
  load_written smallConfigText smallPictureText rfl rfl

/-- They are a configuration that has been met before. -/
lemma loadData_smallFiles :
    loadData Extended smallFiles "config" "picture" = .ok smallNetwork := by
  cases read : loadData Extended smallFiles "config" "picture" with
  | error e =>
    have none : (loadData Extended smallFiles "config" "picture").toOption.isSome = true := by
      decide +kernel
    rw [read] at none
    cases none
  | ok cfg =>
    have lists : (loadData Extended smallFiles "config" "picture").toOption.map
        (fun c => (c.layers, c.weights, c.picture)) =
          some (smallNetwork.layers, smallNetwork.weights, smallNetwork.picture) := by
      decide +kernel
    rw [read] at lists
    obtain ⟨layers, others⟩ := Prod.mk.inj (Option.some.inj lists)
    obtain ⟨weights, picture⟩ := Prod.mk.inj others
    rw [Config.eq_of_lists layers weights picture]

/-- **Accepted files.** Whatever the bytes of the two files are, in a configuration that `loadData`
accepts no word is infinite, so no word of the picture can be taken for a command; and if the
configuration is supported, all simulations of it are stopped from one edge on and have then printed the
output of the reference network. -/
theorem load_sound {cfg : Config F} (ok : loadData F files f g = .ok cfg) :
    (∀ x ∈ cfg.picture ++ cfg.weights, ¬IsInfinite x) ∧
      ∀ hw : Hw, cfg.Supported hw → ∃ last, ∀ (env : Env hw F) (t : Nat),
        ((run cfg env t).stopped = true ↔ last ≤ t) ∧
          (last ≤ t → (run cfg env t).io.printed = numbered cfg.reference) := by
  obtain ⟨-, picture, s, -, -, weights, image⟩ := loadData_ok ok
  have pixels : ∀ x ∈ cfg.picture, ¬IsInfinite x := by
    rw [image]
    exact readFloat_finite _
  refine ⟨fun x mem => ?_, fun hw supported => ?_⟩
  · rcases List.mem_append.1 mem with mem | mem
    · exact pixels x mem
    · rw [weights] at mem
      exact readFloat_finite s x mem
  · have finite := results_finite cfg fun _ => pixels
    obtain ⟨time, -, start⟩ := writeOut_at finite hw
    refine ⟨cfg.duration time, fun env t => ?_⟩
    have stops := stopped_from finite (start env) t
    refine ⟨stops, fun le => ?_⟩
    rw [printed_stopped finite (stops.2 le),
      results_reference supported.domain supported.count supported.lists]

/-- The files of the small network are good for a run. -/
theorem load_sound_small :
    (∀ x ∈ smallNetwork.picture ++ smallNetwork.weights, ¬IsInfinite x) ∧
      ∃ last, ∀ (env : Env .configH Extended) (t : Nat),
        ((run smallNetwork env t).stopped = true ↔ last ≤ t) ∧
          (last ≤ t → (run smallNetwork env t).io.printed = numbered smallNetwork.reference) := by
  obtain ⟨finite, ends⟩ := load_sound loadData_smallFiles
  exact ⟨finite, ends .configH smallNetwork_supported⟩

omit [DecidableEq F] [TextOps F] in
/-- A network whose last layer is empty has no results. -/
lemma results_nil {cfg : Config F} (two : 2 ≤ cfg.layers.length)
    (count : cfg.count = cfg.layers.length)
    (last : cfg.layers.getD (cfg.layers.length - 1) 0 = 0) : cfg.results = [] := by
  have iterations := cfg.iterations_eq count
  have index : cfg.layers.length - 1 < cfg.layers.length := by omega
  have zero : cfg.size (cfg.layers.length - 1) = 0 := by
    rw [List.getD_eq_getElem?_getD, List.getElem?_eq_getElem index, Option.getD_some] at last
    rw [Config.size, Config.received, List.getD_eq_getElem?_getD, List.getElem?_map,
      List.getElem?_eq_getElem index, last]
    rfl
  have none : cfg.activation cfg.iterations = [] := by
    obtain ⟨i, eq⟩ : ∃ i, cfg.layers.length - 1 = i + 1 := ⟨cfg.layers.length - 2, by omega⟩
    rw [eq] at zero
    rw [iterations, eq, ← List.length_eq_zero_iff, Config.length_activation_succ, Config.width,
      zero]
    rfl
  rw [Config.results, none, List.take_nil]

/-- **A list of sizes that breaks off.** Where a size is missing, or something else stands in its
place, it and the ones behind it are zero and there are no weights. If the program stays inside of its
memory with such a network and all of its layers arrive, its runs end and print nothing. -/
theorem load_short (count : Item int32) (sizes : List (Item int32)) {tail picture : List Char}
    {n : Nat} (config : files f = some (count.text ++ Item.render sizes tail))
    (image : files g = some picture) (apart : Item.Apart sizes) (stops : Over tail)
    (counted : count.token.value = n) (short : sizes.length < n)
    (missing : ∃ b s', extract int32 (Token.behind tail) = (.error b, s') ∧ b.getD 0 = 0) :
    ∃ cfg, loadData F files f g = .ok cfg ∧
      cfg.layers = Item.values sizes ++ List.replicate (n - sizes.length) 0 ∧ cfg.weights = [] ∧
        (2 ≤ n → cfg.count = n → ∀ hw : Hw, cfg.Inside hw → ∃ last, ∀ (env : Env hw F) (t : Nat),
          ((run cfg env t).stopped = true ↔ last ≤ t) ∧ (run cfg env t).io.printed = [] ∧
            InBounds (run cfg env t)) := by
  obtain ⟨b, s', missing, zero⟩ := missing
  obtain ⟨m, rfl⟩ : ∃ m, n = sizes.length + (m + 1) := ⟨n - sizes.length - 1, by omega⟩
  have fail := extract_error missing
  have first : readInt 0 (Token.behind tail) = (0, s') := by
    unfold readInt
    rw [missing]
    cases b with
    | none => rfl
    | some v => exact congrArg (·, s') zero
  obtain ⟨zeros, fails⟩ := readSizes_fail m fail
  have read := readSizes_items apart stops (m + 1)
  rw [readSizes, first] at read
  obtain ⟨cfg, ok, layers, weights, -⟩ := loadLayers_ok F counted
    (Int.lt_of_le_sub_one (int32_range count.token).2)
    (Token.behind (Item.render sizes tail)) picture
  rw [read] at layers weights
  have loaded : loadData F files f g = .ok cfg := by
    rw [loadData_eq config (Item.over_render apart stops), image]
    exact ok
  have eq : cfg.layers =
      Item.values sizes ++ List.replicate (sizes.length + (m + 1) - sizes.length) 0 := by
    rw [layers, Nat.add_sub_cancel_left, List.replicate_succ, zeros]
  refine ⟨cfg, loaded, eq, ?_, fun two count hw inside => ?_⟩
  · rw [weights]
    exact extractAll_fail fails
  · have length : cfg.layers.length = sizes.length + (m + 1) := by
      rw [layers, List.length_append, List.length_cons, zeros, List.length_replicate]
      simp [Item.values]
    have last : cfg.layers.getD (cfg.layers.length - 1) 0 = 0 := by
      rw [length, eq, List.getD_eq_getElem?_getD,
        List.getElem?_append_right (by simp [Item.values]),
        List.getElem?_replicate]
      split <;> rfl
    have none := results_nil (by omega) (by rw [count, length]) last
    have finite : ∀ x ∈ cfg.results, ¬IsInfinite x := by
      rw [none]
      exact fun x mem => by cases mem
    obtain ⟨time, -, start⟩ := writeOut_at finite hw
    refine ⟨cfg.duration time, fun env t =>
      ⟨stopped_from finite (start env) t, ?_, inBounds_run finite inside env t⟩⟩
    have pre : (run cfg env t).io.printed <+: numbered cfg.results := printed_prefix finite t
    rw [none] at pre
    exact List.prefix_nil.1 pre

/-- A configuration of two layers with one size. -/
theorem load_short_small : ∃ cfg, loadData Extended
      (fun name => if name = "config" then some ("2".toList ++ "\n1".toList) else some []) "config"
      "picture" = .ok cfg ∧
    cfg.layers = Item.values (smallConfigText.sizes.take 1) ++ List.replicate (2 - 1) 0 ∧
      cfg.weights = [] ∧
        (2 ≤ 2 → cfg.count = (2 : Nat) → ∀ hw : Hw, cfg.Inside hw →
          ∃ last, ∀ (env : Env hw Extended) (t : Nat),
            ((run cfg env t).stopped = true ↔ last ≤ t) ∧ (run cfg env t).io.printed = [] ∧
              InBounds (run cfg env t)) :=
  load_short smallConfigText.count (smallConfigText.sizes.take 1) rfl rfl
    (by simp [smallConfigText, Item.Apart]) over_nil rfl (by decide) ⟨none, _, rfl, rfl⟩

end NnProcessor.Correctness
