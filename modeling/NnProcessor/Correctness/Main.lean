import NnProcessor.Correctness.Refinement
import NnProcessor.Correctness.Work

/-!
# The program

`sc_main` as a whole: whatever the command line and the files are, the program ends in one way that
neither the kernel nor the heap can change (`program_total`).
-/

namespace NnProcessor.Correctness
open NnProcessor.Arith NnProcessor.Model NnProcessor.Invariant NnProcessor.Stream NnProcessor.Kernel

/-- The number of layers a configuration begins with. -/
def declared (text : List Char) : Int := (readInt 0 { rest := text }).1

/-- One of the files cannot be opened, and the declared number of layers is none that throws before. -/
def Closed (files : String → Option (List Char)) (f g : String) : Prop :=
  files f = none ∨ ∃ text, files f = some text ∧ 0 ≤ declared text ∧ files g = none

/-- A configuration declares a negative number of layers. -/
def Negative (files : String → Option (List Char)) (f : String) : Prop :=
  ∃ text, files f = some text ∧ declared text < 0

/-- Nothing can be said against both files. -/
def Readable (files : String → Option (List Char)) (f g : String) : Prop :=
  ∃ text picture, files f = some text ∧ 0 ≤ declared text ∧ files g = some picture

section Load

variable {files : String → Option (List Char)} {f g : String}

/-- A file with a negative number of layers has been opened. -/
lemma Negative.not_closed (negative : Negative files f) : ¬Closed files f g := by
  obtain ⟨text, opened, less⟩ := negative
  rintro (none | ⟨text', opened', ge, -⟩)
  · rw [opened] at none
    cases none
  · obtain rfl : text = text' := Option.some.inj (opened.symm.trans opened')
    omega

/-- Files that are read have been opened. -/
lemma Readable.not_closed (readable : Readable files f g) : ¬Closed files f g := by
  obtain ⟨text, picture, opened, -, image⟩ := readable
  rintro (none | ⟨-, -, -, none⟩)
  · rw [opened] at none
    cases none
  · rw [image] at none
    cases none

/-- Files that are read declare a number of layers that is not negative. -/
lemma Readable.not_negative (readable : Readable files f g) : ¬Negative files f := by
  obtain ⟨text, picture, opened, ge, -⟩ := readable
  rintro ⟨text', opened', less⟩
  obtain rfl : text = text' := Option.some.inj (opened.symm.trans opened')
  omega

variable {F : Type} [Binary32 F] [DecidableEq F] [TextOps F]

variable (F) in
/-- The three ways `loadData` can end. -/
lemma loadData_cases (files : String → Option (List Char)) (f g : String) :
    (loadData F files f g = .error .closed ∧ Closed files f g) ∨
    (loadData F files f g = .error .lengthError ∧ Negative files f) ∨
    ∃ cfg, loadData F files f g = .ok cfg ∧ Readable files f g := by
  unfold loadData
  cases opened : files f with
  | none => exact .inl ⟨rfl, .inl opened⟩
  | some text =>
    simp only [loadLayers]
    split
    · next less => exact .inr (.inl ⟨rfl, text, opened, less⟩)
    · next ge =>
      cases image : files g with
      | none => exact .inl ⟨rfl, .inr ⟨text, opened, not_lt.1 ge, image⟩⟩
      | some picture => exact .inr (.inr ⟨_, rfl, text, picture, opened, not_lt.1 ge, image⟩)

end Load

variable {hw : Hw} {F : Type} [Binary32 F] [DecidableEq F] [TextOps F] {same : F → F → Bool}
variable {cfg : Config F}

/-- What a finished simulation has written it has written for good. -/
lemma simulationText_finished {c : Choices hw F} {n m : Nat}
    (fin : (simulation same cfg c n).finished = true) (le : n ≤ m) :
    simulationText same cfg c m = simulationText same cfg c n := by
  induction m, le using Nat.le_induction with
  | base => rfl
  | succ m le ih =>
    have here : simulation same cfg c m = simulation same cfg c n := Design.simulate_finished fin le
    have next : simulation same cfg c (m + 1) = simulation same cfg c n :=
      Design.simulate_finished fin (Nat.le_succ_of_le le)
    rw [simulationText, here, next, List.drop_length, ih]
    exact List.append_nil _

/-- It does not matter how long a finished simulation is observed. -/
lemma simulationWritten_finished {c : Choices hw F} {n m : Nat} (dest : Option String)
    (fin : (simulation same cfg c n).finished = true)
    (fin' : (simulation same cfg c m).finished = true) :
    simulationWritten dest same cfg c n = simulationWritten dest same cfg c m := by
  have here : simulation same cfg c (max n m) = simulation same cfg c n :=
    Design.simulate_finished fin (le_max_left n m)
  have there : simulation same cfg c (max n m) = simulation same cfg c m :=
    Design.simulate_finished fin' (le_max_right n m)
  unfold simulationWritten
  rw [← here, there, ← simulationText_finished fin (le_max_left n m),
    simulationText_finished fin' (le_max_right n m)]

/-- Accepted files with a supported configuration lead to one text and one statistics. -/
lemma simulation_ends (floats : FloatEq same) {files : String → Option (List Char)} {f g : String}
    (ok : loadData F files f g = .ok cfg) (supported : cfg.Supported hw) :
    ∃ (first : Nat) (s : System hw F), ∑ k, (s.processors k).countNeuronsCalc =
        ∑ i ∈ Finset.range (cfg.layers.length - 1), max (cfg.layerSize (i + 1)) 1 ∧
      ∀ c : Choices hw F, ∃ n, (simulation same cfg c n).finished = true ∧
        ∀ dest : Option String, simulationWritten dest same cfg c n =
          streams dest ((numbered cfg.reference).flatMap fun r =>
            resultLine (edgeTime (first + r.1)) r.1 r.2) (statText s) := by
  have finite := loadData_results ok
  obtain ⟨first, output⟩ := program_output ok supported
  -- any other run ends with the same statistics
  let env := Env.listed hw (ofInt 0 : F)
  have stop := (output env (first + cfg.reference.length)).1.2 (le_refl _)
  refine ⟨first, run cfg env (first + cfg.reference.length), ?_, fun c => ?_⟩
  · rw [counted_all finite env stop, Config.iterations_eq supported.count]
    exact Finset.sum_congr rfl fun i _ => supported.domain.dispatches_eq i
  obtain ⟨stops, lines, -⟩ := output c.env (first + cfg.reference.length)
  obtain ⟨n, ends⟩ := kernel_stops floats (plain_run floats supported.positive finite c.env)
    (stops.2 (le_refl _))
  obtain ⟨fin, system, text⟩ := ends n (le_refl n)
  have stat : statText (run cfg c.env (first + cfg.reference.length)) =
      statText (run cfg env (first + cfg.reference.length)) :=
    statText_congr fun k => congrArg Processor.countNeuronsCalc
      ((lockstep_run finite c.env env _).processors k)
  refine ⟨n, fin, fun dest => ?_⟩
  rw [simulationWritten, text, lines, Nat.add_sub_cancel_left, List.take_length, system, stat]

/-- The outcome of the program with certain arguments and files. It is the only one, for every way the
kernel may take and every word on the heap; the program aborts and throws exactly when the files are
no good; and when it returns it has written the words of the reference network, each behind the time of
its edge, to the stream of the option `-o`, and to the standard output the statistics, whose numbers
add up to the neurons of the network (with one for an empty layer). -/
structure EndsWith (same : F → F → Bool) (files : String → Option (List Char))
    (writable : String → Bool) (hw : Hw) (args : List String) (o : Outcome) : Prop where
  only : ∀ (c : Choices hw F) o', ScMain same files writable args c o' ↔ o' = o
  abort : o = .abort fatal ↔
    Closed files (Options.parse args {}).configFile (Options.parse args {}).pictureFile
  exception : o = .exception ↔ Negative files (Options.parse args {}).configFile
  returned : (∃ w, o = .returned w) ↔
    Readable files (Options.parse args {}).configFile (Options.parse args {}).pictureFile
  written : ∀ w, o = .returned w → ∃ (cfg : Config F) (first : Nat) (s : System hw F),
    loadData F files (Options.parse args {}).configFile (Options.parse args {}).pictureFile =
        .ok cfg ∧
      ∑ k, (s.processors k).countNeuronsCalc =
        ∑ i ∈ Finset.range (cfg.layers.length - 1), max (cfg.layerSize (i + 1)) 1 ∧
      w = streams ((Options.parse args {}).destination writable)
        ((numbered cfg.reference).flatMap fun r => resultLine (edgeTime (first + r.1)) r.1 r.2)
        (statText s)

section Ends

variable {files : String → Option (List Char)} {writable : String → Bool} {args : List String}

/-- If a file cannot be opened the program aborts. -/
lemma endsWith_abort (failed : loadData F files (Options.parse args {}).configFile
      (Options.parse args {}).pictureFile = .error .closed)
    (closed : Closed files (Options.parse args {}).configFile (Options.parse args {}).pictureFile) :
    EndsWith same files writable hw args (.abort fatal) where
  only c o' := by
    constructor
    · intro main
      cases main with
      | closed => rfl
      | lengthError failed' | finished failed' =>
        rw [failed] at failed'
        cases failed'
    · rintro rfl
      exact .closed failed
  abort := ⟨fun _ => closed, fun _ => rfl⟩
  exception := ⟨fun eq => (by cases eq), fun negative => absurd closed negative.not_closed⟩
  returned := ⟨fun ⟨w, eq⟩ => (by cases eq), fun readable => absurd closed readable.not_closed⟩
  written w eq := by cases eq

/-- If the number of layers is negative the program throws. -/
lemma endsWith_exception (failed : loadData F files (Options.parse args {}).configFile
      (Options.parse args {}).pictureFile = .error .lengthError)
    (negative : Negative files (Options.parse args {}).configFile) :
    EndsWith same files writable hw args .exception where
  only c o' := by
    constructor
    · intro main
      cases main with
      | lengthError => rfl
      | closed failed' | finished failed' =>
        rw [failed] at failed'
        cases failed'
    · rintro rfl
      exact .lengthError failed
  abort := ⟨fun eq => (by cases eq), fun closed => absurd closed negative.not_closed⟩
  exception := ⟨fun _ => negative, fun _ => rfl⟩
  returned := ⟨fun ⟨w, eq⟩ => (by cases eq), fun readable => absurd negative readable.not_negative⟩
  written w eq := by cases eq

/-- With files that are read, and a configuration that is supported, the program returns. -/
lemma endsWith_returned (floats : FloatEq same) (ok : loadData F files
      (Options.parse args {}).configFile (Options.parse args {}).pictureFile = .ok cfg)
    (readable : Readable files (Options.parse args {}).configFile (Options.parse args {}).pictureFile)
    (supported : cfg.Supported hw) : ∃ w, EndsWith same files writable hw args (.returned w) := by
  obtain ⟨first, s, counts, ends⟩ := simulation_ends floats ok supported
  refine ⟨streams ((Options.parse args {}).destination writable)
    ((numbered cfg.reference).flatMap fun r => resultLine (edgeTime (first + r.1)) r.1 r.2)
    (statText s), ?_⟩
  exact {
    only c o' := by
      obtain ⟨n, fin, text⟩ := ends c
      constructor
      · intro main
        cases main with
        | closed failed | lengthError failed =>
          rw [ok] at failed
          cases failed
        | finished loaded fin' =>
          obtain rfl := Except.ok.inj (ok.symm.trans loaded)
          rw [simulationWritten_finished _ fin' fin, text]
      · rintro rfl
        rw [← text]
        exact .finished ok fin
    abort := ⟨fun eq => (by cases eq), fun closed => absurd closed readable.not_closed⟩
    exception := ⟨fun eq => (by cases eq), fun negative => absurd negative readable.not_negative⟩
    returned := ⟨fun _ => readable, fun _ => ⟨_, rfl⟩⟩
    written w eq := ⟨cfg, first, s, ok, counts, (Outcome.returned.inj eq).symm⟩ }

end Ends

/-- **The program.** Every command line and all files lead to one outcome of `sc_main`: it aborts, it
throws, or the simulation comes to an end and everything has been written, as long as a configuration
that is accepted is supported. -/
theorem program_total (floats : FloatEq same) (files : String → Option (List Char))
    (writable : String → Bool) (args : List String)
    (supported : ∀ cfg, loadData F files (Options.parse args {}).configFile
      (Options.parse args {}).pictureFile = .ok cfg → cfg.Supported hw) :
    ∃ o, EndsWith same files writable hw args o := by
  cases loadData_cases F files (Options.parse args {}).configFile
      (Options.parse args {}).pictureFile with
  | inl refused => exact ⟨_, endsWith_abort refused.1 refused.2⟩
  | inr rest =>
    cases rest with
    | inl throws => exact ⟨_, endsWith_exception throws.1 throws.2⟩
    | inr accepted =>
      obtain ⟨cfg, ok, readable⟩ := accepted
      obtain ⟨w, ends⟩ := endsWith_returned floats ok readable (supported cfg ok)
      exact ⟨_, ends⟩

/-- The program on the files of the small network. -/
theorem program_total_small : ∃ o, EndsWith Extended.sameWord smallFiles (fun _ => false) .configH
    ["-c", "config", "-i", "picture"] o :=
  program_total Extended.sameWord_floatEq smallFiles (fun _ => false)
    ["-c", "config", "-i", "picture"] fun cfg ok => by
      obtain rfl : smallNetwork = cfg := Except.ok.inj (loadData_smallFiles.symm.trans ok)
      exact smallNetwork_supported

end NnProcessor.Correctness
