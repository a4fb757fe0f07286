import NnProcessor.Model.Extended
import NnProcessor.Model.System
import NnProcessor.Stream.Numeral

/-!
# The program around the system

What `sc_main` and `IO` do with the command line and with files: the options, `loadData`, and the
lines `IO::read_data_from_system` writes. The conversions between decimal digits and words are
`TextOps`; an extraction whose number is too large for a `float` fails, as `num_get` requires.
-/

namespace NnProcessor.Model
open NnProcessor.Arith NnProcessor.Stream

/-- `g_configFile`, `g_pictureFile` and `g_outputFile`. -/
structure Options where
  configFile : String := "input/nn_config.txt"
  pictureFile : String := "input/picture.txt"
  outputFile : String := ""
  deriving DecidableEq

/-- The loop of `sc_main` over the arguments behind the name of the program. -/
def Options.parse : List String → Options → Options
  | "-c" :: file :: args, o => parse args { o with configFile := file }
  | "-i" :: file :: args, o => parse args { o with pictureFile := file }
  | "-o" :: file :: args, o => parse args { o with outputFile := file }
  | _ :: args, o => parse args o
  | [], o => o

/-- The conversions between words and decimal digits. -/
class TextOps (F : Type) where
  /-- `strtof` of a sign, the digits and a power of ten. -/
  strtof : Bool → Nat → Int → F
  /-- `std::fixed << std::setprecision(9)`; the two zeros have digits of their own. -/
  fixed : F → List Char

/-- The natural number nearest to a rational that is not negative, ties to even. -/
def roundEven (q : Rat) : Nat :=
  let n := q.floor.toNat
  if q - n > 1 / 2 ∨ (q - n = 1 / 2 ∧ n % 2 = 1) then n + 1 else n

/-- The words made of rationals are read without rounding; a number that is rounded to zero keeps its
sign. -/
instance : TextOps Extended where
  strtof negative n e :=
    .ofRat negative ((if negative then -1 else 1) * (n : Rat) * (10 : Rat) ^ e)
  fixed
    | .finite q =>
      let n := roundEven (|q| * 10 ^ 9)
      let frac := Nat.toDigits 10 (n % 10 ^ 9)
      (if q < 0 then ['-'] else []) ++ Nat.toDigits 10 (n / 10 ^ 9) ++
        '.' :: (List.replicate (9 - frac.length) '0' ++ frac)
    | .negZero => "-0.000000000".toList
    | .infinite negative => if negative then "-inf".toList else "inf".toList
    | .nan => "nan".toList

/-- `cfg >> n` for an `int` that holds `old`. -/
def readInt (old : Int) (s : Istream) : Int × Istream :=
  match extract (intFormat (-2 ^ 31) (2 ^ 31 - 1)) s with
  | (.ok v, s') => (v, s')
  | (.error none, s') => (old, s')
  | (.error (some v), s') => (v, s')

/-- The loop over `layers`, whose elements are zero behind `resize`. -/
def readSizes : Nat → Istream → List Int × Istream
  | 0, s => ([], s)
  | n + 1, s =>
    let first := readInt 0 s
    let others := readSizes n first.2
    (first.1 :: others.1, others.2)

/-- Whatever is read is an `int`. -/
lemma readInt_fits {old : Int} (fits : Fits old) (s : Istream) : Fits (readInt old s).1 := by
  unfold readInt extract
  cases s.sentry with
  | none => exact fits
  | some cs =>
    have range := intFormat_range (-2 ^ 31) (2 ^ 31 - 1)
      ((intFormat (-2 ^ 31) (2 ^ 31 - 1)).scan cs).1
    simp only
    cases conv : (intFormat (-2 ^ 31) (2 ^ 31 - 1)).value
        ((intFormat (-2 ^ 31) (2 ^ 31 - 1)).scan cs).1 with
    | ok v =>
      rw [conv] at range
      exact ⟨range.1, Int.lt_of_le_sub_one range.2⟩
    | error v =>
      rw [conv] at range
      have fits : Fits v := by rcases range with rfl | rfl | rfl <;> decide
      exact fits

/-- As many sizes are read as are declared. -/
lemma length_readSizes (n : Nat) (s : Istream) : (readSizes n s).1.length = n := by
  induction n generalizing s with
  | zero => rfl
  | succ n ih => rw [readSizes, List.length_cons, ih]

/-- There are no more of them than an `int` can count. -/
lemma length_readSizes_lt {n : Int} (lt : n < 2 ^ 31) (s : Istream) :
    (readSizes n.toNat s).1.length < 2 ^ 31 := by
  rw [length_readSizes]
  omega

/-- Every size that is read is an `int`. -/
lemma readSizes_fits (n : Nat) (s : Istream) : ∀ l ∈ (readSizes n s).1, Fits l := by
  induction n generalizing s with
  | zero => exact fun l mem => by cases mem
  | succ n ih =>
    intro l mem
    rcases List.mem_cons.1 mem with rfl | mem
    · exact readInt_fits (by decide) s
    · exact ih _ l mem

variable {F : Type} [Binary32Ops F] [DecidableEq F] [TextOps F]

variable (F) in
/-- `cfg >> w` for a `float`. -/
def readFloat : Format FloatField Unit F :=
  floatFormat fun negative n e =>
    let x := TextOps.strtof negative n e
    if x = infinity ∨ x = negInfinity then none else some x

/-- How `loadData` can fail: it returns `false`, or `layers.resize` throws `std::length_error` for a
negative number of layers. -/
inductive LoadError where
  | closed
  | lengthError
  deriving DecidableEq

variable (F) in
/-- `loadData` behind the number of layers, with the stream of the configuration. -/
def loadLayers (layersCount : Int) (count_lt : layersCount < 2 ^ 31) (cfg : Istream)
    (picture : Option (List Char)) : Except LoadError (Config F) :=
  if layersCount < 0 then .error .lengthError
  else
    let layers := readSizes layersCount.toNat cfg
    let weights := extractAll (readFloat F) layers.2
    match picture with
    | none => .error .closed
    | some text =>
      .ok {
        layers := layers.1
        weights := weights.1
        picture := (extractAll (readFloat F) { rest := text }).1
        layersCount_lt := length_readSizes_lt count_lt cfg
        layers_fit := readSizes_fits _ _ }

variable (F) in
/-- `loadData`; `files` are the texts of the files that can be opened. -/
def loadData (files : String → Option (List Char)) (configFile pictureFile : String) :
    Except LoadError (Config F) :=
  match files configFile with
  | none => .error .closed
  | some text =>
    loadLayers F (readInt 0 { rest := text }).1 (readInt_fits (by decide) _).2
      (readInt 0 { rest := text }).2 (files pictureFile)

/-- The names of the units of `sc_time`, each a thousand times the one in front of it. -/
def timeUnits : List String := ["fs", "ps", "ns", "us", "ms", "s"]

/-- The loop of `sc_time_tuple::init`: `val * 10 ^ scale` femtoseconds in the unit `scale / 3`. -/
def timeTuple : Nat → Nat → Nat → Nat × Nat
  | 0, val, scale => (val, scale)
  | fuel + 1, val, scale =>
    if scale / 3 < 5 ∧ val % 10 = 0 then timeTuple fuel (val / 10) (scale + 1) else (val, scale)

/-- `sc_time_tuple::to_string` of a time in picoseconds, the resolution of the kernel. At the
fifteenth step of the loop the unit is the second. -/
def timeString (picoseconds : Nat) : List Char :=
  let (val, scale) := timeTuple 12 picoseconds 3
  if val = 0 then "0 s".toList
  else
    Nat.toDigits 10 val ++ List.replicate (scale % 3) '0' ++ ' ' ::
      (timeUnits.getD (scale / 3) "").toList

/-- `sc_time_stamp()` at an edge: the clock has a period of 10 ns and its first edge at 0. -/
def edgeTime (t : Nat) : Nat := 10000 * t

/-- The line of the result `k`, written at a time. -/
def resultLine (now k : Nat) (x : F) : List Char :=
  '[' :: timeString now ++ "] [IO] RESULT ".toList ++ Nat.toDigits 10 k ++ ": ".toList ++
    TextOps.fixed x ++ ['\n']

variable {hw : Hw}

/-- What `IO::read_data_from_system` has written in front of the edge `t`. -/
def resultText (cfg : Config F) (env : Env hw F) : Nat → List Char
  | 0 => []
  | t + 1 =>
    resultText cfg env t ++
      (((run cfg env (t + 1)).io.printed.drop (run cfg env t).io.printed.length).flatMap
        fun r => resultLine (edgeTime t) r.1 r.2)

/-- The stream `IO::read_data_from_system` writes to: the file of the option `-o`, unless it cannot be
opened, or the standard output. -/
def Options.destination (writable : String → Bool) (o : Options) : Option String :=
  if o.outputFile ≠ "" ∧ writable o.outputFile then some o.outputFile else none

/-- The lines `sc_main` writes to the standard output behind `sc_start`, where `PROCESSOR_STAT` is
defined. -/
def statText (s : System hw F) : List Char :=
  (List.finRange hw.countPcUnit).flatMap fun k : Fin hw.countPcUnit =>
    "PROCESSOR CALCULATED [".toList ++ Nat.toDigits 10 k.val ++ ']' ::
      Nat.toDigits 10 (s.processors k).countNeuronsCalc ++ " NEURONS\n".toList

/-- The lines of `IO` and of `sc_main` that a program has written to its standard output and to its output
file. SystemC writes lines of its own to the standard output, which are not modelled: the unit of the
trace file, and that the simulation has been stopped. -/
structure Written where
  console : List Char
  file : List Char

/-- The lines that the program has written in front of the edge `t`; it writes the statistics when the
simulation is stopped. -/
def written (dest : Option String) (cfg : Config F) (env : Env hw F) (t : Nat) : Written :=
  let s := run cfg env t
  let stat := if s.stopped then statText s else []
  match dest with
  | none => { console := resultText cfg env t ++ stat, file := [] }
  | some _ => { console := stat, file := resultText cfg env t }

end NnProcessor.Model
