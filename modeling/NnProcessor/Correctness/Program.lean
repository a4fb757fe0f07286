import NnProcessor.Correctness.Files

/-!
# What the program writes

The text of a run, down to the time in front of each line. It is the same for every order of the
processes and for every heap, as long as the configuration is supported (`program_output`), and it can
be read back: the stamps tell the edges
(`timeString_injective`), and the whole text tells the lines (`text_injective`).
-/

namespace NnProcessor.Model
open NnProcessor.Arith NnProcessor.Stream

/-- What comes in front of the first stop is told apart from what comes behind it. -/
lemma append_stop_inj {α : Type} {stop : α} {as as' bs bs' : List α} (notin : stop ∉ as)
    (notin' : stop ∉ as') (eq : as ++ stop :: bs = as' ++ stop :: bs') : as = as' ∧ bs = bs' := by
  induction as generalizing as' with
  | nil =>
    cases as' with
    | nil => exact ⟨rfl, (List.cons.inj eq).2⟩
    | cons a as' =>
      obtain ⟨rfl, -⟩ := List.cons.inj eq
      exact absurd List.mem_cons_self notin'
  | cons a as ih =>
    cases as' with
    | nil =>
      obtain ⟨rfl, -⟩ := List.cons.inj eq
      exact absurd List.mem_cons_self notin
    | cons a' as' =>
      obtain ⟨rfl, rest⟩ := List.cons.inj eq
      obtain ⟨rfl, same⟩ := ih (fun mem => notin (List.mem_cons_of_mem _ mem))
        (fun mem => notin' (List.mem_cons_of_mem _ mem)) rest
      exact ⟨rfl, same⟩

/-- The loop moves zeros from the number to the scale. -/
lemma timeTuple_value (fuel val scale : Nat) :
    (timeTuple fuel val scale).1 * 10 ^ (timeTuple fuel val scale).2 = val * 10 ^ scale := by
  induction fuel generalizing val scale with
  | zero => rfl
  | succ fuel ih =>
    unfold timeTuple
    split
    · next more =>
      rw [ih, Nat.pow_succ, Nat.mul_comm (10 ^ scale) 10, ← Nat.mul_assoc,
        Nat.div_mul_cancel (Nat.dvd_of_mod_eq_zero more.2)]
    · rfl

/-- The loop stops at the second. -/
lemma timeTuple_unit (fuel val : Nat) {scale : Nat} (le : scale ≤ 15) :
    (timeTuple fuel val scale).2 ≤ 15 := by
  induction fuel generalizing val scale with
  | zero => exact le
  | succ fuel ih =>
    unfold timeTuple
    split
    · next more => exact ih _ (by omega)
    · exact le

/-- A number followed by a zero is ten times the number. -/
lemma toDigits_zeros {n : Nat} (pos : 0 < n) (k : Nat) :
    Nat.toDigits 10 n ++ List.replicate k '0' = Nat.toDigits 10 (n * 10 ^ k) := by
  induction k with
  | zero => simp
  | succ k ih =>
    have step := Nat.toDigits_append_toDigits (b := 10) (n := n * 10 ^ k) (d := 0) (by decide)
      (Nat.mul_pos pos (Nat.pow_pos (by decide))) (by decide)
    rw [List.replicate_succ', ← List.append_assoc, ih, Nat.pow_succ, ← Nat.mul_assoc,
      Nat.mul_comm (n * 10 ^ k)]
    exact step

/-- A stamp is a number of some unit. -/
lemma timeString_eq (t : Nat) : ∃ n u, u < 6 ∧ n * 1000 ^ u = t * 1000 ∧
    timeString t = Nat.toDigits 10 n ++ ' ' :: (timeUnits.getD u "").toList := by
  have value := timeTuple_value 12 t 3
  have unit := timeTuple_unit 12 t (show 3 ≤ 15 by decide)
  unfold timeString
  generalize timeTuple 12 t 3 = r at value unit
  obtain ⟨val, scale⟩ := r
  simp only at value unit ⊢
  split
  · next zero =>
    subst zero
    refine ⟨0, 5, by decide, ?_, rfl⟩
    rw [Nat.zero_mul] at value
    omega
  · next some =>
    refine ⟨val * 10 ^ (scale % 3), scale / 3, by omega, ?_, ?_⟩
    · rw [Nat.mul_assoc, show 1000 = 10 ^ 3 from rfl, ← Nat.pow_mul, ← Nat.pow_add,
        Nat.mod_add_div]
      exact value
    · rw [toDigits_zeros (Nat.pos_of_ne_zero some)]

/-- A digit is no character that ends a field. -/
lemma notMem_toDigits {n : Nat} {c : Char} (stop : c.isDigit = false) : c ∉ Nat.toDigits 10 n := by
  intro mem
  have digit := Nat.isDigit_of_mem_toDigits (by decide) (by decide) mem
  rw [stop] at digit
  cases digit

/-- The decimal digits of a number determine it. -/
lemma toDigits_injective {n n' : Nat} (eq : Nat.toDigits 10 n = Nat.toDigits 10 n') : n = n' := by
  rw [← Nat.ofDigitChars_ten_toDigits (n := n), eq, Nat.ofDigitChars_ten_toDigits]

/-- The units have different names. -/
lemma timeUnits_injective {u u' : Nat} (lt : u < 6) (lt' : u' < 6)
    (eq : (timeUnits.getD u "").toList = (timeUnits.getD u' "").toList) : u = u' := by
  have names : ∀ v < 6, ∀ w < 6,
      (timeUnits.getD v "").toList = (timeUnits.getD w "").toList → v = w := by decide
  exact names u lt u' lt' eq

/-- A stamp tells the time. -/
lemma timeString_injective {t t' : Nat} (eq : timeString t = timeString t') : t = t' := by
  obtain ⟨n, u, lt, value, text⟩ := timeString_eq t
  obtain ⟨n', u', lt', value', text'⟩ := timeString_eq t'
  rw [text, text'] at eq
  obtain ⟨number, unit⟩ := append_stop_inj (notMem_toDigits rfl) (notMem_toDigits rfl) eq
  obtain rfl := toDigits_injective number
  obtain rfl := timeUnits_injective lt lt' unit
  omega

/-- A stamp fits between brackets. -/
lemma notMem_timeString (t : Nat) {c : Char} (digit : c.isDigit = false) (blank : c ≠ ' ')
    (unit : ∀ u < 6, c ∉ (timeUnits.getD u "").toList) : c ∉ timeString t := by
  obtain ⟨n, u, lt, -, text⟩ := timeString_eq t
  rw [text]
  intro mem
  rcases List.mem_append.1 mem with mem | mem
  · exact notMem_toDigits digit mem
  · rcases List.mem_cons.1 mem with eq | mem
    · exact blank eq
    · exact unit u lt mem

variable {F : Type} [TextOps F]

/-- What is told by each line is told by all of them. -/
lemma map_determines {α β γ : Type} {f : α → β} {g : α → γ} (tells : ∀ a b, f a = f b → g a = g b)
    {as bs : List α} (eq : as.map f = bs.map f) : as.map g = bs.map g := by
  induction as generalizing bs with
  | nil =>
    cases bs with
    | nil => rfl
    | cons b bs => exact absurd eq (List.cons_ne_nil _ _).symm
  | cons a as ih =>
    cases bs with
    | nil => exact absurd eq (List.cons_ne_nil _ _)
    | cons b bs =>
      obtain ⟨first, others⟩ := List.cons.inj eq
      rw [List.map_cons, List.map_cons, tells a b first, ih others]

/-- Lines that end in a line break and have no other one are told apart. -/
lemma flatMap_lines {α : Type} {line : α → List Char}
    (clean : ∀ a, ∃ body, line a = body ++ ['\n'] ∧ '\n' ∉ body) {as bs : List α}
    (eq : as.flatMap line = bs.flatMap line) : as.map line = bs.map line := by
  induction as generalizing bs with
  | nil =>
    cases bs with
    | nil => rfl
    | cons b bs =>
      obtain ⟨body, text, -⟩ := clean b
      simp [text] at eq
  | cons a as ih =>
    obtain ⟨body, text, only⟩ := clean a
    cases bs with
    | nil => simp [text] at eq
    | cons b bs =>
      obtain ⟨body', text', only'⟩ := clean b
      rw [List.flatMap_cons, List.flatMap_cons, text, text', List.append_assoc,
        List.append_assoc] at eq
      obtain ⟨first, others⟩ := append_stop_inj only only' eq
      rw [List.map_cons, List.map_cons, text, text', first, ih others]

/-- The parts of a line. -/
lemma resultLine_eq (now k : Nat) (x : F) :
    resultLine now k x = '[' :: (timeString now ++ ']' :: (" [IO] RESULT ".toList ++
      (Nat.toDigits 10 k ++ ':' :: ' ' :: (TextOps.fixed x ++ ['\n'])))) := by
  simp [resultLine]

/-- A line tells its time, its number and its digits. -/
lemma resultLine_injective {t t' k k' : Nat} {x x' : F} (eq : resultLine t k x = resultLine t' k' x') :
    t = t' ∧ k = k' ∧ TextOps.fixed x = TextOps.fixed x' := by
  rw [resultLine_eq, resultLine_eq] at eq
  have closed : ∀ t, ']' ∉ timeString t := fun t =>
    notMem_timeString _ rfl (by decide) (by decide)
  obtain ⟨stamp, behind⟩ := append_stop_inj (closed t) (closed t') (List.cons.inj eq).2
  obtain ⟨number, digits⟩ := append_stop_inj (notMem_toDigits rfl) (notMem_toDigits rfl)
    (List.append_cancel_left behind)
  exact ⟨timeString_injective stamp, toDigits_injective number,
    List.append_cancel_right (List.cons.inj digits).2⟩

/-- The end of a line is its only line break. -/
lemma resultLine_clean (clean : ∀ x : F, '\n' ∉ TextOps.fixed x) (t k : Nat) (x : F) :
    ∃ body, resultLine t k x = body ++ ['\n'] ∧ '\n' ∉ body := by
  refine ⟨_, rfl, ?_⟩
  have stamp : '\n' ∉ timeString t :=
    notMem_timeString _ rfl (by decide) (by decide)
  have number : '\n' ∉ Nat.toDigits 10 k := notMem_toDigits rfl
  simp [stamp, number, clean x]

variable [Binary32Ops F] [DecidableEq F] {hw : Hw} (cfg : Config F) (env : Env hw F)

/-- The results printed in front of an edge, with the edges they are printed at. -/
def stamped : Nat → List (Nat × Nat × F)
  | 0 => []
  | t + 1 =>
    stamped t ++ ((run cfg env (t + 1)).io.printed.drop (run cfg env t).io.printed.length).map
      fun r => (t, r)

/-- What can be seen of a printed result: its edge, its number and its digits. -/
def shown {F : Type} [TextOps F] (r : Nat × Nat × F) : Nat × Nat × List Char := (r.1, r.2.1, TextOps.fixed r.2.2)

omit [TextOps F] [DecidableEq F] in
/-- `IO::write_data_to_system` prints nothing. -/
@[simp] lemma IoModule.writeDataToSystem_printed (m : IoModule F × IoBus F) :
    (IoModule.writeDataToSystem cfg m).1.printed = m.1.printed := by
  have weights : ∀ (rest : List F) (m : IoModule F × IoBus F),
      (IoModule.sendWeights rest m).1.printed = m.1.printed := by
    intro rest m
    cases rest <;> rfl
  have picture : ∀ (rest : List F) (m : IoModule F × IoBus F),
      (IoModule.sendPicture cfg rest m).1.printed = m.1.printed := by
    intro rest m
    cases rest with
    | nil => exact weights _ _
    | cons item rest => rfl
  have layers : ∀ (rest : List Int) (m : IoModule F × IoBus F),
      (IoModule.sendLayers cfg rest m).1.printed = m.1.printed := by
    intro rest m
    cases rest with
    | nil => exact picture _ _
    | cons item rest => rfl
  unfold IoModule.writeDataToSystem
  split
  · rfl
  · rfl
  · exact layers _ _
  · exact layers _ _
  · exact picture _ _
  · exact weights _ _
  · rfl
  · rfl

omit [TextOps F] in
/-- What has been printed stays. -/
lemma printed_grows (t : Nat) : (run cfg env t).io.printed <+: (run cfg env (t + 1)).io.printed := by
  change _ <+: ((run cfg env t).edge cfg (env.sched t)).io.printed
  cases st : (run cfg env t).stopped with
  | true =>
    rw [Edge.edge_stopped cfg (env.sched t) st]
  | false =>
    have io := congrArg (fun m : IoModule F × IoBus F => m.1.printed)
      (Edge.edge_io_bus cfg (env.sched t) st)
    simp only [IoModule.writeDataToSystem_printed] at io
    rw [io, IoModule.readDataFromSystem]
    split
    · exact List.prefix_append _ _
    · exact List.prefix_rfl

omit [TextOps F] in
/-- The stamped results are the printed ones. -/
lemma stamped_printed (t : Nat) : (stamped cfg env t).map Prod.snd = (run cfg env t).io.printed := by
  induction t with
  | zero =>
    have io : (run cfg env 0).io = {} :=
      (Edge.methodPhase_io env.boot (System.elaborated env.junk)).trans
        (Invariant.readData_quiet (.inr rfl))
    rw [io]
    rfl
  | succ t ih =>
    obtain ⟨behind, eq⟩ := printed_grows cfg env t
    rw [stamped, List.map_append, ih, List.map_map, ← eq, List.drop_left]
    exact congrArg _ (List.map_id _)

/-- The text is made of the lines of the stamped results. -/
lemma resultText_eq (t : Nat) :
    resultText cfg env t = (stamped cfg env t).flatMap fun r => resultLine (edgeTime r.1) r.2.1 r.2.2 := by
  induction t with
  | zero => rfl
  | succ t ih => rw [resultText, stamped, List.flatMap_append, ih, List.flatMap_map]

end NnProcessor.Model

namespace NnProcessor.Correctness
open NnProcessor.Arith NnProcessor.Model NnProcessor.Edge NnProcessor.Invariant

section Text

variable {F : Type} [Binary32Ops F] [DecidableEq F] [TextOps F] {hw hw' : Hw}
variable {cfg cfg' : Config F} {env : Env hw F} {env' : Env hw' F}

/-- **The text can be read back.** If the digits of a word never contain a line break, then the text
of a simulation tells which results have been printed, at which edges and with which digits: two
simulations, of whatever networks and with whatever numbers of processors, that have written the same
text have printed the same. -/
theorem text_injective (clean : ∀ x : F, '\n' ∉ TextOps.fixed x) {t t' : Nat}
    (eq : resultText cfg env t = resultText cfg' env' t') :
    (stamped cfg env t).map shown = (stamped cfg' env' t').map shown ∧
      (run cfg env t).io.printed.map (fun r => (r.1, TextOps.fixed r.2)) =
        (run cfg' env' t').io.printed.map fun r => (r.1, TextOps.fixed r.2) := by
  rw [resultText_eq, resultText_eq] at eq
  have ends : ∀ r : Nat × Nat × F, ∃ body,
      resultLine (edgeTime r.1) r.2.1 r.2.2 = body ++ ['\n'] ∧ '\n' ∉ body := fun r =>
    resultLine_clean clean _ r.2.1 r.2.2
  have lines := flatMap_lines ends eq
  have same : (stamped cfg env t).map shown = (stamped cfg' env' t').map shown := by
    refine map_determines (fun a b line => ?_) lines
    obtain ⟨time, number, digits⟩ := resultLine_injective line
    have edge : a.1 = b.1 := Nat.eq_of_mul_eq_mul_left (by decide) time
    rw [shown, shown, edge, number, digits]
  refine ⟨same, ?_⟩
  have seen := congrArg (List.map Prod.snd) same
  rw [List.map_map, List.map_map] at seen
  rw [← stamped_printed, ← stamped_printed, List.map_map, List.map_map]
  exact seen

/-- The digits of a rational are digits, a sign and a point. -/
lemma fixed_clean (x : Extended) : '\n' ∉ TextOps.fixed x := by
  cases x with
  | finite q =>
    have digits : ∀ n, '\n' ∉ Nat.toDigits 10 n := fun n => notMem_toDigits rfl
    change '\n' ∉ (if q < 0 then ['-'] else []) ++ _ ++ '.' :: (_ ++ _)
    simp only [List.mem_append, List.mem_cons, List.mem_replicate, digits]
    split <;> simp
  | infinite negative => cases negative <;> decide
  | negZero | nan => decide

/-- The small network has written the same at two edges behind its end. -/
theorem text_injective_small :
    (stamped smallNetwork listedEnv 30).map shown = (stamped smallNetwork listedEnv 31).map shown ∧
      (run smallNetwork listedEnv 30).io.printed.map (fun r => (r.1, TextOps.fixed r.2)) =
        (run smallNetwork listedEnv 31).io.printed.map fun r => (r.1, TextOps.fixed r.2) :=
  text_injective fixed_clean (by decide +kernel)

end Text

section Output

variable {F : Type} [Binary32 F] [DecidableEq F] [TextOps F] {hw : Hw} {cfg : Config F}
variable {env : Env hw F}

omit [Binary32 F] [DecidableEq F] [TextOps F] in
/-- One more result. -/
lemma numbered_take_succ (out : List F) (k : Nat) :
    numbered (out.take (k + 1)) =
      numbered (out.take k) ++ (out[k]?.toList.map fun x => (k, x)) := by
  rw [List.take_add_one]
  cases at_ : out[k]? with
  | none => simp
  | some x =>
    have lt := (List.getElem?_eq_some_iff.1 at_).1
    rw [Option.toList_some, numbered_append, List.length_take_of_le lt.le]
    rfl

/-- The text in front of an edge, if the results are printed one in each edge from `first` on. -/
lemma resultText_from {first : Nat}
    (printed : ∀ t, (run cfg env t).io.printed = numbered (cfg.results.take (t - first))) (t : Nat) :
    resultText cfg env t = (numbered (cfg.results.take (t - first))).flatMap fun r =>
      resultLine (edgeTime (first + r.1)) r.1 r.2 := by
  induction t with
  | zero =>
    rw [Nat.zero_sub]
    rfl
  | succ t ih =>
    rw [resultText, ih, printed, printed]
    rcases Nat.lt_or_ge t first with before | from_
    · rw [Nat.sub_eq_zero_of_le before, Nat.sub_eq_zero_of_le before.le]
      rfl
    · obtain ⟨k, rfl⟩ := Nat.exists_eq_add_of_le from_
      rw [show first + k + 1 - first = k + 1 by omega, Nat.add_sub_cancel_left,
        numbered_take_succ, List.drop_left, List.flatMap_append, List.append_cancel_left_eq]
      cases cfg.results[k]? with
      | none => rfl
      | some x => rfl

omit [Binary32 F] [DecidableEq F] [TextOps F] in
/-- The statistics are made of the counters. -/
lemma statText_congr {s s' : System hw F}
    (same : ∀ k, (s.processors k).countNeuronsCalc = (s'.processors k).countNeuronsCalc) :
    statText s = statText s' := by
  unfold statText
  simp only [same]

/-- No result of accepted files is an infinity. -/
lemma loadData_results {files : String → Option (List Char)} {f g : String}
    (ok : loadData F files f g = .ok cfg) : ∀ x ∈ cfg.results, ¬IsInfinite x := by
  obtain ⟨-, picture, -, -, -, -, image⟩ := loadData_ok ok
  refine results_finite cfg fun _ => ?_
  rw [image]
  exact readFloat_finite _

/-- **The text of a run.** Files that `loadData` accepts, with a configuration that is supported, give
`RESULT` lines that neither the order of the processes nor the heap can change: at an edge that depends
on the files and on the hardware only the first word of the reference network is written, and the
others follow at the next edges, each behind the time of its edge and its number; when all are written
the simulation is stopped. At every edge two runs have written the same lines to the standard output
and to the output file, the statistics included. -/
theorem program_output {files : String → Option (List Char)} {f g : String}
    (ok : loadData F files f g = .ok cfg) (supported : cfg.Supported hw) :
    ∃ first, ∀ (env : Env hw F) (t : Nat),
      ((run cfg env t).stopped = true ↔ first + cfg.reference.length ≤ t) ∧
      (resultText cfg env t = (numbered (cfg.reference.take (t - first))).flatMap fun r =>
        resultLine (edgeTime (first + r.1)) r.1 r.2) ∧
      ∀ (dest : Option String) (env' : Env hw F), written dest cfg env t = written dest cfg env' t := by
  have finite := loadData_results ok
  rw [← results_reference supported.domain supported.count supported.lists]
  obtain ⟨time, -, start⟩ := writeOut_at finite hw
  have text := fun (env : Env hw F) => resultText_from (printed_from finite (start env))
  have stops := fun (env : Env hw F) => stopped_from finite (start env)
  have last : cfg.duration time - cfg.results.length + cfg.results.length = cfg.duration time := by
    rw [Config.duration]
    omega
  refine ⟨cfg.duration time - cfg.results.length, fun env t => ⟨?_, text env t, ?_⟩⟩
  · rw [last]
    exact stops env t
  · intro dest env'
    have stopped : (run cfg env t).stopped = (run cfg env' t).stopped :=
      Bool.eq_iff_iff.2 ((stops env t).trans (stops env' t).symm)
    have stat : statText (run cfg env t) = statText (run cfg env' t) :=
      statText_congr fun k => congrArg Processor.countNeuronsCalc
        ((lockstep_run finite env env' t).processors k)
    unfold written
    simp only [text env t, text env' t, stopped, stat]

/-- The text of the small network. -/
theorem program_output_small : ∃ first, ∀ (env : Env .configH Extended) (t : Nat),
      ((run smallNetwork env t).stopped = true ↔ first + smallNetwork.reference.length ≤ t) ∧
      (resultText smallNetwork env t =
        (numbered (smallNetwork.reference.take (t - first))).flatMap fun r =>
          resultLine (edgeTime (first + r.1)) r.1 r.2) ∧
      ∀ (dest : Option String) (env' : Env .configH Extended),
        written dest smallNetwork env t = written dest smallNetwork env' t :=
  program_output loadData_smallFiles smallNetwork_supported

example : resultText smallNetwork listedEnv 30 =
    "[290 ns] [IO] RESULT 0: 0.500000000\n".toList := by decide +kernel

end Output

end NnProcessor.Correctness
