import NnProcessor.Stream.Extract

/-!
# The numerals of a stream

The fields `operator>>` takes for an integer and for a number with a fraction, in the C locale:
`intFormat` and `floatFormat`. An integer out of range fails and leaves the nearest bound behind; a
fraction is converted from its decimal digits by a function that may refuse it as out of range. A
field can be taken and then turn out to be no number (`-`, `1e`), and what has been taken is gone.
-/

namespace NnProcessor.Stream

/-- An optional sign; `true` is a minus. -/
def scanSign : List Char → Option Bool × List Char
  | '-' :: cs => (some true, cs)
  | '+' :: cs => (some false, cs)
  | cs => (none, cs)

/-- The characters of an optional sign. -/
def signText : Option Bool → List Char
  | some true => ['-']
  | some false => ['+']
  | none => []

/-- The value of a string of digits. -/
def natValue (digits : List Char) : Nat := Nat.ofDigitChars 10 digits 0

/-- A number with its sign. -/
def signed (sign : Option Bool) (n : Nat) : Int := if sign = some true then -n else n

/-- The sign and the rest are the text. -/
lemma text_scanSign (cs : List Char) : signText (scanSign cs).1 ++ (scanSign cs).2 = cs := by
  unfold scanSign
  split <;> rfl

/-- A sign is read back in front of a digit or a point. -/
lemma scanSign_text (sign : Option Bool) (cs : List Char)
    (h : ∀ c ∈ cs.head?, c ≠ '-' ∧ c ≠ '+') : scanSign (signText sign ++ cs) = (sign, cs) := by
  cases sign with
  | none =>
    cases cs with
    | nil => rfl
    | cons c cs =>
      obtain ⟨minus, plus⟩ := h c rfl
      unfold scanSign signText
      split <;> simp_all
  | some negative => cases negative <;> rfl

/-- A digit is no sign. -/
lemma digit_ne_sign {c : Char} (digit : c.isDigit = true) : c ≠ '-' ∧ c ≠ '+' := by
  constructor <;> rintro rfl <;> cases digit

/-- A digit is no white space. -/
lemma isSpace_digit {c : Char} (digit : c.isDigit = true) : isSpace c = false := by
  have h : 48 ≤ c.toNat := by
    simp only [Char.isDigit, Bool.and_eq_true, decide_eq_true_eq] at digit
    exact digit.1
  simp only [isSpace, Bool.or_eq_false_iff, decide_eq_false_iff_not, Bool.and_eq_false_iff]
  omega

/-- A sign is no white space. -/
lemma head_signText (sign : Option Bool) {cs : List Char}
    (h : ∀ c ∈ cs.head?, isSpace c = false) :
    ∀ c ∈ (signText sign ++ cs).head?, isSpace c = false := by
  cases sign with
  | none => exact h
  | some negative =>
    intro c mem
    cases negative <;> cases mem <;> rfl

/-- White space is neither a digit nor a part of a number. -/
lemma over_digit {tail : List Char} (stops : Over tail) :
    ∀ c ∈ tail.head?, c.isDigit = false := by
  intro c mem
  by_contra digit
  have space := stops c mem
  rw [isSpace_digit (by simpa using digit)] at space
  cases space

/-- Digits are read back in front of what is no digit. -/
lemma span_digits {ds tail : List Char} (digits : ∀ c ∈ ds, c.isDigit = true)
    (stops : ∀ c ∈ tail.head?, c.isDigit = false) :
    (ds ++ tail).takeWhile Char.isDigit = ds ∧ (ds ++ tail).dropWhile Char.isDigit = tail := by
  rw [List.takeWhile_append_of_pos digits, List.dropWhile_append_of_pos digits]
  cases tail with
  | nil => simp
  | cons c tail => simp [stops c rfl]

/-- The field of an integer. -/
structure IntField where
  sign : Option Bool
  digits : List Char

/-- The number a field stands for. -/
def IntField.int (f : IntField) : Int := signed f.sign (natValue f.digits)

/-- `operator>>` for integers from `lo` to `hi`. -/
def intFormat (lo hi : Int) : Format IntField Int Int where
  scan cs :=
    let (sign, ds) := scanSign cs
    ({ sign, digits := ds.takeWhile Char.isDigit }, ds.dropWhile Char.isDigit)
  text f := signText f.sign ++ f.digits
  value f :=
    if f.digits = [] then .error 0
    else if f.int < lo then .error lo
    else if hi < f.int then .error hi
    else .ok f.int
  text_scan cs := by
    simp only [List.append_assoc, List.takeWhile_append_dropWhile]
    exact text_scanSign cs
  value_empty f empty v := by
    simp [(List.append_eq_nil_iff.1 empty).2]

/-- Whatever is read is in range, and what a failure leaves behind is zero or a bound. -/
lemma intFormat_range (lo hi : Int) (f : IntField) :
    match (intFormat lo hi).value f with
    | .ok v => lo ≤ v ∧ v ≤ hi
    | .error v => v = 0 ∨ v = lo ∨ v = hi := by
  simp only [intFormat]
  split
  · next eq =>
    split at eq
    · cases eq
    · split at eq
      · cases eq
      · split at eq
        · cases eq
        · next above below =>
          cases eq
          omega
  · next eq =>
    split at eq
    · cases eq
      exact .inl rfl
    · split at eq
      · cases eq
        exact .inr (.inl rfl)
      · split at eq
        · cases eq
          exact .inr (.inr rfl)
        · cases eq

/-- An integer in range, written with an optional sign and digits. -/
def intToken {lo hi : Int} (f : IntField) (some : f.digits ≠ [])
    (digits : ∀ c ∈ f.digits, c.isDigit = true) (range : lo ≤ f.int ∧ f.int ≤ hi) :
    Token (intFormat lo hi) where
  field := f
  value := f.int
  text_ne := by simp [intFormat, some]
  head := head_signText f.sign fun c mem =>
    isSpace_digit (digits c (List.mem_of_mem_head? mem))
  scan tail stops := by
    obtain ⟨d, ds, eq⟩ := List.exists_cons_of_ne_nil some
    have sign := scanSign_text f.sign (f.digits ++ tail) (by
      intro c mem
      rw [eq] at mem
      cases mem
      exact digit_ne_sign (digits d (by simp [eq])))
    obtain ⟨take, drop⟩ := span_digits digits (over_digit stops)
    simp only [intFormat, List.append_assoc, sign, take, drop]
  valid := by
    simp only [intFormat]
    rw [if_neg some, if_neg (not_lt.2 range.1), if_neg (not_lt.2 range.2)]

/-- An integer as a program prints it. -/
def IntField.ofInt (v : Int) : IntField where
  sign := if v < 0 then some true else none
  digits := Nat.toDigits 10 v.natAbs

/-- The field of a number has it as its value. -/
lemma IntField.int_ofInt (v : Int) : (IntField.ofInt v).int = v := by
  unfold IntField.int IntField.ofInt signed natValue
  rw [Nat.ofDigitChars_ten_toDigits]
  by_cases negative : v < 0
  · rw [if_pos negative, if_pos rfl]
    omega
  · rw [if_neg negative, if_neg (by simp)]
    omega

/-- A printed integer is read back. -/
def printToken {lo hi : Int} (v : Int) (range : lo ≤ v ∧ v ≤ hi) : Token (intFormat lo hi) :=
  intToken (IntField.ofInt v) Nat.toDigits_ne_nil
    (fun _ mem => Nat.isDigit_of_mem_toDigits (by decide) (by decide) mem)
    (by rwa [IntField.int_ofInt])

/-- The field of a number with a fraction and an exponent. -/
structure FloatField where
  sign : Option Bool
  whole : List Char
  frac : Option (List Char)
  exp : Option (Char × Option Bool × List Char)

namespace FloatField

/-- The digits of a number. -/
def mantissa (f : FloatField) : List Char := f.whole ++ f.frac.getD []

/-- The power of ten a field scales its digits with. -/
def exponent (f : FloatField) : Int :=
  (f.exp.elim 0 fun e => signed e.2.1 (natValue e.2.2)) - (f.frac.getD []).length

/-- What a `strtod` takes whole: there are digits, also behind the mark of an exponent. -/
def complete (f : FloatField) : Bool :=
  !f.mantissa.isEmpty && f.exp.elim true fun e => !e.2.2.isEmpty

end FloatField

/-- A point and the digits behind it. -/
def scanPoint : List Char → Option (List Char) × List Char
  | '.' :: cs => (some (cs.takeWhile Char.isDigit), cs.dropWhile Char.isDigit)
  | cs => (none, cs)

/-- The text of a point and the digits behind it. -/
def pointText : Option (List Char) → List Char
  | some ds => '.' :: ds
  | none => []

/-- The mark of an exponent, its sign and the digits behind it. -/
def scanExp (mantissa : List Char) : List Char → Option (Char × Option Bool × List Char) × List Char
  | [] => (none, [])
  | c :: cs =>
    if mantissa ≠ [] ∧ (c = 'e' ∨ c = 'E') then
      let (sign, ds) := scanSign cs
      (some (c, sign, ds.takeWhile Char.isDigit), ds.dropWhile Char.isDigit)
    else (none, c :: cs)

/-- The text of an exponent. -/
def expText : Option (Char × Option Bool × List Char) → List Char
  | some (c, sign, ds) => c :: (signText sign ++ ds)
  | none => []

/-- The fraction and the rest are the text. -/
lemma text_scanPoint (cs : List Char) : pointText (scanPoint cs).1 ++ (scanPoint cs).2 = cs := by
  unfold scanPoint
  split
  · simp [pointText]
  · rfl

/-- The exponent and the rest are the text. -/
lemma text_scanExp (mantissa cs : List Char) :
    expText (scanExp mantissa cs).1 ++ (scanExp mantissa cs).2 = cs := by
  cases cs with
  | nil => rfl
  | cons c cs =>
    by_cases mark : mantissa ≠ [] ∧ (c = 'e' ∨ c = 'E')
    · simp only [scanExp, if_pos mark, expText, List.cons_append, List.append_assoc,
        List.takeWhile_append_dropWhile, text_scanSign]
    · simp only [scanExp, if_neg mark, expText, List.nil_append]

/-- `operator>>` for numbers with a fraction: the value of the digits, scaled with a power of ten,
is converted by `conv`. -/
def floatFormat {α : Type} (conv : Bool → Nat → Int → Option α) : Format FloatField Unit α where
  scan cs :=
    let (sign, cs) := scanSign cs
    let whole := cs.takeWhile Char.isDigit
    let (frac, cs) := scanPoint (cs.dropWhile Char.isDigit)
    let (exp, cs) := scanExp (whole ++ frac.getD []) cs
    ({ sign, whole, frac, exp }, cs)
  text f := signText f.sign ++ (f.whole ++ (pointText f.frac ++ expText f.exp))
  value f :=
    if f.complete then
      match conv (f.sign == some true) (natValue f.mantissa) f.exponent with
      | some v => .ok v
      | none => .error ()
    else .error ()
  text_scan cs := by
    simp only [List.append_assoc, text_scanExp, text_scanPoint, List.takeWhile_append_dropWhile,
      text_scanSign]
  value_empty f empty v := by
    have whole : f.whole = [] := by simp_all
    have frac : f.frac = none := by
      cases h : f.frac with
      | none => rfl
      | some ds => simp [h, pointText] at empty
    simp [FloatField.complete, FloatField.mantissa, whole, frac]

/-- A field that has been written as a number. -/
structure FloatField.Written (f : FloatField) : Prop where
  whole : ∀ c ∈ f.whole, c.isDigit = true
  frac : ∀ ds ∈ f.frac, ∀ c ∈ ds, c.isDigit = true
  exp : ∀ e ∈ f.exp, (e.1 = 'e' ∨ e.1 = 'E') ∧ ∀ c ∈ e.2.2, c.isDigit = true
  complete : f.complete = true

namespace FloatField.Written

variable {f : FloatField} (written : f.Written)
include written

/-- A number has digits. -/
lemma mantissa_ne : f.mantissa ≠ [] := by
  have complete := written.complete
  intro none
  simp [FloatField.complete, none] at complete

/-- An exponent has digits. -/
lemma exp_ne {c : Char} {sign : Option Bool} {ds : List Char} (h : f.exp = some (c, sign, ds)) :
    ds ≠ [] := by
  have complete := written.complete
  rintro rfl
  simp [FloatField.complete, h] at complete

/-- An exponent is read back. -/
lemma scanExp_text {tail : List Char} (stops : Over tail) :
    scanExp f.mantissa (expText f.exp ++ tail) = (f.exp, tail) := by
  cases h : f.exp with
  | none =>
    cases tail with
    | nil => rfl
    | cons c tail =>
      have space := stops c rfl
      have mark : ¬(c = 'e' ∨ c = 'E') := by rintro (rfl | rfl) <;> cases space
      simp [expText, scanExp, mark]
  | some e =>
    obtain ⟨c, sign, ds⟩ := e
    obtain ⟨mark, digits⟩ := written.exp _ h
    obtain ⟨d, rest, eq⟩ := List.exists_cons_of_ne_nil (written.exp_ne h)
    have read := scanSign_text sign (ds ++ tail) (by
      intro x mem
      rw [eq] at mem
      cases mem
      exact digit_ne_sign (digits d (by simp [eq])))
    obtain ⟨take, drop⟩ := span_digits digits (over_digit stops)
    simp only [expText, List.cons_append, List.append_assoc, scanExp]
    rw [if_pos ⟨written.mantissa_ne, mark⟩]
    simp only [read, take, drop]

/-- Behind the digits of a fraction there is no further one. -/
lemma exp_head {tail : List Char} (stops : Over tail) :
    ∀ c ∈ (expText f.exp ++ tail).head?, c.isDigit = false ∧ c ≠ '.' := by
  cases h : f.exp with
  | none =>
    intro c mem
    refine ⟨over_digit stops c mem, ?_⟩
    rintro rfl
    have space := stops _ mem
    cases space
  | some e =>
    obtain ⟨mark, -⟩ := written.exp e h
    intro c mem
    cases mem
    rcases mark with eq | eq <;> simp [eq]

/-- A fraction is read back. -/
lemma scanPoint_text {tail : List Char} (stops : Over tail) :
    scanPoint (pointText f.frac ++ (expText f.exp ++ tail)) = (f.frac, expText f.exp ++ tail) := by
  have head := written.exp_head stops
  cases h : f.frac with
  | none =>
    rw [pointText, List.nil_append]
    cases eq : expText f.exp ++ tail with
    | nil => rfl
    | cons c cs =>
      have point := (head c (by simp [eq])).2
      unfold scanPoint
      split
      · simp_all
      · rfl
  | some ds =>
    obtain ⟨take, drop⟩ := span_digits (written.frac ds h) fun c mem => (head c mem).1
    simp only [pointText, List.cons_append, scanPoint, take, drop]

/-- The whole part is over in front of the rest of the number. -/
lemma point_head {tail : List Char} (stops : Over tail) :
    ∀ c ∈ (pointText f.frac ++ (expText f.exp ++ tail)).head?, c.isDigit = false := by
  cases h : f.frac with
  | none => exact fun c mem => (written.exp_head stops c mem).1
  | some ds =>
    intro c mem
    cases mem
    rfl

/-- The first character behind the sign is a digit or the point. -/
lemma whole_head (tail : List Char) :
    ∀ c ∈ (f.whole ++ (pointText f.frac ++ tail)).head?, c.isDigit = true ∨ c = '.' := by
  cases h : f.whole with
  | cons d ds =>
    intro c mem
    cases mem
    exact .inl (written.whole d (by simp [h]))
  | nil =>
    cases h' : f.frac with
    | none => exact absurd (by simp [FloatField.mantissa, h, h']) written.mantissa_ne
    | some ds =>
      intro c mem
      cases mem
      exact .inr rfl

end FloatField.Written

/-- A number that has been written as one and is not out of range. -/
def floatToken {α : Type} {conv : Bool → Nat → Int → Option α} (f : FloatField)
    (written : f.Written) (v : α)
    (fits : conv (f.sign == some true) (natValue f.mantissa) f.exponent = some v) :
    Token (floatFormat conv) where
  field := f
  value := v
  text_ne none := by
    have empty := (floatFormat conv).value_empty f none v
    simp [floatFormat, written.complete, fits] at empty
  head := head_signText f.sign fun c mem => by
    rcases written.whole_head (expText f.exp) c mem with digit | rfl
    · exact isSpace_digit digit
    · rfl
  scan tail stops := by
    have sign := scanSign_text f.sign
      (f.whole ++ (pointText f.frac ++ (expText f.exp ++ tail))) (by
        intro c mem
        rcases written.whole_head _ c mem with digit | rfl
        · exact digit_ne_sign digit
        · decide)
    obtain ⟨take, drop⟩ := span_digits written.whole (written.point_head stops)
    have exp := written.scanExp_text stops
    unfold FloatField.mantissa at exp
    simp only [floatFormat, List.append_assoc, sign, take, drop, written.scanPoint_text stops, exp]
  valid := by simp [floatFormat, written.complete, fits]

end NnProcessor.Stream
