import NnProcessor.Model.Binary32

/-!
# Words made of rationals

`Extended` is an implementation of `Binary32Ops` that can be evaluated: a word is a rational number,
the zero with a sign, an infinity or `NaN`. An `int` is rounded to 24 bits when it is converted, as in
binary32; sums, products and quotients are exact, so the operations agree with binary32 where nothing
has to be rounded, and `exp` is the second Taylor polynomial, which is exact at 0. It satisfies
`Binary32`, and `sameWord` compares its words as `==` does.
-/

namespace NnProcessor.Model
open NnProcessor.Arith

/-- A word: a rational number, the zero with a sign, one of the two infinities, or `NaN`. -/
inductive Extended where
  | finite (q : Rat)
  | negZero
  | infinite (negative : Bool)
  | nan
  deriving DecidableEq

namespace Extended

/-- The number of a word. -/
def value : Extended → Rat
  | finite q => q
  | negZero | infinite _ | nan => 0

/-- The sign of a word. -/
def negative : Extended → Bool
  | finite q => decide (q < 0)
  | negZero => true
  | infinite s => s
  | nan => false

/-- A number as a word; where it is zero it gets the sign. -/
def ofRat (sign : Bool) (q : Rat) : Extended := if sign = true ∧ q = 0 then negZero else finite q

/-- Conversion `int` → `float`. -/
def ofInt (k : Int) : Extended := finite ((k.sign * roundTo24 k.natAbs : Int) : Rat)

/-- Conversion `float` → `int`; a value out of range gives the most negative `int` or wraps. -/
def toInt : Extended → Int
  | finite q => i32 (q.num.tdiv q.den)
  | negZero => 0
  | infinite _ | nan => -2 ^ 31

/-- `x + y`. -/
def add : Extended → Extended → Extended
  | nan, _ | _, nan => nan
  | infinite s, infinite t => if s = t then infinite s else nan
  | infinite s, _ | _, infinite s => infinite s
  | x, y => ofRat (x.negative && y.negative) (x.value + y.value)

/-- `x * y`. -/
def mul : Extended → Extended → Extended
  | nan, _ | _, nan => nan
  | infinite s, infinite t => infinite (s ^^ t)
  | infinite s, y => if y.value = 0 then nan else infinite (s ^^ y.negative)
  | x, infinite s => if x.value = 0 then nan else infinite (x.negative ^^ s)
  | x, y => ofRat (x.negative ^^ y.negative) (x.value * y.value)

/-- `x / y`. -/
def div : Extended → Extended → Extended
  | nan, _ | _, nan => nan
  | infinite _, infinite _ => nan
  | infinite s, y => infinite (s ^^ y.negative)
  | x, infinite s => ofRat (x.negative ^^ s) 0
  | x, y =>
    if y.value ≠ 0 then ofRat (x.negative ^^ y.negative) (x.value / y.value)
    else if x.value = 0 then nan
    else infinite (x.negative ^^ y.negative)

/-- `-x`. -/
def neg : Extended → Extended
  | finite q => if q = 0 then negZero else finite (-q)
  | negZero => finite 0
  | infinite s => infinite !s
  | nan => nan

/-- `exp x`. -/
def exp : Extended → Extended
  | finite q => finite (1 + q + q * q / 2)
  | negZero => finite 1
  | infinite s => if s then finite 0 else infinite false
  | nan => nan

/-- `x >= y`. -/
def ge : Extended → Extended → Bool
  | nan, _ | _, nan => false
  | infinite s, infinite t => !s || t
  | infinite s, _ => !s
  | _, infinite t => t
  | x, y => decide (y.value ≤ x.value)

/-- The operations. -/
@[reducible] def ops : Binary32Ops Extended where
  ofInt := ofInt
  toInt := toInt
  add := add
  mul := mul
  div := div
  neg := neg
  exp := exp
  ge := ge
  infinity := infinite false

/-- The Taylor polynomial is positive. -/
lemma exp_pos (q : Rat) : 0 < 1 + q + q * q / 2 := by nlinarith [sq_nonneg (q + 1)]

/-- A quotient of numbers that are not negative is a number. -/
lemma div_finite {p q : Rat} (nonneg : 0 ≤ p) (pos : 0 < q) :
    div (finite p) (finite q) = finite (p / q) := by
  simp [div, value, negative, ofRat, not_lt.2 nonneg, not_lt.2 pos.le, pos.ne']

/-- A sum of numbers that are not negative is a number. -/
lemma add_finite {p q : Rat} (nonneg : 0 ≤ p) : add (finite p) (finite q) = finite (p + q) := by
  simp [add, value, negative, ofRat, not_lt.2 nonneg]

/-- The sigmoid of a word is a number without the sign of a zero, or `NaN`. -/
lemma sigmoid_cases (x : Extended) : (∃ q, @sigmoid _ ops x = finite q) ∨ @sigmoid _ ops x = nan := by
  have one : ofInt 1 = finite 1 := by rfl
  have zero : ofInt 0 = finite 0 := by rfl
  -- the quotients of `sigmoid` have a positive denominator
  have quotient : ∀ p q : Rat, 0 ≤ p → 0 ≤ q →
      ∃ r, div (finite p) (add (finite 1) (finite q)) = finite r := by
    intro p q hp hq
    rw [add_finite (by decide), div_finite hp (by positivity)]
    exact ⟨_, rfl⟩
  unfold sigmoid
  change (∃ q, (if ge x (ofInt 0) then div (ofInt 1) (add (ofInt 1) (exp (neg x)))
    else div (exp x) (add (ofInt 1) (exp x))) = finite q) ∨ _ = nan
  rw [one, zero]
  cases x with
  | finite q =>
    refine .inl ?_
    split
    · simp only [neg]
      split
      · exact quotient 1 1 (by decide) (by decide)
      · exact quotient 1 _ (by decide) (exp_pos _).le
    · exact quotient _ _ (exp_pos _).le (exp_pos _).le
  | negZero => exact .inl (quotient 1 _ (by decide) (exp_pos 0).le)
  | infinite s =>
    cases s with
    | false => exact .inl (quotient 1 0 (by decide) (le_refl 0))
    | true => exact .inl (quotient 0 0 (le_refl 0) (le_refl 0))
  | nan => exact .inr rfl

/-- The laws hold of rational words. -/
instance : Binary32 Extended where
  toBinary32Ops := ops
  toInt_ofInt k _ := by
    change i32 (Int.tdiv (((k.sign * roundTo24 k.natAbs : Int) : Rat)).num
      (((k.sign * roundTo24 k.natAbs : Int) : Rat)).den) = _
    rw [Rat.num_intCast, Rat.den_intCast, Nat.cast_one, Int.tdiv_one]
    rfl
  infinity_ne_neg eq := Bool.noConfusion (infinite.inj eq)
  sigmoid_finite x infinite := by
    rcases sigmoid_cases x with ⟨q, number⟩ | none
    · rw [number] at infinite
      rcases infinite with eq | eq <;> cases eq
    · rw [none] at infinite
      rcases infinite with eq | eq <;> cases eq

/-- The two infinities are the markers. -/
lemma isInfinite_iff (x : Extended) : IsInfinite x ↔ ∃ s, x = infinite s := by
  constructor
  · rintro (rfl | rfl)
    · exact ⟨false, rfl⟩
    · exact ⟨true, rfl⟩
  · rintro ⟨s, rfl⟩
    cases s with
    | false => exact .inl rfl
    | true => exact .inr rfl

/-- There is one zero with a sign. -/
lemma isNegZero_iff (x : Extended) : IsNegZero x ↔ x = negZero := by
  constructor
  · rintro ⟨rfl | rfl, ne⟩
    · exact absurd rfl ne
    · rfl
  · rintro rfl
    exact ⟨.inr rfl, fun eq => by cases eq⟩

/-- `x == y`: the two zeros compare equal, and `NaN` does not compare equal to itself. -/
def sameWord : Extended → Extended → Bool
  | nan, _ | _, nan => false
  | infinite s, infinite t => decide (s = t)
  | infinite _, _ | _, infinite _ => false
  | x, y => decide (x.value = y.value)

/-- `sameWord` is the comparison of words. -/
lemma sameWord_floatEq : FloatEq sameWord := by
  constructor
  · intro x y same
    cases x with
    | finite p =>
      cases y with
      | finite q => exact .inl (congrArg finite (of_decide_eq_true same))
      | negZero =>
        obtain rfl : p = 0 := of_decide_eq_true same
        exact .inr ⟨.inl rfl, .inr rfl⟩
      | infinite | nan => cases same
    | negZero =>
      cases y with
      | finite q =>
        obtain rfl : 0 = q := of_decide_eq_true same
        exact .inr ⟨.inr rfl, .inl rfl⟩
      | negZero => exact .inl rfl
      | infinite | nan => cases same
    | infinite s =>
      cases y with
      | infinite t => exact .inl (congrArg infinite (of_decide_eq_true same))
      | finite | negZero | nan => cases same
    | nan => cases y <;> cases same
  · intro k zero
    cases (isNegZero_iff _).1 zero
  · intro x infinite zero
    obtain ⟨s, rfl⟩ := (isInfinite_iff x).1 infinite
    cases (isNegZero_iff _).1 zero
  · intro x zero
    have eq := (isNegZero_iff _).1 zero
    rcases sigmoid_cases x with ⟨q, number⟩ | none
    · exact absurd (number.symm.trans eq) (by simp)
    · exact absurd (none.symm.trans eq) (by simp)

end Extended

end NnProcessor.Model
