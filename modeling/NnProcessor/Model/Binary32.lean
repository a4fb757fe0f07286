import NnProcessor.Arith.Int32

/-!
# The words of the buses

`F` stands for the values of `float`. `Binary32Ops` has the operations the sources apply to such
words, `sigmoid` is the function of `processor.cpp`, and `Binary32` adds the facts about the format
that the sources rely on. The two zeros are one number with two signs: a `sc_signal<float>` compares
with `==` before it updates (`FloatEq`) and keeps the zero it carries when the other one is written.
-/

namespace NnProcessor.Model
open NnProcessor.Arith

/-- The `float` operations the sources use. -/
class Binary32Ops (F : Type) where
  /-- Conversion `int` → `float`. -/
  ofInt : Int → F
  /-- Conversion `float` → `int`. -/
  toInt : F → Int
  add : F → F → F
  mul : F → F → F
  div : F → F → F
  neg : F → F
  exp : F → F
  /-- `x >= y`. -/
  ge : F → F → Bool
  /-- The macro `INFINITY`. -/
  infinity : F

export Binary32Ops (ofInt toInt infinity)

/-- `-INFINITY`. -/
def negInfinity {F : Type} [Binary32Ops F] : F := Binary32Ops.neg infinity

/-- `sigmoid` of `processor.cpp`. -/
def sigmoid {F : Type} [Binary32Ops F] (x : F) : F :=
  if Binary32Ops.ge x (ofInt 0) then
    let z := Binary32Ops.exp (Binary32Ops.neg x)
    Binary32Ops.div (ofInt 1) (Binary32Ops.add (ofInt 1) z)
  else
    let z := Binary32Ops.exp x
    Binary32Ops.div z (Binary32Ops.add (ofInt 1) z)

/-- A word is one of the two in-band markers. -/
def IsInfinite {F : Type} [Binary32Ops F] (x : F) : Prop := x = infinity ∨ x = negInfinity

/-- The facts about binary32 that the sources rely on: an `int` comes back rounded to 24 bits, the
two infinities differ, and a sigmoid is never infinite. -/
class Binary32 (F : Type) extends Binary32Ops F where
  toInt_ofInt : ∀ k : Int, Fits k → toInt (ofInt k) = floatInt k
  infinity_ne_neg : infinity ≠ neg infinity
  sigmoid_finite : ∀ x : F, ¬ IsInfinite (sigmoid x)

/-- The two markers are different words. -/
lemma infinity_ne_negInfinity {F : Type} [Binary32 F] : (infinity : F) ≠ negInfinity :=
  Binary32.infinity_ne_neg

/-- A word is one of the two zeros. -/
def IsZero {F : Type} [Binary32Ops F] (x : F) : Prop := x = ofInt 0 ∨ x = Binary32Ops.neg (ofInt 0)

/-- A word is the zero with a sign. -/
def IsNegZero {F : Type} [Binary32Ops F] (x : F) : Prop := IsZero x ∧ x ≠ ofInt 0

/-- The comparison `==` of two words, as `sc_signal<float>` uses it: words that compare equal are the
same or the two zeros. No `int`, no infinity and no sigmoid is the zero with a sign. -/
structure FloatEq {F : Type} [Binary32Ops F] (same : F → F → Bool) : Prop where
  eq : ∀ x y, same x y = true → x = y ∨ IsZero x ∧ IsZero y
  int : ∀ k, ¬IsNegZero (ofInt k : F)
  infinite : ∀ x : F, IsInfinite x → ¬IsNegZero x
  sigmoid : ∀ x : F, ¬IsNegZero (Model.sigmoid x)

/-- Where the zero with a sign is left out, words that compare equal are the same. -/
lemma FloatEq.faithful {F : Type} [Binary32Ops F] {same : F → F → Bool} (floats : FloatEq same)
    {x y : F} (hx : ¬IsNegZero x) (hy : ¬IsNegZero y) (eq : same x y = true) : x = y := by
  have positive : ∀ {z : F}, ¬IsNegZero z → IsZero z → z = ofInt 0 := fun pos zero =>
    not_not.1 fun ne => pos ⟨zero, ne⟩
  cases floats.eq x y eq with
  | inl eq => exact eq
  | inr zeros => rw [positive hx zeros.1, positive hy zeros.2]

end NnProcessor.Model
