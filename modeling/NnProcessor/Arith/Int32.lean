import Mathlib.Tactic

/-!
# 32-bit integers and the integers a binary32 word carries

`i32` is the value a 32-bit two's complement `int` holds after an operation whose exact result is
its argument: the argument itself when it fits, the wrapped value otherwise. `roundTo24` is the
nearest integer with a significand of 24 bits (ties to even), which is what is left of an `int`
after one trip through a binary32 word; `floatInt` is the signed version, converted back to `int`.
-/

namespace NnProcessor.Arith

/-- The value of an `int` after an operation with the exact result `k`. -/
def i32 (k : Int) : Int := (BitVec.ofInt 32 k).toInt

/-- The balanced remainder of a number is its `int`. -/
lemma i32_eq_bmod (k : Int) : i32 k = Int.bmod k (2 ^ 32) := BitVec.toInt_ofInt k

/-- The range of `int`. -/
def Fits (k : Int) : Prop := -2 ^ 31 ≤ k ∧ k < 2 ^ 31

/-- Whether a number is an `int` can be computed. -/
instance (k : Int) : Decidable (Fits k) := inferInstanceAs (Decidable (_ ∧ _))

/-- A result that fits is not changed. -/
lemma i32_eq {k : Int} (h : Fits k) : i32 k = k := by
  obtain ⟨h1, h2⟩ := h
  simp only [i32_eq_bmod, Int.bmod_def]
  omega

/-- A natural number that fits is not changed. -/
lemma i32_natCast {n : Nat} (h : n < 2 ^ 31) : i32 (n : Int) = n := i32_eq ⟨by omega, by omega⟩

/-- Whatever an `int` holds fits. -/
lemma i32_fits (k : Int) : Fits (i32 k) := by
  simp only [i32_eq_bmod, Fits, Int.bmod_def]
  omega

/-- A wrapped natural number is at most that number. -/
lemma i32_le {n : Nat} : i32 (n : Int) ≤ n := by
  simp only [i32_eq_bmod, Int.bmod_def]
  omega

/-- The nearest natural number with a significand of 24 bits, ties to even. -/
def roundTo24 (k : Nat) : Nat :=
  let e := Nat.log2 k + 1 - 24
  let q := k / 2 ^ e
  let r := k % 2 ^ e
  if 2 * r < 2 ^ e ∨ (2 * r = 2 ^ e ∧ q % 2 = 0) then q * 2 ^ e else (q + 1) * 2 ^ e

/-- An `int` after `(int)(float)`: rounded to 24 bits and converted back. A magnitude that rounds
to `2 ^ 31` comes back as the most negative `int`. -/
def floatInt (k : Int) : Int := i32 (k.sign * roundTo24 k.natAbs)

/-- Up to `2 ^ 24` nothing is rounded. -/
lemma roundTo24_eq {k : Nat} (h : k ≤ 2 ^ 24) : roundTo24 k = k := by
  rcases Nat.lt_or_eq_of_le h with lt | rfl
  · have e : Nat.log2 k + 1 - 24 = 0 := by
      rcases Nat.eq_zero_or_pos k with rfl | pos
      · simp
      · have := (Nat.log2_lt pos.ne').2 lt
        omega
    simp [roundTo24, e, Nat.mod_one]
  · decide

/-- `(int)(float)` keeps every `int` of magnitude at most `2 ^ 24`. -/
lemma floatInt_eq {k : Int} (h : |k| ≤ 2 ^ 24) : floatInt k = k := by
  obtain ⟨lo, hi⟩ := abs_le.1 h
  have hk : k.natAbs ≤ 2 ^ 24 := by omega
  rw [floatInt, roundTo24_eq hk, Int.sign_mul_natAbs]
  exact i32_eq ⟨by omega, by omega⟩

/-- The first natural number that does not survive. -/
lemma floatInt_two_pow_24_succ : floatInt (2 ^ 24 + 1) = 2 ^ 24 := by decide

/-- Rounding keeps a number at least 2 at least 2. -/
lemma two_le_roundTo24 {k : Nat} (h : 2 ≤ k) : 2 ≤ roundTo24 k := by
  by_cases small : k ≤ 2 ^ 24
  · rw [roundTo24_eq small]; exact h
  · have hlog : 24 ≤ Nat.log2 k := (Nat.le_log2 (by omega)).2 (by omega)
    have hpow : 2 ^ Nat.log2 k ≤ k := Nat.log2_self_le (by omega)
    have he : 2 ^ 1 ≤ 2 ^ (Nat.log2 k + 1 - 24) := Nat.pow_le_pow_right (by omega) (by omega)
    have hq : 1 ≤ k / 2 ^ (Nat.log2 k + 1 - 24) := by
      rw [Nat.one_le_div_iff (by positivity)]
      exact le_trans (Nat.pow_le_pow_right (by omega) (by omega)) hpow
    simp only [roundTo24]
    split
    · nlinarith
    · nlinarith

/-- Rounding does not leave the range of a 31-bit magnitude. -/
lemma roundTo24_le {k : Nat} (h : k < 2 ^ 31) : roundTo24 k ≤ 2 ^ 31 := by
  by_cases small : k ≤ 2 ^ 24
  · rw [roundTo24_eq small]; omega
  · have hlog : Nat.log2 k < 31 := (Nat.log2_lt (by omega)).2 h
    obtain ⟨e, he⟩ : ∃ e, e = Nat.log2 k + 1 - 24 := ⟨_, rfl⟩
    have hsplit : 2 ^ e * 2 ^ (31 - e) = 2 ^ 31 := by
      rw [← pow_add]; congr 1; omega
    have hq : k / 2 ^ e < 2 ^ (31 - e) := by
      rw [Nat.div_lt_iff_lt_mul (by positivity), mul_comm, hsplit]
      exact h
    have key : (k / 2 ^ e + 1) * 2 ^ e ≤ 2 ^ 31 := by
      calc (k / 2 ^ e + 1) * 2 ^ e ≤ 2 ^ (31 - e) * 2 ^ e := Nat.mul_le_mul_right _ hq
        _ = 2 ^ 31 := by rw [mul_comm, hsplit]
    simp only [roundTo24, ← he]
    split
    · exact le_trans (Nat.mul_le_mul_right _ (Nat.le_succ _)) key
    · exact key

end NnProcessor.Arith
