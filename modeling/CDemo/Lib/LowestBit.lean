/-
# The lowest set bit

The trailing zeros of a bit vector, by its bits, and the classical way to single out the bit
above them: `x &&& -x` has no other bit.  A vector without a set bit has only trailing zeros.
-/
import Mathlib.Algebra.Order.Ring.Nat
import Mathlib.Tactic.Common

namespace CDemo

/-- `x` ends in exactly `n` zero bits; a vector of zeros ends in as many as it has bits. -/
def IsTrailingZeros {w : Nat} (x : BitVec w) (n : Nat) : Prop :=
  n ≤ w ∧ (∀ i < n, x.getLsbD i = false) ∧ (n < w → x.getLsbD n = true)

variable {w : Nat} {x : BitVec w} {n : Nat}

theorem isTrailingZeros_zero : IsTrailingZeros (0 : BitVec w) w :=
  ⟨le_rfl, fun _ _ => BitVec.getLsbD_zero, fun h => absurd h (lt_irrefl w)⟩

theorem IsTrailingZeros.lt_of_ne_zero (h : IsTrailingZeros x n) (hx : x ≠ 0) : n < w := by
  refine lt_of_le_of_ne h.1 fun hn => hx (BitVec.eq_of_getLsbD_eq fun i hi => ?_)
  rw [h.2.1 i (hn ▸ hi)]
  exact BitVec.getLsbD_zero.symm

theorem IsTrailingZeros.unique {m : Nat} (h : IsTrailingZeros x n) (h' : IsTrailingZeros x m) :
    n = m := by
  rcases lt_trichotomy n m with hlt | heq | hgt
  · have hbit := h.2.2 (hlt.trans_le h'.1)
    rw [h'.2.1 n hlt] at hbit
    exact absurd hbit (by decide)
  · exact heq
  · have hbit := h'.2.2 (hgt.trans_le h.1)
    rw [h.2.1 m hgt] at hbit
    exact absurd hbit (by decide)

/-- Every vector has its number of trailing zeros. -/
theorem exists_isTrailingZeros (x : BitVec w) : ∃ n, IsTrailingZeros x n := by
  by_cases hx : x = 0
  · exact ⟨w, hx ▸ isTrailingZeros_zero⟩
  · refine ⟨x.ctz.toNat, ?_, fun i hi => BitVec.getLsbD_false_of_lt_ctz hi,
      fun _ => BitVec.getLsbD_true_ctz_of_ne_zero hx⟩
    by_contra hlt
    have hbit := BitVec.getLsbD_true_ctz_of_ne_zero hx
    rw [BitVec.getLsbD_of_ge x _ (Nat.le_of_not_le hlt)] at hbit
    exact absurd hbit (by decide)

/-- **`x &&& -x` is the lowest set bit.** -/
theorem IsTrailingZeros.and_neg (h : IsTrailingZeros x n) (hn : n < w) :
    x &&& -x = BitVec.twoPow w n := by
  refine BitVec.eq_of_getLsbD_eq fun i hi => ?_
  rw [BitVec.getLsbD_and, BitVec.getLsbD_neg, BitVec.getLsbD_twoPow, decide_eq_true hi,
    decide_eq_true hn, Bool.true_and, Bool.true_and]
  rcases lt_trichotomy i n with hlt | heq | hgt
  · rw [h.2.1 i hlt, Bool.false_and, decide_eq_false hlt.ne']
  · have hnone : ¬ ∃ j < i, x.getLsbD j = true := by
      rintro ⟨j, hj, hbit⟩
      rw [h.2.1 j (heq ▸ hj)] at hbit
      exact absurd hbit (by decide)
    rw [decide_eq_false hnone, heq, h.2.2 hn, decide_eq_true rfl]
    rfl
  · -- above the lowest set bit the two vectors are complements of each other
    have hsome : ∃ j < i, x.getLsbD j = true := ⟨n, hgt, h.2.2 hn⟩
    rw [decide_eq_true hsome, decide_eq_false hgt.ne]
    cases x.getLsbD i <;> rfl

/-- A set bit among the lowest `k` is a remainder modulo `2^k`. -/
theorem IsTrailingZeros.lt_iff_mod (h : IsTrailingZeros x n) (hn : n < w) (k : Nat) :
    n < k ↔ x.toNat % 2 ^ k ≠ 0 := by
  constructor
  · intro hlt h0
    have hbit : (x.toNat % 2 ^ k).testBit n = true := by
      rw [Nat.testBit_mod_two_pow, decide_eq_true hlt, Bool.true_and]
      exact h.2.2 hn
    rw [h0, Nat.zero_testBit] at hbit
    exact absurd hbit (by decide)
  · intro hmod
    by_contra hle
    refine hmod (Nat.eq_of_testBit_eq fun i => ?_)
    rw [Nat.testBit_mod_two_pow, Nat.zero_testBit]
    by_cases hi : i < k
    · rw [decide_eq_true hi, Bool.true_and]
      exact h.2.1 i (by omega)
    · rw [decide_eq_false hi, Bool.false_and]

/-- Zeros put in front do not change the count. -/
theorem IsTrailingZeros.setWidth (h : IsTrailingZeros x n) (hn : n < w) {v : Nat} (hv : w ≤ v) :
    IsTrailingZeros (x.setWidth v) n := by
  refine ⟨h.1.trans hv, fun i hi => ?_, fun _ => ?_⟩
  · rw [BitVec.getLsbD_setWidth, h.2.1 i hi, Bool.and_false]
  · rw [BitVec.getLsbD_setWidth, h.2.2 hn, decide_eq_true (hn.trans_le hv)]
    rfl

end CDemo
