/-
# Double-word primitives

The parts of `base.c` that add, subtract and multiply words.  A carry and a borrow are read off
the wrapped result by a bit trick, and the high word of a product is put together from four
products of half words.  For a carry or a borrow of 0 or 1 all three are exact.

`UintSize` is 64 here, so `UIntAdd`, `UIntSub` and `UIntMul` are their `U64` versions.
-/
import CDemo.Lib.Words

namespace CDemo.BigInt

/-! ## 1. Sums and differences -/

/-- `U64Add`: the sum and the carry. -/
def u64Add (x y carry : Word) : Word × Word :=
  let sum := x + y + carry
  (sum, ((x &&& y) ||| ((x ||| y) &&& ~~~sum)) >>> 63)

/-- `U64Sub`: the difference and the borrow. -/
def u64Sub (x y borrow : Word) : Word × Word :=
  let diff := x - y - borrow
  (diff, ((~~~x &&& y) ||| (~~~(x ^^^ y) &&& diff)) >>> 63)

theorem toNat_shr (x : Word) (s : Nat) : (x >>> s).toNat = x.toNat / 2 ^ s := by
  rw [BitVec.toNat_ushiftRight, Nat.shiftRight_eq_div_pow]

theorem toNat_top_bit (v : Word) : (v >>> 63).toNat = if v.msb = true then 1 else 0 := by
  rw [BitVec.msb_eq_decide, toNat_shr]
  have hv := v.isLt
  simp only [decide_eq_true_eq]
  split <;> omega

theorem msb_iff (v : Word) : v.msb = true ↔ 2 ^ 63 ≤ v.toNat := by
  rw [BitVec.msb_eq_decide, decide_eq_true_eq]

theorem msb_not_word (v : Word) : (~~~v).msb = !v.msb := by simp

/-- **The carry makes the sum exact.** -/
theorem u64Add_eq (x y c : Word) (hc : c.toNat ≤ 1) :
    (u64Add x y c).1.toNat + radix * (u64Add x y c).2.toNat = x.toNat + y.toNat + c.toNat := by
  have hx := x.isLt
  have hy := y.isLt
  have hsum : (x + y + c).toNat = (x.toNat + y.toNat + c.toNat) % 2 ^ 64 := by
    rw [BitVec.toNat_add, BitVec.toNat_add, Nat.mod_add_mod]
  have hmx := msb_iff x
  have hmy := msb_iff y
  have hms := msb_iff (x + y + c)
  simp only [u64Add, toNat_top_bit, BitVec.msb_or, BitVec.msb_and, msb_not_word, hsum, radix]
  rw [hsum] at hms
  cases hx1 : x.msb <;> cases hy1 : y.msb <;> cases hs1 : (x + y + c).msb <;>
    simp only [hx1, hy1, hs1, Bool.false_eq_true, false_iff, true_iff, Bool.and_true,
      Bool.and_false, Bool.or_true, Bool.or_false, Bool.not_true, Bool.not_false, if_true,
      if_false] at hmx hmy hms ⊢ <;>
    omega

/-- **The borrow makes the difference exact.** -/
theorem u64Sub_eq (x y c : Word) (hc : c.toNat ≤ 1) :
    (u64Sub x y c).1.toNat + y.toNat + c.toNat = x.toNat + radix * (u64Sub x y c).2.toNat := by
  have hx := x.isLt
  have hy := y.isLt
  have hdiff : (x - y - c).toNat =
      (2 ^ 64 - c.toNat + (2 ^ 64 - y.toNat + x.toNat) % 2 ^ 64) % 2 ^ 64 := by
    rw [BitVec.toNat_sub, BitVec.toNat_sub]
  have hmx := msb_iff x
  have hmy := msb_iff y
  have hms := msb_iff (x - y - c)
  simp only [u64Sub, toNat_top_bit, BitVec.msb_or, BitVec.msb_and, msb_not_word,
    BitVec.msb_xor, hdiff, radix]
  rw [hdiff] at hms
  cases hx1 : x.msb <;> cases hy1 : y.msb <;> cases hs1 : (x - y - c).msb <;>
    simp only [hx1, hy1, hs1, Bool.false_eq_true, false_iff, true_iff, Bool.and_true,
      Bool.and_false, Bool.or_true, Bool.or_false, Bool.not_true, Bool.not_false, if_true,
      if_false, Bool.xor_true, Bool.xor_false] at hmx hmy hms ⊢ <;>
    omega

theorem u64Add_carry_le (x y c : Word) (hc : c.toNat ≤ 1) : (u64Add x y c).2.toNat ≤ 1 := by
  have h := u64Add_eq x y c hc
  have hx := x.isLt
  have hy := y.isLt
  simp only [radix] at h
  omega

theorem u64Sub_borrow_le (x y c : Word) (hc : c.toNat ≤ 1) : (u64Sub x y c).2.toNat ≤ 1 := by
  have h := u64Sub_eq x y c hc
  have hx := (u64Sub x y c).1.isLt
  have hy := y.isLt
  simp only [radix] at h
  omega

/-- There is a carry exactly when the sum does not fit. -/
theorem u64Add_carry_iff (x y c : Word) (hc : c.toNat ≤ 1) :
    (u64Add x y c).2 ≠ 0 ↔ radix ≤ x.toNat + y.toNat + c.toNat := by
  have h := u64Add_eq x y c hc
  have hlt := toNat_lt_radix (u64Add x y c).1
  constructor
  · intro hne
    have hpos := Nat.pos_of_ne_zero fun h0 => hne (BitVec.eq_of_toNat_eq h0)
    have := Nat.le_mul_of_pos_right radix hpos
    omega
  · intro hle h0
    rw [h0, word_zero, Nat.mul_zero, Nat.add_zero] at h
    omega

/-- There is a borrow exactly when the difference is negative. -/
theorem u64Sub_borrow_iff (x y c : Word) (hc : c.toNat ≤ 1) :
    (u64Sub x y c).2 ≠ 0 ↔ x.toNat < y.toNat + c.toNat := by
  have h := u64Sub_eq x y c hc
  have hlt := toNat_lt_radix (u64Sub x y c).1
  constructor
  · intro hne
    have hpos := Nat.pos_of_ne_zero fun h0 => hne (BitVec.eq_of_toNat_eq h0)
    have := Nat.le_mul_of_pos_right radix hpos
    omega
  · intro hle h0
    rw [h0, word_zero, Nat.mul_zero, Nat.add_zero] at h
    omega

/-- A carry or a borrow is 0 or 1. -/
theorem eq_zero_or_one {c : Word} (h : c.toNat ≤ 1) : c = 0 ∨ c = 1 := by
  rcases Nat.le_one_iff_eq_zero_or_eq_one.mp h with h0 | h1
  · exact .inl (BitVec.eq_of_toNat_eq h0)
  · exact .inr (BitVec.eq_of_toNat_eq h1)

/-! ## 2. Products -/

/-- `U64Mul`: the low and the high word. -/
def u64Mul (x y : Word) : Word × Word :=
  let mask32 : Word := (1#64 <<< 32) - 1
  let x0 := x &&& mask32
  let x1 := x >>> 32
  let y0 := y &&& mask32
  let y1 := y >>> 32
  let w0 := x0 * y0
  let t := x1 * y0 + (w0 >>> 32)
  let w1 := t &&& mask32
  let w2 := t >>> 32
  let w1 := w1 + x0 * y1
  (x * y, x1 * y1 + w2 + (w1 >>> 32))

theorem toNat_and_mask32 (x : Word) : (x &&& ((1#64 <<< 32) - 1)).toNat = x.toNat % 2 ^ 32 := by
  rw [show ((1#64 <<< 32) - 1 : Word) = BitVec.ofNat 64 (2 ^ 32 - 1) from rfl, BitVec.toNat_and,
    BitVec.toNat_ofNat, Nat.mod_eq_of_lt (by decide), Nat.and_two_pow_sub_one_eq_mod]

/-- A word as two halves. -/
theorem exists_halves (x : Word) :
    ∃ x0 x1, x0 < 2 ^ 32 ∧ x1 < 2 ^ 32 ∧ x.toNat = x0 + 2 ^ 32 * x1 := by
  have hx := x.isLt
  exact ⟨x.toNat % 2 ^ 32, x.toNat / 2 ^ 32, by omega, by omega, by omega⟩

/-- What `U64Mul` computes on the way: the half words, and `w1` with `x0 * y1` in it. -/
structure MulSteps where
  x0 : Word
  x1 : Word
  y0 : Word
  y1 : Word
  w0 : Word
  t : Word
  w1 : Word
  hi : Word

/-- The assignments of `U64Mul`. -/
def mulSteps (x y : Word) : MulSteps :=
  let mask32 : Word := (1#64 <<< 32) - 1
  let x0 := x &&& mask32
  let x1 := x >>> 32
  let y0 := y &&& mask32
  let y1 := y >>> 32
  let w0 := x0 * y0
  let t := x1 * y0 + (w0 >>> 32)
  let w1 := t &&& mask32
  let w2 := t >>> 32
  let w1 := w1 + x0 * y1
  ⟨x0, x1, y0, y1, w0, t, w1, x1 * y1 + w2 + (w1 >>> 32)⟩

/-- No product and no sum is cut off: each word is the number that its expression stands for. -/
structure MulSteps.Exact (s : MulSteps) : Prop where
  w0 : s.w0.toNat = s.x0.toNat * s.y0.toNat
  t : s.t.toNat = s.x1.toNat * s.y0.toNat + s.w0.toNat / 2 ^ 32
  w1 : s.w1.toNat = s.t.toNat % 2 ^ 32 + s.x0.toNat * s.y1.toNat
  hi : s.hi.toNat = s.x1.toNat * s.y1.toNat + s.t.toNat / 2 ^ 32 + s.w1.toNat / 2 ^ 32

theorem half_mul_le {a b : Nat} (ha : a < 2 ^ 32) (hb : b < 2 ^ 32) :
    a * b ≤ (2 ^ 32 - 1) * (2 ^ 32 - 1) :=
  Nat.mul_le_mul (Nat.le_sub_one_of_lt ha) (Nat.le_sub_one_of_lt hb)

/-- **No step of `U64Mul` overflows.** -/
theorem mulSteps_exact (x y : Word) : (mulSteps x y).Exact := by
  obtain ⟨x0, x1, hx0, hx1, hx⟩ := exists_halves x
  obtain ⟨y0, y1, hy0, hy1, hy⟩ := exists_halves y
  have e1 : x.toNat % 2 ^ 32 = x0 := by omega
  have e2 : x.toNat / 2 ^ 32 = x1 := by omega
  have e3 : y.toNat % 2 ^ 32 = y0 := by omega
  have e4 : y.toNat / 2 ^ 32 = y1 := by omega
  have p00 := half_mul_le hx0 hy0
  have p10 := half_mul_le hx1 hy0
  have p01 := half_mul_le hx0 hy1
  have p11 := half_mul_le hx1 hy1
  constructor <;>
    simp only [mulSteps, BitVec.toNat_add, BitVec.toNat_mul, toNat_and_mask32, toNat_shr,
      e1, e2, e3, e4] <;>
    generalize x0 * y0 = a at * <;>
    generalize x1 * y0 = b at * <;>
    generalize x0 * y1 = c at * <;>
    generalize x1 * y1 = d at * <;>
    omega

/-- **The high word makes the product exact.** -/
theorem u64Mul_eq (x y : Word) :
    (u64Mul x y).1.toNat + radix * (u64Mul x y).2.toNat = x.toNat * y.toNat := by
  obtain ⟨hw0, ht, hw1, hhi⟩ := mulSteps_exact x y
  have hlow : (u64Mul x y).1.toNat = x.toNat * y.toNat % 2 ^ 64 := BitVec.toNat_mul x y
  have hhigh : (u64Mul x y).2 = (mulSteps x y).hi := rfl
  have hx : (mulSteps x y).x0.toNat + 2 ^ 32 * (mulSteps x y).x1.toNat = x.toNat := by
    simp only [mulSteps, toNat_and_mask32, toNat_shr]
    exact Nat.mod_add_div _ _
  have hy : (mulSteps x y).y0.toNat + 2 ^ 32 * (mulSteps x y).y1.toNat = y.toNat := by
    simp only [mulSteps, toNat_and_mask32, toNat_shr]
    exact Nat.mod_add_div _ _
  have hprod : x.toNat * y.toNat = (mulSteps x y).x0.toNat * (mulSteps x y).y0.toNat +
      2 ^ 32 * ((mulSteps x y).x1.toNat * (mulSteps x y).y0.toNat +
        (mulSteps x y).x0.toNat * (mulSteps x y).y1.toNat) +
      2 ^ 64 * ((mulSteps x y).x1.toNat * (mulSteps x y).y1.toNat) := by
    rw [← hx, ← hy]
    ring
  rw [hlow, hhigh, radix]
  omega

/-- **The primitives are exact.** -/
theorem doubleWord_exact (x y c : Word) (hc : c = 0 ∨ c = 1) :
    ((u64Add x y c).1.toNat + 2 ^ 64 * (u64Add x y c).2.toNat = x.toNat + y.toNat + c.toNat ∧
      ((u64Add x y c).2 = 0 ∨ (u64Add x y c).2 = 1)) ∧
    (((u64Sub x y c).1.toNat : Int) - 2 ^ 64 * (u64Sub x y c).2.toNat =
        x.toNat - y.toNat - c.toNat ∧
      ((u64Sub x y c).2 = 0 ∨ (u64Sub x y c).2 = 1)) ∧
    ((u64Mul x y).2.toNat * 2 ^ 64 + (u64Mul x y).1.toNat = x.toNat * y.toNat ∧
      u64Mul x y = (x * y, (mulSteps x y).hi) ∧ (mulSteps x y).Exact) := by
  have hc1 : c.toNat ≤ 1 := by
    rcases hc with rfl | rfl
    · exact Nat.zero_le 1
    · exact le_rfl
  have hadd := u64Add_eq x y c hc1
  have hsub := u64Sub_eq x y c hc1
  have hmul := u64Mul_eq x y
  rw [radix] at hadd hsub hmul
  refine ⟨⟨hadd, eq_zero_or_one (u64Add_carry_le x y c hc1)⟩,
    ⟨?_, eq_zero_or_one (u64Sub_borrow_le x y c hc1)⟩, ?_, rfl, mulSteps_exact x y⟩
  · omega
  · rw [Nat.mul_comm, Nat.add_comm]
    exact hmul

/-- With all bits set and a carry. -/
theorem doubleWord_exact_allOnes :
    (u64Add (-1) (-1) 1).1.toNat + 2 ^ 64 * (u64Add (-1) (-1) 1).2.toNat =
        (-1 : Word).toNat + (-1 : Word).toNat + (1 : Word).toNat ∧
      (u64Mul (-1) (-1)).2.toNat * 2 ^ 64 + (u64Mul (-1) (-1)).1.toNat =
        (-1 : Word).toNat * (-1 : Word).toNat ∧ (mulSteps (-1) (-1)).Exact :=
  have h := doubleWord_exact (-1) (-1) 1 (.inr rfl)
  ⟨h.1.1, h.2.2.1, h.2.2.2.2⟩

end CDemo.BigInt
