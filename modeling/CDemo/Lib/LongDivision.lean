/-
# Long division, digit by digit

The arithmetic of Knuth's algorithm D in any base, with no words and no memory.

A digit of a quotient is guessed from the top of the dividend and of the divisor.  Such a guess
is never too small (`div_le_top`), and too large by two at most (`top_le_div_add_two`).  Corrected
with the next digit of each it is the quotient of three digits by two (`test_iff`, `stop_le`), and
then it is too large by one at most (`top_le_div_add_one`).  The last section is the division of
two digits by one with a reciprocal that was computed before.
-/
import Mathlib.Tactic.Ring
import Mathlib.Tactic.Linarith
import Mathlib.Tactic.LinearCombination

namespace CDemo.LongDivision

/-! ## 1. A guess from the top -/

section

variable {p u v ul vl : Nat}

/-- **A guess from the top digits is not too small.** -/
theorem div_le_top (hv : 0 < v) (hul : ul < p) (vl : Nat) :
    (u * p + ul) / (v * p + vl) ≤ u / v := by
  have hp : 0 < p := Nat.zero_lt_of_lt hul
  calc (u * p + ul) / (v * p + vl)
      ≤ (u * p + ul) / (v * p) :=
        Nat.div_le_div_left (Nat.le_add_right _ _) (Nat.mul_pos hv hp)
    _ = (u * p + ul) / p / v := by rw [Nat.mul_comm v p, Nat.div_div_eq_div_mul]
    _ = u / v := by
        rw [Nat.mul_comm u p, Nat.mul_add_div hp, Nat.div_eq_of_lt hul, Nat.add_zero]

/-- **It is too large by one at most**, if it is not above the divisor's top. -/
theorem top_le_div_add_one {q : Nat} (hv : 0 < v) (hp : 0 < p) (hvl : vl < p)
    (hq : q * v ≤ u) (hqv : q ≤ v) (ul : Nat) : q ≤ (u * p + ul) / (v * p + vl) + 1 := by
  rcases Nat.eq_zero_or_pos q with h0 | hpos
  · exact h0 ▸ Nat.zero_le _
  · obtain ⟨k, rfl⟩ : ∃ k, q = k + 1 := ⟨q - 1, by omega⟩
    refine Nat.succ_le_succ ((Nat.le_div_iff_mul_le (by positivity)).mpr ?_)
    -- what `k` times the low part adds is less than one times the top
    have hlow : k * vl ≤ v * p := Nat.mul_le_mul (Nat.le_of_succ_le hqv) hvl.le
    calc k * (v * p + vl) = k * v * p + k * vl := by ring
      _ ≤ k * v * p + v * p := Nat.add_le_add_left hlow _
      _ = (k + 1) * v * p := by ring
      _ ≤ u * p := Nat.mul_le_mul_right p hq
      _ ≤ u * p + ul := Nat.le_add_right _ _

/-- It is too large by two at most, if it times the low part is less than two divisors. -/
theorem top_le_div_add_two {q : Nat} (hy : 0 < v * p + vl) (hq : q * v ≤ u)
    (hlow : q * vl ≤ 2 * (v * p + vl)) (ul : Nat) : q ≤ (u * p + ul) / (v * p + vl) + 2 := by
  rcases Nat.lt_or_ge q 2 with h2 | h2
  · exact h2.le.trans (Nat.le_add_left _ _)
  · obtain ⟨k, rfl⟩ := Nat.exists_eq_add_of_le' h2
    refine Nat.add_le_add_right ((Nat.le_div_iff_mul_le hy).mpr ?_) 2
    refine Nat.le_of_add_le_add_right (b := 2 * (v * p + vl)) ?_
    calc k * (v * p + vl) + 2 * (v * p + vl) = (k + 2) * v * p + (k + 2) * vl := by ring
      _ ≤ u * p + 2 * (v * p + vl) := Nat.add_le_add (Nat.mul_le_mul_right p hq) hlow
      _ ≤ u * p + ul + 2 * (v * p + vl) := Nat.add_le_add_right (Nat.le_add_right _ _) _

/-- A number is the quotient if it is not below it and its multiple is not too large. -/
theorem eq_div_of_le {q : Nat} (hv : 0 < v) (hle : u / v ≤ q) (hmul : q * v ≤ u) : q = u / v :=
  Nat.le_antisymm ((Nat.le_div_iff_mul_le hv).mpr hmul) hle

end

/-! ## 2. The correction with the next digit

`q` is a guess and `r` is what it leaves of `u`: `q * v + r = u`.  The next digit is `u0` in the
dividend and `v0` in the divisor. -/

section

variable {b q r u v u0 v0 : Nat}

/-- **The test** tells whether the guess is too large for one digit more. -/
theorem test_iff (b u0 v0 : Nat) (h : q * v + r = u) :
    r * b + u0 < q * v0 ↔ u * b + u0 < q * (v * b + v0) := by
  have hl : u * b + u0 = q * v * b + (r * b + u0) := by rw [← h]; ring
  have hr : q * (v * b + v0) = q * v * b + q * v0 := by ring
  rw [hl, hr, Nat.add_lt_add_iff_left]

/-- With a whole digit left over nothing needs to be tested. -/
theorem stop_le (h : q * v + r = u) (hr : b ≤ r) (hq : q ≤ b) (hv0 : v0 < b) :
    q * (v * b + v0) ≤ u * b + u0 := by
  rw [← Nat.not_lt, ← test_iff b u0 v0 h, Nat.not_lt]
  calc q * v0 ≤ b * b := Nat.mul_le_mul hq hv0.le
    _ ≤ r * b := Nat.mul_le_mul_right b hr
    _ ≤ r * b + u0 := Nat.le_add_right _ _

/-- One down. -/
theorem guess_pred (h : (q + 1) * v + r = u) : q * v + (r + v) = u := by
  rw [← h]
  ring

/-- A guess that is too large stays an upper bound one below. -/
theorem div_le_of_lt {x y : Nat} (h : x < (q + 1) * y) : x / y ≤ q :=
  Nat.lt_succ_iff.mp (Nat.div_lt_of_lt_mul (by rwa [Nat.mul_comm]))

/-- Where the top digits agree, the largest digit is too large by one at most. -/
theorem largest_le_div_add_one {p x y : Nat} (hy0 : 0 < y) (hx : v * b * p ≤ x)
    (hy : y ≤ (v + 1) * p) (hb : b ≤ 2 * v + 2) : b - 1 ≤ x / y + 1 := by
  have hmul : (b - 2) * (v + 1) ≤ v * b := by
    rcases Nat.lt_or_ge b 2 with h2 | h2
    · rw [Nat.sub_eq_zero_of_le h2.le, Nat.zero_mul]
      exact Nat.zero_le _
    · obtain ⟨k, rfl⟩ := Nat.exists_eq_add_of_le' h2
      rw [Nat.add_sub_cancel]
      linarith [Nat.mul_comm k v, Nat.mul_add k v 1, Nat.mul_add v k 2]
  have hle : b - 2 ≤ x / y := by
    refine (Nat.le_div_iff_mul_le hy0).mpr ?_
    calc (b - 2) * y ≤ (b - 2) * ((v + 1) * p) := Nat.mul_le_mul_left _ hy
      _ = (b - 2) * (v + 1) * p := by ring
      _ ≤ v * b * p := Nat.mul_le_mul_right p hmul
      _ ≤ x := hx
  omega

end

/-! ## 3. From the top digit down -/

section

variable {b a c y : Nat}

/-- **One digit more**: the quotient gets a digit, and the remainder goes on. -/
theorem div_digit (hy : 0 < y) : (a * b + c) / y = a / y * b + (a % y * b + c) / y := by
  have h : a * b + c = y * (a / y * b) + (a % y * b + c) := by
    nth_rewrite 1 [← Nat.div_add_mod a y]
    ring
  rw [h, Nat.mul_add_div hy]

theorem mod_digit : (a * b + c) % y = (a % y * b + c) % y := by
  have h : a * b + c = y * (a / y * b) + (a % y * b + c) := by
    nth_rewrite 1 [← Nat.div_add_mod a y]
    ring
  rw [h, Nat.mul_add_mod]

/-- A remainder leaves a quotient of one digit. -/
theorem digit_lt (hc : c < b) (ha : a < y) : (a * b + c) / y < b := by
  refine Nat.div_lt_of_lt_mul ?_
  calc a * b + c < a * b + b := Nat.add_lt_add_left hc _
    _ = (a + 1) * b := by ring
    _ ≤ y * b := Nat.mul_le_mul_right b ha

end

/-! ## 4. Division with a reciprocal

`w` is `(b * b - 1) / d`, and two digits `x1`, `x0` with `x1 < d` are divided by `d`. -/

section

variable {b d w x1 x0 : Nat}

/-- What `q = (w * x1 + x0) / b` leaves, times the base. -/
theorem recip_identity {e f g q : Nat} (hw : w * d + e = b * b) (hg : b = d + g)
    (hq : w * x1 + x0 = b * q + f) :
    (x1 * b + x0) * b = d * q * b + (d * f + x1 * e + x0 * g) := by
  have h1 : x1 * (b * b) = x1 * (w * d + e) := by rw [hw]
  have h2 : x0 * b = x0 * (d + g) := by rw [← hg]
  linear_combination h1 + h2 + d * hq

/-- **The guess of the reciprocal** is not too large, and it leaves less than `b + d`. -/
theorem recip_bounds (hd : 0 < d) (hdb : d ≤ b) (hx1 : x1 < d) (hx0 : x0 < b) :
    ∃ r, d * (((b * b - 1) / d * x1 + x0) / b) + r = x1 * b + x0 ∧ r < b + d := by
  have hb : 0 < b := hd.trans_le hdb
  have hbb : 1 ≤ b * b := Nat.mul_pos hb hb
  obtain ⟨g, hg⟩ := Nat.exists_eq_add_of_le hdb
  generalize hq : ((b * b - 1) / d * x1 + x0) / b = q
  generalize hf : ((b * b - 1) / d * x1 + x0) % b = f
  have hfb : f < b := hf ▸ Nat.mod_lt _ hb
  have hqf := Nat.div_add_mod ((b * b - 1) / d * x1 + x0) b
  rw [hq, hf] at hqf
  -- `e` is what the reciprocal itself misses
  obtain ⟨e, he, hed⟩ : ∃ e, (b * b - 1) / d * d + e = b * b ∧ e ≤ d := by
    have hdiv := Nat.div_add_mod (b * b - 1) d
    have hlt := Nat.mod_lt (b * b - 1) hd
    refine ⟨(b * b - 1) % d + 1, ?_, hlt⟩
    rw [Nat.mul_comm, ← Nat.add_assoc, hdiv, Nat.sub_add_cancel hbb]
  have hid := recip_identity he hg hqf.symm
  have hle : d * q ≤ x1 * b + x0 :=
    Nat.le_of_mul_le_mul_right (hid ▸ Nat.le_add_right _ _) hb
  obtain ⟨r, hr⟩ := Nat.exists_eq_add_of_le hle
  have hrb : r * b = d * f + x1 * e + x0 * g := by
    have : d * q * b + r * b = d * q * b + (d * f + x1 * e + x0 * g) := by
      rw [← hid, hr]
      ring
    exact Nat.add_left_cancel this
  have hlt : r * b < b * b + d * d := by
    have h1 : d * f + d ≤ d * b := by rw [← Nat.mul_succ]; exact Nat.mul_le_mul_left d hfb
    have h2 : x1 * e ≤ d * d := Nat.mul_le_mul hx1.le hed
    have h3 : x0 * g ≤ b * g := Nat.mul_le_mul_right g hx0.le
    have h4 : b * b = d * b + b * g := by nth_rewrite 2 [hg]; ring
    omega
  have hdd : d * d ≤ d * b := Nat.mul_le_mul_left d hdb
  refine ⟨r, hr.symm, Nat.lt_of_mul_lt_mul_right (a := b) ?_⟩
  rw [Nat.add_mul]
  omega

end

end CDemo.LongDivision
