/-
# Division by one word

`U64Div` divides two words by one as algorithm D does in base `2^32`; `divWW` does it with a
reciprocal (`reciprocalWord`) and two corrections.  Both give the quotient and the remainder of
every dividend whose high word is below the divisor.  `natDivWVW` goes through a vector with
them, from the top word down.
-/
import CDemo.BigInt.Div
import CDemo.BigInt.Schoolbook
import CDemo.Lib.LongDivision

namespace CDemo.BigInt

/-! ## 1. Words that wrap to the right value -/

theorem toNat_add_lt {a c : Word} (h : a.toNat + c.toNat < radix) :
    (a + c).toNat = a.toNat + c.toNat := by
  rw [BitVec.toNat_add]
  exact Nat.mod_eq_of_lt h

theorem toNat_mul_lt {a c : Word} (h : a.toNat * c.toNat < radix) :
    (a * c).toNat = a.toNat * c.toNat := by
  rw [BitVec.toNat_mul]
  exact Nat.mod_eq_of_lt h

theorem toNat_sub_le {a c : Word} (h : c.toNat ≤ a.toNat) : (a - c).toNat = a.toNat - c.toNat :=
  BitVec.toNat_sub_of_le (BitVec.le_def.mpr h)

/-- A remainder that fits comes out right, even if the dividend wrapped. -/
theorem toNat_sub_mul {a q y : Word} {n r : Nat} (ha : a.toNat = n % radix)
    (hn : q.toNat * y.toNat + r = n) (hr : r < radix) : (a - q * y).toNat = r := by
  have hsum : a = q * y + BitVec.ofNat 64 r := by
    refine BitVec.eq_of_toNat_eq ?_
    rw [ha, ← hn, BitVec.toNat_add, BitVec.toNat_mul, BitVec.toNat_ofNat]
    exact Nat.add_mod _ _ _
  rw [hsum, BitVec.add_comm, BitVec.add_sub_cancel, BitVec.toNat_ofNat]
  exact Nat.mod_eq_of_lt hr

theorem toNat_shl {x : Word} {s : Nat} (h : x.toNat * 2 ^ s < radix) :
    (x <<< s).toNat = x.toNat * 2 ^ s := by
  rw [BitVec.toNat_shiftLeft, Nat.shiftLeft_eq]
  exact Nat.mod_eq_of_lt h

/-- Two words shifted left together, where nothing leaves the upper one. -/
theorem shl_pair {x1 : Word} (x0 : Word) {s : Nat} (hs : s < 64)
    (hfit : (x1.toNat + 1) * 2 ^ s ≤ radix) :
    (if s ≠ 0 then x1 <<< s ||| x0 >>> (64 - s) else x1).toNat * radix +
        (if s ≠ 0 then x0 <<< s else x0).toNat =
      (x1.toNat * radix + x0.toNat) * 2 ^ s := by
  rcases Nat.eq_zero_or_pos s with rfl | hpos
  · simp
  · rw [if_pos hpos.ne', if_pos hpos.ne']
    have hpow : radix = 2 ^ (64 - s) * 2 ^ s := by
      rw [radix, ← pow_add, Nat.sub_add_cancel hs.le]
    have hhigh := toNat_shl_or hpos hs x1 x0
    have hlow := toNat_shl_or hpos hs x0 0
    have hz : (x1 >>> (64 - s)).toNat = 0 := by
      rw [toNat_shr]
      refine Nat.div_eq_of_lt ?_
      have : (x1.toNat + 1) * 2 ^ s ≤ 2 ^ (64 - s) * 2 ^ s := hpow ▸ hfit
      exact Nat.le_of_mul_le_mul_right this (by positivity)
    have hor : x0 <<< s ||| (0 : Word) >>> (64 - s) = x0 <<< s := by simp
    rw [hz, Nat.mul_zero, Nat.add_zero] at hhigh
    rw [hor, toNat_shr 0, word_zero, Nat.zero_div, Nat.add_zero] at hlow
    linear_combination radix * hhigh + hlow

/-- The upper of them stays below the shifted divisor. -/
theorem pair_lt {h1 h0 x1 x0 y s : Nat} (hpair : h1 * radix + h0 = (x1 * radix + x0) * 2 ^ s)
    (hx0 : x0 < radix) (hlt : x1 < y) : h1 < y * 2 ^ s := by
  refine Nat.lt_of_mul_lt_mul_right (a := radix) ?_
  calc h1 * radix ≤ (x1 * radix + x0) * 2 ^ s := hpair ▸ Nat.le_add_right _ _
    _ < (x1 + 1) * radix * 2 ^ s := by
        refine Nat.mul_lt_mul_of_pos_right ?_ (by positivity)
        rw [Nat.add_mul, Nat.one_mul]
        exact Nat.add_lt_add_left hx0 _
    _ ≤ y * radix * 2 ^ s := Nat.mul_le_mul_right _ (Nat.mul_le_mul_right _ hlt)
    _ = y * 2 ^ s * radix := by ring

/-! ## 2. `U64Div` -/

theorem toNat_two32 : (1#64 <<< 32 : Word).toNat = 2 ^ 32 := by decide

/-- The loop that corrects a digit, with the number of its rounds. -/
def divDigitLoopCounted (yn1 yn0 un : Word) : Nat → Word → Word → Run (Word × Nat)
  | 0, _, _ => .error .noReturn
  | fuel + 1, q, rhat =>
    let two32 : Word := 1#64 <<< 32
    if two32 ≤ q ∨ two32 * rhat + un < q * yn0 then
      if two32 ≤ rhat + yn1 then .ok (q - 1, 1)
      else do
        let (q, rounds) ← divDigitLoopCounted yn1 yn0 un fuel (q - 1) (rhat + yn1)
        .ok (q, rounds + 1)
    else .ok (q, 0)

def divDigitCounted (un yn1 yn0 next : Word) : Run (Word × Nat) :=
  let q := un / yn1
  divDigitLoopCounted yn1 yn0 next 3 q (un - q * yn1)

/-- The rounds are only counted. -/
theorem divDigitLoop_of_counted {yn1 yn0 un : Word} :
    ∀ {fuel : Nat} {q rhat q' : Word} {n : Nat},
      divDigitLoopCounted yn1 yn0 un fuel q rhat = .ok (q', n) →
      divDigitLoop yn1 yn0 un fuel q rhat = .ok q'
  | 0, _, _, _, _, h => absurd h (by simp [divDigitLoopCounted])
  | fuel + 1, q, rhat, q', n, h => by
    rw [divDigitLoopCounted] at h
    rw [divDigitLoop]
    split at h
    · next hc =>
      rw [if_pos hc]
      split at h
      · next hs =>
        rw [if_pos hs]
        exact congrArg Except.ok (Prod.ext_iff.mp (Except.ok.inj h)).1
      · next hs =>
        rw [if_neg hs]
        obtain ⟨⟨q1, n1⟩, hrec, h⟩ := Run.bind_eq_ok_iff.mp h
        rw [divDigitLoop_of_counted hrec]
        exact congrArg Except.ok (Prod.ext_iff.mp (Except.ok.inj h)).1
    · next hc =>
      rw [if_neg hc]
      exact congrArg Except.ok (Prod.ext_iff.mp (Except.ok.inj h)).1

/-- The loop of a half-word digit finds the quotient of three half words by two, and every round
lowers the guess by one. -/
theorem divDigitLoopCounted_eq {v1 v0 next : Word} {u y : Nat}
    (hv : v1.toNat * 2 ^ 32 + v0.toNat = y) (hv0 : v0.toNat < 2 ^ 32)
    (hnext : next.toNat < 2 ^ 32) (hu : u < y) (hy : y < radix) :
    ∀ (fuel : Nat) {q r : Word}, q.toNat * v1.toNat + r.toNat = u →
      (u * 2 ^ 32 + next.toNat) / y ≤ q.toNat → q.toNat ≤ 2 ^ 32 + 1 → r.toNat < 2 ^ 32 →
      2 ^ 32 ≤ r.toNat + fuel * v1.toNat →
      ∃ q' n, divDigitLoopCounted v1 v0 next fuel q r = .ok (q', n) ∧
        q'.toNat = (u * 2 ^ 32 + next.toNat) / y ∧ q'.toNat + n = q.toNat
  | 0, q, r, _, _, _, hr, hfuel => by omega
  | fuel + 1, q, r, hqr, hge, hq, hr, hfuel => by
    have hy0 : 0 < y := Nat.zero_lt_of_lt hu
    have hv1 : v1.toNat < 2 ^ 32 := by rw [radix] at hy; omega
    have hprod : (q * v0).toNat = q.toNat * v0.toNat := by
      refine toNat_mul_lt ((Nat.mul_le_mul hq (Nat.le_sub_one_of_lt hv0)).trans_lt ?_)
      decide
    have hleft : ((1#64 <<< 32) * r + next).toNat = r.toNat * 2 ^ 32 + next.toNat := by
      have hmul : ((1#64 <<< 32) * r).toNat = 2 ^ 32 * r.toNat := by
        rw [toNat_mul_lt (by rw [toNat_two32, radix]; omega), toNat_two32]
      rw [toNat_add_lt (by rw [hmul, radix]; omega), hmul, Nat.mul_comm]
    have htest := LongDivision.test_iff (2 ^ 32) next.toNat v0.toNat hqr
    rw [hv] at htest
    have hcond : (1#64 <<< 32 ≤ q ∨ (1#64 <<< 32) * r + next < q * v0) ↔
        u * 2 ^ 32 + next.toNat < q.toNat * y := by
      rw [BitVec.le_def, BitVec.lt_def, hprod, hleft, toNat_two32, htest]
      refine or_iff_right_of_imp fun hbig => ?_
      calc u * 2 ^ 32 + next.toNat < (u + 1) * 2 ^ 32 := by omega
        _ ≤ y * 2 ^ 32 := Nat.mul_le_mul_right _ hu
        _ ≤ q.toNat * y := by rw [Nat.mul_comm]; exact Nat.mul_le_mul_right _ hbig
    rw [divDigitLoopCounted]
    by_cases hc : u * 2 ^ 32 + next.toNat < q.toNat * y
    · rw [if_pos (hcond.mpr hc)]
      have hqpos : 0 < q.toNat := Nat.pos_of_ne_zero fun h0 => by rw [h0] at hc; omega
      have hqp : (q - 1).toNat = q.toNat - 1 := toNat_sub_le hqpos
      obtain ⟨k, hk⟩ : ∃ k, q.toNat = k + 1 := ⟨q.toNat - 1, by omega⟩
      rw [hk, Nat.add_sub_cancel] at hqp
      rw [hk] at hc hqr
      have hge' := LongDivision.div_le_of_lt hc
      have hqr' := LongDivision.guess_pred hqr
      have hrv : (r + v1).toNat = r.toNat + v1.toNat := toNat_add_lt (by rw [radix]; omega)
      by_cases hstop : 1#64 <<< 32 ≤ r + v1
      · rw [if_pos hstop]
        rw [BitVec.le_def, toNat_two32, hrv] at hstop
        refine ⟨q - 1, 1, rfl, ?_, by rw [hqp, hk]⟩
        rw [hqp]
        refine LongDivision.eq_div_of_le hy0 hge' ?_
        rw [← hv]
        exact LongDivision.stop_le hqr' hstop (by omega) hv0
      · rw [if_neg hstop]
        rw [BitVec.le_def, toNat_two32, hrv] at hstop
        rw [Nat.add_mul, Nat.one_mul] at hfuel
        obtain ⟨q', n, hrun, hval, hcount⟩ := divDigitLoopCounted_eq hv hv0 hnext hu
          hy fuel (q := q - 1) (r := r + v1) (by rw [hqp, hrv]; exact hqr')
          (by rw [hqp]; exact hge') (by omega) (by omega) (by rw [hrv]; omega)
        exact ⟨q', n + 1, Run.bind_of_eq hrun rfl, hval, by omega⟩
    · rw [if_neg (hcond.not.mpr hc)]
      exact ⟨q, 0, rfl, LongDivision.eq_div_of_le hy0 hge (Nat.not_lt.mp hc), rfl⟩

/-- **A half-word digit**, corrected in two rounds at most. -/
theorem divDigitCounted_eq {un v1 v0 next : Word} {y : Nat}
    (hv : v1.toNat * 2 ^ 32 + v0.toNat = y) (hv0 : v0.toNat < 2 ^ 32)
    (hnext : next.toNat < 2 ^ 32) (hu : un.toNat < y) (hy : y < radix) (hy' : 2 ^ 63 ≤ y) :
    ∃ q n, divDigitCounted un v1 v0 next = .ok (q, n) ∧
      q.toNat = (un.toNat * 2 ^ 32 + next.toNat) / y ∧ n ≤ 2 := by
  have hv1 : 2 ^ 31 ≤ v1.toNat := by omega
  have hlt : v1.toNat < 2 ^ 32 := by rw [radix] at hy; omega
  have hdm := Nat.div_add_mod un.toNat v1.toNat
  have hmod := Nat.mod_lt un.toNat (show 0 < v1.toNat by omega)
  have hq : (un / v1).toNat = un.toNat / v1.toNat := BitVec.toNat_udiv
  have hr : (un - un / v1 * v1).toNat = un.toNat % v1.toNat := by
    refine toNat_sub_mul (Nat.mod_eq_of_lt (toNat_lt_radix un)).symm ?_ (by rw [radix]; omega)
    rw [hq, Nat.mul_comm, hdm]
  have hguess : un.toNat / v1.toNat ≤ 2 ^ 32 + 1 := by
    refine Nat.lt_succ_iff.mp (Nat.div_lt_of_lt_mul ?_)
    calc un.toNat < y := hu
      _ = v1.toNat * 2 ^ 32 + v0.toNat := hv.symm
      _ ≤ v1.toNat * (2 ^ 32 + 1 + 1) := by omega
  obtain ⟨q, n, hrun, hval, hcount⟩ := divDigitLoopCounted_eq hv hv0 hnext hu hy 3
    (q := un / v1) (r := un - un / v1 * v1) (by rw [hq, hr, Nat.mul_comm, hdm])
    (by rw [hq, ← hv]; exact LongDivision.div_le_top (by omega) hnext _) (by rw [hq]; exact hguess)
    (by rw [hr]; omega) (by omega)
  refine ⟨q, n, hrun, hval, ?_⟩
  -- the guess times the low half is less than two divisors
  have hlow : un.toNat / v1.toNat * v0.toNat ≤ 2 * (v1.toNat * 2 ^ 32 + v0.toNat) := by
    rw [hv]
    calc un.toNat / v1.toNat * v0.toNat
        ≤ (2 ^ 32 + 1) * (2 ^ 32 - 1) := Nat.mul_le_mul hguess (by omega)
      _ ≤ 2 * 2 ^ 63 := by decide
      _ ≤ 2 * y := Nat.mul_le_mul_left 2 hy'
  have htwo := LongDivision.top_le_div_add_two (by omega)
    (Nat.div_mul_le_self un.toNat v1.toNat) hlow next.toNat
  rw [hv, ← hval, ← hq] at htwo
  omega

/-- A word as its two halves. -/
theorem toNat_halves (x : Word) :
    (x >>> 32).toNat * 2 ^ 32 + (x &&& ((1#64 <<< 32) - 1)).toNat = x.toNat ∧
      (x &&& ((1#64 <<< 32) - 1)).toNat < 2 ^ 32 ∧ (x >>> 32).toNat < 2 ^ 32 := by
  have hx := x.isLt
  rw [toNat_and_mask32, toNat_shr]
  exact ⟨by omega, by omega, by omega⟩

/-- The remainder after a half-word digit. -/
theorem toNat_next {un q y next : Word} (hq : q.toNat = (un.toNat * 2 ^ 32 + next.toNat) / y.toNat)
    (hy : 0 < y.toNat) :
    (un * (1#64 <<< 32) + next - q * y).toNat = (un.toNat * 2 ^ 32 + next.toNat) % y.toNat := by
  refine toNat_sub_mul (n := un.toNat * 2 ^ 32 + next.toNat) ?_ ?_
    ((Nat.mod_lt _ hy).trans (toNat_lt_radix y))
  · rw [BitVec.toNat_add, BitVec.toNat_mul, toNat_two32, radix, Nat.mod_add_mod]
  · rw [hq, Nat.mul_comm, Nat.div_add_mod]

/-- Shifting the dividend and the divisor by the same bits. -/
theorem div_mod_shift {x y s q r : Nat} (hq : q = x * 2 ^ s / (y * 2 ^ s))
    (hr : r = x * 2 ^ s % (y * 2 ^ s)) : q = x / y ∧ r / 2 ^ s = x % y := by
  have hpos : 0 < 2 ^ s := by positivity
  rw [hq, hr, Nat.mul_div_mul_right _ _ hpos, Nat.mul_mod_mul_right, Nat.mul_div_cancel _ hpos]
  exact ⟨rfl, rfl⟩

/-- What `nlz` gives for a divisor. -/
theorem nlz_spec {y : Word} (hy : y ≠ 0) :
    ∃ s, nlz y = .ok s ∧ s < 64 ∧ (y <<< s).toNat = y.toNat * 2 ^ s ∧
      y.toNat * 2 ^ s < radix ∧ 2 ^ 63 ≤ y.toNat * 2 ^ s := by
  obtain ⟨hs, hlt, hge⟩ := nlz_shift hy
  exact ⟨_, nlz_eq y, hs, toNat_shl hlt, hlt, hge⟩

/-- The two digits of `U64Div`, for a divisor whose top bit is set. -/
theorem divDigits_eq {un32 d : Word} (hu : un32.toNat < d.toNat) (hd63 : 2 ^ 63 ≤ d.toNat)
    (un10 : Word) :
    ∃ q1 n1 q0 n0, n1 ≤ 2 ∧ n0 ≤ 2 ∧
      divDigitCounted un32 (d >>> 32) (d &&& ((1#64 <<< 32) - 1)) (un10 >>> 32) =
        .ok (q1, n1) ∧
      divDigitCounted (un32 * (1#64 <<< 32) + un10 >>> 32 - q1 * d) (d >>> 32)
        (d &&& ((1#64 <<< 32) - 1)) (un10 &&& ((1#64 <<< 32) - 1)) = .ok (q0, n0) ∧
      (q1 * (1#64 <<< 32) + q0).toNat = (un32.toNat * radix + un10.toNat) / d.toNat ∧
      ((un32 * (1#64 <<< 32) + un10 >>> 32 - q1 * d) * (1#64 <<< 32) +
        (un10 &&& ((1#64 <<< 32) - 1)) - q0 * d).toNat =
        (un32.toNat * radix + un10.toNat) % d.toNat := by
  have hdpos : 0 < d.toNat := Nat.zero_lt_of_lt hu
  obtain ⟨hun, hun0, hun1⟩ := toNat_halves un10
  obtain ⟨hd, hd0, -⟩ := toNat_halves d
  generalize un10 >>> 32 = w1 at *
  generalize un10 &&& ((1#64 <<< 32) - 1) = w0 at *
  obtain ⟨q1, n1, hq1, hq1v, hn1⟩ := divDigitCounted_eq hd hd0 hun1 hu (toNat_lt_radix d) hd63
  have hun21 := toNat_next hq1v hdpos
  have hu21 : (un32 * (1#64 <<< 32) + w1 - q1 * d).toNat < d.toNat := by
    rw [hun21]
    exact Nat.mod_lt _ hdpos
  obtain ⟨q0, n0, hq0, hq0v, hn0⟩ := divDigitCounted_eq hd hd0 hun0 hu21 (toNat_lt_radix d) hd63
  have hq1lt : q1.toNat < 2 ^ 32 := hq1v ▸ LongDivision.digit_lt hun1 hu
  have hq0lt : q0.toNat < 2 ^ 32 := hq0v ▸ LongDivision.digit_lt hun0 hu21
  have hmul : (q1 * (1#64 <<< 32)).toNat = q1.toNat * 2 ^ 32 := by
    rw [toNat_mul_lt (by rw [toNat_two32, radix]; omega), toNat_two32]
  have hX : un32.toNat * radix + un10.toNat =
      (un32.toNat * 2 ^ 32 + w1.toNat) * 2 ^ 32 + w0.toNat := by
    rw [← hun, radix]
    ring
  refine ⟨q1, n1, q0, n0, hn1, hn0, hq1, hq0, ?_, ?_⟩
  · rw [toNat_add_lt (by rw [hmul, radix]; omega), hmul, hX, LongDivision.div_digit hdpos,
      ← hq1v, ← hun21, ← hq0v]
  · rw [toNat_next hq0v hdpos, hX, LongDivision.mod_digit (a := un32.toNat * 2 ^ 32 + w1.toNat),
      ← hun21]

/-- What `U64Div` computes, and on the way: how many rounds its two loops take, and by how much it
shifts. -/
structure CountedDiv where
  quotient : Word
  rem : Word
  rounds1 : Nat
  rounds0 : Nat
  shifts : List Nat

/-- `U64Div(hi, lo, y)`, with what happens on the way. -/
def u64DivCounted (hi lo y : Word) : Run CountedDiv := do
  Run.assert (y ≠ 0)
  Run.assert (hi < y)
  if hi = 0 then
    .ok ⟨lo / y, lo % y, 0, 0, []⟩
  else
    let s ← nlz y
    let y := y <<< s
    let two32 : Word := 1#64 <<< 32
    let mask32 := two32 - 1
    let yn1 := y >>> 32
    let yn0 := y &&& mask32
    let un32 := if s ≠ 0 then hi <<< s ||| lo >>> (64 - s) else hi <<< s
    let un10 := if s < 64 then lo <<< s else 0
    let un1 := un10 >>> 32
    let un0 := un10 &&& mask32
    let (q1, rounds1) ← divDigitCounted un32 yn1 yn0 un1
    let un21 := un32 * two32 + un1 - q1 * y
    let (q0, rounds0) ← divDigitCounted un21 yn1 yn0 un0
    .ok ⟨q1 * two32 + q0, (un21 * two32 + un0 - q0 * y) >>> s, rounds1, rounds0,
      [s, 32, 32, s] ++ (if s ≠ 0 then [64 - s] else []) ++ [s, 32, s]⟩

theorem u64Div_of_counted {hi lo y : Word} {t : CountedDiv} (h : u64DivCounted hi lo y = .ok t) :
    u64Div hi lo y = .ok (t.quotient, t.rem) := by
  obtain ⟨_, h1, h⟩ := Run.bind_eq_ok_iff.mp h
  obtain ⟨_, h2, h⟩ := Run.bind_eq_ok_iff.mp h
  rw [u64Div, h1, Run.ok_bind, h2, Run.ok_bind]
  split at h
  · next h0 =>
    rw [if_pos h0, ← Except.ok.inj h]
  · next h0 =>
    rw [if_neg h0]
    obtain ⟨s, hs, h⟩ := Run.bind_eq_ok_iff.mp h
    obtain ⟨⟨q1, n1⟩, hq1, h⟩ := Run.bind_eq_ok_iff.mp h
    obtain ⟨⟨q0, n0⟩, hq0, h⟩ := Run.bind_eq_ok_iff.mp h
    refine Run.bind_of_eq hs (Run.bind_of_eq (divDigitLoop_of_counted hq1)
      (Run.bind_of_eq (divDigitLoop_of_counted hq0) ?_))
    rw [← Except.ok.inj h]

/-- The division with its counts. -/
theorem u64DivCounted_eq {hi y : Word} (lo : Word) (hlt : hi.toNat < y.toNat) :
    ∃ t, u64DivCounted hi lo y = .ok t ∧
      t.quotient.toNat = (hi.toNat * radix + lo.toNat) / y.toNat ∧
      t.rem.toNat = (hi.toNat * radix + lo.toNat) % y.toNat ∧
      t.rounds1 ≤ 2 ∧ t.rounds0 ≤ 2 ∧ ∀ s ∈ t.shifts, s < 64 := by
  have hltw : hi < y := BitVec.lt_def.mpr hlt
  have hy : y ≠ 0 := by
    rintro rfl
    exact absurd hlt (Nat.not_lt_zero _)
  rw [u64DivCounted, decide_eq_true hy, decide_eq_true hltw, Run.assert_true, Run.ok_bind,
    Run.ok_bind]
  by_cases h0 : hi = 0
  · rw [if_pos h0]
    refine ⟨_, rfl, ?_, ?_, Nat.zero_le _, Nat.zero_le _, by simp⟩
    · rw [h0, word_zero, Nat.zero_mul, Nat.zero_add]
      exact BitVec.toNat_udiv
    · rw [h0, word_zero, Nat.zero_mul, Nat.zero_add]
      exact BitVec.toNat_umod
  · rw [if_neg h0]
    obtain ⟨s, hs, hs64, hshl, hfit, htop⟩ := nlz_spec hy
    refine Exists.imp (fun t => And.imp_left (Run.bind_of_eq hs)) ?_
    dsimp only
    have hshifts : ∀ k ∈ [s, 32, 32, s] ++ (if s ≠ 0 then [64 - s] else []) ++ [s, 32, s],
        k < 64 := by
      intro k hk
      split at hk
      · simp only [List.cons_append, List.nil_append, List.mem_cons, List.not_mem_nil,
          or_false] at hk
        omega
      · simp only [List.cons_append, List.nil_append, List.mem_cons, List.not_mem_nil,
          or_false] at hk
        omega
    generalize [s, 32, 32, s] ++ (if s ≠ 0 then [64 - s] else []) ++ [s, 32, s] = shifts at *
    -- the shifted dividend, in one word and two half words
    have hpair := shl_pair lo hs64
      ((Nat.mul_le_mul_right _ hlt).trans hfit.le)
    have hun32 : (if s ≠ 0 then hi <<< s ||| lo >>> (64 - s) else hi <<< s) =
        if s ≠ 0 then hi <<< s ||| lo >>> (64 - s) else hi := by
      split
      · rfl
      · next h => rw [Classical.not_not.mp h, BitVec.shiftLeft_zero]
    have hun10 : (if s < 64 then lo <<< s else 0) = if s ≠ 0 then lo <<< s else lo := by
      rw [if_pos hs64]
      split
      · rfl
      · next h => rw [Classical.not_not.mp h, BitVec.shiftLeft_zero]
    rw [hun32, hun10]
    generalize (if s ≠ 0 then hi <<< s ||| lo >>> (64 - s) else hi) = un32 at *
    generalize (if s ≠ 0 then lo <<< s else lo) = un10 at *
    generalize hy' : y <<< s = d at *
    have hu32 : un32.toNat < d.toNat := hshl ▸ pair_lt hpair (toNat_lt_radix lo) hlt
    obtain ⟨q1, n1, q0, n0, hn1, hn0, hq1, hq0, hq, hr⟩ := divDigits_eq hu32 (hshl ▸ htop) un10
    refine ⟨_, Run.bind_of_eq hq1 (Run.bind_of_eq hq0 rfl), ?_⟩
    dsimp only
    rw [toNat_shr, hr]
    rw [hpair, hshl] at hq hr
    rw [hpair, hshl]
    obtain ⟨hquo, hrem⟩ := div_mod_shift hq rfl
    exact ⟨hquo, hrem, hn1, hn0, hshifts⟩

/-- **`U64Div` divides two words by one.** -/
theorem u64Div_eq {hi y : Word} (lo : Word) (hlt : hi.toNat < y.toNat) :
    ∃ q r, u64Div hi lo y = .ok (q, r) ∧ q.toNat = (hi.toNat * radix + lo.toNat) / y.toNat ∧
      r.toNat = (hi.toNat * radix + lo.toNat) % y.toNat := by
  obtain ⟨t, ht, hq, hr, -⟩ := u64DivCounted_eq lo hlt
  exact ⟨t.quotient, t.rem, u64Div_of_counted ht, hq, hr⟩

/-- **128 by 64 bits**: the quotient and the remainder are exact, although the products and the
differences wrap; each loop takes two rounds at most, and every shift is by less than 64. -/
theorem u64Div_exact (hi lo y : Word) (hlt : hi.toNat < y.toNat) :
    Run.Returns (u64DivCounted hi lo y) (fun t =>
      u64Div hi lo y = .ok (t.quotient, t.rem) ∧
      hi.toNat * 2 ^ 64 + lo.toNat = t.quotient.toNat * y.toNat + t.rem.toNat ∧
      t.rem.toNat < y.toNat ∧ t.rounds1 ≤ 2 ∧ t.rounds0 ≤ 2 ∧ ∀ s ∈ t.shifts, s < 64) := by
  obtain ⟨t, ht, hq, hr, hrest⟩ := u64DivCounted_eq lo hlt
  refine ⟨t, ht, u64Div_of_counted ht, ?_, ?_, hrest⟩
  · rw [hq, hr, Nat.mul_comm _ y.toNat, Nat.div_add_mod]
    rfl
  · rw [hr]
    exact Nat.mod_lt _ (Nat.zero_lt_of_lt hlt)

/-- `2^126 - 1` by `2^62 + 2^32 - 1`: the guess for the first half is too large by two. -/
theorem u64Div_exact_two_rounds :
    Run.Returns (u64DivCounted 0x3fffffffffffffff 0xffffffffffffffff 0x40000000ffffffff)
      (fun t => u64Div 0x3fffffffffffffff 0xffffffffffffffff 0x40000000ffffffff =
          .ok (t.quotient, t.rem) ∧
        (0x3fffffffffffffff : Word).toNat * 2 ^ 64 + (0xffffffffffffffff : Word).toNat =
          t.quotient.toNat * (0x40000000ffffffff : Word).toNat + t.rem.toNat ∧
        t.rem.toNat < (0x40000000ffffffff : Word).toNat ∧ t.rounds1 ≤ 2 ∧ t.rounds0 ≤ 2 ∧
        ∀ s ∈ t.shifts, s < 64) :=
  u64Div_exact _ _ _ (by decide)

/-! ## 3. The reciprocal -/

/-- `m` is the reciprocal of the divisor `d`: its low word, for the high one is 1. -/
def IsReciprocal (m : Word) (d : Nat) : Prop := m.toNat + radix = (radix * radix - 1) / d

/-- **`reciprocalWord`** computes the reciprocal of the shifted divisor. -/
theorem reciprocalWord_eq {y : Word} {s : Nat} (hy : y ≠ 0) (hs : nlz y = .ok s) :
    ∃ m, reciprocalWord y = .ok m ∧ IsReciprocal m (y.toNat * 2 ^ s) := by
  obtain ⟨s', hs', -, hshl, hfit, htop⟩ := nlz_spec hy
  obtain rfl : s = s' := Except.ok.inj (hs.symm.trans hs')
  generalize hd : y <<< s = d at *
  have hnot : (~~~d).toNat = radix - 1 - d.toNat := BitVec.toNat_not
  have hones : (BitVec.allOnes 64).toNat = radix - 1 := BitVec.toNat_allOnes
  have hd63 : 2 ^ 63 ≤ d.toNat := hshl ▸ htop
  have hdlt : d.toNat < radix := toNat_lt_radix d
  have hne : d ≠ 0 := by
    rintro rfl
    rw [word_zero] at hd63
    omega
  have hlt : (~~~d).toNat < d.toNat := by
    rw [hnot]
    rw [radix] at *
    omega
  obtain ⟨q, r, hq, hqv, -⟩ := u64Div_eq (BitVec.allOnes 64) hlt
  refine ⟨q, ?_, ?_⟩
  · rw [reciprocalWord]
    refine Run.bind_of_eq hs ?_
    rw [hd]
    exact Run.bind_of_eq hq rfl
  · have hx : (radix - 1 - d.toNat) * radix + (radix - 1) + d.toNat * radix =
        radix * radix - 1 := by
      obtain ⟨k, hk⟩ := Nat.exists_eq_add_of_lt hdlt
      have h1 : radix - 1 - d.toNat = k := by omega
      have h2 : radix * radix = k * radix + radix + d.toNat * radix := by
        nth_rewrite 1 [hk]
        ring
      rw [h1, h2]
      have := radix_pos
      omega
    rw [IsReciprocal, ← hshl, hqv, hnot, hones, ← hx, Nat.add_mul_div_left _ _ (by omega)]

/-- The guess of `divWW`. -/
theorem divWW_guess {d m : Word} (x1 x0 : Word) (hm : IsReciprocal m d.toNat)
    (hq : ((radix * radix - 1) / d.toNat * x1.toNat + x0.toNat) / radix < radix) :
    (u64Add (u64Mul m x1).2 x1 (u64Add (u64Mul m x1).1 x0 0).2).1.toNat =
      ((radix * radix - 1) / d.toNat * x1.toNat + x0.toNat) / radix := by
  have hmul := u64Mul_eq m x1
  have hlow := u64Add_eq (u64Mul m x1).1 x0 0 (by decide)
  have hc := u64Add_carry_le (u64Mul m x1).1 x0 0 (by decide)
  have hhigh := u64Add_eq (u64Mul m x1).2 x1 (u64Add (u64Mul m x1).1 x0 0).2 hc
  generalize u64Mul m x1 = t at *
  generalize u64Add t.1 x0 0 = l at *
  generalize u64Add t.2 x1 l.2 = g at *
  have hl1 := toNat_lt_radix l.1
  rw [← hm] at hq ⊢
  rw [word_zero, Nat.add_zero] at hlow
  have hsum : (m.toNat + radix) * x1.toNat + x0.toNat =
      radix * (t.2.toNat + x1.toNat + l.2.toNat) + l.1.toNat := by
    linear_combination -hmul - hlow
  have hdiv : ((m.toNat + radix) * x1.toNat + x0.toNat) / radix =
      t.2.toNat + x1.toNat + l.2.toNat := by
    rw [hsum, Nat.mul_add_div radix_pos, Nat.div_eq_of_lt hl1, Nat.add_zero]
  rw [hdiv] at hq ⊢
  rw [← hhigh] at hq ⊢
  rcases Nat.eq_zero_or_pos g.2.toNat with h0 | hpos
  · rw [h0, Nat.mul_zero, Nat.add_zero]
  · have := Nat.le_mul_of_pos_right radix hpos
    omega

/-- What the guess of `divWW` leaves, in two words. -/
theorem divWW_rest {x1 x0 d q : Word} {r : Nat}
    (hr : d.toNat * q.toNat + r = x1.toNat * radix + x0.toNat) :
    (u64Sub x0 (u64Mul d q).1 0).1.toNat +
      radix * (u64Sub x1 (u64Mul d q).2 (u64Sub x0 (u64Mul d q).1 0).2).1.toNat = r := by
  have hmul := u64Mul_eq d q
  have hlow := u64Sub_eq x0 (u64Mul d q).1 0 (by decide)
  have hc := u64Sub_borrow_le x0 (u64Mul d q).1 0 (by decide)
  have hhigh := u64Sub_eq x1 (u64Mul d q).2 (u64Sub x0 (u64Mul d q).1 0).2 hc
  generalize u64Mul d q = t at *
  generalize u64Sub x0 t.1 0 = l at *
  generalize u64Sub x1 t.2 l.2 = g at *
  have hl1 := toNat_lt_radix l.1
  have hg1 := toNat_lt_radix g.1
  rw [word_zero, Nat.add_zero] at hlow
  have hall : l.1.toNat + radix * g.1.toNat = r + radix * radix * g.2.toNat := by
    linear_combination hlow + radix * hhigh - hmul - hr
  rcases Nat.eq_zero_or_pos g.2.toNat with h0 | hpos
  · rw [h0, Nat.mul_zero, Nat.add_zero] at hall
    exact hall
  · have h1 := Nat.le_mul_of_pos_right (radix * radix) hpos
    have h2 : radix * g.1.toNat + radix ≤ radix * radix := by
      rw [← Nat.mul_succ]
      exact Nat.mul_le_mul_left radix hg1
    omega

/-- The two corrections of `divWW`, for a rest of two words. -/
theorem divWW_correct {d q r0 r1 : Word} {x : Nat} (hd63 : 2 ^ 63 ≤ d.toNat)
    (hx : d.toNat * q.toNat + (r0.toNat + radix * r1.toNat) = x) (hxd : x < radix * d.toNat)
    (hlt : r0.toNat + radix * r1.toNat < radix + d.toNat) :
    let p := if r1 ≠ 0 then (q + 1, r0 - d) else (q, r0)
    let p' := if d ≤ p.2 then (p.1 + 1, p.2 - d) else (p.1, p.2)
    p'.1.toNat = x / d.toNat ∧ p'.2.toNat = x % d.toNat := by
  intro p p'
  have hdlt := toNat_lt_radix d
  have hr0 := toNat_lt_radix r0
  -- the first correction leaves one word
  have hp : d.toNat * p.1.toNat + p.2.toNat = x ∧ p.2.toNat < 2 * d.toNat := by
    by_cases h : r1 = 0
    · have hpe : p = (q, r0) := if_neg (not_not_intro h)
      rw [hpe]
      rw [h, word_zero, Nat.mul_zero, Nat.add_zero] at hx
      refine ⟨hx, ?_⟩
      rw [radix] at hr0
      omega
    · have hpe : p = (q + 1, r0 - d) := if_pos h
      have hone : r1.toNat = 1 := by
        have h0 : r1.toNat ≠ 0 := fun h0 => h (BitVec.eq_of_toNat_eq h0)
        have h2 : r1.toNat < 2 := by
          refine Nat.lt_of_mul_lt_mul_left (a := radix) ?_
          omega
        omega
      rw [hone, Nat.mul_one] at hx hlt
      have hq1 : q.toNat + 1 < radix := by
        refine Nat.lt_of_mul_lt_mul_left (a := d.toNat) ?_
        rw [Nat.mul_succ, Nat.mul_comm d.toNat radix]
        omega
      have hq : (q + 1).toNat = q.toNat + 1 := toNat_add_lt hq1
      have hr : (r0 - d).toNat = r0.toNat + radix - d.toNat := by
        rw [BitVec.toNat_sub, ← radix, Nat.mod_eq_of_lt (by omega)]
        omega
      rw [hpe, hq, hr, Nat.mul_succ]
      omega
  obtain ⟨hpx, hp2⟩ := hp
  -- the second one leaves less than the divisor
  have hp' : d.toNat * p'.1.toNat + p'.2.toNat = x ∧ p'.2.toNat < d.toNat := by
    by_cases h : d ≤ p.2
    · have hpe : p' = (p.1 + 1, p.2 - d) := if_pos h
      rw [BitVec.le_def] at h
      have hq1 : p.1.toNat + 1 < radix := by
        refine Nat.lt_of_mul_lt_mul_left (a := d.toNat) ?_
        rw [Nat.mul_succ, Nat.mul_comm d.toNat radix]
        omega
      rw [hpe, toNat_add_lt hq1, toNat_sub_le h, word_one, Nat.mul_succ]
      omega
    · have hpe : p' = p := if_neg h
      rw [BitVec.le_def] at h
      rw [hpe]
      omega
  obtain ⟨hx', hlt''⟩ := hp'
  rw [← hx', Nat.mul_add_div (by omega), Nat.div_eq_of_lt hlt'', Nat.mul_add_mod,
    Nat.mod_eq_of_lt hlt'']
  exact ⟨rfl, rfl⟩

/-- **`divWW` divides two words by one**, given the reciprocal. -/
theorem divWW_eq {x1 y m : Word} {s : Nat} (x0 : Word) (hy : y ≠ 0) (hs : nlz y = .ok s)
    (hm : IsReciprocal m (y.toNat * 2 ^ s)) (hlt : x1.toNat < y.toNat) :
    ∃ q r, divWW x1 x0 y m = .ok (q, r) ∧ q.toNat = (x1.toNat * radix + x0.toNat) / y.toNat ∧
      r.toNat = (x1.toNat * radix + x0.toNat) % y.toNat := by
  obtain ⟨s', hs', hs64, hshl, hfit, htop⟩ := nlz_spec hy
  obtain rfl : s = s' := Except.ok.inj (hs.symm.trans hs')
  have hpair := shl_pair x0 hs64 ((Nat.mul_le_mul_right _ hlt).trans hfit.le)
  have hd : (if s ≠ 0 then y <<< s else y) = y <<< s := by
    split
    · rfl
    · next h => rw [Classical.not_not.mp h, BitVec.shiftLeft_zero]
  refine Exists.imp (fun q => Exists.imp fun r => And.imp_left (Run.bind_of_eq hs)) ?_
  dsimp only
  rw [hd]
  generalize (if s ≠ 0 then x1 <<< s ||| x0 >>> (64 - s) else x1) = h1 at *
  generalize (if s ≠ 0 then x0 <<< s else x0) = h0 at *
  rw [← hshl] at hm hfit htop
  generalize y <<< s = d at *
  have hdpos : 0 < d.toNat := by omega
  have hh1 : h1.toNat < d.toNat := hshl ▸ pair_lt hpair (toNat_lt_radix x0) hlt
  have hxd : h1.toNat * radix + h0.toNat < radix * d.toNat := by
    have := Nat.mul_le_mul_right radix (Nat.succ_le_of_lt hh1)
    have := toNat_lt_radix h0
    rw [Nat.succ_mul] at *
    rw [Nat.mul_comm radix]
    omega
  obtain ⟨r, hr, hrb⟩ := LongDivision.recip_bounds hdpos hfit.le hh1 (toNat_lt_radix h0)
  have hguess := divWW_guess h1 h0 hm (by
    refine Nat.lt_of_mul_lt_mul_left (a := d.toNat) ?_
    rw [Nat.mul_comm d.toNat radix]
    omega)
  rw [← hguess] at hr
  generalize (u64Add (u64Mul m h1).2 h1 (u64Add (u64Mul m h1).1 h0 0).2).1 = qq at *
  have hrest := divWW_rest hr
  rw [← hrest] at hr hrb
  obtain ⟨hq, hrem⟩ := divWW_correct htop hr hxd hrb
  refine ⟨_, _, rfl, ?_⟩
  rw [toNat_shr, hrem]
  rw [hpair, hshl] at hq ⊢
  exact div_mod_shift hq rfl

/-! ## 4. Vectors by one word -/

/-- The loop of `natDivWVW`: the words from the top down to `i` have been divided and left `r`. -/
theorem natDivWVWLoop_eq {x : List Word} {y m : Word} {s : Nat} (hy : y ≠ 0)
    (hs : nlz y = .ok s) (hm : IsReciprocal m (y.toNat * 2 ^ s)) :
    ∀ {i : Nat} {r : Word} {z : List Word}, i ≤ x.length → i ≤ z.length → r.toNat < y.toNat →
      ∃ r' z', natDivWVWLoop x y m i r z = .ok (r', z') ∧ z'.length = z.length ∧
        z'.drop i = z.drop i ∧
        value (z'.take i) = (r.toNat * radix ^ i + value (x.take i)) / y.toNat ∧
        r'.toNat = (r.toNat * radix ^ i + value (x.take i)) % y.toNat
  | 0, r, z, _, _, hr => by
    refine ⟨r, z, rfl, rfl, rfl, ?_, ?_⟩
    · simp [Nat.div_eq_of_lt hr]
    · simp [Nat.mod_eq_of_lt hr]
  | i + 1, r, z, hx, hz, hr => by
    have hypos : 0 < y.toNat := Nat.zero_lt_of_lt hr
    have hxi : i < x.length := hx
    have hzi : i < z.length := hz
    obtain ⟨q, r1, hdiv, hq, hr1⟩ := divWW_eq x[i] hy hs hm hr
    obtain ⟨r', z', hloop, hzl, hzd, hzv, hrv⟩ := natDivWVWLoop_eq hy hs hm (z := z.set i q)
      hxi.le (by rw [List.length_set]; exact hzi.le)
      (show r1.toNat < y.toNat by rw [hr1]; exact Nat.mod_lt _ hypos)
    -- the dividend, with its upper word split off
    have hall : r.toNat * radix ^ (i + 1) + value (x.take (i + 1)) =
        (r.toNat * radix + x[i].toNat) * radix ^ i + value (x.take i) := by
      rw [value_take_succ hxi]
      ring
    refine ⟨r', z', ?_, by rw [hzl, List.length_set], ?_, ?_, ?_⟩
    · rw [natDivWVWLoop]
      refine Run.bind_of_eq (Run.read_eq_ok (List.getElem?_eq_getElem hxi))
        (Run.bind_of_eq hdiv (Run.bind_of_eq (Run.write_eq_ok hzi q) hloop))
    · rw [← List.drop_drop, hzd, List.drop_drop, List.drop_set_of_lt (Nat.lt_succ_self i)]
    · have hget : z'.drop i = q :: z.drop (i + 1) := by
        rw [hzd, List.drop_eq_getElem_cons (by rw [List.length_set]; exact hzi),
          List.getElem_set_self, List.drop_set_of_lt (Nat.lt_succ_self i)]
      have hzl' : i ≤ z'.length := by rw [hzl, List.length_set]; exact hzi.le
      rw [value_take_add z' hzl', hget, List.take_succ_cons, List.take_zero, value_cons,
        value_nil, hzv, hall,
        LongDivision.div_digit (a := r.toNat * radix + x[i].toNat) hypos, hr1, hq, Nat.mul_zero,
        Nat.add_zero, Nat.add_comm, Nat.mul_comm (radix ^ i)]
    · rw [hrv, hall, hr1, ← LongDivision.mod_digit]

/-- **`natDivWVW` divides by a word**, by either of its ways, and leaves the words above. -/
theorem natDivWVW_eq {z x : CNat} {xn y : Word} (hz : z.Valid) (hx : x.Valid)
    (hlen : z.len = x.len) (hlt : xn.toNat < y.toNat) :
    ∃ r z', natDivWVW z xn x y = .ok (r, z') ∧ z'.length = z.data.length ∧
      z'.drop x.len = z.data.drop x.len ∧
      value (z'.take x.len) = (xn.toNat * radix ^ x.len + x.val) / y.toNat ∧
      r.toNat = (xn.toNat * radix ^ x.len + x.val) % y.toNat := by
  have hy : y ≠ 0 := by
    rintro rfl
    exact absurd hlt (Nat.not_lt_zero _)
  have hzl : z.len ≤ z.data.length := hz
  have hxl : x.len ≤ x.data.length := hx
  rw [natDivWVW]
  by_cases h1 : x.len = 1
  · have hx0 : 0 < x.data.length := by omega
    have hz0 : 0 < z.data.length := by omega
    obtain ⟨q, r, hdiv, hq, hr⟩ := u64Div_eq x.data[0] hlt
    have hval : x.val = x.data[0].toNat := by
      rw [CNat.val, CNat.words, h1, List.take_succ_eq_append_getElem hx0]
      simp
    rw [if_pos h1, h1, pow_one, hval]
    refine ⟨r, z.data.set 0 q, ?_, List.length_set, ?_, ?_, hr⟩
    · exact Run.bind_of_eq (Run.read_eq_ok (List.getElem?_eq_getElem hx0))
        (Run.bind_of_eq hdiv (Run.bind_of_eq (Run.write_eq_ok hz0 q) rfl))
    · exact List.drop_set_of_lt (Nat.zero_lt_one)
    · rw [List.take_succ_eq_append_getElem (by rw [List.length_set]; exact hz0),
        List.getElem_set_self, ← hq]
      simp
  · rw [if_neg h1]
    obtain ⟨s, hs, -⟩ := nlz_spec hy
    obtain ⟨m, hrec, hm⟩ := reciprocalWord_eq hy hs
    obtain ⟨r, z', hloop, hrest⟩ := natDivWVWLoop_eq (x := x.data) (z := z.data) hy hs hm hxl
      (by omega) hlt
    exact ⟨r, z', Run.bind_of_eq hrec (by rw [hlen]; exact hloop), hrest⟩

/-- **`natDivW` divides by a word** above 1, and stores the remainder. -/
theorem natDivW_eq {x : CNat} {y : Word} (r : Word) (hx : x.Valid) (hpos : 0 < x.len)
    (hy : y ≠ 0) (hy1 : y ≠ 1) :
    ∃ q r', natDivW x y r = .ok (q, r') ∧ Clean q ∧ q.val = x.val / y.toNat ∧
      r'.toNat = x.val % y.toNat ∧ q.data.length = x.len := by
  have hypos : (0 : Word).toNat < y.toNat :=
    Nat.pos_of_ne_zero fun h => hy (BitVec.eq_of_toNat_eq h)
  obtain ⟨r', z', hrun, hzl, -, hzv, hrv⟩ := natDivWVW_eq (valid_natNewLen x.len) hx rfl hypos
  rw [natNewLen_data, List.length_replicate] at hzl
  rw [word_zero, Nat.zero_mul, Nat.zero_add] at hzv hrv
  obtain ⟨q, hq, hqd, -, -, hqv, hqn, hqval⟩ := natNorm_eq (p := ⟨z', x.len, x.len⟩) hzl.ge
  refine ⟨q, r', ?_, ⟨hqv, hqn⟩, hqval.trans hzv, hrv, by rw [hqd]; exact hzl⟩
  rw [natDivW]
  dsimp only
  rw [decide_eq_true hy, Run.assert_true, Run.ok_bind, if_neg hy1, if_neg hpos.ne']
  exact Run.bind_of_eq hrun (Run.bind_of_eq hq rfl)

/-- **Division with the reciprocal is division.**  Two words by one, and with it a vector by one
word, whichever way `natDivWVW` takes. -/
theorem reciprocal_exact (y : Word) (hy : y ≠ 0) :
    (∀ x1 x0 : Word, x1.toNat < y.toNat →
      Run.Returns (reciprocalWord y >>= divWW x1 x0 y) (fun p =>
        p.1.toNat = (x1.toNat * 2 ^ 64 + x0.toNat) / y.toNat ∧
        p.2.toNat = (x1.toNat * 2 ^ 64 + x0.toNat) % y.toNat)) ∧
    ∀ (z x : CNat) (xn : Word), z.Valid → x.Valid → z.len = x.len → 1 ≤ x.len →
      xn.toNat < y.toNat →
      Run.Returns (natDivWVW z xn x y) (fun p =>
        (⟨p.2, z.len, z.cap⟩ : CNat).val * y.toNat + p.1.toNat =
          xn.toNat * 2 ^ (64 * x.len) + x.val ∧ p.1.toNat < y.toNat) := by
  refine ⟨fun x1 x0 hlt => ?_, fun z x xn hz hx hlen _ hlt => ?_⟩
  · obtain ⟨s, hs, -⟩ := nlz_spec hy
    obtain ⟨m, hrec, hm⟩ := reciprocalWord_eq hy hs
    obtain ⟨q, r, hdiv, hq, hr⟩ := divWW_eq x0 hy hs hm hlt
    exact ⟨(q, r), Run.bind_of_eq hrec hdiv, hq, hr⟩
  · obtain ⟨r, z', hrun, -, -, hzv, hrv⟩ := natDivWVW_eq hz hx hlen hlt
    have hpow : (2 : Nat) ^ (64 * x.len) = radix ^ x.len := by rw [radix, ← pow_mul]
    refine ⟨(r, z'), hrun, ?_, ?_⟩
    · rw [CNat.val, CNat.words]
      dsimp only
      rw [hlen, hzv, hrv, hpow, Nat.mul_comm _ y.toNat, Nat.div_add_mod]
    · rw [hrv]
      exact Nat.mod_lt _ (Nat.zero_lt_of_lt hlt)

/-- By 10: `2^64 + 5`, and the two words 5 and 1 after a remainder of 9. -/
theorem reciprocal_exact_ten :
    Run.Returns (reciprocalWord 10 >>= divWW 1 5 10) (fun p =>
      p.1.toNat = ((1 : Word).toNat * 2 ^ 64 + (5 : Word).toNat) / (10 : Word).toNat ∧
      p.2.toNat = ((1 : Word).toNat * 2 ^ 64 + (5 : Word).toNat) % (10 : Word).toNat) ∧
    Run.Returns (natDivWVW ⟨[0, 0], 2, 2⟩ 9 ⟨[5, 1], 2, 2⟩ 10) (fun p =>
      (⟨p.2, 2, 2⟩ : CNat).val * (10 : Word).toNat + p.1.toNat =
        (9 : Word).toNat * 2 ^ (64 * 2) + (⟨[5, 1], 2, 2⟩ : CNat).val ∧
      p.1.toNat < (10 : Word).toNat) :=
  ⟨(reciprocal_exact 10 (by decide)).1 1 5 (by decide),
    (reciprocal_exact 10 (by decide)).2 ⟨[0, 0], 2, 2⟩ ⟨[5, 1], 2, 2⟩ 9 (by decide) (by decide) rfl
      (by decide) (by decide)⟩

end CDemo.BigInt
