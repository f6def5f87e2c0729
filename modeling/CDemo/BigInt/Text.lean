/-
# The text of a number

`BigInt2Text` and its two siblings return the numeral of a number: the sign, and the digits with no
zero in front.  There are two ways in which they do not.

* A zero that is a single word is not recognised: `natI2a` tests the length, and `natNew(0)` has
  one word.  No digit is written, or all of them are skipped, and what is left is the empty string
  or a minus sign.  `BigIntNewI(0)`, `BigIntNewU(0)` and a product with a zero are such numbers.
* For a base that is not a power of two, a square in the table or a division on the way goes
  wrong (`TextFits`).  No number of up to 129 words is concerned.
-/
import CDemo.BigInt.ConvBits

namespace CDemo.BigInt

/-! ## 1. Where the arithmetic is exact -/

/-- The products, squares and quotients that come out right. -/
def MulFine (x y : Nat) : Prop := x ≠ 0 ∧ y ≠ 0 ∧ ProductFits (wordLen x) (wordLen y) x y

def SqrFine (x : Nat) : Prop := x ≠ 0 ∧ SquareFits (wordLen x) x

def DivFine (u v : Nat) : Prop := 2 ≤ wordLen v ∧ v ≤ u ∧ LargeFits u v

theorem natNormLoop_le (data : List Word) :
    ∀ {n : Nat}, Run.Yields (natNormLoop data n) (fun i => i ≤ n)
  | 0 => .ok le_rfl
  | n + 1 => by
    refine .bind fun w _ => ?_
    split
    · exact fun i hi => (natNormLoop_le data i hi).trans (Nat.le_succ n)
    · exact .ok le_rfl

/-- `natNorm` stays within the capacity. -/
theorem natNorm_cap {p : CNat} (h : p.len ≤ p.cap) :
    Run.Yields (natNorm p) (fun q => q.len ≤ q.cap) :=
  .bind fun i hi => .ok ((natNormLoop_le p.data i hi).trans h)

theorem natSqrRest_shape (sqr : CNat → Run CNat) (k : Nat) (x x0 z : CNat) :
    Run.Yields (natSqrRest sqr k x x0 z) (fun z' => z'.len = z.len ∧ z'.cap = z.cap) := by
  rw [natSqrRest]
  split
  · exact .bind fun _ _ => .bind fun _ _ => .bind fun _ _ => .bind fun _ _ => .bind fun _ _ =>
      .bind fun _ _ => .bind fun _ _ => .ok ⟨rfl, rfl⟩
  · exact .ok ⟨rfl, rfl⟩

/-- A square stays within its capacity. -/
theorem natSqrRec_cap :
    ∀ (fuel : Nat) (x : CNat), Run.Yields (natSqrRec fuel x) (fun q => q.len ≤ q.cap)
  | 0, _ => .error
  | fuel + 1, x => by
    rw [natSqrRec]
    simp only
    split
    · exact .ok le_rfl
    split
    · exact .bind fun _ _ => natNorm_cap le_rfl
    split
    · exact .bind fun _ _ => natNorm_cap le_rfl
    split
    · exact .bind fun _ _ => natNorm_cap le_rfl
    · refine .bind fun _ _ => .bind fun _ _ => .bind fun z hz => .bind fun _ _ => .bind fun _ _ =>
        .bind fun z' hz' => natNorm_cap ?_
      obtain ⟨hlen, hcap⟩ := natSqrRest_shape _ _ _ _ _ z' hz'
      rw [natPart_eq _ (Nat.zero_le _), Except.ok.injEq] at hz
      rw [hlen, hcap, ← hz]

/-- A number that is not zero is normalised. -/
theorem Shaped.clean {x : CNat} (h : Shaped x) (h0 : x.val ≠ 0) : Clean x := by
  refine ⟨h.1, h.2.resolve_right fun hw => h0 ?_⟩
  rw [CNat.val, hw]
  rfl

theorem natMul_holds {x y : CNat} (hx : Shaped x) (hy : Shaped y) (h : MulFine x.val y.val) :
    Run.Returns (natMul x y) (Holds · (x.val * y.val)) := by
  obtain ⟨hx0, hy0, hfits⟩ := h
  have hxc := hx.clean hx0
  have hyc := hy.clean hy0
  have hxl : x.len ≠ 0 := fun h => hx0 (hxc.len_eq_zero_iff.mp h)
  have hyl : y.len ≠ 0 := fun h => hy0 (hyc.len_eq_zero_iff.mp h)
  rw [← hxc.len_eq, ← hyc.len_eq] at hfits
  obtain ⟨q, hq, hval, hroom⟩ := natMul_roomy hx.1 hy.1 ⟨hxl, fun _ => hx0⟩
    ⟨hyl, fun _ => hy0⟩ hfits
  refine ⟨q, hq, hroom.clean, le_trans ?_ hroom.cap, hval⟩
  rw [hroom.clean.len_eq, hval, wordLen_le_iff, pow_add]
  exact Nat.mul_lt_mul'' CNat.val_lt CNat.val_lt

theorem natSqr_holds {x : CNat} (hx : Shaped x) (h : SqrFine x.val) :
    Run.Returns (natSqr x) (Holds · (x.val * x.val)) := by
  obtain ⟨h0, hfits⟩ := h
  rw [← (hx.clean h0).len_eq] at hfits
  obtain ⟨q, hq, hclean, hval⟩ := natSqr_exact hx.1 hfits
  exact ⟨q, hq, hclean, natSqrRec_cap _ _ q hq, hval⟩

/-- What `natNorm` makes of a vector in a block. -/
theorem natNorm_block {p q : CNat} (hp : Backed p) (h : natNorm p = .ok q) : Backed q := by
  have hq := natNorm_len h
  refine ⟨natNorm_cap hp.1 q h, ?_⟩
  rw [← hq]
  exact hp.2

theorem natDiv_holds (r2 : Word) {z z2 u v : CNat} (hz : z.cap ≤ z.data.length)
    (hz2 : z2.cap ≤ z2.data.length) (hu : Clean u) (hv : Clean v) (h : DivFine u.val v.val) :
    Run.Returns (natDiv z z2 u v r2) (fun p =>
      Holds p.1 (u.val / v.val) ∧ Holds p.2 (u.val % v.val) ∧
        p.1.cap ≤ p.1.data.length ∧ p.2.cap ≤ p.2.data.length) := by
  obtain ⟨htwo, hle, hfits⟩ := h
  rw [← hv.len_eq] at htwo
  have hv0 : v.val ≠ 0 := fun h => by
    rw [hv.len_eq_zero_iff.mpr h] at htwo
    omega
  obtain ⟨e, he, hlt⟩ := natCmp_divisor hu.shaped hv hv0
  obtain ⟨run, ⟨hq, hr, hqv, hrv⟩, -⟩ := natDivLarge_run hz hz2 hu hv htwo hle hfits
  have hqb : Backed run.q := by
    have hmake := natMake_backed hz run.makeQ
    have hp : Backed ⟨run.qdata, run.q'.len, run.q'.cap⟩ :=
      ⟨hmake.1, by rw [run.length_qdata]; exact hmake.2⟩
    exact natNorm_block hp run.normQ
  have hrb : Backed run.r := by
    have hmake := natMake_backed hz2 run.makeU
    have hp : Backed ⟨run.back, run.u'.len, run.u'.cap⟩ :=
      ⟨hmake.1, by rw [run.length_back]; exact hmake.2⟩
    exact natNorm_block hp run.normR
  refine ⟨(run.q, run.r), ?_, ⟨hq, hqb.1, hqv⟩, ⟨hr, hrb.1, hrv⟩, hqb.2, hrb.2⟩
  rw [natDiv, decide_eq_true (by omega), Run.assert_true, Run.ok_bind]
  refine Run.bind_of_eq he ?_
  rw [if_neg (fun h => absurd (hlt.mp h) (Nat.not_lt.mpr hle)), if_neg (by omega)]
  exact run.natDivLarge_eq

/-- **The arithmetic of the library is exact where it fits.** -/
theorem natArith_exactOn (r2 : Word) : (natArith r2).ExactOn MulFine SqrFine DivFine where
  mul _ _ hx hy h := natMul_holds hx hy h
  sqr _ hx h := natSqr_holds hx h
  div _ _ _ _ hz hz2 hu hv _ h := natDiv_holds r2 hz hz2 hu hv h

/-! ## 2. Which numbers are concerned -/

/-- **Converting `v` to base `b` goes well**: unless `v` is short, the squares in the table and the
divisions on the way are exact. -/
def TextFits (b v : Nat) : Prop :=
  leafSize < wordLen v → ∀ bb ndigits k, maxPow (BitVec.ofNat 64 b) = .ok (bb, ndigits) →
    tableLen (wordLen v) (wordLen v + 1) leafSize 1 = .ok k →
    (∀ i, leafSize * 2 ^ i < wordLen v / 2 →
      SquareFits (wordLen (tablePower b (bb.toNat ^ leafSize) i))
        (tablePower b (bb.toNat ^ leafSize) i)) ∧
    ∀ u p, Splits (tablePower b (bb.toNat ^ leafSize)) v (k - 1) u p → LargeFits u p

/-- What is divided is long, and what it is divided by is the power picked for it. -/
theorem Splits.picked {P : Nat → Nat} {q index u p : Nat} (h : Splits P q index u p) :
    leafSize < wordLen u ∧ ∃ j ≤ index, p = P (pickPower P u j) := by
  induction h with
  | @here q index hlong => exact ⟨hlong, index, le_rfl, rfl⟩
  | @quotient q index u p _ _ ih =>
    obtain ⟨hlong, j, hj, hp⟩ := ih
    exact ⟨hlong, j, hj.trans (pickPower_le_index P q index), hp⟩
  | @remainder q index u p _ _ ih =>
    obtain ⟨hlong, j, hj, hp⟩ := ih
    exact ⟨hlong, j, (hj.trans (Nat.sub_le _ _)).trans (pickPower_le_index P q index), hp⟩

section

variable {b first : Nat}

theorem wordLen_grownPower (b v : Nat) : wordLen (grownPower b v) ≤ wordLen v :=
  wordLen_le_iff.mpr (grown_lt _ (lt_radix_pow_wordLen v))

/-- The powers double in length at most. -/
theorem wordLen_tablePower (hfirst : first < radix ^ leafSize) :
    ∀ i : Nat, wordLen (tablePower b first i) ≤ leafSize * 2 ^ i
  | 0 => (wordLen_grownPower b first).trans (wordLen_le_iff.mpr hfirst)
  | i + 1 => by
    have ih := wordLen_tablePower hfirst i
    have hlt := lt_radix_pow_wordLen (tablePower b first i)
    have hsqr : wordLen (tablePower b first i * tablePower b first i) ≤
        wordLen (tablePower b first i) + wordLen (tablePower b first i) := by
      rw [wordLen_le_iff, pow_add]
      exact Nat.mul_lt_mul'' hlt hlt
    have hpow : leafSize * 2 ^ (i + 1) = leafSize * 2 ^ i + leafSize * 2 ^ i := by ring
    have hgrown := wordLen_grownPower b (tablePower b first i * tablePower b first i)
    rw [tablePower]
    omega

/-- The powers have two words at least. -/
theorem two_le_wordLen_tablePower (hb : 1 ≤ b) (hfirst : radix ≤ first) (i : Nat) :
    2 ≤ wordLen (tablePower b first i) := by
  refine lt_wordLen_iff.mpr ?_
  have h2 : 2 ≤ first := one_lt_radix.trans_le hfirst
  calc radix ^ 1 = radix := pow_one _
    _ ≤ first := hfirst
    _ ≤ tablePower b first 0 := le_grownPower hb first
    _ ≤ tablePower b first i := (tablePower_strictMono hb h2).monotone (Nat.zero_le i)

theorem squareFits_of_short {n x : Nat} (h : n < karatsubaSqrThreshold) : SquareFits n x := by
  rw [SquareFits, SqrFits, if_pos h]
  trivial

theorem productFits_of_short {m n x y : Nat} (hn : n < karatsubaThreshold) :
    ProductFits m n x y := by
  rw [ProductFits, MulFits]
  by_cases hlt : m < n
  · rw [if_pos hlt, MulFits, if_neg (by omega), if_pos (by omega)]
    trivial
  · rw [if_neg hlt, if_pos hn]
    trivial

/-- A power of the table for at most 129 words has 64 words at most. -/
theorem short_power {m k i : Nat} (hm : m ≤ 129) (hk : ∀ i, i + 1 < k → leafSize * 2 ^ i < m / 2)
    (hi : i ≤ k - 1) : leafSize * 2 ^ i ≤ 64 := by
  have hthree : i ≤ 3 := by
    by_contra hgt
    have hlt := hk 3 (by omega)
    rw [leafSize] at hlt
    omega
  calc leafSize * 2 ^ i ≤ leafSize * 2 ^ 3 :=
        Nat.mul_le_mul_left _ (Nat.pow_le_pow_right (by decide) hthree)
    _ = 64 := rfl

/-- **Up to 129 words every number fits.** -/
theorem textFits_of_short {v : Nat} (hv : wordLen v ≤ 129) (b : Nat) : TextFits b v := by
  intro hlong bb ndigits k _ hk
  have hfirst : bb.toNat ^ leafSize < radix ^ leafSize :=
    Nat.pow_lt_pow_left (toNat_lt_radix bb) (by decide)
  obtain ⟨k', hk', -, hall⟩ := tableLen_eq (wordLen v) (wordLen v) 0 (by omega)
    fun i hi => absurd hi (by omega)
  obtain rfl : k = k' := Except.ok.inj (hk.symm.trans hk')
  constructor
  · intro i hi
    refine squareFits_of_short ((wordLen_tablePower hfirst i).trans_lt ?_)
    rw [karatsubaSqrThreshold]
    omega
  · intro u p hsplit
    obtain ⟨-, j, hj, rfl⟩ := hsplit.picked
    refine .inl ((wordLen_tablePower hfirst _).trans_lt ?_)
    refine (short_power hv hall ((pickPower_le_index _ u j).trans hj)).trans_lt ?_
    decide

end

/-! ## 3. The text of a magnitude -/

/-- The power that the table starts from has eight words, or almost. -/
theorem radix_le_first {b bb : Word} (hb62 : b.toNat ≤ 62) (hb : 2 ≤ b.toNat)
    (h : (2 ^ 64 - 1) / b.toNat ≤ bb.toNat) : radix ≤ bb.toNat ^ leafSize := by
  have hbig : 2 ^ 58 ≤ bb.toNat := by
    refine le_trans ?_ h
    rw [Nat.le_div_iff_mul_le (by omega)]
    omega
  calc radix ≤ (2 ^ 58) ^ leafSize := by decide
    _ ≤ bb.toNat ^ leafSize := Nat.pow_le_pow_left hbig _

/-- What `divisors` asks of the arithmetic. -/
theorem tableExact_of_fits {b bb : Word} {ndigits m : Nat} (hb : 2 ≤ b.toNat)
    (hbb : bb.toNat = b.toNat ^ ndigits) (hn : 1 ≤ ndigits)
    (hsquares : ∀ i, leafSize * 2 ^ i < m / 2 →
      SquareFits (wordLen (tablePower b.toNat (bb.toNat ^ leafSize) i))
        (tablePower b.toNat (bb.toNat ^ leafSize) i)) :
    TableExact MulFine SqrFine b.toNat bb.toNat m := by
  obtain ⟨hfirst, -⟩ := first_bounds hb hbb hn
  have hpos : 0 < bb.toNat := by
    rw [hbb]
    exact Nat.pow_pos (by omega)
  have hword : wordLen bb.toNat ≤ 1 := wordLen_le_iff.mpr (by rw [pow_one]; exact toNat_lt_radix bb)
  refine ⟨fun e he => ⟨⟨(Nat.pow_pos hpos).ne', squareFits_of_short ?_⟩,
    (Nat.pow_pos hpos).ne', hpos.ne', productFits_of_short ?_⟩, fun i hi => ⟨?_, hsquares i hi⟩⟩
  · refine lt_of_le_of_lt (wordLen_le_iff.mpr ?_)
      (show leafSize + 1 < karatsubaSqrThreshold by decide)
    calc bb.toNat ^ e < (radix) ^ (e + 1) := by
          refine (Nat.pow_le_pow_left (toNat_lt_radix bb).le e).trans_lt ?_
          exact Nat.pow_lt_pow_right one_lt_radix (Nat.lt_succ_self e)
      _ ≤ radix ^ (leafSize + 1) := Nat.pow_le_pow_right radix_pos (by omega)
  · exact hword.trans_lt (by decide)
  · have := two_le_tablePower (b := b.toNat) (by omega) hfirst i
    omega

/-- The bases that are tested to be powers of two are the powers of two. -/
theorem base_cases {b : Nat} (hb : 2 ≤ b) (hb62 : b ≤ 62) :
    (BitVec.ofNat 64 b).toNat = b ∧ (BitVec.ofNat 64 b = BitVec.ofNat 64 b &&& -BitVec.ofNat 64 b →
      ∃ s, 1 ≤ s ∧ s ≤ 5 ∧ b = 2 ^ s) := by
  have hall : ∀ b : Fin 63, 2 ≤ b.val → (BitVec.ofNat 64 b.val).toNat = b.val ∧
      (BitVec.ofNat 64 b.val = BitVec.ofNat 64 b.val &&& -BitVec.ofNat 64 b.val →
        ∃ s : Fin 6, 1 ≤ s.val ∧ b.val = 2 ^ s.val) := by
    decide
  obtain ⟨htoNat, hpow⟩ := hall ⟨b, by omega⟩ hb
  refine ⟨htoNat, fun h => ?_⟩
  obtain ⟨s, hs, heq⟩ := hpow h
  exact ⟨s.val, hs, by omega, heq⟩

/-- What `convertWords` asks of the arithmetic. -/
theorem divFine_of_fits {b first v index : Nat} (hb : 1 ≤ b) (hradix : radix ≤ first)
    (hfirst : first < radix ^ leafSize)
    (hdiv : ∀ u p, Splits (tablePower b first) v index u p → LargeFits u p) :
    ∀ u p, Splits (tablePower b first) v index u p → DivFine u p := by
  intro u p h
  obtain ⟨hlong, j, -, rfl⟩ := h.picked
  exact ⟨two_le_wordLen_tablePower hb hradix _, pickPower_le (tablePower_zero_size hfirst hlong),
    hdiv u _ h⟩

/-- **With the arithmetic of the library `convertWords` writes the numeral** of a number that
fits, with the table that `divisors` makes for it. -/
theorem convertWords_fits (r2 : Word) {x : CNat} (hx : Shaped x) {b : Word} (hb : 2 ≤ b.toNat)
    (hb62 : b.toNat ≤ 62) (hfits : TextFits b.toNat x.val) :
    ∃ bb ndigits t, maxPow b = .ok (bb, ndigits) ∧
      divisors (natArith r2) x.len b ndigits bb = .ok t ∧
      ∀ l rest : List Char, (Nat.digits b.toNat x.val).length ≤ l.length →
        convertWords (natArith r2) x (l ++ rest) l.length b ndigits bb t (t.elim 0 List.length) =
          .ok (numeralText b.toNat l.length x.val ++ rest) := by
  obtain ⟨bb, ndigits, hmax, hbb, hn, hlow⟩ := maxPow_eq hb
  obtain ⟨-, hfirst⟩ := first_bounds hb hbb hn
  have hradix := radix_le_first hb62 hb hlow
  -- a vector that is split is normalised, and `TextFits` speaks about it
  have hlong : leafSize < x.len → Clean x ∧ wordLen x.val = x.len := by
    intro h
    have hclean : Clean x := by
      refine ⟨hx.1, hx.2.resolve_right fun hw => ?_⟩
      rw [← CNat.length_words hx.1, hw] at h
      exact absurd h (by decide)
    exact ⟨hclean, hclean.len_eq.symm⟩
  have hparts : leafSize < x.len → ∀ k, tableLen x.len (x.len + 1) leafSize 1 = .ok k → _ :=
    fun h k hk => hfits (by rw [(hlong h).2]; exact h) bb ndigits k
      (by rw [BitVec.ofNat_toNat, BitVec.setWidth_eq]; exact hmax) (by rw [(hlong h).2]; exact hk)
  obtain ⟨k, hk, -⟩ := tableLen_eq x.len x.len 0 (by omega) fun i hi => absurd hi (by omega)
  obtain ⟨t, hdiv, hnone, ht⟩ := divisors_eq (natArith_exactOn r2) hb hbb hn (m := x.len) fun h =>
    tableExact_of_fits hb hbb hn (by
      have hsq := (hparts h k hk).1
      rw [(hlong h).2] at hsq
      exact hsq)
  refine ⟨bb, ndigits, t, hmax, hdiv, fun l rest hl => ?_⟩
  by_cases hshort : x.len ≤ leafSize
  · rw [hnone.mpr hshort]
    exact convertWords_plain _ hb hb62 hbb hn hx.1 l rest
  · have hcl := (hlong (by omega)).1
    refine convertWords_eq (natArith_exactOn r2) hb hb62 hbb hn hfirst hcl (fun table hm => ?_) l
      rest ((Nat.digits_length_le_iff (by omega) _).mp hl)
    obtain ⟨htable, hne, hlen⟩ := ht table hm
    exact ⟨htable, hne, divFine_of_fits (by omega) hradix hfirst (hparts (by omega) _ hlen).2⟩

/-- **The text of a magnitude** that fits: the digits behind the sign.  Of the single word 0 that
is the sign alone. -/
theorem natI2a_text (r2 : Word) {est : Nat → Nat → Nat} {x : CNat} (hx : Shaped x)
    (hlen : 0 < x.len) (neg : Bool) {b : Nat} (hb : 2 ≤ b) (hb62 : b ≤ 62)
    (hest : (Nat.digits b x.val).length ≤ est x.val.size b)
    (hfits : (∃ s, b = 2 ^ s) ∨ TextFits b x.val) :
    Run.Returns (natI2a (natArith r2) est x neg b)
      (fun buf => cString buf = signedText b neg x.val) := by
  obtain ⟨htoNat, hcases⟩ := base_cases hb hb62
  by_cases hpow : BitVec.ofNat 64 b = BitVec.ofNat 64 b &&& -BitVec.ofNat 64 b
  · obtain ⟨s, h1, h5, rfl⟩ := hcases hpow
    exact natI2a_shift (natArith r2) hx hlen neg h1 h5 hest
  · have hfits' : TextFits (BitVec.ofNat 64 b).toNat x.val := by
      rw [htoNat]
      refine hfits.resolve_left ?_
      rintro ⟨s, rfl⟩
      have h1 : 1 ≤ s := by
        by_contra h
        rw [show s = 0 by omega] at hb
        exact absurd hb (by decide)
      have h5 : s ≤ 5 := by
        by_contra h
        have : 2 ^ 6 ≤ 2 ^ s := Nat.pow_le_pow_right (by decide) (by omega)
        omega
      exact hpow (power_of_two h1 h5).2.1
    obtain ⟨bb, ndigits, t, hmax, hdiv, hconv⟩ :=
      convertWords_fits r2 hx (by omega) (by omega) hfits'
    have hest' : (Nat.digits (BitVec.ofNat 64 b).toNat x.val).length ≤ est x.val.size b := by
      rw [htoNat]
      exact hest
    obtain ⟨buf, hbuf, hstr⟩ := dividePath_text (by omega) (by omega) neg hest' hconv
    rw [htoNat] at hstr
    refine ⟨buf, ?_, hstr⟩
    rw [natI2a, decide_eq_true ⟨hb, hb62⟩, Run.assert_true, Run.ok_bind, if_neg hlen.ne']
    refine Run.bind_of_eq (natBitLen_shaped hx) ?_
    dsimp only
    rw [if_neg hpow]
    exact Run.bind_of_eq hmax (Run.bind_of_eq hdiv hbuf)

/-! ## 4. The text of a number -/

def bigInt2Text (r2 : Word) (est : Nat → Nat → Nat) (x : CBigInt) (base : Nat) : Run (List Char) :=
  natI2a (natArith r2) est x.abs x.neg base

def bigInt2String (r2 : Word) (est : Nat → Nat → Nat) (x : CBigInt) : Run (List Char) :=
  natI2a (natArith r2) est x.abs x.neg 10

def bigInt2HexStr (r2 : Word) (est : Nat → Nat → Nat) (x : CBigInt) : Run (List Char) :=
  natI2a (natArith r2) est x.abs x.neg 16

/-- The canonical numeral: `0`, or the sign if it is negative and the digits with no zero in
front. -/
def canonicalText (b : Nat) (v : Int) : List Char :=
  if v = 0 then ['0'] else (if v < 0 then ['-'] else []) ++ digitsText b v.natAbs

/-- The number that digits stand for. -/
def readDigits (b : Nat) (s : List Char) : Nat :=
  Nat.ofDigits b (s.map (digitChars.idxOf ·)).reverse

/-- The number that a numeral stands for. -/
def readText (b : Nat) : List Char → Int
  | [] => 0
  | c :: s => if c = '-' then -readDigits b s else readDigits b (c :: s)

theorem readDigits_digitsText {b : Nat} (hb : 1 < b) (hb62 : b ≤ 62) (v : Nat) :
    readDigits b (digitsText b v) = v := by
  have hall : ∀ d : Fin 62, digitChars.idxOf (digitChar d.val) = d.val := by decide
  have hmap : (Nat.digits b v).reverse.map (digitChars.idxOf <| digitChar ·) =
      (Nat.digits b v).reverse := by
    refine (List.map_congr_left fun d hd => ?_).trans (List.map_id _)
    exact hall ⟨d, (Nat.digits_lt_base hb (List.mem_reverse.mp hd)).trans_le hb62⟩
  rw [readDigits, digitsText, List.map_map]
  refine (congrArg (fun l : List Nat => Nat.ofDigits b l.reverse) hmap).trans ?_
  rw [List.reverse_reverse, Nat.ofDigits_digits]

/-- **The canonical numeral reads back as the number.** -/
theorem readText_canonicalText {b : Nat} (hb : 1 < b) (hb62 : b ≤ 62) (v : Int) :
    readText b (canonicalText b v) = v := by
  have hback := readDigits_digitsText hb hb62 v.natAbs
  rw [canonicalText]
  by_cases h0 : v = 0
  · rw [if_pos h0, h0]
    simp [readText, readDigits, show digitChars.idxOf '0' = 0 by decide]
  · rw [if_neg h0]
    by_cases hneg : v < 0
    · rw [if_pos hneg, List.cons_append, readText, if_pos rfl, List.nil_append, hback]
      omega
    · rw [if_neg hneg, List.nil_append]
      have hminus := notMem_digitsText hb hb62 (c := '-') (by decide) v.natAbs
      cases htext : digitsText b v.natAbs with
      | nil =>
        rw [htext] at hback
        exact absurd hback.symm (Int.natAbs_ne_zero.mpr h0)
      | cons c s =>
        rw [htext] at hback hminus
        have hc : c ≠ '-' := by
          rintro rfl
          exact hminus List.mem_cons_self
        rw [readText, if_neg hc, hback]
        omega

/-- The sign and the digits are the canonical numeral exactly when the number is not zero. -/
theorem signedText_canonical (b : Nat) (x : CBigInt) :
    signedText b x.neg x.abs.val = canonicalText b x.val ↔ x.abs.val ≠ 0 := by
  rw [signedText, canonicalText, CBigInt.val]
  by_cases h0 : x.abs.val = 0
  · refine iff_of_false ?_ (not_not.mpr h0)
    rw [if_pos (signed_eq_zero_iff.mpr h0), h0]
    cases x.neg <;> simp [digitsText]
  · refine iff_of_true ?_ h0
    rw [if_neg (mt signed_eq_zero_iff.mp h0)]
    cases x.neg with
    | false =>
      rw [signed, if_neg Bool.false_ne_true, if_neg Bool.false_ne_true, if_neg (by omega),
        Int.natAbs_natCast]
    | true => rw [signed, if_pos rfl, if_pos rfl, if_pos (by omega), Int.natAbs_neg,
      Int.natAbs_natCast]

theorem Shaped.val_ne_zero_iff {x : CNat} (hx : Shaped x) (hlen : 0 < x.len) :
    x.val ≠ 0 ↔ x.words ≠ [0] := by
  constructor
  · intro h0 hw
    refine h0 ?_
    rw [CNat.val, hw]
    rfl
  · intro hw h0
    rcases hx.2 with hn | hz
    · have := (Clean.len_eq_zero_iff ⟨hx.1, hn⟩).mpr h0
      omega
    · exact hw hz

/-- **The condition**: the number is not a single word 0, and the base is a power of two or the
conversion goes well. -/
def TextExact (x : CBigInt) (b : Nat) : Prop :=
  x.abs.words ≠ [0] ∧ ((∃ s, b = 2 ^ s) ∨ TextFits b x.abs.val)

/-- The text is the canonical numeral of the number, and reads back as the number. -/
def IsNumeral (x : CBigInt) (b : Nat) (buf : List Char) : Prop :=
  cString buf = canonicalText b x.val ∧ readText b (cString buf) = x.val

section

variable {est : Nat → Nat → Nat} {x : CBigInt} {b : Nat}

/-- A number without words is `0`. -/
theorem bigInt2Text_empty (r2 : Word) (hb : 2 ≤ b) (hb62 : b ≤ 62) (h0 : x.abs.len = 0) :
    Run.Returns (bigInt2Text r2 est x b) (IsNumeral x b) := by
  have hval : x.val = 0 := by
    rw [CBigInt.val, signed_eq_zero_iff, CNat.val, CNat.words, h0]
    rfl
  have htext : cString ['0', nul] = canonicalText b x.val := by
    rw [canonicalText, if_pos hval]
    decide
  refine ⟨['0', nul], ?_, htext, htext ▸ readText_canonicalText hb hb62 x.val⟩
  rw [bigInt2Text, natI2a, decide_eq_true ⟨hb, hb62⟩, Run.assert_true, Run.ok_bind, if_pos h0]

/-- Where the conversion goes well, a number with words is a numeral exactly when it is not 0. -/
theorem bigInt2Text_iff (r2 : Word) (hx : Shaped x.abs) (hlen : 0 < x.abs.len) (hb : 2 ≤ b)
    (hb62 : b ≤ 62) (hest : (Nat.digits b x.abs.val).length ≤ est x.abs.val.size b)
    (hfits : (∃ s, b = 2 ^ s) ∨ TextFits b x.abs.val) :
    Run.Returns (bigInt2Text r2 est x b) (IsNumeral x b) ↔ x.abs.words ≠ [0] := by
  obtain ⟨buf, hbuf, hstr⟩ := natI2a_text r2 hx hlen x.neg hb hb62 hest hfits
  rw [← hx.val_ne_zero_iff hlen, ← signedText_canonical b x, ← hstr]
  constructor
  · rintro ⟨buf', hbuf', htext, -⟩
    rw [bigInt2Text, hbuf, Except.ok.injEq] at hbuf'
    rw [hbuf']
    exact htext
  · intro htext
    exact ⟨buf, hbuf, htext, htext ▸ readText_canonicalText hb hb62 x.val⟩

/-- **The text of every number that the calls can make** is its canonical numeral under
`TextExact`, and never for a single word 0. -/
theorem bigInt2Text_canonical (r2 : Word) (hx : Made x) (hb : 2 ≤ b) (hb62 : b ≤ 62)
    (hest : (Nat.digits b x.abs.val).length ≤ est x.abs.val.size b) :
    (TextExact x b → Run.Returns (bigInt2Text r2 est x b) (IsNumeral x b)) ∧
    (Run.Returns (bigInt2Text r2 est x b) (IsNumeral x b) → x.abs.words ≠ [0]) ∧
    bigInt2String r2 est x = bigInt2Text r2 est x 10 ∧
    bigInt2HexStr r2 est x = bigInt2Text r2 est x 16 := by
  refine ⟨fun ⟨hne, hfits⟩ => ?_, fun h hw => ?_, rfl, rfl⟩
  · rcases Nat.eq_zero_or_pos x.abs.len with h0 | hlen
    · exact bigInt2Text_empty r2 hb hb62 h0
    · exact (bigInt2Text_iff r2 hx.shaped hlen hb hb62 hest hfits).mpr hne
  · have hval : x.abs.val = 0 := by
      rw [CNat.val, hw]
      rfl
    have hlen : 0 < x.abs.len := by
      rw [← CNat.length_words hx.shaped.1, hw]
      decide
    have hfits : TextFits b x.abs.val := by
      refine textFits_of_short ?_ b
      rw [hval, wordLen_zero]
      decide
    exact (bigInt2Text_iff r2 hx.shaped hlen hb hb62 hest (.inr hfits)).mp h hw

end

theorem made_newU (v : Word) : Made (bigIntNewU v) :=
  ⟨[.newU v], _, .call .start rfl, List.mem_singleton_self _⟩

/-- 2026 in base 10, with an estimate of one digit for three bits. -/
theorem bigInt2Text_canonical_2026 :
    TextExact (bigIntNewU 2026) 10 ∧
    Run.Returns (bigInt2Text 0 (fun bits _ => bits / 3 + 1) (bigIntNewU 2026) 10)
      (IsNumeral (bigIntNewU 2026) 10) := by
  have hexact : TextExact (bigIntNewU 2026) 10 :=
    ⟨by decide, .inr (textFits_of_short (wordLen_le_iff.mpr (by decide)) 10)⟩
  exact ⟨hexact, (bigInt2Text_canonical 0 (made_newU 2026) (by decide) (by decide)
    ((Nat.digits_length_le_iff (by decide) _).mpr (by decide))).1 hexact⟩

/-- `BigIntNewI(0)` in base 10: the empty string. -/
theorem zero_has_no_text : ∃ x, Made x ∧ x.val = 0 ∧
    Run.Returns (bigInt2String 0 (fun bits _ => bits / 3 + 1) x) (fun buf => cString buf = []) ∧
    ¬ Run.Returns (bigInt2String 0 (fun bits _ => bits / 3 + 1) x)
      (fun buf => cString buf = canonicalText 10 x.val) :=
  ⟨bigIntNewI 0, made_newI 0, by decide, by decide, by decide⟩

end CDemo.BigInt
