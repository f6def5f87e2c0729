/-
# The Euclidean quotient

`BigIntDiv` divides the magnitudes and then, for a negative dividend with a remainder, moves the
quotient one away from zero.  The result is the Euclidean quotient except in three cases:

* the divisor is 1 or -1 and the dividend negative: `natDivW` returns without storing a remainder,
  and `BigIntDiv` corrects the quotient or not by what the variable held before;
* the quotient is corrected and the carry of `natAdd` is lost or counted twice (`BumpFits`);
* the divisor has 100 words or more and a block of the recursive division goes wrong
  (`LargeFits`).
-/
import CDemo.BigInt.DivBlocks
import CDemo.BigInt.Signed
import Mathlib.Algebra.Order.Ring.Int
import Mathlib.Algebra.Order.Ring.Abs

namespace CDemo.BigInt

/-! ## 1. What `natDiv` returns -/

theorem natSetWord_eq {z : CNat} (hz : z.cap ≤ z.data.length) (x : Word) :
    ∃ r, natSetWord z x = .ok r ∧ r.Valid ∧ r.val = x.toNat := by
  rw [natSetWord]
  by_cases hx : x = 0
  · rw [if_pos hx, natPart_low, hx]
    exact ⟨_, rfl, Nat.zero_le _, by simp [low, CNat.val, CNat.words]⟩
  · rw [if_neg hx]
    obtain ⟨z', hmake, hlen, hvalid, -⟩ := natMake_eq hz 1
    have hlt : 0 < z'.data.length := by have : z'.len ≤ z'.data.length := hvalid; omega
    refine ⟨⟨z'.data.set 0 x, z'.len, z'.cap⟩,
      Run.bind_of_eq hmake (Run.bind_of_eq (Run.write_eq_ok hlt x) rfl), ?_, ?_⟩
    · rw [CNat.Valid, List.length_set]
      exact hvalid
    · rw [CNat.val, CNat.words, hlen]
      dsimp only
      rw [List.take_succ_eq_append_getElem (by rw [List.length_set]; exact hlt),
        List.getElem_set_self]
      simp

theorem natSet_eq {z x : CNat} (hz : z.cap ≤ z.data.length) (hx : x.Valid) :
    ∃ r, natSet z x = .ok r ∧ r.Valid ∧ r.val = x.val := by
  obtain ⟨z', hmake, hlen, hvalid, hcap, -⟩ := natMake_eq hz x.len
  have hzl : x.len ≤ z'.data.length := by have : z'.len ≤ z'.data.length := hvalid; omega
  have hxl := List.length_take_of_le (show x.len ≤ x.data.length from hx)
  refine ⟨⟨x.data.take x.len ++ z'.data.drop x.len, z'.len, z'.cap⟩, Run.bind_of_eq hmake ?_,
    ?_, ?_⟩
  · rw [natCopy, decide_eq_true hcap, Run.assert_true, Run.ok_bind, memcpy_eq hzl hx, Run.ok_bind]
  · rw [CNat.Valid, List.length_append, hxl, List.length_drop]
    dsimp only
    omega
  · rw [CNat.val, CNat.words, hlen]
    dsimp only
    rw [List.take_left' hxl]
    rfl

theorem natDup_eq {x : CNat} (hx : x.Valid) : natDup x = .ok ⟨x.words, x.len, x.len⟩ := by
  rw [natDup, natNewLen_data, memcpy_eq (by simp) hx, Run.ok_bind,
    List.drop_of_length_le (by simp), List.append_nil]
  rfl

/-- A copy has the same words. -/
theorem Clean.dup {x : CNat} (hx : Clean x) : Clean ⟨x.words, x.len, x.len⟩ := by
  have hwl := CNat.length_words hx.1
  refine ⟨hwl.ge, ?_⟩
  rw [CNat.words]
  dsimp only
  rw [List.take_of_length_le hwl.le]
  exact hx.2

/-- A comparison with a divisor is a comparison of numbers, also for a dividend that is the single
word 0. -/
theorem natCmp_divisor {u v : CNat} (hu : Shaped u) (hv : Clean v) (hv0 : v.val ≠ 0) :
    ∃ e, natCmp u v = .ok e ∧ (e < 0 ↔ u.val < v.val) := by
  rcases hu.2 with hn | hz
  · refine ⟨_, natCmp_normal hu.1 hv.1 hn hv.2, ?_⟩
    rw [cmpSign]
    split
    · next h => exact iff_of_true (by decide) h
    · next h =>
      split
      · exact iff_of_false (by decide) h
      · exact iff_of_false (by decide) h
  · have hul : u.len = 1 := by rw [← CNat.length_words hu.1, hz]; rfl
    have huv : u.val = 0 := by rw [CNat.val, hz]; rfl
    have hvl : 0 < v.len := Nat.pos_of_ne_zero fun h => hv0 (hv.len_eq_zero_iff.mp h)
    have hpos : u.val < v.val := huv ▸ Nat.pos_of_ne_zero hv0
    refine ⟨_, natCmp_eq hu.1 hv.1, iff_of_true ?_ hpos⟩
    split
    · rw [cmpSign, if_pos hpos]
      decide
    · next hne =>
      rw [cmpSign, if_pos (by omega)]
      decide

/-- **Adding 1 to the quotient is exact**: it has two words at most, or its lowest word takes the
1, or the next one takes the carry and there is room for the copy that `addVW` makes. -/
def BumpFits (x y : Nat) : Prop :=
  wordLen (x / y) ≤ 2 ∨ x / y % radix ≠ radix - 1 ∨
    x / y / radix % radix ≠ radix - 1 ∧ (wordLen (x / y) ≤ 33 ∨ wordLen (x / y) < wordLen x)

instance (x y : Nat) : Decidable (BumpFits x y) := inferInstanceAs (Decidable (_ ∨ _ ∨ _))

theorem bumpFits_iff {q : CNat} {x y : Nat} (hq : Clean q) (hval : q.val = x / y)
    (hspare : 33 < q.len → (q.len < q.data.length ↔ wordLen (x / y) < wordLen x)) :
    SumFits q intOne.abs ↔ BumpFits x y := by
  have hlen : q.len = wordLen (x / y) := hval ▸ hq.len_eq
  have hone : intOne.abs.len = 1 ∧ intOne.abs.val = 1 := ⟨rfl, by decide⟩
  have hmod : x / y % radix < radix := Nat.mod_lt _ radix_pos
  rw [SumFits, BumpFits, ← hlen]
  by_cases h0 : q.len < 1
  · rw [hone.1, if_pos h0]
    exact iff_of_true (.inl (by omega)) (.inl (by omega))
  · rw [hone.1, if_neg h0, AddFits, hone.1, hone.2, pow_one, hval]
    have h33 : q.len ≤ 33 ∨ (q.len < q.data.length ↔ wordLen (x / y) < wordLen x) := by
      rcases Nat.lt_or_ge 33 q.len with hlt | hle
      · exact .inr (hspare hlt)
      · exact .inl hle
    constructor
    · rintro (h | h | h | ⟨h, h'⟩)
      · exact absurd h (by decide)
      · exact .inl h
      · exact .inr (.inl (by omega))
      · refine .inr (.inr ⟨h, ?_⟩)
        rcases h33 with hle | hiff
        · exact .inl hle
        · exact h'.imp_right fun hlt => hlen ▸ hiff.mp hlt
    · rintro (h | h | ⟨h, h'⟩)
      · exact .inr (.inl h)
      · exact .inr (.inr (.inl (by omega)))
      · refine .inr (.inr (.inr ⟨h, ?_⟩))
        rcases h33 with hle | hiff
        · exact .inl hle
        · exact h'.imp_right fun hlt => hiff.mpr (hlen ▸ hlt)

/-- The remainder that `natDiv` returns: for a divisor 1 what `r2` held. -/
def storedRem (x y : Nat) (r2 : Word) : Nat := if y = 1 ∧ 1 ≤ x then r2.toNat else x % y

theorem natMake_spare {z z' : CNat} (hz : z.cap ≤ z.data.length) {n : Nat}
    (h : natMake z n = .ok z') : n = 1 ∨ n < z'.data.length := by
  rw [natMake] at h
  split at h
  · next hlt =>
    rw [natPart_low] at h
    rw [← Except.ok.inj h]
    exact .inr (hlt.trans_le hz)
  · split at h
    · next h1 => exact .inl h1
    · rw [← Except.ok.inj h]
      refine .inr ?_
      simp [natNewLen]

section

variable {z z2 u v : CNat}

/-- **`natDiv`** returns the quotient and, except for a divisor 1, the remainder. -/
theorem natDiv_eq (r2 : Word) (hz : z.cap ≤ z.data.length) (hz2 : z2.cap ≤ z2.data.length)
    (hu : Shaped u) (hv : Clean v) (hv0 : v.val ≠ 0)
    (hfits : v.val ≤ u.val → LargeFits u.val v.val) :
    ∃ q r, natDiv z z2 u v r2 = .ok (q, r) ∧ Clean q ∧ q.val = u.val / v.val ∧ r.Valid ∧
      r.val = storedRem u.val v.val r2 ∧ (SumFits q intOne.abs ↔ BumpFits u.val v.val) := by
  have hvl : 0 < v.len := Nat.pos_of_ne_zero fun h => hv0 (hv.len_eq_zero_iff.mp h)
  obtain ⟨e, he, hlt⟩ := natCmp_divisor hu hv hv0
  rw [natDiv, decide_eq_true hvl, Run.assert_true, Run.ok_bind]
  refine Exists.imp (fun q => Exists.imp fun r => And.imp_left (Run.bind_of_eq he)) ?_
  by_cases hsmall : u.val < v.val
  · -- the dividend is the remainder
    rw [if_pos (hlt.mpr hsmall)]
    obtain ⟨r, hr, hrv, hrval⟩ := natSet_eq hz2 hu.1
    have hclean : Clean (low z 0) :=
      ⟨Nat.zero_le _, by simpa [low, CNat.words] using normal_nil⟩
    have hval : (low z 0).val = u.val / v.val := by
      rw [Nat.div_eq_of_lt hsmall]
      simp [low, CNat.val, CNat.words]
    refine ⟨_, r, Run.bind_of_eq (natPart_low z 0) (Run.bind_of_eq hr rfl), hclean, hval, hrv, ?_,
      bumpFits_iff hclean hval fun h => absurd h (by simp [low])⟩
    rw [storedRem, if_neg (by omega), Nat.mod_eq_of_lt hsmall, hrval]
  rw [if_neg (fun h => hsmall (hlt.mp h))]
  have hge : v.val ≤ u.val := Nat.le_of_not_lt hsmall
  have hun : Clean u := by
    refine ⟨hu.1, hu.2.resolve_right fun h0 => hv0 ?_⟩
    rw [show u.val = 0 by rw [CNat.val, h0]; rfl] at hge
    omega
  have hlen := hv.len_le hun hge
  by_cases h1 : v.len = 1
  · rw [if_pos h1]
    have hd0 : 0 < v.data.length := by have : v.len ≤ v.data.length := hv.1; omega
    have hvval : v.val = v.data[0].toNat := by
      rw [CNat.val, CNat.words, h1, List.take_succ_eq_append_getElem hd0]
      simp
    have hread := Run.read_eq_ok (List.getElem?_eq_getElem hd0)
    have hy0 : v.data[0] ≠ 0 := fun h => hv0 (by rw [hvval, h]; rfl)
    by_cases hone : v.data[0] = 1
    · -- nothing is stored in `r2`
      have hv1 : v.val = 1 := by rw [hvval, hone]; rfl
      obtain ⟨r, hr, hrv, hrval⟩ := natSetWord_eq hz2 r2
      have hwl := CNat.length_words hu.1
      have hclean : Clean ⟨u.words, u.len, u.len⟩ := hun.dup
      have hval : (⟨u.words, u.len, u.len⟩ : CNat).val = u.val / v.val := by
        rw [val_full hwl, hv1, Nat.div_one]
        rfl
      refine ⟨⟨u.words, u.len, u.len⟩, r, ?_, hclean, hval, hrv, ?_,
        bumpFits_iff hclean hval fun _ => ?_⟩
      · have hdup : natDivW u v.data[0] r2 = .ok (⟨u.words, u.len, u.len⟩, r2) := by
          rw [natDivW, hone, decide_eq_true (show (1 : Word) ≠ 0 by decide), Run.assert_true,
            Run.ok_bind, if_pos rfl, natDup_eq hu.1, Run.ok_bind]
        exact Run.bind_of_eq hread (Run.bind_of_eq hdup (Run.bind_of_eq hr rfl))
      · rw [storedRem, if_pos ⟨hv1, by omega⟩, hrval]
      · rw [hv1, Nat.div_one]
        refine iff_of_false ?_ (Nat.lt_irrefl _)
        dsimp only
        rw [hwl]
        exact Nat.lt_irrefl _
    · obtain ⟨q, r', hdiv, hclean, hval, hrem, hblock⟩ := natDivW_eq r2 hu.1 (by omega) hy0 hone
      obtain ⟨r, hr, hrv, hrval⟩ := natSetWord_eq hz2 r'
      rw [← hvval] at hval hrem
      refine ⟨q, r, ?_, hclean, hval, hrv, ?_, bumpFits_iff hclean hval fun _ => ?_⟩
      · exact Run.bind_of_eq hread (Run.bind_of_eq hdiv (Run.bind_of_eq hr rfl))
      · have hne : v.val ≠ 1 := fun h => hone (BitVec.eq_of_toNat_eq (hvval ▸ h))
        rw [storedRem, if_neg (fun h => hne h.1), hrval, hrem]
      · rw [hblock, hun.len_eq, hclean.len_eq, hval]
  · rw [if_neg h1]
    obtain ⟨run, ⟨hclean, hr, hval, hrem⟩, -⟩ :=
      natDivLarge_run hz hz2 hun hv (by omega) hge (hfits hge)
    refine ⟨run.q, run.r, run.natDivLarge_eq, hclean, hval, hr.1, ?_, bumpFits_iff hclean hval ?_⟩
    · have hne : v.val ≠ 1 := by
        intro h
        have := hv.len_eq
        rw [h, show wordLen 1 = 1 by decide] at this
        omega
      rw [storedRem, if_neg (fun h => hne h.1), hrem]
    · -- the block of the quotient has a spare word
      intro hlong
      have hql : run.q.len ≤ u.len - v.len + 1 := by
        rw [hclean.len_eq, hval]
        refine wordLen_le_iff.mpr (Nat.div_lt_of_lt_mul ?_)
        exact hv.quotient_room hvl hlen
      have hdata : run.q.data.length = run.q'.data.length := by
        rw [← natNorm_len run.normQ]
        exact run.length_qdata
      have hspare := natMake_spare hz run.makeQ
      have hul := hun.len_eq
      have hqw := hclean.len_eq
      rw [hval] at hqw
      exact iff_of_true (by omega) (by omega)

end

/-! ## 2. The quotient and its correction -/

/-- `q` is the Euclidean quotient of `x` by `y`. -/
def IsQuotient (x y : CBigInt) (q : CBigInt) : Prop :=
  0 ≤ x.val - q.val * y.val ∧ x.val - q.val * y.val < |y.val|

instance (x y q : CBigInt) : Decidable (IsQuotient x y q) := inferInstanceAs (Decidable (_ ∧ _))

/-- What the Euclidean quotient is, for a sign and a magnitude each. -/
def euclidean (xneg yneg : Bool) (x y : Nat) : Int :=
  if x % y ≠ 0 ∧ xneg then signed (!yneg) (x / y + 1) else signed (xneg != yneg) (x / y)

theorem abs_signed (neg : Bool) (v : Nat) : |signed neg v| = v := by
  cases neg <;> simp [signed]

theorem euclidean_spec (xneg yneg : Bool) (x : Nat) {y : Nat} (hy : y ≠ 0) :
    0 ≤ signed xneg x - euclidean xneg yneg x y * signed yneg y ∧
      signed xneg x - euclidean xneg yneg x y * signed yneg y < y := by
  have hlt := Nat.mod_lt x (Nat.pos_of_ne_zero hy)
  have hdm : ((x : Int) : Int) = y * (x / y : Nat) + (x % y : Nat) := by
    exact_mod_cast (Nat.div_add_mod x y).symm
  rw [euclidean]
  generalize x / y = q at *
  generalize x % y = r at *
  split
  · next h =>
    obtain ⟨hr, hneg⟩ := h
    have hval : signed xneg x - signed (!yneg) (q + 1) * signed yneg y = y - r := by
      rw [hneg]
      cases yneg <;> simp only [signed, Bool.not_false, Bool.not_true, if_true, Bool.false_eq_true,
        if_false] <;> push_cast <;> rw [hdm] <;> ring
    rw [hval]
    omega
  · next h =>
    have hval : signed xneg x - signed (xneg != yneg) q * signed yneg y = signed xneg r := by
      cases xneg <;> cases yneg <;> simp [signed] <;> rw [hdm] <;> ring
    rw [hval]
    cases xneg with
    | false =>
      simp only [signed, Bool.false_eq_true, if_false]
      omega
    | true =>
      have h0 : r = 0 := by
        by_contra hne
        exact h ⟨hne, rfl⟩
      rw [h0]
      simp only [signed, if_true]
      omega

/-- **There is one Euclidean quotient.** -/
theorem isQuotient_iff {x y q : CBigInt} (hy : y.abs.val ≠ 0) :
    IsQuotient x y q ↔ q.val = euclidean x.neg y.neg x.abs.val y.abs.val := by
  obtain ⟨h1, h2⟩ := euclidean_spec x.neg y.neg x.abs.val hy
  rw [x.signed_val,
    y.signed_val] at h1 h2
  have habs : |y.val| = y.abs.val := abs_signed _ _
  rw [IsQuotient, habs]
  generalize euclidean x.neg y.neg x.abs.val y.abs.val = e at *
  constructor
  · rintro ⟨h3, h4⟩
    -- the two differ by a multiple of the divisor that is less than the divisor
    by_contra hne
    have hdiff : (1 : Int) ≤ |q.val - e| := Int.one_le_abs (sub_ne_zero.mpr hne)
    have hmul : |(q.val - e) * y.val| = |q.val - e| * y.abs.val := by rw [abs_mul, habs]
    have hge : (y.abs.val : Int) ≤ |q.val - e| * y.abs.val :=
      le_mul_of_one_le_left (Int.natCast_nonneg _) hdiff
    have hlt : |(q.val - e) * y.val| < y.abs.val := by
      rw [abs_lt, sub_mul]
      constructor
      · linarith
      · linarith
    omega
  · rintro rfl
    exact ⟨h1, h2⟩

/-- What `QuoRem` returns. -/
def quotientOf (x y : CBigInt) (q : CNat) : CBigInt :=
  ⟨decide (0 < q.len) && (x.neg != y.neg), q⟩

/-- **`BigIntDiv`** divides the magnitudes and corrects the quotient. -/
theorem bigIntDiv_eq (s : Scratch) {x y : CBigInt} (hx : Shaped x.abs) (hy : Clean y.abs)
    (hy0 : y.abs.val ≠ 0) (hfits : y.abs.val ≤ x.abs.val → LargeFits x.abs.val y.abs.val) :
    ∃ q, Clean q ∧ q.val = x.abs.val / y.abs.val ∧
      (SumFits q intOne.abs ↔ BumpFits x.abs.val y.abs.val) ∧
      bigIntDiv s x y =
        if storedRem x.abs.val y.abs.val s.r2 ≠ 0 ∧ x.neg then
          signedAdd (quotientOf x y q) intOne (!y.neg)
        else .ok (quotientOf x y q) := by
  obtain ⟨q, r, hdiv, hclean, hval, hrv, hrval, hbump⟩ :=
    natDiv_eq s.r2 s.hz s.hr hx hy hy0 hfits
  obtain ⟨rr, hnorm, hrl⟩ : ∃ rr, natNorm r = .ok rr ∧
      rr.len = wordLen (storedRem x.abs.val y.abs.val s.r2) :=
    ⟨_, natNorm_wordLen hrv, by rw [hrval]⟩
  have hpos : 0 < rr.len ↔ storedRem x.abs.val y.abs.val s.r2 ≠ 0 := by
    rw [hrl, lt_wordLen_iff, pow_zero, Nat.one_le_iff_ne_zero]
  refine ⟨q, hclean, hval, hbump, ?_⟩
  have hquo : quoRem s x y = .ok (quotientOf x y q, decide (0 < rr.len) && x.neg) :=
    Run.bind_of_eq hdiv (Run.bind_of_eq hnorm rfl)
  refine Run.bind_of_eq hquo ?_
  dsimp only
  by_cases hc : storedRem x.abs.val y.abs.val s.r2 ≠ 0 ∧ x.neg
  · rw [if_pos hc, decide_eq_true (hpos.mpr hc.1), hc.2, Bool.and_self, if_pos rfl]
    cases hyn : y.neg with
    | false => rfl
    | true => rfl
  · rw [if_neg hc, if_neg]
    rintro hb
    rw [Bool.and_eq_true, decide_eq_true_eq] at hb
    exact hc ⟨hpos.mp hb.1, hb.2⟩

theorem quotientOf_val (x y : CBigInt) (q : CNat) :
    (quotientOf x y q).val = signed (x.neg != y.neg) q.val := signed_len _ q

/-- **When the correction is exact.** -/
theorem correction_iff {x y : CBigInt} {q : CNat} (hq : Clean q) (hx : x.neg = true) :
    Run.Returns (signedAdd (quotientOf x y q) intOne (!y.neg))
        (fun z => z.val = signed (!y.neg) (q.val + 1)) ↔ SumFits q intOne.abs := by
  have hone : intOne.abs.val = 1 := by decide
  have hiff := signedAdd_exact_iff (x := quotientOf x y q) (y := intOne) hq.shaped
    clean_intOne.shaped (!y.neg)
  have hsum : signed (quotientOf x y q).neg (quotientOf x y q).abs.val +
      signed (!y.neg) intOne.abs.val = signed (!y.neg) (q.val + 1) := by
    rw [show signed (quotientOf x y q).neg (quotientOf x y q).abs.val =
      signed (x.neg != y.neg) q.val from quotientOf_val x y q, hx, hone]
    cases y.neg with
    | false =>
      simp only [signed, Bool.not_false, Bool.bne_false, if_true]
      push_cast
      ring
    | true => simp [signed]
  rw [hsum] at hiff
  rw [hiff]
  by_cases h0 : q.len = 0
  · -- an empty quotient has lost its sign
    have hv0 : q.val = 0 := hq.len_eq_zero_iff.mp h0
    have hfit : SumFits q intOne.abs := by
      rw [SumFits, if_pos (by rw [h0]; decide)]
      exact .inl h0
    refine iff_of_true ?_ hfit
    split
    · exact hfit
    · rw [show (quotientOf x y q).abs = q from rfl, DiffFits, if_pos (by rw [hv0, hone]; decide)]
      exact .inl h0
  · have hneg : (quotientOf x y q).neg = !y.neg := by
      rw [quotientOf, decide_eq_true (Nat.pos_of_ne_zero h0), hx, Bool.true_and]
      cases y.neg <;> rfl
    rw [if_pos hneg]
    rfl

/-- A correction that was not called for never gives the quotient. -/
theorem correction_ne {x y : CBigInt} {q : CNat} (hq : Clean q) (hx : x.neg = true)
    (h0 : q.len ≠ 0) :
    ¬ Run.Returns (signedAdd (quotientOf x y q) intOne (!y.neg))
      (fun z => z.val = signed (!y.neg) q.val) := by
  rintro ⟨z, hz, hval⟩
  have hneg : (quotientOf x y q).neg = !y.neg := by
    rw [quotientOf, decide_eq_true (Nat.pos_of_ne_zero h0), hx, Bool.true_and]
    cases y.neg <;> rfl
  rw [signedAdd, if_pos hneg] at hz
  obtain ⟨a, ha, hz⟩ := Run.bind_eq_ok_iff.mp hz
  have hsum : natAddLong q intOne.abs = .ok a := by
    have hlen : ¬ (quotientOf x y q).abs.len < intOne.abs.len := show ¬ q.len < 1 by omega
    rw [natAdd, if_neg hlen] at ha
    exact ha
  have hmod := natAddLong_mod hq.1 clean_intOne.1 (show 1 ≤ q.len by omega) hsum
  rw [← Except.ok.inj hz, CBigInt.val, signed_len, hneg, signed_eq_iff] at hval
  rw [hval, show intOne.abs.len = 1 from rfl, pow_one,
    show intOne.abs.val = 1 by decide] at hmod
  have h2 := Nat.mod_lt q.val radix_pos
  rw [radix] at *
  omega

/-! ## 3. When `BigIntDiv` is exact -/

/-- **When `BigIntDiv` returns the Euclidean quotient**: a negative number is not divided by 1 or
-1, the correction of the quotient is exact, and so is the division of the magnitudes. -/
def DivExact (x y : CBigInt) : Prop :=
  (y.abs.val = 1 → 0 ≤ x.val) ∧
  (x.val < 0 → ¬ y.abs.val ∣ x.abs.val → BumpFits x.abs.val y.abs.val) ∧
  (y.abs.val ≤ x.abs.val → LargeFits x.abs.val y.abs.val)

theorem val_neg_iff {x : CBigInt} : x.val < 0 ↔ x.neg = true ∧ x.abs.val ≠ 0 := by
  rw [CBigInt.val, signed]
  cases x.neg <;> simp [Nat.pos_iff_ne_zero]

theorem CBigInt.val_ne_zero_iff {x : CBigInt} : x.val ≠ 0 ↔ x.abs.val ≠ 0 :=
  not_congr signed_eq_zero_iff

/-- **`BigIntDiv` returns the Euclidean quotient**, whatever its uninitialised variables hold, when
`DivExact` says so; and where the division of the magnitudes is exact, only then. -/
theorem bigIntDiv_euclidean {x y : CBigInt} (hx : Made x) (hy : Made y) (h0 : y.val ≠ 0) :
    (DivExact x y → ∀ s, Run.Returns (bigIntDiv s x y) (IsQuotient x y)) ∧
    ((y.abs.val ≤ x.abs.val → LargeFits x.abs.val y.abs.val) →
      (∀ s, Run.Returns (bigIntDiv s x y) (IsQuotient x y)) → DivExact x y) := by
  have hy0 : y.abs.val ≠ 0 := CBigInt.val_ne_zero_iff.mp h0
  have hyc : Clean y.abs := by
    refine ⟨hy.shaped.1, hy.shaped.2.resolve_right fun hz => hy0 ?_⟩
    rw [CNat.val, hz]
    rfl
  have hquot : ∀ r, Run.Returns r (IsQuotient x y) ↔
      Run.Returns r (fun z => z.val = euclidean x.neg y.neg x.abs.val y.abs.val) :=
    fun r => Run.returns_congr fun q => isQuotient_iff hy0
  constructor
  · rintro ⟨hone, hbump, hlarge⟩ s
    obtain ⟨q, hclean, hval, hfits, hrun⟩ := bigIntDiv_eq s hx.shaped hyc hy0 hlarge
    rw [hquot, hrun]
    -- what is stored is the remainder, as far as it matters
    have hrem : storedRem x.abs.val y.abs.val s.r2 ≠ 0 ∧ x.neg ↔
        x.abs.val % y.abs.val ≠ 0 ∧ x.neg := by
      rw [storedRem]
      split
      · next h =>
        have hneg : x.neg = false := by
          by_contra hne
          have := hone h.1
          have := val_neg_iff.mpr ⟨by simpa using hne, by omega⟩
          omega
        rw [hneg]
        simp
      · rfl
    by_cases hc : x.abs.val % y.abs.val ≠ 0 ∧ x.neg
    · rw [if_pos (hrem.mpr hc), euclidean, if_pos hc, ← hval, correction_iff hclean hc.2, hfits]
      refine hbump (val_neg_iff.mpr ⟨hc.2, fun h => hc.1 ?_⟩) fun hdvd =>
        hc.1 (Nat.mod_eq_zero_of_dvd hdvd)
      rw [h, Nat.zero_mod]
    · rw [if_neg (mt hrem.mp hc), euclidean, if_neg hc, ← hval]
      exact Run.returns_ok.mpr (quotientOf_val x y q)
  · intro hlarge hall
    refine ⟨fun h1 => ?_, fun hneg hdvd => ?_, hlarge⟩
    · by_contra hlt
      obtain ⟨hn, hx0⟩ := val_neg_iff.mp (Int.not_le.mp hlt)
      -- a scratch variable that holds 1
      let s : Scratch := ⟨natNewLen 0, natNewLen 0, 1, le_rfl, le_rfl⟩
      obtain ⟨q, hclean, hval, -, hrun⟩ := bigIntDiv_eq s hx.shaped hyc hy0 hlarge
      rw [h1, Nat.div_one] at hval
      have hq0 : q.len ≠ 0 := fun h => hx0 (hval ▸ hclean.len_eq_zero_iff.mp h)
      have hres := (hquot _).mp (hall s)
      rw [hrun, if_pos, euclidean, if_neg, h1, Nat.div_one, ← hval, hn, Bool.true_bne] at hres
      · exact correction_ne hclean hn hq0 hres
      · rw [h1, Nat.mod_one]
        simp
      · refine ⟨?_, hn⟩
        rw [storedRem, if_pos ⟨h1, Nat.one_le_iff_ne_zero.mpr hx0⟩]
        decide
    · obtain ⟨hn, hx0⟩ := val_neg_iff.mp hneg
      let s : Scratch := ⟨natNewLen 0, natNewLen 0, 0, le_rfl, le_rfl⟩
      obtain ⟨q, hclean, hval, hfits, hrun⟩ := bigIntDiv_eq s hx.shaped hyc hy0 hlarge
      have hmod : x.abs.val % y.abs.val ≠ 0 := fun h => hdvd (Nat.dvd_of_mod_eq_zero h)
      have hne1 : y.abs.val ≠ 1 := fun h => hmod (by rw [h, Nat.mod_one])
      have hres := (hquot _).mp (hall s)
      rw [hrun, if_pos, euclidean, if_pos ⟨hmod, hn⟩, ← hval, correction_iff hclean hn,
        hfits] at hres
      · exact hres
      · refine ⟨?_, hn⟩
        rw [storedRem, if_neg fun h => hne1 h.1]
        exact hmod

theorem made_newI (v : Word) : Made (bigIntNewI v) :=
  ⟨[.newI v], _, .call .start rfl, List.mem_singleton_self _⟩

/-- -7 by 3 is -3, and `r->abs`, `z->abs` and `r2` hold what they like. -/
theorem bigIntDiv_euclidean_seven :
    Run.Returns (bigIntDiv ⟨⟨[9, 9], 1, 2⟩, ⟨[8], 1, 1⟩, 5, by decide, by decide⟩ (bigIntNewI (-7))
      (bigIntNewI 3)) (IsQuotient (bigIntNewI (-7)) (bigIntNewI 3)) :=
  (bigIntDiv_euclidean (made_newI _) (made_newI _) (by decide)).1
    ⟨by decide, fun _ _ => .inl (by decide), fun _ => .inl (by decide)⟩ _

/-- -5 by 1 is -6 when the variable that nothing was stored in holds 1. -/
theorem stale_remainder : ∃ s x y, Made x ∧ Made y ∧ x.val = -5 ∧ y.val = 1 ∧
    Run.Returns (bigIntDiv s x y) (fun z => z.val = -6 ∧ ¬ IsQuotient x y z) :=
  ⟨⟨natNewLen 0, natNewLen 0, 1, le_rfl, le_rfl⟩, bigIntNewI (-5), bigIntNewI 1, made_newI _,
    made_newI _, by decide, by decide, by decide⟩

end CDemo.BigInt
