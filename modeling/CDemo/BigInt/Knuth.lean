/-
# Algorithm D

`natDivBasic` finds the words of the quotient from the top down.  Before the round at `j` the
words of `u` from `j + 1` on are less than the divisor; `window` is what the round looks at, the
divisor's length in words and one more.  The round leaves in its place the remainder of the
window, and the digit is the quotient (`natDivBasicStep_eq`).

At the top there is no word more, and the window's upper word counts as zero.  `natDivLarge`
shifts so that the digit there is zero: it is not stored, for `q` has no room for it.
-/
import CDemo.BigInt.DivWord
import CDemo.BigInt.InPlace

namespace CDemo.BigInt

/-! ## 1. The guess -/

theorem greaterThan_iff (x1 x2 y1 y2 : Word) :
    greaterThan x1 x2 y1 y2 = true ↔
      y1.toNat * radix + y2.toNat < x2.toNat + radix * x1.toNat := by
  have hx2 := toNat_lt_radix x2
  have hy2 := toNat_lt_radix y2
  rw [greaterThan, Bool.or_eq_true, Bool.and_eq_true, decide_eq_true_eq, decide_eq_true_eq,
    beq_iff_eq, BitVec.lt_def, BitVec.lt_def, ← BitVec.toNat_inj]
  rw [radix] at *
  omega

/-- The loop finds the quotient of three words by two. -/
theorem qhatLoop_eq {v1 : Word} (v0 u0 : Word) {u : Nat} (hv1 : 0 < v1.toNat) :
    ∀ {fuel : Nat} {q r : Word}, q.toNat * v1.toNat + r.toNat = u →
      (u * radix + u0.toNat) / (v1.toNat * radix + v0.toNat) ≤ q.toNat →
      radix ≤ r.toNat + fuel * v1.toNat →
      ∃ q', qhatLoop v1 v0 u0 fuel q r = .ok q' ∧
        q'.toNat = (u * radix + u0.toNat) / (v1.toNat * radix + v0.toNat)
  | 0, q, r, _, _, hfuel => by
    have := toNat_lt_radix r
    omega
  | fuel + 1, q, r, hqr, hge, hfuel => by
    have hpos : 0 < v1.toNat * radix + v0.toNat :=
      Nat.add_pos_left (Nat.mul_pos hv1 radix_pos) _
    have hqlt := toNat_lt_radix q
    have hcond : greaterThan (u64Mul q v0).2 (u64Mul q v0).1 r u0 = true ↔
        u * radix + u0.toNat < q.toNat * (v1.toNat * radix + v0.toNat) := by
      rw [greaterThan_iff, u64Mul_eq, LongDivision.test_iff _ _ _ hqr]
    rw [qhatLoop]
    dsimp only
    by_cases hc : u * radix + u0.toNat < q.toNat * (v1.toNat * radix + v0.toNat)
    · rw [if_pos (hcond.mpr hc)]
      have hqpos : 0 < q.toNat := Nat.pos_of_ne_zero fun h0 => by
        rw [h0, Nat.zero_mul] at hc
        exact Nat.not_lt_zero _ hc
      have hqp : (q - 1).toNat = q.toNat - 1 := toNat_sub_le hqpos
      obtain ⟨k, hk⟩ : ∃ k, q.toNat = k + 1 := ⟨q.toNat - 1, by omega⟩
      rw [hk, Nat.add_sub_cancel] at hqp
      rw [hk] at hc hqr
      have hge' := LongDivision.div_le_of_lt hc
      have hqr' := LongDivision.guess_pred hqr
      by_cases hover : radix ≤ r.toNat + v1.toNat
      · have hwrap : r + v1 < r := by
          have h1 := toNat_lt_radix r
          have h2 := toNat_lt_radix v1
          rw [BitVec.lt_def, BitVec.toNat_add]
          rw [radix] at *
          omega
        rw [if_pos hwrap]
        refine ⟨q - 1, rfl, ?_⟩
        rw [hqp]
        exact LongDivision.eq_div_of_le hpos hge'
          (LongDivision.stop_le hqr' hover (by omega) (toNat_lt_radix v0))
      · have hrv : (r + v1).toNat = r.toNat + v1.toNat := toNat_add_lt (Nat.not_le.mp hover)
        have hwrap : ¬ r + v1 < r := by
          rw [BitVec.lt_def, hrv]
          omega
        rw [if_neg hwrap]
        refine qhatLoop_eq v0 u0 hv1 (by rw [hqp, hrv]; exact hqr') (by rw [hqp]; exact hge') ?_
        rw [Nat.add_mul, Nat.one_mul] at hfuel
        omega
    · rw [if_neg (hcond.not.mpr hc)]
      exact ⟨q, rfl, LongDivision.eq_div_of_le hpos hge (Nat.not_lt.mp hc)⟩

/-- With the top bit set there is nothing to shift. -/
theorem nlz_of_high {w : Word} (hw : 2 ^ 63 ≤ w.toNat) : nlz w = .ok 0 ∧ w ≠ 0 := by
  have hne : w ≠ 0 := by
    rintro rfl
    rw [word_zero] at hw
    omega
  obtain ⟨s, hs, -, -, hfit, -⟩ := nlz_spec hne
  refine ⟨?_, hne⟩
  rcases Nat.eq_zero_or_pos s with rfl | hpos
  · exact hs
  · have h2 : 2 ^ 1 ≤ 2 ^ s := Nat.pow_le_pow_right (by decide) hpos
    have := Nat.mul_le_mul hw h2
    rw [radix] at hfit
    omega

/-- A divisor as `natDivBasic` wants it: two words or more, the top bit set, with the reciprocal
of its top word. -/
structure Divisor (v : CNat) (vn1 rec : Word) : Prop where
  valid : v.Valid
  two : 2 ≤ v.len
  top : v.words[v.len - 1]? = some vn1
  high : 2 ^ 63 ≤ vn1.toNat
  recip : IsReciprocal rec vn1.toNat

/-- What the round at `j` looks at. -/
def window (u : CNat) (n j : Nat) : List Word := (u.words.drop j).take (n + 1)

/-- The two words at the top of `k + 2`. -/
theorem value_top_two {t : List Word} {k : Nat} {w1 w0 : Word} (h1 : t[k + 1]? = some w1)
    (h0 : t[k]? = some w0) :
    value (t.take (k + 2)) =
      (w1.toNat * radix + w0.toNat) * radix ^ k + value (t.take k) := by
  obtain ⟨hl1, rfl⟩ := List.getElem?_eq_some_iff.mp h1
  obtain ⟨hl0, rfl⟩ := List.getElem?_eq_some_iff.mp h0
  rw [value_take_succ hl1, value_take_succ hl0]
  ring

/-- A word of a vector is read where it stands. -/
theorem read_word {u : CNat} (hu : u.Valid) {i : Nat} (hi : i < u.len) :
    ∃ w, Run.read u.data i = .ok w ∧ u.words[i]? = some w := by
  have hlt : i < u.data.length := hi.trans_le hu
  refine ⟨u.data[i], Run.read_eq_ok (List.getElem?_eq_getElem hlt), ?_⟩
  rw [CNat.words, List.getElem?_take_of_lt hi, List.getElem?_eq_getElem hlt]

namespace Divisor

variable {v : CNat} {vn1 rec : Word}

/-- The divisor from its two top words. -/
theorem val_eq (hv : Divisor v vn1 rec) :
    ∃ vn2, Run.read v.data (v.len - 2) = .ok vn2 ∧
      v.val = (vn1.toNat * radix + vn2.toNat) * radix ^ (v.len - 2) +
        value (v.words.take (v.len - 2)) := by
  have htwo := hv.two
  obtain ⟨vn2, hread, hw⟩ := read_word hv.valid (show v.len - 2 < v.len by omega)
  have htop := hv.top
  rw [show v.len - 1 = v.len - 2 + 1 by omega] at htop
  have h := value_top_two htop hw
  rw [Nat.sub_add_cancel htwo, List.take_of_length_le (CNat.length_words hv.valid).le] at h
  exact ⟨vn2, hread, h⟩

/-- It takes all of its words. -/
theorem pow_le_val (hv : Divisor v vn1 rec) : radix ^ (v.len - 1) ≤ v.val := by
  obtain ⟨vn2, -, hval⟩ := hv.val_eq
  have htwo := hv.two
  have hpos : 0 < vn1.toNat := (show 0 < 2 ^ 63 by decide).trans_le hv.high
  calc radix ^ (v.len - 1) = radix * radix ^ (v.len - 2) := by
        rw [← pow_succ']
        congr 1
        omega
    _ ≤ (vn1.toNat * radix + vn2.toNat) * radix ^ (v.len - 2) :=
        Nat.mul_le_mul_right _ ((Nat.le_mul_of_pos_left radix hpos).trans (Nat.le_add_right _ _))
    _ ≤ v.val := hval ▸ Nat.le_add_right _ _

theorem val_pos (hv : Divisor v vn1 rec) : 0 < v.val := (radix_pow_pos _).trans_le hv.pow_le_val

end Divisor

/-- The quotient of the three top words by the two top words of the divisor, as a digit. -/
theorem top_bounds {v1 v0 : Word} {p u ul vl q : Nat} (hv1 : 0 < v1.toNat) (hul : ul < p)
    (hvl : vl < p) (hq : q = u / (v1.toNat * radix + v0.toNat)) (hlt : q < radix) :
    (u * p + ul) / ((v1.toNat * radix + v0.toNat) * p + vl) ≤ q ∧
      q ≤ (u * p + ul) / ((v1.toNat * radix + v0.toNat) * p + vl) + 1 := by
  have hge : radix ≤ v1.toNat * radix + v0.toNat :=
    (Nat.le_mul_of_pos_left radix hv1).trans (Nat.le_add_right _ _)
  have hpos := radix_pos.trans_le hge
  refine ⟨hq ▸ LongDivision.div_le_top hpos hul _, ?_⟩
  refine LongDivision.top_le_div_add_one hpos (Nat.zero_lt_of_lt hul) hvl ?_ (hlt.le.trans hge) _
  rw [hq]
  exact Nat.div_mul_le_self _ _

/-- The window from its three top words; at the top of `u` the upper one counts as zero. -/
theorem window_eq {u : CNat} {n j : Nat} (hu : u.Valid) (hn : 2 ≤ n) (hj : j + n ≤ u.len) :
    ∃ un u1 u0, (if j + n < u.len then Run.read u.data (j + n) else .ok 0) = .ok un ∧
      Run.read u.data (j + n - 1) = .ok u1 ∧ Run.read u.data (j + n - 2) = .ok u0 ∧
      value (window u n j) =
        ((un.toNat * radix + u1.toNat) * radix + u0.toNat) * radix ^ (n - 2) +
          value ((u.words.drop j).take (n - 2)) ∧ (j + n = u.len → un = 0) := by
  obtain ⟨k, rfl⟩ : ∃ k, n = k + 2 := ⟨n - 2, by omega⟩
  obtain ⟨u1, hr1, hw1⟩ := read_word hu (show j + (k + 1) < u.len by omega)
  obtain ⟨u0, hr0, hw0⟩ := read_word hu (show j + k < u.len by omega)
  have hlow := value_top_two (t := u.words.drop j) (k := k) (by rw [List.getElem?_drop, hw1])
    (by rw [List.getElem?_drop, hw0])
  have hlen : (u.words.drop j).length = u.len - j := by
    rw [List.length_drop, CNat.length_words hu]
  by_cases hlt : j + (k + 2) < u.len
  · obtain ⟨un, hrn, hwn⟩ := read_word hu hlt
    refine ⟨un, u1, u0, by rw [if_pos hlt, hrn], hr1, hr0, ?_, fun h => absurd h hlt.ne⟩
    have hn : k + 2 < (u.words.drop j).length := by omega
    have hget : (u.words.drop j)[k + 2] = un := by
      have := List.getElem?_eq_getElem hn
      rw [List.getElem?_drop, hwn] at this
      exact (Option.some.inj this).symm
    rw [window, value_take_succ hn, hget, hlow, Nat.add_sub_cancel]
    ring
  · refine ⟨0, u1, u0, by rw [if_neg hlt], hr1, hr0, ?_, fun _ => rfl⟩
    have htake : window u (k + 2) j = (u.words.drop j).take (k + 2) := by
      rw [window, List.take_of_length_le (by omega), List.take_of_length_le (by omega)]
    rw [htake, hlow, word_zero, Nat.zero_mul, Nat.zero_add, Nat.add_sub_cancel]

/-- What `qhatGuess` does once it has the upper word of the window. -/
def guessFrom (u v : CNat) (rec vn1 : Word) (j : Nat) (ujn : Word) : Run Word :=
  if ujn ≠ vn1 then do
    let ujn1 ← Run.read u.data (j + v.len - 1)
    let (qhat, rhat) ← divWW ujn ujn1 vn1 rec
    let vn2 ← Run.read v.data (v.len - 2)
    let ujn2 ← Run.read u.data (j + v.len - 2)
    qhatLoop vn1 vn2 ujn2 3 qhat rhat
  else .ok (BitVec.allOnes 64)

theorem qhatGuess_from {u v : CNat} {rec vn1 un : Word} {j : Nat}
    (h : (if j + v.len < u.len then Run.read u.data (j + v.len) else .ok 0) = .ok un) :
    qhatGuess u v rec vn1 j = guessFrom u v rec vn1 j un := by
  rw [qhatGuess]
  split at h
  · next hlt =>
    rw [if_pos hlt]
    exact Run.bind_of_eq h rfl
  · next hlt =>
    rw [if_neg hlt, ← Except.ok.inj h]
    rfl

/-- **The guess** is the digit or one more; at the top of `u` it is at most 1. -/
theorem qhatGuess_eq {u v : CNat} {vn1 rec : Word} {j : Nat} (hv : Divisor v vn1 rec)
    (hu : u.Valid) (hj : j + v.len ≤ u.len) (hw : value (window u v.len j) < v.val * radix) :
    ∃ qhat, qhatGuess u v rec vn1 j = .ok qhat ∧
      value (window u v.len j) / v.val ≤ qhat.toNat ∧
      qhat.toNat ≤ value (window u v.len j) / v.val + 1 ∧
      (j + v.len = u.len → qhat.toNat ≤ 1) := by
  obtain ⟨vn2, hvn2, hval⟩ := hv.val_eq
  obtain ⟨un, u1, u0, hun, hu1, hu0, hwin, htop⟩ := window_eq hu hv.two hj
  obtain ⟨hnlz, hne⟩ := nlz_of_high hv.high
  have hhigh := hv.high
  have hvpos := hv.val_pos
  have hul : value ((u.words.drop j).take (v.len - 2)) < radix ^ (v.len - 2) := value_take_lt _
  have hvl : value (v.words.take (v.len - 2)) < radix ^ (v.len - 2) := value_take_lt _
  have hpp := radix_pow_pos (v.len - 2)
  rw [qhatGuess_from hun, guessFrom]
  have hvle : v.val ≤ (vn1.toNat + 1) * (radix * radix ^ (v.len - 2)) := by
    have h2 := toNat_lt_radix vn2
    calc v.val ≤ (vn1.toNat * radix + vn2.toNat) * radix ^ (v.len - 2) + radix ^ (v.len - 2) := by
          rw [hval]
          exact Nat.add_le_add_left hvl.le _
      _ = (vn1.toNat * radix + (vn2.toNat + 1)) * radix ^ (v.len - 2) := by ring
      _ ≤ (vn1.toNat * radix + radix) * radix ^ (v.len - 2) :=
          Nat.mul_le_mul_right _ (Nat.add_le_add_left h2 _)
      _ = (vn1.toNat + 1) * (radix * radix ^ (v.len - 2)) := by ring
  have hwge : un.toNat * radix * (radix * radix ^ (v.len - 2)) ≤ value (window u v.len j) := by
    calc un.toNat * radix * (radix * radix ^ (v.len - 2))
        = un.toNat * radix * radix * radix ^ (v.len - 2) := by ring
      _ ≤ ((un.toNat * radix + u1.toNat) * radix + u0.toNat) * radix ^ (v.len - 2) :=
          Nat.mul_le_mul_right _ ((Nat.mul_le_mul_right _ (Nat.le_add_right _ _)).trans
            (Nat.le_add_right _ _))
      _ ≤ value (window u v.len j) := by
          rw [hwin]
          exact Nat.le_add_right _ _
  by_cases heq : un = vn1
  · -- the top words agree, and the largest digit is the guess
    rw [if_neg (not_not_intro heq)]
    refine ⟨_, rfl, ?_, ?_, fun h => absurd ((htop h).symm.trans heq) hne.symm⟩
    · rw [BitVec.toNat_allOnes]
      exact Nat.le_sub_one_of_lt (Nat.div_lt_of_lt_mul hw)
    · rw [BitVec.toNat_allOnes]
      exact LongDivision.largest_le_div_add_one (b := radix) hvpos (heq ▸ hwge) hvle
        (by rw [radix]; omega)
  · rw [if_pos heq]
    have hlt : un.toNat < vn1.toNat := by
      have hle : un.toNat ≤ vn1.toNat := by
        refine Nat.lt_succ_iff.mp (Nat.lt_of_mul_lt_mul_right
          (a := radix * (radix * radix ^ (v.len - 2))) ?_)
        calc un.toNat * (radix * (radix * radix ^ (v.len - 2)))
            = un.toNat * radix * (radix * radix ^ (v.len - 2)) := by ring
          _ ≤ value (window u v.len j) := hwge
          _ < v.val * radix := hw
          _ ≤ (vn1.toNat + 1) * (radix * radix ^ (v.len - 2)) * radix :=
              Nat.mul_le_mul_right _ hvle
          _ = (vn1.toNat + 1) * (radix * (radix * radix ^ (v.len - 2))) := by ring
      exact lt_of_le_of_ne hle fun h => heq (BitVec.eq_of_toNat_eq h)
    obtain ⟨q, r, hqr, hqv, hrv⟩ := divWW_eq u1 hne hnlz
      (by rw [pow_zero, Nat.mul_one]; exact hv.recip) hlt
    have hpos : 0 < vn1.toNat := by omega
    obtain ⟨qhat, hloop, hqhat⟩ :=
      qhatLoop_eq vn2 u0 (q := q) (r := r) hpos (by rw [hqv, hrv, Nat.mul_comm, Nat.div_add_mod])
      (by rw [hqv]; exact LongDivision.div_le_top hpos (toNat_lt_radix u0) _)
      (show radix ≤ r.toNat + 3 * vn1.toNat by rw [radix]; omega)
    obtain ⟨hge, hle⟩ := top_bounds hpos hul hvl hqhat (toNat_lt_radix qhat)
    rw [← hwin, ← hval] at hge hle
    refine ⟨qhat, Run.bind_of_eq hu1 (Run.bind_of_eq hqr (Run.bind_of_eq hvn2
      (Run.bind_of_eq hu0 hloop))), hge, hle, ?_⟩
    intro h
    -- nothing above: two words by two words with the top bit set
    rw [hqhat, htop h, word_zero, Nat.zero_mul, Nat.zero_add]
    refine Nat.lt_succ_iff.mp (Nat.div_lt_of_lt_mul ?_)
    have h1 := toNat_lt_radix u1
    have h0 := toNat_lt_radix u0
    rw [radix] at *
    omega

/-! ## 2. One round -/

theorem window_eq_take (u : CNat) (n j : Nat) :
    window u n j = (u.data.drop j).take (min (n + 1) (u.len - j)) := by
  rw [window, CNat.words, List.drop_take, List.take_take]

theorem length_window {u : CNat} (hu : u.Valid) (n j : Nat) :
    (window u n j).length = min (n + 1) (u.len - j) := by
  have : u.len ≤ u.data.length := hu
  rw [window_eq_take, List.length_take, List.length_drop]
  omega

/-- The parts below and above a power are determined. -/
theorem low_high_unique {p a r m k : Nat} (ha : a < p) (hr : r < p)
    (h : a + p * m = r + p * k) : a = r ∧ m = k := by
  have hmod := congrArg (· % p) h
  have hdiv := congrArg (· / p) h
  simp only [Nat.add_mul_mod_self_left, Nat.mod_eq_of_lt ha, Nat.mod_eq_of_lt hr] at hmod
  simp only [Nat.add_mul_div_left _ _ (Nat.zero_lt_of_lt ha), Nat.div_eq_of_lt ha,
    Nat.div_eq_of_lt hr, Nat.zero_add] at hdiv
  exact ⟨hmod, hdiv⟩

/-- The guess times the divisor, in the storage of `qhatv`. -/
theorem guess_product {v : CNat} (hv : v.Valid) {qh : List Word} (hqh : qh.length = v.len + 1)
    (qhat : Word) (cap : Nat) :
    ∃ c zs x, mulAddVWW ⟨qh, v.len, cap⟩ v qhat 0 = .ok (c, zs ++ [x]) ∧
      Run.write (zs ++ [x]) v.len c = .ok (zs ++ [c]) ∧ zs.length = v.len ∧
      value zs + c.toNat * radix ^ v.len = v.val * qhat.toNat := by
  obtain ⟨c, zs, hrun, hlen, hval⟩ := mulAddLoop_spec qhat (n := v.len) (z := qh) (c := 0)
    (by omega) hv
  obtain ⟨x, hx⟩ := List.length_eq_one_iff.mp
    (show (qh.drop v.len).length = 1 by rw [List.length_drop]; omega)
  refine ⟨c, zs, x, ?_, Run.write_append hlen x c [], hlen, ?_⟩
  · rw [mulAddVWW, Nat.min_self, hrun, hx]
  · rw [hval, word_zero, Nat.add_zero]
    rfl

/-- **The difference tells whether the guess was right.**  `w` holds the window less the product,
and `c` is the borrow. -/
theorem digit_of_borrow {w : List Word} {c qhat W V : Nat} (hV : 0 < V)
    (hsub : value w + V * qhat = W + c * radix ^ w.length) (hc : c ≤ 1)
    (hge : W / V ≤ qhat) (hle : qhat ≤ W / V + 1) :
    (c = 0 → qhat = W / V ∧ value w = W % V) ∧
      (c = 1 → qhat = W / V + 1 ∧ value w + V = radix ^ w.length + W % V) := by
  have hdm := Nat.div_add_mod W V
  have hmod := Nat.mod_lt W hV
  have hlt := value_lt w
  rcases Nat.lt_or_ge (W / V) qhat with h | h
  · have heq : qhat = W / V + 1 := Nat.le_antisymm hle h
    rw [heq, Nat.mul_succ] at hsub
    refine ⟨?_, ?_⟩
    · rintro rfl
      omega
    · rintro rfl
      exact ⟨heq, by omega⟩
  · have heq : qhat = W / V := Nat.le_antisymm h hge
    rw [heq] at hsub
    refine ⟨?_, ?_⟩
    · rintro rfl
      exact ⟨heq, by omega⟩
    · rintro rfl
      omega

section

variable {u v : CNat} {j : Nat}

/-- **The product is subtracted** from the window. -/
theorem subtract_eq (cap cap' : Nat) (hu : u.Valid) (hj : j + v.len ≤ u.len) {zs : List Word}
    {c : Word} {qhl : Nat} (hzs : zs.length = v.len)
    (hqhl : qhl = (window u v.len j).length)
    (hp : value ((zs ++ [c]).take qhl) = value (zs ++ [c])) :
    ∃ b w, subVV ⟨u.data.drop j, j + qhl - j, cap⟩ ⟨u.data.drop j, u.len - j, u.len - j⟩
        ⟨zs ++ [c], v.len + 1, cap'⟩ = .ok (b, w ++ u.data.drop (j + qhl)) ∧
      w.length = qhl ∧ b.toNat ≤ 1 ∧
      value w + value (zs ++ [c]) = value (window u v.len j) + b.toNat * radix ^ qhl := by
  have hlen : u.len ≤ u.data.length := hu
  rw [length_window hu] at hqhl
  obtain ⟨b, w, hrun, hw, hb, hval⟩ := subVV_spec (n := qhl)
    (z := ⟨u.data.drop j, j + qhl - j, cap⟩) (x := ⟨u.data.drop j, u.len - j, u.len - j⟩)
    (y := ⟨zs ++ [c], v.len + 1, cap'⟩) (by dsimp only; omega)
    (by rw [List.length_drop]; omega) (by rw [List.length_drop]; omega)
    (by rw [List.length_append, hzs, List.length_singleton]; omega)
  rw [List.drop_drop] at hrun
  rw [hp] at hval
  rw [window_eq_take, ← hqhl]
  exact ⟨b, w, hrun, hw, hb, hval⟩

theorem splice_splice {d t t' : List Word} {i : Nat} (hi : i ≤ d.length) :
    splice (splice d i t) i t' = splice d i t' := by
  rw [splice, take_splice hi le_rfl, splice]

/-- **The divisor is added back** to the low words. -/
theorem addBack_eq (cap : Nat) (hv : v.Valid) {t : List Word} {l : Nat} (hl : v.len ≤ l)
    (ht : v.len ≤ t.length) :
    ∃ cc w, addVV ⟨t, j + v.len - j, cap⟩ ⟨t, l, l⟩ v = .ok (cc, w ++ t.drop v.len) ∧
      w.length = v.len ∧ cc.toNat ≤ 1 ∧
      value w + cc.toNat * radix ^ v.len = value (t.take v.len) + v.val := by
  obtain ⟨cc, w, hrun, hw, hc, hval⟩ := addVV_spec (n := v.len)
    (z := ⟨t, j + v.len - j, cap⟩) (x := ⟨t, l, l⟩) (y := v) (by dsimp only; omega) ht ht hv
  exact ⟨cc, w, hrun, hw, hc, hval⟩

/-- **The carry of the add-back.**  `w` is the difference with a borrow in it and `w2` its low words
with the divisor added; a word above these takes the carry and becomes zero. -/
theorem carry_eq {γ : Type} (f : List Word → Run γ) (rest : List Word) {d w w2 : List Word}
    {cc : Word} {n r V : Nat} (hj : j ≤ d.length)
    (hw2 : w2.length = n) (hn : n ≤ w.length) (hn' : w.length ≤ n + 1)
    (hsum : value w2 + cc.toNat * radix ^ n = value (w.take n) + V)
    (hval : value w + V = radix ^ w.length + r) (hr : r < radix ^ n) :
    ∃ w', (if n < w.length then do
          let top ← Run.read (splice d j (w2 ++ (w.drop n ++ rest))) (j + n)
          let data ← Run.write (splice d j (w2 ++ (w.drop n ++ rest))) (j + n) (top + cc)
          f data
        else f (splice d j (w2 ++ (w.drop n ++ rest)))) = f (splice d j (w' ++ rest)) ∧
      w'.length = w.length ∧ value w' = r := by
  have hw2lt : value w2 < radix ^ n := hw2 ▸ value_lt w2
  by_cases hlt : n < w.length
  · have hlen : w.length = n + 1 := by omega
    have hone : (w.drop n).length = 1 := by rw [List.length_drop, hlen, Nat.add_sub_cancel_left]
    obtain ⟨top, htop⟩ := List.length_eq_one_iff.mp hone
    have hsplit : w = w.take n ++ [top] := by rw [← htop, List.take_append_drop]
    have hval' := congrArg value hsplit
    rw [value_append, List.length_take_of_le hn, value_cons, value_nil, Nat.mul_zero,
      Nat.add_zero] at hval'
    have hcut : value w2 + radix ^ n * (top.toNat + cc.toNat) = r + radix ^ n * radix := by
      rw [hlen, pow_succ] at hval
      linear_combination hsum + hval - hval'
    obtain ⟨hlow, hhigh⟩ := low_high_unique hw2lt hr hcut
    have hzero : top + cc = 0 := by
      refine BitVec.eq_of_toNat_eq ?_
      rw [BitVec.toNat_add, hhigh]
      rfl
    refine ⟨w2 ++ [0], ?_, by rw [List.length_append, hw2, List.length_singleton, hlen], ?_⟩
    · have hpre : (d.take j ++ w2).length = j + n := by
        rw [List.length_append, List.length_take_of_le hj, hw2]
      have hdata : splice d j (w2 ++ ([top] ++ rest)) = (d.take j ++ w2) ++ top :: rest := by
        rw [splice, List.append_assoc]
        rfl
      have hread : Run.read ((d.take j ++ w2) ++ top :: rest) (j + n) = .ok top := by
        rw [← hpre]
        exact Run.read_eq_ok (by simp)
      rw [if_pos hlt, htop, hdata, hread, Run.ok_bind, Run.write_append hpre, hzero, Run.ok_bind]
      simp [splice]
    · rw [value_append, value_cons, value_nil, hlow]
      simp
  · have hlen : w.length = n := by omega
    refine ⟨w2, ?_, hw2.trans hlen.symm, ?_⟩
    · rw [if_neg hlt, List.drop_of_length_le hlen.le, List.nil_append]
    · have hcut : value w2 + radix ^ n * cc.toNat = r + radix ^ n * 1 := by
        rw [List.take_of_length_le hlen.le] at hsum
        rw [hlen] at hval
        linear_combination hsum + hval
      exact (low_high_unique hw2lt hr hcut).1

end

/-- **One round**: the window is replaced by its remainder, and the digit is its quotient. -/
theorem natDivBasicStep_eq {u v : CNat} {vn1 rec : Word} {j : Nat} {qh : List Word} (cap : Nat)
    (hv : Divisor v vn1 rec) (hu : u.Valid) (hj : j + v.len ≤ u.len)
    (hw : value (window u v.len j) < v.val * radix) (hqh : qh.length = v.len + 1) :
    ∃ qd w qh', natDivBasicStep u v ⟨qh, v.len + 1, cap⟩ rec vn1 j =
        .ok (qd, splice u.data j (w ++ u.data.drop (j + (window u v.len j).length)), qh') ∧
      w.length = (window u v.len j).length ∧ qh'.length = v.len + 1 ∧
      qd.toNat = value (window u v.len j) / v.val ∧
      value w = value (window u v.len j) % v.val := by
  obtain ⟨qhat, hguess, hge, hle, htop⟩ := qhatGuess_eq hv hu hj hw
  obtain ⟨c, zs, x, hmul, hwrite, hzs, hprod⟩ := guess_product hv.valid hqh qhat (v.len - 0)
  have hvpos := hv.val_pos
  have hvlt : v.val < radix ^ v.len := CNat.val_lt
  have hk := length_window hu v.len j
  have hulen : u.len ≤ u.data.length := hu
  generalize hkk : (window u v.len j).length = k at *
  -- at the top the product has no word above the divisor's
  have hc0 : j + v.len = u.len → c = 0 := by
    intro h
    refine BitVec.eq_of_toNat_eq (Nat.eq_zero_of_not_pos fun hpos => ?_)
    have h1 := Nat.le_mul_of_pos_left (radix ^ v.len) hpos
    have h2 := Nat.mul_le_mul_left v.val (htop h)
    omega
  have hqhl : (if u.len < j + (v.len + 1) ∧ c = 0 then v.len + 1 - 1 else v.len + 1) = k := by
    by_cases hlt : j + v.len < u.len
    · rw [if_neg (by omega)]
      omega
    · rw [if_pos ⟨by omega, hc0 (by omega)⟩]
      omega
  have hp : value ((zs ++ [c]).take k) = value (zs ++ [c]) := by
    by_cases hlt : j + v.len < u.len
    · rw [List.take_of_length_le (by rw [List.length_append, hzs, List.length_singleton]; omega)]
    · rw [List.take_left' (by omega), value_append, hc0 (by omega)]
      simp
  obtain ⟨b, w, hsub, hwl, hb, hdiff⟩ := subtract_eq (j + k - j) cap hu hj hzs
    hkk.symm hp
  have hpv : value (zs ++ [c]) = v.val * qhat.toNat := by
    rw [value_append, hzs, value_cons, value_nil, Nat.mul_zero, Nat.add_zero, ← hprod]
    ring
  rw [hpv, ← hwl] at hdiff
  obtain ⟨hno, hyes⟩ := digit_of_borrow hvpos hdiff hb hge hle
  have hmul' := hmul
  rw [Nat.sub_zero] at hmul'
  rw [natDivBasicStep]
  simp only [hguess, Run.ok_bind, natPart_eq _ (Nat.zero_le _), List.drop_zero, Nat.sub_zero,
    hmul', hwrite, hqhl, natPart_eq _ (Nat.le_add_right j _),
    natPart_eq _ (show j ≤ u.len by omega), hsub]
  by_cases hb0 : b = 0
  · obtain ⟨hq, hval⟩ := hno (by rw [hb0]; rfl)
    refine ⟨qhat, w, zs ++ [c], ?_, hwl, by simp [hzs], hq, hval⟩
    rw [if_neg (not_not_intro hb0)]
  · have hb1 : b.toNat = 1 := by
      have : b.toNat ≠ 0 := fun h => hb0 (BitVec.eq_of_toNat_eq h)
      omega
    obtain ⟨hq, hval⟩ := hyes hb1
    have hju : j ≤ u.data.length := by omega
    have hdrop := drop_splice_self (w ++ u.data.drop (j + k)) hju
    obtain ⟨cc, w2, hadd, hw2, hcc, hsum⟩ := addBack_eq (j := j) (t := w ++ u.data.drop (j + k))
      (l := u.len - j) (j + v.len - j) hv.valid (by omega)
      (by rw [List.length_append, hwl]; omega)
    have hqd : (qhat - 1).toNat = value (window u v.len j) / v.val := by
      have hpos : (1 : Word).toNat ≤ qhat.toNat := by
        rw [hq, word_one]
        exact Nat.le_add_left _ _
      rw [toNat_sub_le hpos, hq, word_one, Nat.add_sub_cancel]
    have hvw : v.len ≤ w.length := by omega
    rw [List.take_append_of_le_length hvw] at hsum
    obtain ⟨w', hcarry, hwl', hval'⟩ := carry_eq (fun data => .ok (qhat - 1, data, zs ++ [c]))
      (u.data.drop (j + k)) hju hw2 hvw (by omega) hsum hval ((Nat.mod_lt _ hvpos).trans hvlt)
    refine ⟨qhat - 1, w', zs ++ [c], ?_, hwl'.trans hwl, by simp [hzs], hqd, hval'⟩
    simp only [if_pos hb0, hdrop, hadd, Run.ok_bind]
    rw [splice_splice hju, List.drop_append_of_le_length hvw]
    rw [hwl] at hcarry
    exact hcarry

/-! ## 3. All rounds -/

theorem value_take_of_lt {ws : List Word} {n : Nat} (h : value ws < radix ^ n) :
    value (ws.take n) = value ws := by
  rcases Nat.le_total n ws.length with hle | hle
  · rw [value_take ws hle, Nat.mod_eq_of_lt h]
  · rw [List.take_of_length_le hle]

/-- What a round at `j` leaves of the words from `j` on. -/
theorem round_eq {u v : CNat} {vn1 rec : Word} {j : Nat} {qh : List Word} (cap : Nat)
    (hv : Divisor v vn1 rec) (hu : u.Valid) (hj : j + v.len ≤ u.len)
    (hlt : value (u.words.drop (j + 1)) < v.val) (hqh : qh.length = v.len + 1) :
    ∃ qd d qh', natDivBasicStep u v ⟨qh, v.len + 1, cap⟩ rec vn1 j = .ok (qd, d, qh') ∧
      d.length = u.data.length ∧ d.take j = u.data.take j ∧ d.drop u.len = u.data.drop u.len ∧
      qh'.length = v.len + 1 ∧ qd.toNat = value (u.words.drop j) / v.val ∧
      value ((d.take u.len).drop j) = value (u.words.drop j) % v.val := by
  have htwo := hv.two
  have hulen : u.len ≤ u.data.length := hu
  have hvlt : v.val < radix ^ v.len := CNat.val_lt
  have hjw : j < u.words.length := by rw [CNat.length_words hu]; omega
  have hcons : value (u.words.drop j) < v.val * radix := by
    rw [List.drop_eq_getElem_cons hjw, value_cons]
    have h1 := toNat_lt_radix u.words[j]
    have h2 := Nat.mul_le_mul_right radix (Nat.succ_le_of_lt hlt)
    rw [Nat.succ_mul, Nat.mul_comm] at h2
    omega
  have hsmall : value (u.words.drop j) < radix ^ (v.len + 1) := by
    refine hcons.trans_le ?_
    rw [pow_succ]
    exact Nat.mul_le_mul_right radix hvlt.le
  have hwin : value (window u v.len j) = value (u.words.drop j) := value_take_of_lt hsmall
  obtain ⟨qd, w, qh', hrun, hwl, hqh', hqd, hw⟩ :=
    natDivBasicStep_eq cap hv hu hj (hwin ▸ hcons) hqh
  have hk := length_window hu v.len j
  generalize (window u v.len j).length = k at *
  have hsplit : u.words.drop j = window u v.len j ++ u.words.drop (j + k) := by
    have htake : window u v.len j = (u.words.drop j).take k := by
      rw [window, List.take_eq_take_iff, List.length_drop, CNat.length_words hu]
      omega
    rw [htake, ← List.drop_drop, List.take_append_drop]
  -- above the window there are zeros
  have hrest : value (u.words.drop (j + k)) = 0 := by
    have h := congrArg value hsplit
    rw [value_append, hwin] at h
    have h0 := Nat.add_left_cancel (n := value (u.words.drop j)) (m := 0)
      (by rw [← h, Nat.add_zero])
    exact (Nat.mul_eq_zero.mp h0.symm).resolve_left (radix_pow_pos _).ne'
  refine ⟨qd, _, qh', hrun, ?_, take_splice (by omega) le_rfl, ?_, hqh', hwin ▸ hqd, ?_⟩
  · refine length_splice (by omega) ?_
    rw [List.length_append, List.length_drop, hwl]
    omega
  · obtain ⟨i, hi⟩ : ∃ i, u.len = j + (k + i) := ⟨u.len - (j + k), by omega⟩
    rw [hi, drop_splice (by omega), ← List.drop_drop, List.drop_left' hwl, List.drop_drop,
      Nat.add_assoc]
  · rw [List.drop_take, drop_splice_self _ (by omega), List.take_append,
      List.take_of_length_le (by omega), value_append,
      hwl, Nat.sub_sub, ← List.drop_take, ← CNat.words, hrest, Nat.mul_zero, Nat.add_zero, hw, hwin]

section

variable {v : CNat} {vn1 rec : Word} (m qlen ulen : Nat)

/-- What the words below `j` and the remainder of those above make of the whole. -/
theorem value_low_rest {d : List Word} (j : Nat) (hl : j ≤ ulen) (hd : ulen ≤ d.length) :
    value (d.take ulen) = value ((d.take ulen).drop j) * radix ^ j + value (d.take j) := by
  have h := value_take_add_drop (d.take ulen) (n := j) (by rw [List.length_take_of_le hd]; exact hl)
  rw [List.take_take, Nat.min_eq_left hl] at h
  rw [← h]
  ring

/-- **The rounds** leave the remainder in `u` and the quotient in `q`; the round at the top is
one of them if `q` is longer than the loop expects. -/
theorem natDivBasicLoop_eq (hv : Divisor v vn1 rec) :
    ∀ {j : Nat} {q u qh : List Word}, (j ≤ m ∨ m ≠ qlen) → j + v.len ≤ ulen + 1 →
      ulen ≤ u.length → j ≤ q.length → qh.length = v.len + 1 →
      value ((u.take ulen).drop j) < v.val →
      ∃ q' u', natDivBasicLoop m qlen v rec vn1 ulen j q u qh = .ok (q', u') ∧
        q'.length = q.length ∧ q'.drop j = q.drop j ∧ u'.length = u.length ∧
        u'.drop ulen = u.drop ulen ∧ value (q'.take j) = value (u.take ulen) / v.val ∧
        value (u'.take ulen) = value (u.take ulen) % v.val
  | 0, q, u, qh, _, _, _, _, _, hlt => by
    rw [List.drop_zero] at hlt
    refine ⟨q, u, rfl, rfl, rfl, rfl, rfl, ?_, ?_⟩
    · rw [List.take_zero, Nat.div_eq_of_lt hlt, value_nil]
    · rw [Nat.mod_eq_of_lt hlt]
  | j + 1, q, u, qh, hm, hj, hu, hq, hqh, hlt => by
    obtain ⟨qd, d, qh', hrun, hdl, hdj, hdu, hqh', hqd, hrem⟩ :=
      round_eq (u := ⟨u, ulen, ulen⟩) (v.len + 1) hv hu (show j + v.len ≤ ulen by omega)
        hlt hqh
    dsimp only [CNat.words] at hdl hdj hdu hqd hrem
    have hjq : j < q.length := hq
    obtain ⟨q', u', hloop, hql, hqj, hul, huu, hqv, huv⟩ := natDivBasicLoop_eq hv
      (q := q.set j qd) (u := d) (hm.imp_left Nat.le_of_succ_le) (by omega)
      (by omega) (by rw [List.length_set]; omega) hqh' (by
        rw [hrem]
        exact Nat.mod_lt _ hv.val_pos)
    have hwords := value_low_rest (d := u) ulen j (by omega) hu
    have hwords' := value_low_rest (d := d) ulen j (by omega) (by omega)
    rw [hdj, hrem] at hwords'
    refine ⟨q', u', ?_, by rw [hql, List.length_set], ?_, hul.trans hdl, huu.trans hdu, ?_, ?_⟩
    · rw [natDivBasicLoop]
      refine Run.bind_of_eq hrun ?_
      dsimp only
      rw [if_neg (by omega), Run.write_eq_ok hjq]
      exact hloop
    · rw [← List.drop_drop, hqj, List.drop_drop, List.drop_set_of_lt (by omega)]
    · -- the digit just found stands above those of the rounds to come
      have hget : q'.drop j = qd :: q.drop (j + 1) := by
        rw [hqj, List.drop_eq_getElem_cons (by rw [List.length_set]; exact hjq),
          List.getElem_set_self, List.drop_set_of_lt (by omega)]
      have hjq' : j ≤ q'.length := by rw [hql, List.length_set]; omega
      rw [value_take_add q' hjq', hget, List.take_succ_cons, List.take_zero, value_cons, value_nil,
        hqv, hwords, hwords', LongDivision.div_digit (a := value ((u.take ulen).drop j)) hv.val_pos,
        hqd, Nat.mul_zero, Nat.add_zero, Nat.add_comm, Nat.mul_comm (radix ^ j)]
    · rw [huv, hwords, hwords', ← LongDivision.mod_digit]

end

/-- **`natDivBasic` divides**, for a divisor of two words or more with the top bit set.  `q` has
room for the quotient, or for all of it but a zero at the top. -/
theorem natDivBasic_eq {q u v : CNat} {vn1 : Word} (hv : v.Valid) (htwo : 2 ≤ v.len)
    (htop : v.words[v.len - 1]? = some vn1) (hhigh : 2 ^ 63 ≤ vn1.toNat) (hu : u.Valid)
    (hle : v.len ≤ u.len) (hq : q.Valid)
    (hroom : u.len - v.len < q.len ∨
      u.len - v.len = q.len ∧ u.val < v.val * radix ^ q.len) :
    ∃ qd ud, natDivBasic q u v = .ok (qd, ud) ∧ qd.length = q.data.length ∧
      qd.drop (min (u.len - v.len + 1) q.len) = q.data.drop (min (u.len - v.len + 1) q.len) ∧
      ud.length = u.data.length ∧ ud.drop u.len = u.data.drop u.len ∧
      value (qd.take (min (u.len - v.len + 1) q.len)) = u.val / v.val ∧
      value (ud.take u.len) = u.val % v.val := by
  have hql : q.len ≤ q.data.length := hq
  have hul : u.len ≤ u.data.length := hu
  obtain ⟨hnlz, hne⟩ := nlz_of_high hhigh
  obtain ⟨rec, hrec, hrecip⟩ := reciprocalWord_eq hne hnlz
  rw [pow_zero, Nat.mul_one] at hrecip
  have hd : Divisor v vn1 rec := ⟨hv, htwo, htop, hhigh, hrecip⟩
  have hread : Run.read v.data (v.len - 1) = .ok vn1 := by
    refine Run.read_eq_ok ?_
    rw [CNat.words, List.getElem?_take_of_lt (by omega)] at htop
    exact htop
  -- the words above the top window are fewer than the divisor has
  have hstart : value (u.words.drop (u.len - v.len + 1)) < v.val := by
    have hlen : (u.words.drop (u.len - v.len + 1)).length = v.len - 1 := by
      rw [List.length_drop, CNat.length_words hu]
      omega
    exact (value_lt _).trans_le (hlen ▸ hd.pow_le_val)
  rw [natDivBasic]
  refine Exists.imp (fun qd => Exists.imp fun ud => And.imp_left fun h =>
    Run.bind_of_eq hread (Run.bind_of_eq hrec h)) ?_
  rw [if_pos hle]
  rcases hroom with hroom | ⟨hroom, hzero⟩
  · rw [Nat.min_eq_left hroom]
    obtain ⟨qd, ud, hrun, h1, h2, h3, h4, h5, h6⟩ := natDivBasicLoop_eq (u.len - v.len) q.len
      u.len (q := q.data) (u := u.data) hd (.inr hroom.ne)
      (show u.len - v.len + 1 + v.len ≤ u.len + 1 by omega) hul (by omega)
      (show (natNewLen (v.len + 1)).data.length = v.len + 1 by simp) hstart
    exact ⟨qd, ud, hrun, h1, h2, h3, h4, h5, h6⟩
  · -- the digit at the top is zero and is not stored
    rw [Nat.min_eq_right (by omega), ← hroom]
    rw [← hroom] at hzero
    have hwords := value_low_rest (d := u.data) u.len (u.len - v.len) (by omega) hul
    have hsmall : value (u.words.drop (u.len - v.len)) < v.val := by
      refine Nat.lt_of_mul_lt_mul_right (a := radix ^ (u.len - v.len)) ?_
      refine lt_of_le_of_lt ?_ hzero
      rw [← u.value_take_len, hwords]
      exact Nat.le_add_right _ _
    obtain ⟨qd, d, qh', hrun, hdl, hdj, hdu, hqh', hqd, hrem⟩ :=
      round_eq (u := ⟨u.data, u.len, u.len⟩) (v.len + 1) hd hu
        (show u.len - v.len + v.len ≤ u.len by omega) hstart
        (show (natNewLen (v.len + 1)).data.length = v.len + 1 by simp)
    dsimp only [CNat.words] at hdl hdj hdu hqd hrem hsmall
    rw [Nat.div_eq_of_lt hsmall] at hqd
    rw [Nat.mod_eq_of_lt hsmall] at hrem
    have hwords' := value_low_rest (d := d) u.len (u.len - v.len) (by omega)
      (by omega)
    rw [hdj, hrem, ← hwords] at hwords'
    obtain ⟨qd', ud, hloop, h1, h2, h3, h4, h5, h6⟩ := natDivBasicLoop_eq (u.len - v.len)
      (u.len - v.len) u.len (q := q.data) (u := d) hd (.inl le_rfl)
      (show u.len - v.len + v.len ≤ u.len + 1 by omega) (by omega) (by omega) hqh'
      (by rw [hrem]; exact hsmall)
    rw [hwords'] at h5 h6
    refine ⟨qd', ud, ?_, h1, h2, h3.trans hdl, h4.trans hdu, h5, h6⟩
    rw [natDivBasicLoop]
    refine Run.bind_of_eq hrun ?_
    dsimp only
    rw [if_pos ⟨rfl, rfl, BitVec.eq_of_toNat_eq hqd⟩]
    exact hloop

end CDemo.BigInt
