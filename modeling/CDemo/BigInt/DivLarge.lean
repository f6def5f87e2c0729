/-
# Division by two words or more

`natDivLarge` shifts both operands left until the divisor's top bit is set, divides in the storage
it was handed, and shifts the remainder back.  With a divisor of fewer than 100 words the division
is algorithm D, and the results are the quotient and the remainder whatever the storage held.

The last section has `natDivLarge` on a flat memory, where vectors are addresses and the scratch
vectors may lie anywhere as long as they do not overlap.  There one sees that nothing else is
written: the operands are unchanged.
-/
import CDemo.BigInt.Knuth
import CDemo.Lib.Memory

namespace CDemo.BigInt

/-! ## 1. Shifting before and after -/

/-- **`natMake`** gives a vector of the length asked for, whatever it was given. -/
theorem natMake_eq {z : CNat} (hz : z.cap ≤ z.data.length) (n : Nat) :
    ∃ z', natMake z n = .ok z' ∧ z'.len = n ∧ z'.Valid ∧ n ≤ z'.cap ∧
      (n ≠ 1 → n < z'.data.length) := by
  rw [natMake]
  split
  · next h =>
    refine ⟨_, natPart_eq z (Nat.zero_le n), Nat.sub_zero n, ?_, (Nat.sub_zero n).ge,
      fun _ => h.trans_le hz⟩
    rw [CNat.Valid, List.drop_zero, Nat.sub_zero]
    exact h.le.trans hz
  · split
    · next h1 => exact ⟨_, rfl, h1.symm, valid_natNewLen 1, h1.le, fun hne => absurd h1 hne⟩
    · refine ⟨_, rfl, rfl, ?_, Nat.le_add_right n 4, fun _ => ?_⟩
      · simp [CNat.Valid]
      · simp

/-- `shlVU` by any number of bits below a word. -/
theorem shlVU_eq {z x : CNat} {s : Nat} (hs : s < 64) (hlen : z.len = x.len) (hz : z.Valid)
    (hcap : x.len ≤ z.cap) (hx : x.Valid) :
    ∃ c w, shlVU z x s = .ok (c, w ++ z.data.drop x.len) ∧ w.length = x.len ∧
      value w + c.toNat * radix ^ x.len = x.val * 2 ^ s := by
  have hzl : x.len ≤ z.data.length := hlen ▸ hz
  rcases Nat.eq_zero_or_pos s with rfl | hspos
  · refine ⟨0, x.data.take x.len, ?_, List.length_take_of_le hx, by simp [CNat.val, CNat.words]⟩
    rw [shlVU, if_pos rfl, natCopy, decide_eq_true hcap, Run.assert_true, Run.ok_bind,
      memcpy_eq hzl hx]
    rfl
  · rw [← hlen]
    exact shlVU_spec hz hx hlen hspos hs

/-- **`shrVU`** divides by `2^s`, also in place. -/
theorem shrVU_eq {z x : CNat} {s : Nat} (hs : s < 64) (hlen : z.len = x.len) (hpos : 0 < x.len)
    (hz : z.Valid) (hcap : x.len ≤ z.cap) (hx : x.Valid) :
    ∃ w, shrVU z x s = .ok (w ++ z.data.drop x.len) ∧ w.length = x.len ∧
      value w = x.val / 2 ^ s := by
  have hzl : x.len ≤ z.data.length := hlen ▸ hz
  rw [shrVU, decide_eq_true hlen.symm, Run.assert_true, Run.ok_bind]
  rcases Nat.eq_zero_or_pos s with rfl | hspos
  · refine ⟨x.data.take x.len, ?_, List.length_take_of_le hx, by simp [CNat.val, CNat.words]⟩
    rw [if_pos rfl, natCopy, decide_eq_true hcap, Run.assert_true, Run.ok_bind, memcpy_eq hzl hx]
  · rw [if_neg hspos.ne', if_neg (by omega), Nat.mod_eq_of_lt hs, Nat.mod_eq_of_lt (by omega),
      hlen, shrLoop_eq hzl hx]
    refine ⟨_, rfl, ?_, value_shrWords hspos hs _⟩
    rw [length_shrWords, List.length_take_of_le hx]

/-- The division `r` left the quotient in `q` and the remainder in `u`. -/
def Divides (r : Run (List Word × List Word)) (q u v : CNat) : Prop :=
  Run.Returns r fun p => p.1.length = q.data.length ∧ p.2.length = u.data.length ∧
    value (p.1.take q.len) = u.val / v.val ∧ value (p.2.take u.len) = u.val % v.val

/-- The top word of a normal vector. -/
theorem Clean.top {x : CNat} (hx : Clean x) (hpos : 0 < x.len) :
    ∃ w, Run.read x.data (x.len - 1) = .ok w ∧ x.words[x.len - 1]? = some w ∧ w ≠ 0 ∧
      w.toNat * radix ^ (x.len - 1) ≤ x.val ∧ x.val < (w.toNat + 1) * radix ^ (x.len - 1) := by
  obtain ⟨w, hread, hw⟩ := read_word hx.1 (show x.len - 1 < x.len by omega)
  have hlen := CNat.length_words hx.1
  obtain ⟨hlt, hget⟩ := List.getElem?_eq_some_iff.mp hw
  have hval := value_take_succ hlt
  rw [hget, Nat.sub_add_cancel hpos, List.take_of_length_le hlen.le,
    x.value_words] at hval
  have hlow := value_take_lt x.words (n := x.len - 1)
  refine ⟨w, hread, hw, ?_, ?_, ?_⟩
  · have hne : x.words ≠ [] := List.ne_nil_of_length_pos (by omega)
    have hlast := hx.2 hne
    rw [List.getLast_eq_getElem] at hlast
    simp only [hlen, hget] at hlast
    exact hlast
  · rw [hval, Nat.mul_comm]
    exact Nat.le_add_left _ _
  · rw [hval, Nat.add_mul, Nat.one_mul, Nat.mul_comm w.toNat]
    omega

/-- A word that a shift brings to the top bit, shifted with all that stands below it. -/
theorem shift_room {w s : Nat} (hs : s < 64) (hfit : w * 2 ^ s < radix) :
    (w + 1) * 2 ^ s ≤ radix := by
  have hpow : radix = 2 ^ (64 - s) * 2 ^ s := by rw [radix, ← pow_add, Nat.sub_add_cancel hs.le]
  rw [hpow] at hfit ⊢
  exact Nat.mul_le_mul_right _ (Nat.lt_of_mul_lt_mul_right hfit)

/-- The divisor that `natDivLarge` shifts. -/
theorem shifted_divisor {vIn : CNat} (hv : Clean vIn) (hpos : 0 < vIn.len) :
    ∃ vn1 s c w, Run.read vIn.data (vIn.len - 1) = .ok vn1 ∧ nlz vn1 = .ok s ∧ s < 64 ∧
      shlVU (natNewLen vIn.len) vIn s = .ok (c, w) ∧ w.length = vIn.len ∧
      value w = vIn.val * 2 ^ s ∧ ∃ top, w[vIn.len - 1]? = some top ∧ 2 ^ 63 ≤ top.toNat := by
  obtain ⟨vn1, hread, -, hne, hge, hlt⟩ := hv.top hpos
  obtain ⟨s, hs, hs64, -, hfit, hhigh⟩ := nlz_spec hne
  obtain ⟨c, w, hrun, hwl, hval⟩ := shlVU_eq (z := natNewLen vIn.len) (x := vIn) hs64 rfl
    (valid_natNewLen _) le_rfl hv.1
  have hsucc : radix ^ vIn.len = radix ^ (vIn.len - 1) * radix := by
    rw [← pow_succ, Nat.sub_add_cancel hpos]
  -- nothing is shifted out
  have hsmall : vIn.val * 2 ^ s < radix ^ vIn.len := by
    calc vIn.val * 2 ^ s < (vn1.toNat + 1) * radix ^ (vIn.len - 1) * 2 ^ s :=
          Nat.mul_lt_mul_of_pos_right hlt (by positivity)
      _ = radix ^ (vIn.len - 1) * ((vn1.toNat + 1) * 2 ^ s) := by ring
      _ ≤ radix ^ (vIn.len - 1) * radix := Nat.mul_le_mul_left _ (shift_room hs64 hfit)
      _ = radix ^ vIn.len := hsucc.symm
  have hc : c.toNat = 0 := by
    by_contra h
    have := Nat.le_mul_of_pos_left (radix ^ vIn.len) (Nat.pos_of_ne_zero h)
    omega
  rw [hc, Nat.zero_mul, Nat.add_zero] at hval
  have hlt' : vIn.len - 1 < w.length := by omega
  refine ⟨vn1, s, c, w, hread, hs, hs64, ?_, hwl, hval, w[vIn.len - 1],
    List.getElem?_eq_getElem hlt', ?_⟩
  · rw [hrun, natNewLen_data, List.drop_of_length_le (by simp), List.append_nil]
  · have htop := value_take_succ hlt'
    rw [Nat.sub_add_cancel hpos, List.take_of_length_le hwl.le, hval] at htop
    have hlow := value_take_lt w (n := vIn.len - 1)
    refine hhigh.trans (Nat.lt_succ_iff.mp
      (Nat.lt_of_mul_lt_mul_left (a := radix ^ (vIn.len - 1)) ?_))
    calc radix ^ (vIn.len - 1) * (vn1.toNat * 2 ^ s)
        = vn1.toNat * radix ^ (vIn.len - 1) * 2 ^ s := by ring
      _ ≤ vIn.val * 2 ^ s := Nat.mul_le_mul_right _ hge
      _ < radix ^ (vIn.len - 1) * (w[vIn.len - 1].toNat + 1) := by
          rw [htop, Nat.mul_succ]
          omega

/-- The dividend that `natDivLarge` shifts, with one word more. -/
theorem shifted_dividend {u uIn : CNat} {s : Nat} (hu : u.Valid) (hlen : u.len = uIn.len + 1)
    (hIn : uIn.Valid) (hs : s < 64) :
    ∃ c data data', shlVU ⟨u.data, uIn.len, uIn.len⟩ uIn s = .ok (c, data) ∧
      data.length = u.data.length ∧ Run.write data uIn.len c = .ok data' ∧
      data'.length = u.data.length ∧ value (data'.take u.len) = uIn.val * 2 ^ s := by
  have hul : u.len ≤ u.data.length := hu
  obtain ⟨c, w, hrun, hwl, hval⟩ := shlVU_eq (z := ⟨u.data, uIn.len, uIn.len⟩) (x := uIn) hs
    rfl (show uIn.len ≤ u.data.length by omega) le_rfl hIn
  have hlt : uIn.len < u.data.length := by omega
  dsimp only at hrun
  rw [List.drop_eq_getElem_cons hlt] at hrun
  refine ⟨c, _, _, hrun, ?_, Run.write_append hwl _ c _, ?_, ?_⟩
  · rw [List.length_append, List.length_cons, List.length_drop, hwl]
    omega
  · rw [List.length_append, List.length_cons, List.length_drop, hwl]
    omega
  · rw [hlen, List.take_append, hwl, List.take_of_length_le (by omega), Nat.add_sub_cancel_left,
      List.take_succ_cons, List.take_zero, value_append, value_cons, value_nil, hwl, ← hval]
    ring

/-! ## 2. A run of `natDivLarge` -/

/-- The division in the middle of `natDivLarge`. -/
def divideCore (q u v : CNat) : Run (List Word × List Word) :=
  if v.len < divRecursiveThreshold then natDivBasic q u v else natDivRecursive q u v

/-- A run of `natDivLarge`, stage by stage: the shifted divisor `v`, the storage `u'` and what is
shifted into it, the storage `q'`, what the division leaves there, and the two results. -/
structure LargeRun (z u uIn vIn : CNat) where
  vn1 : Word
  shift : Nat
  cv : Word
  v : List Word
  u' : CNat
  cu : Word
  shifted : List Word
  dividend : List Word
  q' : CNat
  qdata : List Word
  udata : List Word
  q : CNat
  back : List Word
  r : CNat
  read : Run.read vIn.data (vIn.len - 1) = .ok vn1
  nlz : nlz vn1 = .ok shift
  shlv : shlVU (natNewLen vIn.len) vIn shift = .ok (cv, v)
  length_v : v.length = vIn.len
  makeU : natMake u (uIn.len + 1) = .ok u'
  shlu : shlVU ⟨u'.data, uIn.len, uIn.len⟩ uIn shift = .ok (cu, shifted)
  length_shifted : shifted.length = u'.data.length
  write : Run.write shifted uIn.len cu = .ok dividend
  length_dividend : dividend.length = u'.data.length
  makeQ : natMake z (uIn.len - vIn.len + 1) = .ok q'
  core : divideCore q' ⟨dividend, u'.len, u'.cap⟩ ⟨v, vIn.len, vIn.len⟩ = .ok (qdata, udata)
  length_qdata : qdata.length = q'.data.length
  length_udata : udata.length = u'.data.length
  normQ : natNorm ⟨qdata, q'.len, q'.cap⟩ = .ok q
  shr : shrVU ⟨udata, u'.len, u'.cap⟩ ⟨udata, u'.len, u'.cap⟩ shift = .ok back
  length_back : back.length = u'.data.length
  normR : natNorm ⟨back, u'.len, u'.cap⟩ = .ok r

theorem LargeRun.natDivLarge_eq {z u uIn vIn : CNat} (run : LargeRun z u uIn vIn) :
    natDivLarge z u uIn vIn = .ok (run.q, run.r) := by
  rw [natDivLarge]
  refine Run.bind_of_eq run.read (Run.bind_of_eq run.nlz (Run.bind_of_eq run.shlv ?_))
  refine Run.bind_of_eq run.makeU (Run.bind_of_eq (natPart_eq run.u' (Nat.zero_le _)) ?_)
  rw [List.drop_zero, Nat.sub_zero]
  refine Run.bind_of_eq run.shlu (Run.bind_of_eq run.write (Run.bind_of_eq run.makeQ ?_))
  have hcore := run.core
  rw [divideCore] at hcore
  by_cases hn : vIn.len < divRecursiveThreshold
  · rw [if_pos hn] at hcore ⊢
    exact Run.bind_of_eq hcore (Run.bind_of_eq run.normQ (Run.bind_of_eq run.shr
      (Run.bind_of_eq run.normR rfl)))
  · rw [if_neg hn] at hcore ⊢
    exact Run.bind_of_eq hcore (Run.bind_of_eq run.normQ (Run.bind_of_eq run.shr
      (Run.bind_of_eq run.normR rfl)))

/-- The operands of the division in the middle of `natDivLarge`: room `q` for the quotient, and the
dividend and the divisor, shifted by `s` so that the divisor's top bit is set. -/
structure Shifted (uIn vIn q u v : CNat) (s : Nat) (top : Word) : Prop where
  qValid : q.Valid
  uValid : u.Valid
  vValid : v.Valid
  qLen : q.len = uIn.len - vIn.len + 1
  uLen : u.len = uIn.len + 1
  vLen : v.len = vIn.len
  uCap : u.len ≤ u.cap
  uSpare : uIn.len ≠ 0 → u.len < u.data.length
  vCap : v.len ≤ v.cap
  uVal : u.val = uIn.val * 2 ^ s
  vVal : v.val = vIn.val * 2 ^ s
  isTop : v.words[v.len - 1]? = some top
  high : 2 ^ 63 ≤ top.toNat

/-- The shifted dividend of a run. -/
def LargeRun.uShifted {z u uIn vIn : CNat} (run : LargeRun z u uIn vIn) : CNat :=
  ⟨run.dividend, run.u'.len, run.u'.cap⟩

/-- The shifted divisor of a run. -/
def LargeRun.vShifted {z u uIn vIn : CNat} (run : LargeRun z u uIn vIn) : CNat :=
  ⟨run.v, vIn.len, vIn.len⟩

/-- **`natDivLarge` divides if the division in its middle does.** -/
theorem exists_largeRun {z u uIn vIn : CNat} (hz : z.cap ≤ z.data.length)
    (hu : u.cap ≤ u.data.length) (huIn : Clean uIn) (hvIn : Clean vIn) (hpos : 0 < vIn.len)
    (hcore : ∀ q u v s top, Shifted uIn vIn q u v s top → Divides (divideCore q u v) q u v) :
    ∃ run : LargeRun z u uIn vIn, (Clean run.q ∧ Clean run.r ∧
      run.q.val = uIn.val / vIn.val ∧ run.r.val = uIn.val % vIn.val) ∧
      ∃ top, Shifted uIn vIn run.q' run.uShifted run.vShifted run.shift top := by
  obtain ⟨vn1, s, c, w, hread, hs, hs64, hshl, hwl, hwv, top, htop, hhigh⟩ :=
    shifted_divisor hvIn hpos
  obtain ⟨u', hmake, hulen, huv, hucap, huspare⟩ := natMake_eq hu (uIn.len + 1)
  obtain ⟨cu, du, du', hshlu, hdu, hwrite, hdul, hduv⟩ :=
    shifted_dividend huv hulen huIn.1 hs64
  obtain ⟨q, hmakeq, hqlen, hqv, -⟩ := natMake_eq hz (uIn.len - vIn.len + 1)
  have hu'' : (⟨du', u'.len, u'.cap⟩ : CNat).Valid := by
    have : u'.len ≤ u'.data.length := huv
    rw [CNat.Valid, hdul]
    exact this
  have hwords : (⟨w, vIn.len, vIn.len⟩ : CNat).words = w := List.take_of_length_le hwl.le
  have hduv' : (⟨du', u'.len, u'.cap⟩ : CNat).val = uIn.val * 2 ^ s := hduv
  have hwv' : (⟨w, vIn.len, vIn.len⟩ : CNat).val = vIn.val * 2 ^ s := val_full hwl ▸ hwv
  have hshifted : Shifted uIn vIn q ⟨du', u'.len, u'.cap⟩ ⟨w, vIn.len, vIn.len⟩ s top :=
    ⟨hqv, hu'', hwl.ge, hqlen, hulen, rfl, hulen.trans_le hucap,
      fun h0 => lt_of_eq_of_lt hulen ((huspare fun h1 => h0 (Nat.succ.inj h1)).trans_eq hdul.symm),
      le_rfl, hduv', hwv',
      by rw [hwords]; exact htop, hhigh⟩
  obtain ⟨⟨qd, ud⟩, hrun, hqdl, hudl, hqdv, hudv⟩ := hcore _ _ _ _ _ hshifted
  obtain ⟨hdiv, hmod⟩ := div_mod_shift (s := s) (x := uIn.val) (y := vIn.val) rfl rfl
  rw [hduv', hwv', hdiv] at hqdv
  rw [hduv', hwv'] at hudv
  -- the words of the quotient and of the remainder, without the zeros at the top
  obtain ⟨q', hq', hq'v, hq'n, hq'val⟩ := natNorm_val (p := ⟨qd, q.len, q.cap⟩)
    (hqdl ▸ hqv : q.len ≤ qd.length) hqdv
  have hudl' : u'.len ≤ ud.length := by
    rw [hudl]
    exact hu''
  obtain ⟨wr, hshr, hwrl, hwrv⟩ := shrVU_eq (z := ⟨ud, u'.len, u'.cap⟩)
    (x := ⟨ud, u'.len, u'.cap⟩) hs64 rfl (show 0 < u'.len by omega) hudl'
    (show u'.len ≤ u'.cap by omega) hudl'
  have hrval : value ((wr ++ ud.drop u'.len).take u'.len) = uIn.val % vIn.val := by
    rw [List.take_left' hwrl, hwrv, ← hmod]
    exact congrArg (· / 2 ^ s) hudv
  have hback : (wr ++ ud.drop u'.len).length = ud.length := by
    rw [List.length_append, List.length_drop, hwrl]
    exact Nat.add_sub_cancel' hudl'
  obtain ⟨r', hr', hr'v, hr'n, hr'val⟩ := natNorm_val
    (p := ⟨wr ++ ud.drop u'.len, u'.len, u'.cap⟩) (by rw [CNat.Valid, hback]; exact hudl') hrval
  exact ⟨{ vn1 := vn1, shift := s, cv := c, v := w, u' := u', cu := cu, shifted := du,
           dividend := du', q' := q, qdata := qd, udata := ud, q := q', back := _, r := r',
           read := hread, nlz := hs, shlv := hshl, length_v := hwl, makeU := hmake,
           shlu := hshlu, length_shifted := hdu, write := hwrite, length_dividend := hdul,
           makeQ := hmakeq, core := hrun, length_qdata := hqdl,
           length_udata := hudl.trans hdul, normQ := hq', shr := hshr,
           length_back := hback.trans (hudl.trans hdul), normR := hr' },
    ⟨⟨hq'v, hq'n⟩, ⟨hr'v, hr'n⟩, hq'val, hr'val⟩, top, hshifted⟩

/-- A smaller normal vector is not longer. -/
theorem Clean.len_le {x y : CNat} (hx : Clean x) (hy : Clean y) (hle : x.val ≤ y.val) :
    x.len ≤ y.len := by
  have h := wordLen_mono hle
  rwa [CNat.val, CNat.val, ← hx.2.length_eq, ← hy.2.length_eq, CNat.length_words hx.1,
    CNat.length_words hy.1] at h

/-- The quotient has at most one word more than the lengths differ by. -/
theorem Clean.quotient_room {x y : CNat} (hy : Clean y) (hpos : 0 < y.len)
    (hlen : y.len ≤ x.len) : x.val < y.val * radix ^ (x.len - y.len + 1) := by
  obtain ⟨w, -, -, hne, hge, -⟩ := hy.top hpos
  have hone : 1 ≤ w.toNat := Nat.pos_of_ne_zero fun h => hne (BitVec.eq_of_toNat_eq h)
  calc x.val < radix ^ x.len := CNat.val_lt
    _ = radix ^ (y.len - 1) * radix ^ (x.len - y.len + 1) := by
        rw [← pow_add]
        congr 1
        omega
    _ ≤ w.toNat * radix ^ (y.len - 1) * radix ^ (x.len - y.len + 1) :=
        Nat.mul_le_mul_right _ (Nat.le_mul_of_pos_left _ hone)
    _ ≤ y.val * radix ^ (x.len - y.len + 1) := Nat.mul_le_mul_right _ hge

namespace Shifted

variable {uIn vIn q u v : CNat} {s : Nat} {top : Word}

/-- The quotient has room. -/
theorem room (h : Shifted uIn vIn q u v s top) (hvIn : Clean vIn) (hpos : 0 < vIn.len)
    (hlen : vIn.len ≤ uIn.len) : u.val < v.val * radix ^ q.len := by
  rw [h.uVal, h.vVal, h.qLen, Nat.mul_right_comm]
  exact Nat.mul_lt_mul_of_pos_right (hvIn.quotient_room hpos hlen) (by positivity)

/-- **Algorithm D divides the shifted operands.** -/
theorem natDivBasic_divides (h : Shifted uIn vIn q u v s top) (hvIn : Clean vIn)
    (htwo : 2 ≤ vIn.len) (hlen : vIn.len ≤ uIn.len) : Divides (natDivBasic q u v) q u v := by
  have hql := h.qLen
  have hul := h.uLen
  have hvl := h.vLen
  obtain ⟨qd, ud, hrun, hqd, -, hud, -, hqv, huv⟩ := natDivBasic_eq h.vValid (by omega) h.isTop
    h.high h.uValid (by omega) h.qValid (.inr ⟨by omega, h.room hvIn (by omega) hlen⟩)
  rw [Nat.min_eq_right (by omega)] at hqv
  exact ⟨(qd, ud), hrun, hqd, hud, hqv, huv⟩

end Shifted

/-- **Knuth's division is exact**, whatever the storage held before. -/
theorem natDivLarge_basic {z u uIn vIn : CNat} (hz : z.cap ≤ z.data.length)
    (hu : u.cap ≤ u.data.length) (huIn : Clean uIn) (hvIn : Clean vIn) (htwo : 2 ≤ vIn.len)
    (hthr : vIn.len < divRecursiveThreshold) (hle : vIn.val ≤ uIn.val) :
    ∃ run : LargeRun z u uIn vIn, Clean run.q ∧ Clean run.r ∧
      run.q.val = uIn.val / vIn.val ∧ run.r.val = uIn.val % vIn.val := by
  have hpos : 0 < vIn.len := by omega
  have hlen := hvIn.len_le huIn hle
  obtain ⟨run, hexact, -⟩ := exists_largeRun hz hu huIn hvIn hpos fun q u v s top h => by
    rw [divideCore, if_pos (by rw [h.vLen]; exact hthr)]
    exact h.natDivBasic_divides hvIn htwo hlen
  exact ⟨run, hexact⟩

/-! ## 3. On a flat memory -/

/-- A `struct nat` as an address: `room` is how many words there are from it to the end of its
block. -/
structure Ref where
  addr : Nat
  room : Nat
  len : Nat
  cap : Nat

/-- The words in memory, and the address from which on nothing was allocated yet. -/
structure Heap where
  words : Nat → Word
  brk : Nat

/-- The vector at an address. -/
def Ref.view (p : Ref) (h : Heap) : CNat := ⟨Memory.load h.words p.addr p.room, p.len, p.cap⟩

/-- `data` is written through the pointer. -/
def Heap.put (h : Heap) (p : Ref) (data : List Word) : Heap :=
  { h with words := Memory.store h.words p.addr data }

/-- `natNewLen`, which clears what it allocates. -/
def Heap.newLen (h : Heap) (len : Nat) : Heap × Ref :=
  ({ words := Memory.store h.words h.brk (List.replicate len 0), brk := h.brk + len },
    ⟨h.brk, len, len, len⟩)

/-- `natMake`, in place where there is room. -/
def natMakeAt (h : Heap) (z : Ref) (n : Nat) : Heap × Ref :=
  if n < z.cap then (h, { z with len := n, cap := n })
  else if n = 1 then h.newLen 1
  else ((h.newLen (n + 4)).1, { (h.newLen (n + 4)).2 with len := n })

/-- `natDivLarge(z, u, uIn, vIn, &r)`: the memory afterwards, the quotient and the remainder. -/
def natDivLargeAt (h : Heap) (z u uIn vIn : Ref) : Run (Heap × Ref × Ref) := do
  let n := vIn.len
  let m := uIn.len - n
  let vn1 ← Run.read (vIn.view h).data (n - 1)
  let shift ← nlz vn1
  let (h, v) := h.newLen n
  let (_, data) ← shlVU (v.view h) (vIn.view h) shift
  let h := h.put v data
  let (h, u) := natMakeAt h u (uIn.len + 1)
  let u1 ← natPart (u.view h) 0 uIn.len
  let (c, data) ← shlVU u1 (uIn.view h) shift
  let h := h.put u data
  let data ← Run.write (u.view h).data uIn.len c
  let h := h.put u data
  let (h, q) := natMakeAt h z (m + 1)
  let (qdata, udata) ← divideCore (q.view h) (u.view h) (v.view h)
  let h := (h.put q qdata).put u udata
  let qn ← natNorm (q.view h)
  let data ← shrVU (u.view h) (u.view h) shift
  let h := h.put u data
  let r ← natNorm (u.view h)
  .ok (h, { q with len := qn.len }, { u with len := r.len })

/-- The two blocks do not overlap. -/
def Ref.Apart (p q : Ref) : Prop := p.addr + p.room ≤ q.addr ∨ q.addr + q.room ≤ p.addr

/-- The block has been allocated. -/
def Ref.Below (p : Ref) (h : Heap) : Prop := p.addr + p.room ≤ h.brk

instance (p q : Ref) : Decidable (p.Apart q) := inferInstanceAs (Decidable (_ ∨ _))

instance (p : Ref) (h : Heap) : Decidable (p.Below h) := inferInstanceAs (Decidable (_ ≤ _))

theorem Ref.Apart.symm {p q : Ref} (h : p.Apart q) : q.Apart p := Or.symm h

@[simp] theorem Ref.length_view (p : Ref) (h : Heap) : (p.view h).data.length = p.room :=
  Memory.length_load _ _ _

theorem Ref.view_put_self {p : Ref} {data : List Word} (h : Heap) (hd : data.length = p.room) :
    p.view (h.put p data) = ⟨data, p.len, p.cap⟩ := by
  rw [Ref.view, Heap.put, ← hd, Memory.load_store_same]

theorem Ref.Apart.view_put {p q : Ref} (hpq : p.Apart q) {data : List Word} (h : Heap)
    (hd : data.length = q.room) : p.view (h.put q data) = p.view h := by
  rw [Ref.view, Ref.view, Heap.put, Memory.load_store_apart (hd ▸ hpq)]

theorem Ref.Below.view_newLen {p : Ref} {h : Heap} (hp : p.Below h) (n : Nat) :
    p.view (h.newLen n).1 = p.view h := by
  rw [Ref.view, Ref.view, Heap.newLen, Memory.load_store_apart (.inl hp)]

theorem Ref.Below.apart_newLen {p : Ref} {h : Heap} (hp : p.Below h) (n : Nat) :
    p.Apart (h.newLen n).2 := .inl hp

theorem view_newLen (h : Heap) (n : Nat) : (h.newLen n).2.view (h.newLen n).1 = natNewLen n := by
  have hl := Memory.load_store_same h.words h.brk (List.replicate n (0 : Word))
  rw [List.length_replicate] at hl
  rw [Ref.view, Heap.newLen, hl]
  rfl

/-- What `natMakeAt` gives: the vector of `natMake`, in a block that is the old one or new. -/
theorem natMakeAt_spec {h : Heap} {z : Ref} (hz : z.Below h) {n : Nat} {c : CNat}
    (hc : natMake (z.view h) n = .ok c) :
    (natMakeAt h z n).2.view (natMakeAt h z n).1 = c ∧
      (natMakeAt h z n).2.Below (natMakeAt h z n).1 ∧ h.brk ≤ (natMakeAt h z n).1.brk ∧
      ∀ p : Ref, p.Below h → p.view (natMakeAt h z n).1 = p.view h ∧
        (p.Apart z → p.Apart (natMakeAt h z n).2) := by
  rw [natMake, show (z.view h).cap = z.cap from rfl] at hc
  rw [natMakeAt]
  by_cases hn : n < z.cap
  · rw [if_pos hn, natPart_eq _ (Nat.zero_le _)] at hc
    rw [if_pos hn, ← Except.ok.inj hc]
    exact ⟨rfl, hz, le_rfl, fun p hp => ⟨rfl, fun ha => ha⟩⟩
  · rw [if_neg hn] at hc ⊢
    by_cases h1 : n = 1
    · rw [if_pos h1] at hc ⊢
      refine ⟨(view_newLen h 1).trans (Except.ok.inj hc), le_rfl, Nat.le_add_right _ _, ?_⟩
      exact fun p hp => ⟨hp.view_newLen 1, fun _ => hp.apart_newLen 1⟩
    · rw [if_neg h1] at hc ⊢
      refine ⟨?_, le_rfl, Nat.le_add_right _ _, ?_⟩
      · rw [← Except.ok.inj hc, ← view_newLen h (n + 4)]
        rfl
      · exact fun p hp => ⟨hp.view_newLen _, fun _ => hp.apart_newLen _⟩

theorem natNorm_len {p q : CNat} (h : natNorm p = .ok q) : { p with len := q.len } = q := by
  obtain ⟨i, -, hq⟩ := Run.bind_eq_ok_iff.mp h
  rw [← Except.ok.inj hq]

/-- **In memory the same happens**: the results lie where they were made, and every block apart
from the two scratch vectors is as it was. -/
theorem LargeRun.inMemory {h : Heap} {z u uIn vIn : Ref}
    (run : LargeRun (z.view h) (u.view h) (uIn.view h) (vIn.view h)) (hz : z.Below h)
    (hu : u.Below h) (huIn : uIn.Below h) (hvIn : vIn.Below h) (hzu : z.Apart u) :
    ∃ h' q r, natDivLargeAt h z u uIn vIn = .ok (h', q, r) ∧ q.view h' = run.q ∧
      r.view h' = run.r ∧
      ∀ p : Ref, p.Below h → p.Apart z → p.Apart u → p.view h' = p.view h := by
  -- the shifted divisor gets a block of its own
  have hvb : (h.newLen vIn.len).2.Below (h.newLen vIn.len).1 := le_rfl
  have hroomv : run.v.length = (h.newLen vIn.len).2.room := run.length_v
  have hold : ∀ p : Ref, p.Below h → p.Below (h.newLen vIn.len).1 ∧
      p.Apart (h.newLen vIn.len).2 ∧ p.view (h.newLen vIn.len).1 = p.view h := fun p hp =>
    ⟨hp.trans (Nat.le_add_right _ _), hp.apart_newLen _, hp.view_newLen _⟩
  have hlen : (h.newLen vIn.len).2.len = vIn.len ∧ (h.newLen vIn.len).2.cap = vIn.len := ⟨rfl, rfl⟩
  have hnew := view_newLen h vIn.len
  rcases hnewLen : h.newLen vIn.len with ⟨h1, v⟩
  rw [hnewLen] at hvb hroomv hold hlen hnew
  dsimp only at hvb hroomv hold hlen hnew
  have hview2 : ∀ p : Ref, p.Below h → p.view (h1.put v run.v) = p.view h := fun p hp =>
    ((hold p hp).2.1.view_put h1 hroomv).trans (hold p hp).2.2
  have hv2 : v.view (h1.put v run.v) = ⟨run.v, vIn.len, vIn.len⟩ := by
    rw [Ref.view_put_self h1 hroomv, hlen.1, hlen.2]
  -- the dividend is shifted into the storage of `u`
  obtain ⟨hu3v, hu3b, hbrk3, hkeep3⟩ := natMakeAt_spec (h := h1.put v run.v) (z := u)
    (n := uIn.len + 1) (c := run.u') (hold u hu).1 (by rw [hview2 u hu]; exact run.makeU)
  rcases hmakeU : natMakeAt (h1.put v run.v) u (uIn.len + 1) with ⟨h3, u3⟩
  rw [hmakeU] at hu3v hu3b hbrk3 hkeep3
  dsimp only at hu3v hu3b hbrk3 hkeep3
  have hroomu : run.u'.data.length = u3.room := by rw [← hu3v, Ref.length_view]
  have hlenu : u3.len = run.u'.len ∧ u3.cap = run.u'.cap := by
    rw [← hu3v]
    exact ⟨rfl, rfl⟩
  have hdl := run.length_dividend.trans hroomu
  have hview5 : ∀ p : Ref, p.Below h1 → p.Apart u →
      p.view ((h3.put u3 run.shifted).put u3 run.dividend) = p.view (h1.put v run.v) := by
    intro p hp ha
    rw [((hkeep3 p hp).2 ha).view_put _ hdl,
      ((hkeep3 p hp).2 ha).view_put _ (run.length_shifted.trans hroomu), (hkeep3 p hp).1]
  have hu5 : u3.view ((h3.put u3 run.shifted).put u3 run.dividend) =
      ⟨run.dividend, run.u'.len, run.u'.cap⟩ := by
    rw [Ref.view_put_self _ hdl, hlenu.1, hlenu.2]
  -- the quotient gets the storage of `z`, apart from the dividend and the divisor
  have hbrk : h1.brk ≤ h3.brk := hbrk3
  have hz1 := hold z hz
  obtain ⟨hq6v, -, -, hkeep6⟩ := natMakeAt_spec
    (h := (h3.put u3 run.shifted).put u3 run.dividend) (z := z) (n := uIn.len - vIn.len + 1)
    (c := run.q') (hz1.1.trans hbrk) (by
      rw [hview5 z hz1.1 hzu, hview2 z hz]
      exact run.makeQ)
  rcases hmakeQ : natMakeAt ((h3.put u3 run.shifted).put u3 run.dividend) z
    (uIn.len - vIn.len + 1) with ⟨h6, q6⟩
  rw [hmakeQ] at hq6v hkeep6
  dsimp only at hq6v hkeep6
  have hroomq : run.q'.data.length = q6.room := by rw [← hq6v, Ref.length_view]
  have hlenq : q6.len = run.q'.len ∧ q6.cap = run.q'.cap := by
    rw [← hq6v]
    exact ⟨rfl, rfl⟩
  have huq : u3.Apart q6 := (hkeep6 u3 hu3b).2 ((hkeep3 z hz1.1).2 hzu).symm
  have hvz : v.Apart z := hz1.2.1.symm
  have hvu : v.Apart u := (hold u hu).2.1.symm
  have hu6 : u3.view h6 = ⟨run.dividend, run.u'.len, run.u'.cap⟩ := (hkeep6 u3 hu3b).1.trans hu5
  have hv6 : v.view h6 = ⟨run.v, vIn.len, vIn.len⟩ :=
    (hkeep6 v (hvb.trans hbrk)).1.trans ((hview5 v hvb hvu).trans hv2)
  have hql := run.length_qdata.trans hroomq
  have hul := run.length_udata.trans hroomu
  have hbl := run.length_back.trans hroomu
  have hq8 : q6.view ((h6.put q6 run.qdata).put u3 run.udata) =
      ⟨run.qdata, run.q'.len, run.q'.cap⟩ := by
    rw [huq.symm.view_put _ hul, Ref.view_put_self _ hql, hlenq.1, hlenq.2]
  have hu8 : u3.view ((h6.put q6 run.qdata).put u3 run.udata) =
      ⟨run.udata, run.u'.len, run.u'.cap⟩ := by
    rw [Ref.view_put_self _ hul, hlenu.1, hlenu.2]
  have hu9 : u3.view (((h6.put q6 run.qdata).put u3 run.udata).put u3 run.back) =
      ⟨run.back, run.u'.len, run.u'.cap⟩ := by
    rw [Ref.view_put_self _ hbl, hlenu.1, hlenu.2]
  have hq9 : q6.view (((h6.put q6 run.qdata).put u3 run.udata).put u3 run.back) =
      ⟨run.qdata, run.q'.len, run.q'.cap⟩ := by
    rw [huq.symm.view_put _ hbl, hq8]
  refine ⟨_, { q6 with len := run.q.len }, { u3 with len := run.r.len }, ?_,
    (congrArg (fun c : CNat => { c with len := run.q.len }) hq9).trans (natNorm_len run.normQ),
    (congrArg (fun c : CNat => { c with len := run.r.len }) hu9).trans (natNorm_len run.normR), ?_⟩
  · rw [natDivLargeAt]
    refine Run.bind_of_eq run.read (Run.bind_of_eq run.nlz ?_)
    dsimp only
    rw [hnewLen]
    dsimp only
    refine Run.bind_of_eq (by rw [hnew, (hold vIn hvIn).2.2]; exact run.shlv) ?_
    dsimp only
    rw [hmakeU]
    dsimp only
    rw [hu3v]
    refine Run.bind_of_eq (natPart_eq run.u' (Nat.zero_le _)) ?_
    rw [List.drop_zero, Nat.sub_zero, (hkeep3 uIn (hold uIn huIn).1).1, hview2 uIn huIn]
    refine Run.bind_of_eq run.shlu ?_
    dsimp only
    rw [Ref.view_put_self _ (run.length_shifted.trans hroomu)]
    refine Run.bind_of_eq run.write ?_
    rw [hmakeQ]
    dsimp only
    rw [hq6v, hu6, hv6]
    refine Run.bind_of_eq run.core ?_
    dsimp only
    rw [hq8, hu8]
    refine Run.bind_of_eq run.normQ (Run.bind_of_eq run.shr ?_)
    rw [hu9]
    exact Run.bind_of_eq run.normR rfl
  · intro p hp hpz hpu
    have hp1 := hold p hp
    have hp3 := (hkeep3 p hp1.1).2 hpu
    have hp6 := hkeep6 p (hp1.1.trans hbrk)
    rw [hp3.view_put _ hbl, hp3.view_put _ hul, (hp6.2 hpz).view_put _ hql, hp6.1,
      hview5 p hp1.1 hpu, hview2 p hp]

/-- The block is allocated and as large as the vector says. -/
structure Ref.Held (p : Ref) (h : Heap) : Prop where
  below : p.Below h
  fits : p.cap ≤ p.room

/-- **Knuth's division.**  With a divisor of two words or more and fewer than 100, and scratch
vectors that overlap neither each other nor the operands, the results are the quotient and the
remainder without zeros at the top, and the operands are as they were. -/
theorem natDivLargeAt_divides {h : Heap} {z u uIn vIn : Ref} (hz : z.Held h) (hu : u.Held h)
    (huIn : uIn.Held h) (hvIn : vIn.Held h) (hzu : z.Apart u) (huz : uIn.Apart z)
    (huu : uIn.Apart u) (hvz : vIn.Apart z) (hvu : vIn.Apart u) (hun : Clean (uIn.view h))
    (hvn : Clean (vIn.view h)) (htwo : 2 ≤ vIn.len) (hthr : vIn.len < divRecursiveThreshold)
    (hle : (vIn.view h).val ≤ (uIn.view h).val) :
    Run.Returns (natDivLargeAt h z u uIn vIn) fun (h', q, r) =>
      Clean (q.view h') ∧ Clean (r.view h') ∧
      (uIn.view h).val = (q.view h').val * (vIn.view h).val + (r.view h').val ∧
      (r.view h').val < (vIn.view h).val ∧
      vIn.view h' = vIn.view h ∧ uIn.view h' = uIn.view h := by
  obtain ⟨run, hq, hr, hqv, hrv⟩ := natDivLarge_basic (z := z.view h) (u := u.view h)
    (by rw [Ref.length_view]; exact hz.fits) (by rw [Ref.length_view]; exact hu.fits) hun hvn
    htwo hthr hle
  obtain ⟨h', q, r, hrun, hqview, hrview, hkeep⟩ :=
    run.inMemory hz.below hu.below huIn.below hvIn.below hzu
  have hpos : 0 < (vIn.view h).val := by
    obtain ⟨w, -, -, hne, hge, -⟩ := hvn.top (show 0 < vIn.len by omega)
    have hw : 0 < w.toNat := Nat.pos_of_ne_zero fun h0 => hne (BitVec.eq_of_toNat_eq h0)
    exact (Nat.mul_pos hw (radix_pow_pos _)).trans_le hge
  refine ⟨(h', q, r), hrun, ?_⟩
  dsimp only
  rw [hqview, hrview]
  refine ⟨hq, hr, ?_, ?_, hkeep vIn hvIn.below hvz hvu, hkeep uIn huIn.below huz huu⟩
  · rw [hqv, hrv, Nat.mul_comm, Nat.div_add_mod]
  · rw [hrv]
    exact Nat.mod_lt _ hpos

/-- Eighteen words: scratch that holds sevens, a dividend of three words, a divisor of two. -/
def threeByTwo : Heap := ⟨fun a => if a < 13 then 7 else if a < 16 then 5 else 3, 18⟩

theorem natDivLargeAt_divides_threeByTwo :
    Run.Returns (natDivLargeAt threeByTwo ⟨0, 3, 1, 3⟩ ⟨3, 10, 4, 9⟩ ⟨13, 3, 3, 3⟩ ⟨16, 2, 2, 2⟩)
      fun (h', q, r) => Clean (q.view h') ∧ Clean (r.view h') ∧
        (Ref.view ⟨13, 3, 3, 3⟩ threeByTwo).val =
          (q.view h').val * (Ref.view ⟨16, 2, 2, 2⟩ threeByTwo).val + (r.view h').val ∧
        (r.view h').val < (Ref.view ⟨16, 2, 2, 2⟩ threeByTwo).val ∧
        Ref.view ⟨16, 2, 2, 2⟩ h' = Ref.view ⟨16, 2, 2, 2⟩ threeByTwo ∧
        Ref.view ⟨13, 3, 3, 3⟩ h' = Ref.view ⟨13, 3, 3, 3⟩ threeByTwo :=
  natDivLargeAt_divides ⟨by decide, by decide⟩ ⟨by decide, by decide⟩ ⟨by decide, by decide⟩
    ⟨by decide, by decide⟩ (by decide) (by decide) (by decide) (by decide) (by decide)
    ⟨by decide, by decide⟩ ⟨by decide, by decide⟩ (by decide) (by decide) (by decide)

end CDemo.BigInt
