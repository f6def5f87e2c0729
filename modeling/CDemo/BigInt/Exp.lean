/-
# Powers of words

`natExpWW` raises a word to a word by squaring and multiplying, from the top bit of the exponent
down.  Products, squares and quotients are a parameter here (`Arith`), so that one can ask what
the conversions of `natconv.c` do when the arithmetic below them is exact.

The special cases of `natExpNN` test lengths, and `natNew(0)` has one word: an exponent 0 is not
recognised.  It is taken for one whose top word has no bit at all, the loop is told to run
`2^64 - 1` times, and the power is not 1.
-/
import CDemo.BigInt.Quotient

namespace CDemo.BigInt

/-! ## 1. The arithmetic below -/

/-- The products, the squares and the quotients that the conversions use. -/
structure Arith where
  mul : CNat → CNat → Run CNat
  sqr : CNat → Run CNat
  /-- of `natDiv(z, z2, u, v, &r)`, the quotient and the remainder -/
  div : CNat → CNat → CNat → CNat → Run (CNat × CNat)

/-- `natMul`, `natSqr` and `natDiv`. -/
def natArith (r2 : Word) : Arith := ⟨natMul, natSqr, fun z z2 u v => natDiv z z2 u v r2⟩

/-- A result: a number without a zero word at the top, within its capacity. -/
structure Holds (x : CNat) (v : Nat) : Prop where
  clean : Clean x
  len_le_cap : x.len ≤ x.cap
  val_eq : x.val = v

/-- The arithmetic is exact for the products, squares and quotients named. -/
structure Arith.ExactOn (a : Arith) (M : Nat → Nat → Prop) (S : Nat → Prop)
    (D : Nat → Nat → Prop) : Prop where
  mul : ∀ x y : CNat, Shaped x → Shaped y → M x.val y.val →
    Run.Returns (a.mul x y) (Holds · (x.val * y.val))
  sqr : ∀ x : CNat, Shaped x → S x.val → Run.Returns (a.sqr x) (Holds · (x.val * x.val))
  div : ∀ z z2 u v : CNat, z.cap ≤ z.data.length → z2.cap ≤ z2.data.length → Clean u → Clean v →
    v.val ≠ 0 → D u.val v.val → Run.Returns (a.div z z2 u v) (fun p =>
      Holds p.1 (u.val / v.val) ∧ Holds p.2 (u.val % v.val) ∧
        p.1.cap ≤ p.1.data.length ∧ p.2.cap ≤ p.2.data.length)

/-- The arithmetic is exact. -/
def Arith.Exact (a : Arith) : Prop :=
  a.ExactOn (fun _ _ => True) (fun _ => True) (fun _ _ => True)

/-- A number as a vector. -/
def ofNat (v : Nat) : CNat :=
  ⟨(Nat.digits radix v).map (BitVec.ofNat 64), wordLen v, wordLen v⟩

/-- Arithmetic that goes through the numbers. -/
def idealArith : Arith where
  mul x y := .ok (ofNat (x.val * y.val))
  sqr x := .ok (ofNat (x.val * x.val))
  div _ _ u v := .ok (ofNat (u.val / v.val), ofNat (u.val % v.val))

theorem holds_ofNat (v : Nat) : Holds (ofNat v) v := by
  have hlen : ((Nat.digits radix v).map (BitVec.ofNat 64)).length = wordLen v := List.length_map ..
  have hwords : (ofNat v).words = (Nat.digits radix v).map (BitVec.ofNat 64) :=
    List.take_of_length_le hlen.le
  have hval : (ofNat v).val = v := by
    have hmap : ((Nat.digits radix v).map (BitVec.ofNat 64)).map BitVec.toNat =
        Nat.digits radix v := by
      rw [List.map_map]
      refine (List.map_congr_left fun d hd => ?_).trans (List.map_id _)
      exact Nat.mod_eq_of_lt (Nat.digits_lt_base one_lt_radix hd)
    rw [CNat.val, hwords, value, hmap, Nat.ofDigits_digits]
  refine ⟨⟨hlen.ge, fun hne => ?_⟩, le_rfl, hval⟩
  -- the top digit of a number is not zero
  have hv : v ≠ 0 := by
    rintro rfl
    exact hne (by rw [hwords]; simp)
  have htop := Nat.getLast_digit_ne_zero radix hv
  intro h0
  refine htop ?_
  have hlast : ((Nat.digits radix v).map (BitVec.ofNat 64)).getLast (hwords ▸ hne) = 0 := by
    rw [← h0]
    exact List.getLast_congr _ _ hwords.symm
  rw [List.getLast_map] at hlast
  have hlt := Nat.digits_lt_base one_lt_radix
    (List.getLast_mem (Nat.digits_ne_nil_iff_ne_zero.mpr hv))
  exact (Nat.mod_eq_of_lt hlt).symm.trans (congrArg BitVec.toNat hlast)

theorem idealArith_exact : idealArith.Exact where
  mul _ _ _ _ _ := ⟨_, rfl, holds_ofNat _⟩
  sqr _ _ _ := ⟨_, rfl, holds_ofNat _⟩
  div _ _ u v _ _ _ _ _ _ := ⟨_, rfl, holds_ofNat _, holds_ofNat _,
    (holds_ofNat (u.val / v.val)).clean.1, (holds_ofNat (u.val % v.val)).clean.1⟩

/-! ## 2. `natExpNN` -/

/-- `natRem(z, u, v)`. -/
def natRem (a : Arith) (z u v : CNat) : Run CNat := do
  let (_, r) ← a.div (natNewLen 0) z u v
  .ok r

/-- The loop of `natIsPower2`: the index of the lowest word that is not zero, and that word. -/
def lowestWord : List Word → Nat → Run (Nat × Word)
  | [], _ => .error .outOfBounds
  | w :: ws, i => if w = 0 then lowestWord ws (i + 1) else .ok (i, w)

def natIsPower2 (x : CNat) : Run Int := do
  let (i, w) ← lowestWord x.data 0
  if i + 1 = x.len ∧ w &&& (w - 1) = 0 then do
    let t ← trailingZeros64 w
    .ok (i * 64 + t)
  else .ok (-1)

def natExpNNMontgomery (z _x _y _m : CNat) : Run CNat := natNorm z

def natExpNNWindowed (z _x _y : CNat) (_logM : Nat) : Run CNat := natNorm z

def natExpNNMontgomeryEven (z _x _y _m : CNat) : Run CNat := natNorm z

/-- `x.len == 1 && x.data[0] == 1`. -/
def isOne (x : CNat) : Run Bool :=
  if x.len = 1 then do
    let w ← Run.read x.data 0
    .ok (w = 1)
  else .ok false

/-- `mask`. -/
def topBit : Word := 1#64 <<< 63

/-- The product in a round of `natExpNN`. -/
def expMul (a : Arith) (x z : CNat) (v : Word) : Run CNat :=
  if v &&& topBit ≠ 0 then a.mul z x else .ok z

/-- The reduction in a round of `natExpNN`.  The storage that `natDiv` is handed was freed just
before: `zz` with the last factor, `r` in the swap that ends a round. -/
def expReduce (a : Arith) (m z : CNat) : Run CNat :=
  if m.len ≠ 0 then natRem a (natNewLen 0) z m else .ok z

/-- `n` rounds of the loops of `natExpNN`. -/
def expRounds (a : Arith) (x m : CNat) : Nat → Word → CNat → Run CNat
  | 0, _, z => .ok z
  | n + 1, v, z => do
    let z ← a.sqr z
    let z ← expMul a x z v
    let z ← expReduce a m z
    expRounds a x m n (v <<< 1) z

/-- The second loop of `natExpNN`, over the words of `y` below the `i`-th. -/
def expWords (a : Arith) (x y m : CNat) : Nat → CNat → Run CNat
  | 0, z => .ok z
  | i + 1, z => do
    let v ← Run.read y.data i
    let z ← expRounds a x m 64 v z
    expWords a x y m i z

/-- `v << shift`; from 64 on C leaves the result open. -/
def shlOr (undef v : Word) (shift : Nat) : Word := if shift < 64 then v <<< shift else undef

/-- `natExpNN` from `z = natSet(z, x)` on.  `w` is a `size_t`. -/
def natExpNNLoops (a : Arith) (undef : Word) (z x y m : CNat) : Run CNat := do
  let z ← natSet z x
  let v ← Run.read y.data (y.len - 1)
  let n ← nlz v
  let shift := n + 1
  let w := (64#64 - BitVec.ofNat 64 shift).toNat
  let z ← expRounds a x m w (shlOr undef v shift) z
  let z ← expWords a x y m (y.len - 1) z
  natNorm z

/-- `natExpNN(z, x, y, m, slow)`. -/
def natExpNN (a : Arith) (undef : Word) (z x y m : CNat) (slow : Bool) : Run CNat := do
  let m1 ← isOne m
  if m1 then natSetWord z 0
  else if y.len = 0 then natSetWord z 1
  else if x.len = 0 then natSetWord z 0
  else do
    let x1 ← isOne x
    if x1 then natSetWord z 1
    else do
      let y1 ← isOne y
      if y1 then
        if m.len ≠ 0 then natRem a z x m else natSet z x
      else if m.len ≠ 0 then do
        let z ← natMake z m.len
        if 1 < y.len ∧ slow = false then do
          let m0 ← Run.read m.data 0
          if m0 &&& 1 = 1 then natExpNNMontgomery z x y m
          else do
            let logM ← natIsPower2 m
            if 0 ≤ logM then natExpNNWindowed z x y logM.toNat
            else natExpNNMontgomeryEven z x y m
        else natExpNNLoops a undef z x y m
      else natExpNNLoops a undef z x y m

def natExpWW (a : Arith) (undef : Word) (z : CNat) (x y : Word) : Run CNat :=
  natExpNN a undef z (natNew x) (natNew y) (natNewLen 0) false

/-! ## 3. Rounds -/

/-- The exponent after `n` rounds: the top bits of `v` are appended to it. -/
def expBits : Nat → Word → Nat → Nat
  | 0, _, e => e
  | n + 1, v, e => expBits n (v <<< 1) (2 * e + if v &&& topBit ≠ 0 then 1 else 0)

theorem and_topBit_ne_zero_iff (v : Word) : v &&& topBit ≠ 0 ↔ 2 ^ 63 ≤ v.toNat := by
  rw [← msb_iff, topBit, ← BitVec.twoPow_eq, BitVec.and_twoPow, BitVec.msb_eq_getLsbD_last]
  cases v.getLsbD 63 <;> decide

theorem le_expBits : ∀ (n : Nat) (v : Word) (e : Nat), e ≤ expBits n v e
  | 0, _, _ => le_rfl
  | n + 1, v, e => by
    refine le_trans ?_ (le_expBits n (v <<< 1) _)
    omega

/-- **The first `n` bits of a word.** -/
theorem expBits_eq : ∀ {n : Nat} (v : Word) (e : Nat), n ≤ 64 →
    expBits n v e = e * 2 ^ n + v.toNat / 2 ^ (64 - n)
  | 0, v, e, _ => by
    rw [expBits, Nat.sub_zero, Nat.div_eq_of_lt v.isLt, pow_zero, Nat.mul_one, Nat.add_zero]
  | n + 1, v, e, hn => by
    have hhigh : (2 : Nat) ^ 63 = 2 ^ (64 - (n + 1)) * 2 ^ n := by rw [← pow_add]; congr 1; omega
    have hpow : (2 : Nat) ^ (64 - n) = 2 * 2 ^ (64 - (n + 1)) := by
      rw [← pow_succ']; congr 1; omega
    have hpos : 0 < 2 ^ (64 - (n + 1)) := by positivity
    have hv := v.isLt
    have hbits : (if v &&& topBit ≠ 0 then 1 else 0) * 2 ^ n + (v <<< 1).toNat / 2 ^ (64 - n) =
        v.toNat / 2 ^ (64 - (n + 1)) := by
      rw [BitVec.toNat_shiftLeft, Nat.shiftLeft_eq, pow_one, hpow, Nat.mul_comm v.toNat]
      by_cases htop : 2 ^ 63 ≤ v.toNat
      · obtain ⟨x, hx⟩ := Nat.exists_eq_add_of_le htop
        rw [if_pos ((and_topBit_ne_zero_iff v).mpr htop),
          show 2 * v.toNat % 2 ^ 64 = 2 * x by omega, Nat.mul_div_mul_left _ _ (by decide), hx,
          hhigh, Nat.mul_add_div hpos]
        omega
      · rw [if_neg (fun h => htop ((and_topBit_ne_zero_iff v).mp h)), Nat.mod_eq_of_lt (by omega),
          Nat.mul_div_mul_left _ _ (by decide)]
        omega
    rw [expBits, expBits_eq (v <<< 1) _ (by omega), ← hbits]
    ring

section

variable {a : Arith} {M : Nat → Nat → Prop} {S : Nat → Prop} {D : Nat → Nat → Prop}

/-- **A power after `n` rounds**, without a modulus. -/
theorem expRounds_eq (ha : a.ExactOn M S D) {x : CNat} (hx : Shaped x) :
    ∀ (n : Nat) (v : Word) (e : Nat) (z : CNat), Shaped z → z.len ≤ z.cap → z.val = x.val ^ e →
      (∀ k ≤ expBits n v e, S (x.val ^ k) ∧ M (x.val ^ k) x.val) →
      ∃ z', expRounds a x (natNewLen 0) n v z = .ok z' ∧ Shaped z' ∧ z'.len ≤ z'.cap ∧
        z'.val = x.val ^ expBits n v e
  | 0, _, _, z, hz, hb, hval, _ => ⟨z, rfl, hz, hb, hval⟩
  | n + 1, v, e, z, hz, hb, hval, hfits => by
    have hle := le_expBits n (v <<< 1) (2 * e + if v &&& topBit ≠ 0 then 1 else 0)
    obtain ⟨s, hs, hholds⟩ := ha.sqr z hz (hval ▸ (hfits e (by rw [expBits]; omega)).1)
    have hsv : s.val = x.val ^ (2 * e) := by
      rw [hholds.val_eq, hval, ← pow_add, two_mul]
    have hmul : ∃ t, expMul a x s v = .ok t ∧ Clean t ∧ t.len ≤ t.cap ∧
        t.val = x.val ^ (2 * e + if v &&& topBit ≠ 0 then 1 else 0) := by
      rw [expMul]
      by_cases htop : v &&& topBit ≠ 0
      · rw [if_pos htop, if_pos htop]
        obtain ⟨t, ht, hprod⟩ := ha.mul s x hholds.clean.shaped hx
          (hsv ▸ (hfits (2 * e) (by rw [expBits]; omega)).2)
        exact ⟨t, ht, hprod.clean, hprod.len_le_cap, by rw [hprod.val_eq, hsv, pow_succ]⟩
      · rw [if_neg htop, if_neg htop]
        exact ⟨s, rfl, hholds.clean, hholds.len_le_cap, hsv⟩
    obtain ⟨t, ht, htc, htb, htv⟩ := hmul
    obtain ⟨z', hz', hrest⟩ := expRounds_eq ha hx n (v <<< 1) _ t htc.shaped htb htv hfits
    refine ⟨z', ?_, hrest⟩
    rw [expRounds]
    refine Run.bind_of_eq hs (Run.bind_of_eq ht (Run.bind_of_eq ?_ hz'))
    rw [expReduce, if_neg (by simp)]

end

/-! ## 4. A word to a word -/

theorem natMake_backed {z z' : CNat} (hz : z.cap ≤ z.data.length) {n : Nat}
    (h : natMake z n = .ok z') : Backed z' := by
  rw [natMake] at h
  split at h
  · next hlt =>
    rw [natPart_low] at h
    rw [← Except.ok.inj h]
    exact ⟨le_rfl, hlt.le.trans hz⟩
  · split at h
    · rw [← Except.ok.inj h]
      exact ⟨le_rfl, by simp [natNewLen]⟩
    · rw [← Except.ok.inj h]
      exact ⟨Nat.le_add_right n 4, by simp [natNewLen]⟩

/-- `natSet` copies the words into storage of its own. -/
theorem natSet_backed {z x : CNat} (hz : z.cap ≤ z.data.length) (hx : x.Valid) :
    ∃ r, natSet z x = .ok r ∧ r.words = x.words ∧ Backed r := by
  obtain ⟨z', hmake, hlen, hvalid, hcap, -⟩ := natMake_eq hz x.len
  have hback := natMake_backed hz hmake
  have hzl : x.len ≤ z'.data.length := by have : z'.len ≤ z'.data.length := hvalid; omega
  have hxl := List.length_take_of_le (show x.len ≤ x.data.length from hx)
  refine ⟨⟨x.data.take x.len ++ z'.data.drop x.len, z'.len, z'.cap⟩, Run.bind_of_eq hmake ?_, ?_,
    hback.1, ?_⟩
  · rw [natCopy, decide_eq_true hcap, Run.assert_true, Run.ok_bind, memcpy_eq hzl hx, Run.ok_bind]
  · rw [CNat.words, hlen]
    exact List.take_left' hxl
  · have := hback.2
    rw [List.length_append, hxl, List.length_drop]
    dsimp only
    omega

theorem natNorm_holds {p : CNat} (hp : p.Valid) (hcap : p.len ≤ p.cap) :
    ∃ q, natNorm p = .ok q ∧ Holds q p.val := by
  obtain ⟨q, hq, -, hqcap, hlen, hvalid, hnorm, hval⟩ := natNorm_eq hp
  exact ⟨q, hq, ⟨hvalid, hnorm⟩, hqcap ▸ hlen.trans hcap, hval⟩

theorem natNew_val (x : Word) : (natNew x).val = x.toNat := by
  simp [natNew, CNat.val, CNat.words]

theorem isOne_natNew (x : Word) : isOne (natNew x) = .ok (decide (x = 1)) := rfl

/-- The rounds that `natExpWW` is to run, and the bits it is to append. -/
def expCount (y : Word) : Nat := (64#64 - BitVec.ofNat 64 (64 - y.toNat.size + 1)).toNat

def expStart (undef y : Word) : Word := shlOr undef y (64 - y.toNat.size + 1)

/-- Below the special cases `natExpWW` is the loop. -/
theorem natExpWW_eq {a : Arith} {M : Nat → Nat → Prop} {S : Nat → Prop} {D : Nat → Nat → Prop}
    (ha : a.ExactOn M S D) (undef : Word) {z : CNat} (hz : z.cap ≤ z.data.length) {x y : Word}
    (hx : x ≠ 1) (hy : y ≠ 1)
    (hfits : ∀ k ≤ expBits (expCount y) (expStart undef y) 1,
      S (x.toNat ^ k) ∧ M (x.toNat ^ k) x.toNat) :
    Run.Returns (natExpWW a undef z x y)
      (Holds · (x.toNat ^ expBits (expCount y) (expStart undef y) 1)) := by
  obtain ⟨r, hset, hwords, hback⟩ := natSet_backed hz (shaped_natNew x).1
  have hshaped : Shaped r := ⟨hback.1.trans hback.2, hwords ▸ (shaped_natNew x).2⟩
  have hval : r.val = (natNew x).val ^ 1 := by rw [pow_one, CNat.val, hwords]; rfl
  obtain ⟨z', hrounds, hzs, hzc, hzv⟩ := expRounds_eq ha (shaped_natNew x) (expCount y)
    (expStart undef y) 1 r hshaped hback.1 hval (by rw [natNew_val]; exact hfits)
  obtain ⟨q, hq, hholds⟩ := natNorm_holds hzs.1 hzc
  rw [hzv, natNew_val] at hholds
  refine ⟨q, ?_, hholds⟩
  have hloops : natExpNNLoops a undef z (natNew x) (natNew y) (natNewLen 0) = .ok q :=
    Run.bind_of_eq hset (Run.bind_of_eq rfl (Run.bind_of_eq (nlz_eq y)
      (Run.bind_of_eq hrounds (Run.bind_of_eq rfl hq))))
  rw [natExpWW, natExpNN, isOne_natNew, isOne_natNew, decide_eq_false hx, decide_eq_false hy]
  exact hloops

/-- **For an exponent of two bits or more the loop reads the exponent.** -/
theorem expBits_exponent (undef : Word) {y : Word} (hy : 2 ≤ y.toNat) :
    expBits (expCount y) (expStart undef y) 1 = y.toNat := by
  have hsize : 2 ≤ y.toNat.size := Nat.lt_size.mpr hy
  have hle : y.toNat.size ≤ 64 := Nat.size_le.mpr y.isLt
  have hlt : y.toNat < 2 ^ y.toNat.size := Nat.lt_size_self _
  have hge : 2 ^ (y.toNat.size - 1) ≤ y.toNat := Nat.lt_size.mp (by omega)
  have hcount : expCount y = y.toNat.size - 1 := by
    rw [expCount, BitVec.toNat_sub, BitVec.toNat_ofNat, BitVec.toNat_ofNat]
    omega
  have hpow : (2 : Nat) ^ 64 = 2 ^ (y.toNat.size - 1) * 2 ^ (64 - y.toNat.size + 1) := by
    rw [← pow_add]; congr 1; omega
  have htwice : (2 : Nat) ^ y.toNat.size = 2 ^ (y.toNat.size - 1) * 2 := by
    rw [← pow_succ]; congr 1; omega
  have hstart : (expStart undef y).toNat / 2 ^ (64 - y.toNat.size + 1) =
      y.toNat % 2 ^ (y.toNat.size - 1) := by
    rw [expStart, shlOr, if_pos (by omega), BitVec.toNat_shiftLeft, Nat.shiftLeft_eq, hpow,
      Nat.mul_mod_mul_right, Nat.mul_div_cancel _ (by positivity)]
  rw [hcount, expBits_eq _ _ (by omega),
    show 64 - (y.toNat.size - 1) = 64 - y.toNat.size + 1 by omega, hstart, Nat.mod_eq_sub_mod hge,
      Nat.mod_eq_of_lt (by omega)]
  omega

/-- **An exponent 0 is not recognised**: unless the base is 1, what comes out is not 1. -/
theorem natExpWW_exponent_zero {a : Arith} (ha : a.Exact) (undef : Word) {z : CNat}
    (hz : z.cap ≤ z.data.length) {x : Word} (hx : x ≠ 1) :
    ¬ Run.Returns (natExpWW a undef z x 0) (fun r => r.val = 1) := by
  intro ⟨r', hr', hval⟩
  obtain ⟨r, hr, hholds⟩ :=
    natExpWW_eq ha undef hz hx (y := 0) (by decide) fun _ _ => ⟨trivial, trivial⟩
  rw [hr] at hr'
  rw [← Except.ok.inj hr', hholds.val_eq] at hval
  have hpos := le_expBits (expCount 0) (expStart undef 0) 1
  rcases Nat.pow_eq_one.mp hval with h1 | h0
  · exact hx (BitVec.eq_of_toNat_eq h1)
  · rw [h0] at hpos
    exact absurd hpos (by decide)

/-- **`natExpWW` returns the power exactly when the base is 1 or the exponent is not 0**, whatever
the storage held. -/
theorem natExpWW_pow {a : Arith} (ha : a.Exact) (undef : Word) {z : CNat}
    (hz : z.cap ≤ z.data.length) (x y : Word) :
    Run.Returns (natExpWW a undef z x y) (fun r => r.Valid ∧ r.val = x.toNat ^ y.toNat) ↔
      x = 1 ∨ y ≠ 0 := by
  by_cases hx : x = 1
  · refine iff_of_true ?_ (.inl hx)
    obtain ⟨r, hr, hvalid, hval⟩ := natSetWord_eq hz 1
    refine ⟨r, ?_, hvalid, ?_⟩
    · rw [natExpWW, natExpNN, isOne_natNew, decide_eq_true hx]
      exact hr
    · rw [hval, hx, word_one, one_pow]
  by_cases hy : y = 1
  · refine iff_of_true ?_ (.inr (hy ▸ by decide))
    obtain ⟨r, hr, hvalid, hval⟩ := natSet_eq hz (shaped_natNew x).1
    refine ⟨r, ?_, hvalid, ?_⟩
    · rw [natExpWW, natExpNN, isOne_natNew, isOne_natNew, decide_eq_false hx, decide_eq_true hy]
      exact hr
    · rw [hval, natNew_val, hy, word_one, pow_one]
  by_cases h0 : y = 0
  · subst h0
    refine iff_of_false (fun ⟨r, hr, _, hval⟩ => ?_) (fun h => h.elim hx (absurd rfl))
    rw [word_zero, pow_zero] at hval
    exact natExpWW_exponent_zero ha undef hz hx ⟨r, hr, hval⟩
  · obtain ⟨r, hr, hholds⟩ := natExpWW_eq ha undef hz hx hy fun _ _ => ⟨trivial, trivial⟩
    have htwo : 2 ≤ y.toNat := by
      have hne0 : y.toNat ≠ 0 := fun h => h0 (BitVec.eq_of_toNat_eq h)
      have hne1 : y.toNat ≠ 1 := fun h => hy (BitVec.eq_of_toNat_eq h)
      omega
    rw [expBits_exponent undef htwo] at hholds
    exact iff_of_true ⟨r, hr, hholds.clean.1, hholds.val_eq⟩ (.inr h0)

/-- The fifth power of 3, in storage that holds something. -/
theorem natExpWW_pow_five :
    Run.Returns (natExpWW idealArith 0 ⟨[7, 7], 1, 2⟩ 3 5)
      (fun r => r.Valid ∧ r.val = (3 : Word).toNat ^ (5 : Word).toNat) :=
  (natExpWW_pow idealArith_exact 0 (z := ⟨[7, 7], 1, 2⟩) (by decide) 3 5).mpr (.inr (by decide))

/-- The power of 0 with exponent 0. -/
theorem zero_exponent_missed :
    idealArith.Exact ∧ (natNewLen 0).cap ≤ (natNewLen 0).data.length ∧
      ¬ Run.Returns (natExpWW idealArith 0 (natNewLen 0) 0 0)
        (fun r => r.Valid ∧ r.val = (0 : Word).toNat ^ (0 : Word).toNat) := by
  refine ⟨idealArith_exact, by decide, fun ⟨r, hr, _, hval⟩ => ?_⟩
  rw [word_zero, pow_zero] at hval
  exact natExpWW_exponent_zero idealArith_exact 0 (by decide) (by decide) ⟨r, hr, hval⟩

end CDemo.BigInt
