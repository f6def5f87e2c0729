/-
# The product of two vectors

`natMul` multiplies the two lowest blocks of `k` words with `karatsuba` and adds, block by block,
the products of the others at their places.  After the blocks below word `i` the storage holds
`(x mod B^i) y`.

`MulFits` says, about the numbers and their lengths only, that the carries of the whole computation
fit; then the product is exact.  The storage of the product has words to spare exactly if it was
allocated for `karatsuba`, whose buffer is longer.
-/
import CDemo.BigInt.Karatsuba

namespace CDemo.BigInt

/-! ## 1. `addAt` -/

/-- The carry of adding `t` at word `i` of a vector of `len` words fits. -/
def AddAtFits (z t i len : Nat) (spare : Bool) : Prop :=
  CarryFits (z / radix ^ i) t (wordLen t) (len - i - wordLen t) spare

instance (z t i len : Nat) (spare : Bool) : Decidable (AddAtFits z t i len spare) :=
  inferInstanceAs (Decidable (CarryFits ..))

/-- **`addAt`** changes the words from `i` on. -/
theorem addAt_eq {z t : CNat} {i : Nat} (hz : z.Valid) (ht : t.Valid) (hi : i + t.len ≤ z.len)
    (hstays : CopyStays u64Add (z.data.drop i) t.data t.len (z.len - i - t.len)
      (z.len - i - t.len)) :
    addAt z t i = .ok (splice z.data i
      (inPlace u64Add (z.data.drop i) t.data t.len (z.len - i - t.len) ++
        (z.data.drop i).drop (t.len + (z.len - i - t.len)))) := by
  have hzl : z.len ≤ z.data.length := hz
  have htl : t.len ≤ t.data.length := ht
  have hdl : t.len ≤ (z.data.drop i).length := by rw [List.length_drop]; omega
  have hti : (z.data.take i).length = i := List.length_take_of_le (by omega)
  by_cases hpos : 0 < t.len
  swap
  · have h0 : t.len = 0 := by omega
    rw [addAt, if_neg hpos, inPlace_dead u64Add_zero (by simp [h0, vvWords])]
    simp [h0, vvWords, splice]
  have hll := length_low u64Add hdl htl 0
  have hadd : addVV ⟨z.data.drop i, t.len, t.len⟩ ⟨z.data.drop i, z.len - i, z.len - i⟩ t =
      .ok ((vvWords u64Add ((z.data.drop i).take t.len) (t.data.take t.len) 0).1,
        (vvWords u64Add ((z.data.drop i).take t.len) (t.data.take t.len) 0).2 ++
          (z.data.drop i).drop t.len) := by
    rw [addVV, show min t.len (min (z.len - i) t.len) = t.len by omega]
    exact vvLoop_eq hdl hdl htl
  simp only [addAt, if_pos hpos]
  refine Run.bind_of_eq (natPart_mid _ rfl) ?_
  refine Run.bind_of_eq (natPart_above _ (by omega)) ?_
  refine Run.bind_of_eq hadd ?_
  simp only
  split
  · next hc =>
    refine Run.bind_of_eq (natPart_above _ (by simp only; omega)) ?_
    have hdrop : (splice z.data i ((vvWords u64Add ((z.data.drop i).take t.len)
        (t.data.take t.len) 0).2 ++ (z.data.drop i).drop t.len)).drop (i + t.len) =
        (z.data.drop i).drop t.len := by
      rw [drop_splice (by omega), List.drop_left' hll]
    simp only [above, hdrop]
    rw [Nat.sub_add_eq]
    refine Run.bind_of_eq (vw_same u64Add_zero le_rfl
      (by rw [List.length_drop, List.length_drop]; omega) hstays) ?_
    have htake : (splice z.data i ((vvWords u64Add ((z.data.drop i).take t.len)
        (t.data.take t.len) 0).2 ++ (z.data.drop i).drop t.len)).take (i + t.len) =
        z.data.take i ++ (vvWords u64Add ((z.data.drop i).take t.len) (t.data.take t.len) 0).2 := by
      rw [splice, ← List.append_assoc, List.take_left' (by rw [List.length_append, hti, hll])]
    simp only
    rw [splice, htake, splice, inPlace, Nat.sub_sub, List.append_assoc, List.append_assoc,
      List.drop_drop, List.drop_drop, List.drop_drop, Nat.add_assoc]
  · next hc =>
    by_cases h0 : (vvWords u64Add ((z.data.drop i).take t.len) (t.data.take t.len) 0).1 = 0
    · rw [inPlace_dead u64Add_zero h0]
    · have hend : z.len - i - t.len = 0 := by
        by_contra hne
        exact hc ⟨h0, by omega⟩
      rw [hend, inPlace, List.take_zero, vwWords, List.append_nil, Nat.add_zero]

/-- **`addAt` adds if its carry fits**, and leaves what is above the vector. -/
theorem addAt_val {z t : CNat} {i : Nat} {spare : Bool} (hz : z.Valid) (ht : t.Valid)
    (hi : i + t.len ≤ z.len)
    (hcarry : CarryFits (z.val / radix ^ i) t.val t.len (z.len - i - t.len) spare)
    (hspare : spare = true → z.len < z.data.length)
    (hfit : z.val + radix ^ i * t.val < radix ^ z.len) :
    ∃ d, addAt z t i = .ok d ∧ d.length = z.data.length ∧ d.drop z.len = z.data.drop z.len ∧
      (⟨d, z.len, z.cap⟩ : CNat).val = z.val + radix ^ i * t.val := by
  have hzl : z.len ≤ z.data.length := hz
  have htl : t.len ≤ t.data.length := ht
  have hdl : t.len + (z.len - i - t.len) ≤ (z.data.drop i).length := by
    rw [List.length_drop]; omega
  have hinl := length_inPlace u64Add hdl htl
  have hti : (z.data.take i).length = i := List.length_take_of_le (by omega)
  have hpre : (z.data.take i ++ inPlace u64Add (z.data.drop i) t.data t.len
      (z.len - i - t.len)).length = z.len := by
    rw [List.length_append, hti, hinl]
    omega
  have hhigh : value ((z.data.drop i).take (t.len + (z.len - i - t.len))) = z.val / radix ^ i := by
    rw [show t.len + (z.len - i - t.len) = z.len - i by omega]
    exact (val_split hz (by omega)).2.1
  have hsplit := Nat.mod_add_div z.val (radix ^ i)
  rw [← hhigh, ← t.value_take_len] at hcarry
  have hadd := value_inPlace_add hdl htl hcarry.1 (by
    rw [hhigh]
    refine Nat.lt_of_mul_lt_mul_left (a := radix ^ i) ?_
    rw [← pow_add, show i + (t.len + (z.len - i - t.len)) = z.len by omega, Nat.mul_add]
    exact (Nat.add_le_add_right (Nat.mul_div_le _ _) _).trans_lt hfit)
  have hstays := copyStays_add (l := z.len - i - t.len) hdl htl hcarry fun hs => by
    have := hspare hs
    rw [List.length_drop]
    omega
  refine ⟨_, addAt_eq hz ht hi hstays, ?_, ?_, ?_⟩
  · refine length_splice (by omega) ?_
    rw [List.length_append, hinl, List.length_drop, List.length_drop]
    omega
  · rw [splice, ← List.append_assoc, List.drop_left' hpre, List.drop_drop]
    congr 1
    omega
  · rw [CNat.val, CNat.words, splice, ← List.append_assoc]
    simp only
    rw [List.take_left' hpre, value_append, hti, hadd, hhigh, (val_split hz (by omega)).1,
      t.value_take_len, Nat.mul_add]
    omega

/-- **`addAt` is exact if its carry fits.** -/
theorem addAt_exact {z t : CNat} {i : Nat} {spare : Bool} (hz : z.Valid) (ht : Shaped t)
    (hi : i < z.len) (hcarry : AddAtFits z.val t.val i z.len spare)
    (hspare : spare = true → z.len < z.data.length)
    (hfit : z.val + radix ^ i * t.val < radix ^ z.len) :
    ∃ d, addAt z t i = .ok d ∧ d.length = z.data.length ∧
      (⟨d, z.len, z.cap⟩ : CNat).val = z.val + radix ^ i * t.val := by
  -- the words of `t` fit in, and the carry of `t` is that of its number
  have hlen : i + t.len ≤ z.len ∧
      CarryFits (z.val / radix ^ i) t.val t.len (z.len - i - t.len) spare := by
    rcases ht.2 with hn | h0
    · have hw : t.len = wordLen t.val := by rw [← CNat.length_words ht.1, hn.length_eq]; rfl
      refine ⟨?_, hw ▸ hcarry⟩
      have hlt : t.val < radix ^ (z.len - i) := by
        refine Nat.lt_of_mul_lt_mul_left (a := radix ^ i) ?_
        rw [← pow_add, Nat.add_sub_cancel' hi.le]
        omega
      have := wordLen_le_iff.mpr hlt
      omega
    · have h1 : t.len = 1 := by rw [← CNat.length_words ht.1, h0]; rfl
      have hv : t.val = 0 := by rw [CNat.val, h0]; rfl
      have hlt : z.val / radix ^ i % radix ^ t.len + t.val < radix ^ t.len := by
        rw [hv]
        exact Nat.mod_lt _ (radix_pow_pos t.len)
      exact ⟨by omega, fun hr => Nat.not_le_of_lt hlt hr.1, fun _ _ => hlt⟩
  obtain ⟨d, hd, hdl, -, hdv⟩ := addAt_val hz ht.1 hlen.1 hlen.2 hspare hfit
  exact ⟨d, hd, hdl, hdv⟩

/-! ## 2. Blocks -/

theorem karatsubaLenLoop_le {threshold : Nat} :
    ∀ {fuel n i : Nat}, karatsubaLenLoop threshold fuel n i ≤ n <<< i
  | 0, _, _ => le_rfl
  | fuel + 1, n, i => by
    rw [karatsubaLenLoop]
    split
    · refine karatsubaLenLoop_le.trans ?_
      simp only [Nat.shiftLeft_eq, Nat.shiftRight_eq_div_pow, pow_succ, pow_zero, Nat.one_mul]
      calc n / 2 * (2 ^ i * 2) = n / 2 * 2 * 2 ^ i := by ring
        _ ≤ n * 2 ^ i := Nat.mul_le_mul_right _ (Nat.div_mul_le_self n 2)
    · exact le_rfl

theorem karatsubaLenLoop_pos {threshold : Nat} (ht : 0 < threshold) :
    ∀ {fuel n i : Nat}, 0 < n → 0 < karatsubaLenLoop threshold fuel n i
  | 0, n, i, hn => by
    rw [karatsubaLenLoop, Nat.shiftLeft_eq]
    exact Nat.mul_pos hn (by positivity)
  | fuel + 1, n, i, hn => by
    rw [karatsubaLenLoop]
    split
    · next h =>
      refine karatsubaLenLoop_pos ht ?_
      rw [Nat.shiftRight_eq_div_pow]
      omega
    · rw [Nat.shiftLeft_eq]
      exact Nat.mul_pos hn (by positivity)

theorem karatsubaLen_le (n threshold : Nat) : karatsubaLen n threshold ≤ n := by
  have h : karatsubaLen n threshold ≤ n <<< 0 := karatsubaLenLoop_le
  rwa [Nat.shiftLeft_zero] at h

theorem karatsubaLen_pos {n threshold : Nat} (ht : 0 < threshold) (hn : 0 < n) :
    0 < karatsubaLen n threshold :=
  karatsubaLenLoop_pos ht hn

/-- A normalised part of a vector. -/
theorem natNorm_part {x : CNat} (hx : x.Valid) {v : Nat} (hv : x.val = v) :
    ∃ q, natNorm x = .ok q ∧ q.Valid ∧ q.len = wordLen v ∧ q.val = v := by
  obtain ⟨q, hq, hqv, hqn, hval⟩ := natNorm_val hx hv
  refine ⟨q, hq, hqv, ?_, hval⟩
  rw [← CNat.length_words hqv, hqn.length_eq, ← hval]
  rfl

/-- **The block of `x` at word `i`.** -/
theorem natMulBlock_eq {x : CNat} (hx : x.Valid) {k i : Nat} (hi : i ≤ x.len) :
    ∃ q, natMulBlock x k i = .ok q ∧ q.Valid ∧ q.len = wordLen (x.val / radix ^ i % radix ^ k) ∧
      q.val = x.val / radix ^ i % radix ^ k := by
  have hv := valid_above hx i
  have hval := (val_split hx hi).2.1
  rw [natMulBlock, natPart_above x hi, Run.ok_bind]
  split
  · next hk =>
    rw [natPart_low, Run.ok_bind]
    exact natNorm_part (valid_low hv hk.le) (by rw [low_val hv hk.le, hval])
  · next hk =>
    refine natNorm_part hv ?_
    rw [hval, Nat.mod_eq_of_lt]
    rw [← hval]
    exact CNat.val_lt.trans_le (Nat.pow_le_pow_right radix_pos (Nat.le_of_not_lt hk))

/-! ## 3. `natMul` -/

/-- **All carries of `natMul` fit**, for factors of `m` and `n` words and of the numbers `x` and
`y`: in `karatsuba`, in `addAt`, and in the products of the blocks.  The product has `m + n` words
in a block of `max (6 k) (m + n)`. -/
def MulFits : Nat → Nat → Nat → Nat → Nat → Prop
  | 0, _, _, _, _ => True
  | fuel + 1, m, n, x, y =>
    if m < n then MulFits fuel n m y x
    else if n < karatsubaThreshold then True
    else
      let k := karatsubaLen n karatsubaThreshold
      let x0 := x % radix ^ k
      let y0 := y % radix ^ k
      let y1 := y / radix ^ k
      let spare := decide (m + n < 6 * k)
      KaraFits (k + 1) k x0 y0 ∧
      (k < n ∨ m ≠ n →
        MulFits fuel (wordLen x0) (n - k) x0 y1 ∧ AddAtFits (x0 * y0) (x0 * y1) k (m + n) spare ∧
        ∀ i < m, 0 < i → k ∣ i →
          let xi := x / radix ^ i % radix ^ k
          let z := x % radix ^ i * y
          MulFits fuel (wordLen xi) (wordLen y0) xi y0 ∧
          AddAtFits z (xi * y0) i (m + n) spare ∧
          MulFits fuel (wordLen xi) (n - k) xi y1 ∧
          AddAtFits (z + radix ^ i * (xi * y0)) (xi * y1) (i + k) (m + n) spare)

instance MulFits.decidable : ∀ fuel m n x y, Decidable (MulFits fuel m n x y)
  | 0, _, _, _, _ => inferInstanceAs (Decidable True)
  | fuel + 1, m, n, _, _ =>
    have := MulFits.decidable fuel
    inferInstanceAs (Decidable (if m < n then _ else if n < karatsubaThreshold then True else _))

/-- What is asked of the recursive call. -/
def MulExact (mul : CNat → CNat → Run CNat) (fits : Nat → Nat → Nat → Nat → Prop) (l : Nat) :
    Prop :=
  ∀ a b : CNat, a.Valid → b.Valid → a.len + b.len < l → fits a.len b.len a.val b.val →
    ∃ t, mul a b = .ok t ∧ Shaped t ∧ t.val = a.val * b.val

/-- The next block. -/
theorem mod_pow_add (x i k : Nat) :
    x % radix ^ (i + k) = x % radix ^ i + radix ^ i * (x / radix ^ i % radix ^ k) := by
  rw [pow_add, Nat.mod_mul]

/-- A partial product fits. -/
theorem partial_lt {x y m n : Nat} (hx : x < radix ^ m) (hy : y < radix ^ n) {v : Nat}
    (hv : v ≤ x * y) : v < radix ^ (m + n) := by
  rw [pow_add]
  exact hv.trans_lt (Nat.mul_lt_mul'' hx hy)

/-- **The loop over the blocks of `x`.** -/
theorem natMulLoop_spec {mul : CNat → CNat → Run CNat} {fits : Nat → Nat → Nat → Nat → Prop}
    {k : Nat} {spare : Bool} {x y y0 y1 : CNat} (hmul : MulExact mul fits (x.len + y.len))
    (hk : 0 < k)
    (hkn : k ≤ y.len) (hx : x.Valid) (hy0 : y0.Valid) (hy1 : y1.Valid)
    (hy0l : y0.len = wordLen y0.val) (hy1l : y1.len = y.len - k) (hy0k : y0.val < radix ^ k)
    (hy : y.val = y0.val + radix ^ k * y1.val) (hsmall : 2 * k < x.len + y.len)
    (hfits : ∀ i < x.len, 0 < i → k ∣ i →
      fits (wordLen (x.val / radix ^ i % radix ^ k)) (wordLen y0.val)
        (x.val / radix ^ i % radix ^ k) y0.val ∧
      AddAtFits (x.val % radix ^ i * y.val) (x.val / radix ^ i % radix ^ k * y0.val) i
        (x.len + y.len) spare ∧
      fits (wordLen (x.val / radix ^ i % radix ^ k)) (y.len - k)
        (x.val / radix ^ i % radix ^ k) y1.val ∧
      AddAtFits (x.val % radix ^ i * y.val +
          radix ^ i * (x.val / radix ^ i % radix ^ k * y0.val))
        (x.val / radix ^ i % radix ^ k * y1.val) (i + k) (x.len + y.len) spare) :
    ∀ {f i : Nat} {z : CNat}, x.len - i < f → 0 < i → k ∣ i → z.Valid →
      z.len = x.len + y.len → (spare = true → z.len < z.data.length) →
      z.val = x.val % radix ^ i * y.val →
      ∃ z', natMulLoop mul k x y0 y1 f i z = .ok z' ∧ z'.data.length = z.data.length ∧
        z'.len = x.len + y.len ∧ z'.cap = z.cap ∧ z'.val = x.val * y.val
  | 0, _, _, hf, _, _, _, _, _, _ => absurd hf (Nat.not_lt_zero _)
  | fuel + 1, i, z, hf, hi, hki, hzv, hzl, hspare, hval => by
    rw [natMulLoop]
    split
    swap
    · next hge =>
      refine ⟨z, rfl, rfl, hzl, rfl, ?_⟩
      rw [hval, Nat.mod_eq_of_lt]
      exact CNat.val_lt.trans_le (Nat.pow_le_pow_right radix_pos (Nat.le_of_not_lt hge))
    next hlt =>
    obtain ⟨hf0, hat0, hf1, hat1⟩ := hfits i hlt hi hki
    obtain ⟨xi, hxi, hxiv, hxil, hxival⟩ := natMulBlock_eq hx (k := k) hlt.le
    rw [← hxival] at hf0 hat0 hf1 hat1 hxil
    have hxik : xi.len ≤ k := by
      rw [hxil, hxival]
      exact wordLen_le_iff.mpr (Nat.mod_lt _ (radix_pow_pos k))
    have hy0l' : y0.len ≤ k := by rw [hy0l]; exact wordLen_le_iff.mpr hy0k
    -- the partial products stay below the product
    have hnext := mod_pow_add x.val i k
    rw [← hxival] at hnext
    have hle : x.val % radix ^ (i + k) * y.val ≤ x.val * y.val :=
      Nat.mul_le_mul_right _ (Nat.mod_le _ _)
    have hlt' := partial_lt CNat.val_lt CNat.val_lt hle
    have hsum : x.val % radix ^ i * y.val + radix ^ i * (xi.val * y0.val) +
        radix ^ (i + k) * (xi.val * y1.val) = x.val % radix ^ (i + k) * y.val := by
      rw [hnext, hy, pow_add]
      ring
    obtain ⟨t, ht, hts, htv⟩ := hmul xi y0 hxiv hy0 (by omega) (by rw [hxil, hy0l]; exact hf0)
    obtain ⟨d, hd, hdl, hdv⟩ := addAt_exact (z := z) (t := t) (i := i) hzv hts (by omega)
      (by rw [hval, htv, hzl]; exact hat0) hspare (by rw [hval, htv, hzl]; omega)
    obtain ⟨t', ht', hts', htv'⟩ := hmul xi y1 hxiv hy1 (by omega)
      (by rw [hxil, hy1l]; exact hf1)
    rw [hval, htv] at hdv
    obtain ⟨d', hd', hdl', hdv'⟩ := addAt_exact (z := ⟨d, z.len, z.cap⟩) (t := t') (i := i + k)
      (by simp only [CNat.Valid, hdl]; exact hzv) hts' (by simp only; omega)
      (by rw [hdv, htv', hzl]; exact hat1) (by simp only [hdl]; exact hspare)
      (by rw [hdv, htv']; simp only [hzl]; omega)
    rw [hdv, htv', hsum] at hdv'
    obtain ⟨z', hz', hzd', hzl', hzc', hzval'⟩ := natMulLoop_spec hmul hk hkn hx hy0 hy1 hy0l
      hy1l hy0k hy hsmall hfits (f := fuel) (i := i + k) (z := ⟨d', z.len, z.cap⟩) (by omega)
      (by omega) (Nat.dvd_add hki (Nat.dvd_refl k))
      (by simp only [CNat.Valid, hdl', hdl]; exact hzv) hzl
      (by simp only [hdl', hdl]; exact hspare) hdv'
    refine ⟨z', ?_, hzd'.trans (hdl'.trans hdl), hzl', hzc', hzval'⟩
    refine Run.bind_of_eq hxi ?_
    refine Run.bind_of_eq ht ?_
    refine Run.bind_of_eq hd ?_
    refine Run.bind_of_eq ht' ?_
    refine Run.bind_of_eq hd' ?_
    exact hz'

/-- **The blocks above the two lowest ones.** -/
theorem natMulRest_spec {mul : CNat → CNat → Run CNat} {fits : Nat → Nat → Nat → Nat → Prop}
    {k : Nat} {spare : Bool} {x y z : CNat} (hmul : MulExact mul fits (x.len + y.len)) (hk : 0 < k)
    (hkn : k ≤ y.len) (hyx : y.len ≤ x.len) (hx : x.Valid) (hy : y.Valid) (hz : z.Valid)
    (hzl : z.len = x.len + y.len) (hspare : spare = true → z.len < z.data.length)
    (hval : z.val = x.val % radix ^ k * (y.val % radix ^ k))
    (hfits : k < y.len ∨ x.len ≠ y.len →
      fits (wordLen (x.val % radix ^ k)) (y.len - k) (x.val % radix ^ k) (y.val / radix ^ k) ∧
      AddAtFits (x.val % radix ^ k * (y.val % radix ^ k))
        (x.val % radix ^ k * (y.val / radix ^ k)) k (x.len + y.len) spare ∧
      ∀ i < x.len, 0 < i → k ∣ i →
        fits (wordLen (x.val / radix ^ i % radix ^ k)) (wordLen (y.val % radix ^ k))
          (x.val / radix ^ i % radix ^ k) (y.val % radix ^ k) ∧
        AddAtFits (x.val % radix ^ i * y.val)
          (x.val / radix ^ i % radix ^ k * (y.val % radix ^ k)) i (x.len + y.len) spare ∧
        fits (wordLen (x.val / radix ^ i % radix ^ k)) (y.len - k)
          (x.val / radix ^ i % radix ^ k) (y.val / radix ^ k) ∧
        AddAtFits (x.val % radix ^ i * y.val +
            radix ^ i * (x.val / radix ^ i % radix ^ k * (y.val % radix ^ k)))
          (x.val / radix ^ i % radix ^ k * (y.val / radix ^ k)) (i + k) (x.len + y.len) spare) :
    ∃ z', natMulRest mul k x y (low x k) (low y k) z = .ok z' ∧
      z'.data.length = z.data.length ∧ z'.len = x.len + y.len ∧ z'.cap = z.cap ∧
      z'.val = x.val * y.val := by
  rw [natMulRest]
  split
  swap
  · next hall =>
    -- both factors are one block
    have hxk : x.val % radix ^ k = x.val := Nat.mod_eq_of_lt
      (CNat.val_lt.trans_le (Nat.pow_le_pow_right radix_pos (by omega)))
    have hyk : y.val % radix ^ k = y.val := Nat.mod_eq_of_lt
      (CNat.val_lt.trans_le (Nat.pow_le_pow_right radix_pos (by omega)))
    exact ⟨z, rfl, rfl, hzl, rfl, by rw [hval, hxk, hyk]⟩
  next hrest =>
  obtain ⟨hf, hat, hblocks⟩ := hfits hrest
  obtain ⟨x0, hx0, hx0v, hx0l, hx0val⟩ := natNorm_part (valid_low hx (hkn.trans hyx))
    (low_val hx (hkn.trans hyx))
  obtain ⟨y0, hy0, hy0v, hy0l, hy0val⟩ := natNorm_part (valid_low hy hkn) (low_val hy hkn)
  have hy1v := valid_above hy k
  have hy1val := (val_split hy hkn).2.1
  have hsplit := Nat.mod_add_div y.val (radix ^ k)
  rw [← hx0val, ← hy1val] at hf
  rw [← hy0val, ← hx0val, ← hy1val] at hat
  rw [← hy0val, ← hx0val] at hval
  simp only [← hy0val, ← hy1val] at hblocks
  rw [← hy0val, ← hy1val] at hsplit
  have hx0k : x0.len ≤ k := by
    rw [hx0l]
    exact wordLen_le_iff.mpr (Nat.mod_lt _ (radix_pow_pos k))
  obtain ⟨t, ht, hts, htv⟩ := hmul x0 (above y k) hx0v hy1v (by simp only [above]; omega)
    (by rw [hx0l, ← hx0val]; exact hf)
  have hle : x0.val * y.val ≤ x.val * y.val := by
    rw [hx0val]
    exact Nat.mul_le_mul_right _ (Nat.mod_le _ _)
  have hlt := partial_lt CNat.val_lt CNat.val_lt hle
  have hsum : x0.val * y0.val + radix ^ k * (x0.val * (above y k).val) = x0.val * y.val := by
    rw [← hsplit]
    ring
  obtain ⟨d, hd, hdl, hdv⟩ := addAt_exact (z := z) (t := t) (i := k) hz hts (by omega)
    (by rw [hval, htv, hzl]; exact hat) hspare (by rw [hval, htv, hzl, hsum]; exact hlt)
  rw [hval, htv, hsum, hx0val] at hdv
  obtain ⟨z', hz', hzd', hzl', hzc', hzval'⟩ := natMulLoop_spec (f := x.len + 1) (i := k)
    (z := ⟨d, z.len, z.cap⟩) hmul hk hkn hx hy0v hy1v (by rw [hy0l, hy0val]) rfl
    (by rw [hy0val]; exact Nat.mod_lt _ (radix_pow_pos k)) hsplit.symm (by omega) hblocks (by omega)
    hk (Nat.dvd_refl k) (by simp only [CNat.Valid, hdl]; exact hz) hzl
    (by simp only [hdl]; exact hspare) hdv
  refine ⟨z', ?_, hzd'.trans hdl, hzl', hzc', hzval'⟩
  refine Run.bind_of_eq hx0 ?_
  refine Run.bind_of_eq (natPart_above y hkn) ?_
  refine Run.bind_of_eq ht ?_
  refine Run.bind_of_eq hd ?_
  refine Run.bind_of_eq hy0 ?_
  exact hz'

/-- A cleared storage with a product in its low words. -/
theorem value_cleared {d : List Word} {k l v : Nat} (hkl : k ≤ l) (hl : l ≤ d.length)
    (hv : value (d.take k) = v) :
    ∃ e, natClear (above ⟨d, l, l⟩ k) = .ok e ∧ (splice d k e).length = d.length ∧
      (⟨splice d k e, l, l⟩ : CNat).val = v := by
  have hc := natClear_eq (valid_above (x := ⟨d, l, l⟩) hl k)
  have htl : (d.take k).length = k := List.length_take_of_le (by omega)
  refine ⟨_, hc, ?_, ?_⟩
  · refine length_splice (by omega) ?_
    rw [List.length_append, List.length_replicate, List.length_drop]
    simp only [above, List.length_drop]
    omega
  · rw [CNat.val, CNat.words, splice, ← List.append_assoc]
    simp only [above]
    rw [List.take_left' (by rw [List.length_append, htl, List.length_replicate]; omega),
      value_append, value_replicate_zero, Nat.mul_zero, Nat.add_zero, hv]

/-- How many words the block has that `natMul` allocates for a product of factors of `m` and `n`
words. -/
def mulBlock (m n : Nat) : Nat :=
  if min m n < karatsubaThreshold then m + n
  else max (6 * karatsubaLen (min m n) karatsubaThreshold) (m + n)

theorem mulBlock_comm (m n : Nat) : mulBlock m n = mulBlock n m := by
  rw [mulBlock, mulBlock, Nat.min_comm, Nat.add_comm]

/-- Not empty, and not a single zero word. -/
def Solid (x : CNat) : Prop := x.len ≠ 0 ∧ (x.len = 1 → x.val ≠ 0)

/-- **`natMul` is exact if all carries fit.** -/
theorem natMulRec_spec :
    ∀ {fuel : Nat} {x y : CNat}, x.Valid → y.Valid →
      2 * (x.len + y.len) + (if x.len < y.len then 1 else 0) < fuel →
      MulFits fuel x.len y.len x.val y.val →
      Run.Returns (natMulRec fuel x y) (fun q => q.val = x.val * y.val ∧
        (Solid x → Solid y → Roomy q (x.len + y.len) (mulBlock x.len y.len)))
  | 0, _, _, _, _, hf, _ => absurd hf (Nat.not_lt_zero _)
  | fuel + 1, x, y, hx, hy, hf, hfits => by
    rw [MulFits] at hfits
    rw [natMulRec]
    simp only
    by_cases hlt : x.len < y.len
    · rw [if_pos hlt] at hf hfits ⊢
      obtain ⟨q, hq, hval, hroom⟩ := natMulRec_spec hy hx (by rw [if_neg (by omega)]; omega) hfits
      refine ⟨q, hq, hval.trans (Nat.mul_comm _ _), fun hsx hsy => ?_⟩
      rw [Nat.add_comm, mulBlock_comm]
      exact hroom hsy hsx
    rw [if_neg hlt] at hf hfits ⊢
    have hblock : mulBlock x.len y.len = if y.len < karatsubaThreshold then x.len + y.len
        else max (6 * karatsubaLen y.len karatsubaThreshold) (x.len + y.len) := by
      rw [mulBlock, Nat.min_eq_right (Nat.le_of_not_lt hlt)]
    split
    · next h0 =>
      refine ⟨natNew 0, rfl, ?_, fun hsx hsy => (h0.elim hsx.1 hsy.1).elim⟩
      have hxy : x.val * y.val = 0 := by
        rcases h0 with h | h
        · simp [CNat.val, CNat.words, h]
        · simp [CNat.val, CNat.words, h]
      rw [hxy]
      rfl
    next h0 =>
    split
    · next h1 =>
      have hyl : 0 < y.data.length := by have : y.len ≤ y.data.length := hy; omega
      rw [Run.read_eq_ok (List.getElem?_eq_getElem hyl), Run.ok_bind]
      obtain ⟨q, hq, -, hval, hroom, -⟩ := natMulAddWW_exact hx y.data[0] 0
      have hyv : y.val = y.data[0].toNat := by
        rw [CNat.val, CNat.words, h1, List.take_succ_eq_append_getElem hyl]
        simp
      refine ⟨q, hq, hval.trans ?_, fun hsx hsy => ?_⟩
      · rw [hyv, word_zero, Nat.add_zero]
      · rw [hblock, h1, if_pos (by decide)]
        refine hroom hsx.1 fun h => hsy.2 h1 ?_
        rw [hyv, h]
        rfl
    next h1 =>
    split
    · next h40 =>
      obtain ⟨out, hrun, hlen, hval⟩ := basicMul_spec (z := natNewLen (x.len + y.len)) hx hy
        (by simp)
      rw [natNewLen_data, List.drop_replicate, Nat.sub_self, List.replicate_zero,
        List.append_nil] at hrun
      obtain ⟨q, hq, hqv, hroom⟩ := natNorm_roomy (p := ⟨out, x.len + y.len, x.len + y.len⟩) hlen.ge
        le_rfl (val_full hlen)
      rw [hblock, if_pos h40]
      rw [hlen] at hroom
      exact ⟨q, Run.bind_of_eq hrun hq, hqv.trans hval, fun _ _ => hroom⟩
    next h40 =>
    rw [if_neg h40] at hblock
    simp only [if_neg h40] at hfits
    obtain ⟨hkara, hrest⟩ := hfits
    have hk := karatsubaLen_pos (show 0 < karatsubaThreshold by decide) (Nat.pos_of_ne_zero
      fun h => h0 (.inr h))
    have hkn := karatsubaLen_le y.len karatsubaThreshold
    generalize karatsubaLen y.len karatsubaThreshold = k at *
    have hkm : k ≤ x.len := by omega
    have hx0 := low_val hx hkm
    have hy0 := low_val hy hkn
    obtain ⟨d, hd, hdl, hdv⟩ := karatsuba_spec
      (z := natNewLen (max (6 * k) (x.len + y.len))) (valid_low hx hkm) (valid_low hy hkn) rfl
      (Nat.lt_succ_self k) (by simp only [natNewLen_len, low]; omega) (valid_natNewLen _)
      (by rw [hx0, hy0]; exact hkara)
    rw [natNewLen_data, List.length_replicate] at hdl
    rw [hx0, hy0, low_len y k] at hdv
    obtain ⟨e, he, hel, hev⟩ := value_cleared (d := d) (k := 2 * k) (l := x.len + y.len) (by omega)
      (by omega) hdv
    have hmul : MulExact (natMulRec fuel) (MulFits fuel) (x.len + y.len) := by
      intro a b ha hb hab hfits
      obtain ⟨t, ht, htv, -⟩ := natMulRec_spec ha hb (by split <;> omega) hfits
      exact ⟨t, ht, (natMulRec_yields _ _ _ t ht).1, htv⟩
    obtain ⟨z', hz', hzd', hzl', hzc', hzval'⟩ := natMulRest_spec
      (z := ⟨splice d (2 * k) e, x.len + y.len, x.len + y.len⟩) hmul hk hkn (by omega) hx hy
      (by simp only [CNat.Valid, hel]; omega) rfl
      (fun hs => by
        have := of_decide_eq_true hs
        simp only [hel]
        omega) hev hrest
    have hzd'' : z'.data.length = max (6 * k) (x.len + y.len) := hzd'.trans (hel.trans hdl)
    obtain ⟨q, hq, hqv, hroom⟩ := natNorm_roomy (p := z') (by rw [CNat.Valid]; omega)
      (by rw [hzl', hzc']) hzval'
    rw [hzl', hzd'', ← hblock] at hroom
    refine ⟨q, ?_, hqv, fun _ _ => hroom⟩
    refine Run.bind_of_eq (natPart_low x k) ?_
    refine Run.bind_of_eq (natPart_low y k) ?_
    refine Run.bind_of_eq hd ?_
    refine Run.bind_of_eq (natPart_low _ (x.len + y.len)) ?_
    refine Run.bind_of_eq (natPart_above _ (by simp only [low]; omega)) ?_
    refine Run.bind_of_eq he ?_
    refine Run.bind_of_eq hz' ?_
    exact hq

/-- `MulFits` with the fuel that `natMul` has. -/
def ProductFits (m n x y : Nat) : Prop := MulFits (2 * (m + n) + 2) m n x y

instance (m n x y : Nat) : Decidable (ProductFits m n x y) := MulFits.decidable _ m n x y

theorem natMul_exact {x y : CNat} (hx : x.Valid) (hy : y.Valid)
    (hfits : ProductFits x.len y.len x.val y.val) :
    ∃ q, natMul x y = .ok q ∧ Shaped q ∧ q.val = x.val * y.val := by
  obtain ⟨q, hq, hval, -⟩ := natMulRec_spec hx hy (by split <;> omega) hfits
  exact ⟨q, hq, (natMulRec_yields _ _ _ q hq).1, hval⟩

theorem natMul_roomy {x y : CNat} (hx : x.Valid) (hy : y.Valid) (hsx : Solid x) (hsy : Solid y)
    (hfits : ProductFits x.len y.len x.val y.val) :
    ∃ q, natMul x y = .ok q ∧ q.val = x.val * y.val ∧
      Roomy q (x.len + y.len) (mulBlock x.len y.len) := by
  obtain ⟨q, hq, hval, hroom⟩ := natMulRec_spec hx hy (by split <;> omega) hfits
  exact ⟨q, hq, hval, hroom hsx hsy⟩

end CDemo.BigInt
