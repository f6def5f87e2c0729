/-
# Conversion word by word

What the small parts of `natconv.c` do: `natBitLen` counts bits, `maxPow` returns the largest power
of the base that its loop reaches, and without a table `convertWords` writes the numeral of its
argument, with zeros in front up to the length it is given.  A number that is too long for the
places loses its highest digits.
-/
import CDemo.BigInt.Conv

namespace CDemo.BigInt

/-! ## 1. Bit lengths and powers -/

theorem size_or_shiftRight (v k : Nat) : (v ||| v >>> k).size = v.size := by
  refine le_antisymm (Nat.size_le.mpr (Nat.or_lt_two_pow (Nat.lt_size_self v) ?_))
    (Nat.size_le_size Nat.left_le_or)
  exact (Nat.shiftRight_le v k).trans_lt (Nat.lt_size_self v)

theorem size_smear (top : Word) : (smear top).toNat.size = top.toNat.size := by
  have h : ∀ (w : Word) (k : Nat), (w ||| w >>> k).toNat.size = w.toNat.size := by
    intro w k
    rw [BitVec.toNat_or, BitVec.toNat_ushiftRight, size_or_shiftRight]
  simp only [smear]
  rw [← BitVec.shiftRight_add, h, h, h, h, h, h]

/-- **`natBitLen` counts the bits of a number.** -/
theorem natBitLen_eq {x : CNat} (hx : Clean x) : natBitLen x = .ok x.val.size := by
  rw [natBitLen]
  by_cases h0 : 0 < x.len
  · rw [if_pos h0]
    have hlt : x.len - 1 < x.data.length := by have : x.len ≤ x.data.length := hx.1; omega
    have hsplit : x.val = value (x.data.take (x.len - 1)) +
        radix ^ (x.len - 1) * x.data[x.len - 1].toNat := by
      rw [← value_take_succ hlt, Nat.sub_add_cancel h0]
      rfl
    have hpow : radix ^ (x.len - 1) = 2 ^ ((x.len - 1) * 64) := by
      rw [radix, ← pow_mul, Nat.mul_comm]
    have hdiv : x.val / 2 ^ ((x.len - 1) * 64) = x.data[x.len - 1].toNat := by
      rw [← hpow, hsplit, Nat.add_mul_div_left _ _ (radix_pow_pos _),
        Nat.div_eq_of_lt (value_take_lt x.data), Nat.zero_add]
    have hge : 2 ^ ((x.len - 1) * 64) ≤ x.val := by
      rw [← hpow, ← lt_wordLen_iff, ← hx.len_eq]
      omega
    refine Run.bind_of_eq (Run.read_eq_ok (List.getElem?_eq_getElem hlt))
      (Run.bind_of_eq (len64_eq _) ?_)
    rw [size_smear, size_div_pow hge, hdiv, Nat.add_comm]
  · rw [if_neg h0, hx.len_eq_zero_iff.mp (by omega), Nat.size_zero]

/-- The single word 0 has no bits. -/
theorem natBitLen_shaped {x : CNat} (hx : Shaped x) : natBitLen x = .ok x.val.size := by
  rcases hx.2 with hn | hw
  · exact natBitLen_eq ⟨hx.1, hn⟩
  · have hlen : x.len = 1 := by rw [← CNat.length_words hx.1, hw]; rfl
    have hread : x.data[0]? = some 0 := by
      have h0 := congrArg (·[0]?) hw
      rwa [CNat.words, hlen, List.getElem?_take_of_lt (by decide)] at h0
    have hval : x.val = 0 := by rw [CNat.val, hw]; rfl
    rw [natBitLen, hlen, if_pos (by decide), hval]
    exact Run.bind_of_eq (Run.read_eq_ok hread) (Run.bind_of_eq (len64_eq _) rfl)

/-- The loop of `maxPow` stays within the powers that fit a word. -/
theorem maxPowLoop_eq {b : Word} (hb : 2 ≤ b.toNat) :
    ∀ {fuel n : Nat} {p : Word}, p.toNat = b.toNat ^ n → 64 ≤ fuel + n → 1 ≤ n →
      ∃ bb m, maxPowLoop b (BitVec.allOnes 64 / b) fuel p n = .ok (bb, m) ∧
        bb.toNat = b.toNat ^ m ∧ 1 ≤ m ∧ (2 ^ 64 - 1) / b.toNat ≤ bb.toNat
  | 0, n, p, hp, hn, _ => by
    have hlt := p.isLt
    have h2 : 2 ^ n ≤ b.toNat ^ n := Nat.pow_le_pow_left hb n
    have h64 : (2 : Nat) ^ 64 ≤ 2 ^ n := Nat.pow_le_pow_right (by decide) (by omega)
    omega
  | fuel + 1, n, p, hp, hn, hpos => by
    rw [maxPowLoop]
    by_cases hlt : p < BitVec.allOnes 64 / b
    · rw [if_pos hlt]
      refine maxPowLoop_eq hb ?_ (by omega) (by omega)
      rw [BitVec.lt_def, BitVec.toNat_udiv, BitVec.toNat_allOnes] at hlt
      have hmul : p.toNat * b.toNat < 2 ^ 64 := by
        have := Nat.mul_le_of_le_div _ _ _ hlt.le
        omega
      rw [BitVec.toNat_mul, Nat.mod_eq_of_lt hmul, hp, pow_succ]
    · rw [if_neg hlt]
      rw [BitVec.lt_def, BitVec.toNat_udiv, BitVec.toNat_allOnes, Nat.not_lt] at hlt
      exact ⟨p, n, rfl, hp, hpos, hlt⟩

/-- **`maxPow` returns a power of its base** that fits a word, and times the base would not, or
just. -/
theorem maxPow_eq {b : Word} (hb : 2 ≤ b.toNat) :
    ∃ bb n, maxPow b = .ok (bb, n) ∧ bb.toNat = b.toNat ^ n ∧ 1 ≤ n ∧
      (2 ^ 64 - 1) / b.toNat ≤ bb.toNat :=
  maxPowLoop_eq hb (pow_one _).symm (by decide) le_rfl

/-! ## 2. Digits -/

/-- The character of a digit. -/
def digitChar (d : Nat) : Char := digitChars.getD d nul

theorem length_digitChars : digitChars.length = 62 := by decide

/-- Both ways to write a digit write its character. -/
theorem digit_eq {b : Word} (hb : 2 ≤ b.toNat) (hb62 : b.toNat ≤ 62) (r : Word) :
    (if b = 10 then decimalDigit else baseDigit b) r = .ok (digitChar (r.toNat % b.toNat)) := by
  have hlt : r.toNat % b.toNat < 62 := (Nat.mod_lt _ (by omega)).trans_le hb62
  split
  · next h10 =>
    have htens : (r - r / 10 * 10).toNat = r.toNat % 10 := by
      have hr := r.isLt
      have hq : (r / 10 : Word).toNat = r.toNat / 10 := BitVec.toNat_udiv
      have hm : (r / 10 * 10 : Word).toNat = r.toNat / 10 * 10 := by
        rw [BitVec.toNat_mul, hq]
        exact Nat.mod_eq_of_lt (by change r.toNat / 10 * 10 < _; omega)
      rw [BitVec.toNat_sub_of_le (by rw [BitVec.le_def, hm]; omega), hm]
      omega
    have htable : ∀ d : Fin 10, Char.ofNat ('0'.toNat + d.val) = digitChar d.val := by decide
    rw [decimalDigit, htens, h10]
    exact congrArg Except.ok (htable ⟨r.toNat % 10, Nat.mod_lt _ (by decide)⟩)
  · rw [baseDigit, BitVec.toNat_umod]
    refine Run.read_eq_ok ?_
    rw [digitChar, List.getD_eq_getElem?_getD,
      List.getElem?_eq_getElem (by rw [length_digitChars]; exact hlt), Option.getD_some]

/-- The text of a numeral. -/
def numeralText (b n v : Nat) : List Char := (numeral b n v).map digitChar

theorem numeralText_append (b m n v : Nat) :
    numeralText b (m + n) v = numeralText b m (v / b ^ n) ++ numeralText b n v := by
  rw [numeralText, numeral_append, List.map_append]
  rfl

theorem numeralText_succ (b n v : Nat) :
    numeralText b (n + 1) v = numeralText b n (v / b) ++ [digitChar (v % b)] := by
  rw [numeralText, numeral, List.map_append]
  rfl

theorem numeralText_mod {b n m : Nat} (v : Nat) (h : n ≤ m) :
    numeralText b n (v % b ^ m) = numeralText b n v := by
  rw [numeralText, numeral_mod v h]
  rfl

/-- A short number has zeros in front. -/
theorem numeralText_pad {b n k v : Nat} (h : v < b ^ n) :
    numeralText b (k + n) v = List.replicate k '0' ++ numeralText b n v := by
  rw [numeralText, numeral_pad h, List.map_append, List.map_replicate]
  rfl

theorem write_last (l : List Char) (x c : Char) (t : List Char) :
    Run.write (l ++ [x] ++ t) l.length c = .ok (l ++ c :: t) := by
  rw [Run.write_eq_ok (by simp)]
  simp

/-- **The digits of `r`** go to the end of what is still free. -/
theorem putDigits_eq {digit : Word → Run Char} {b : Word}
    (hd : ∀ r, digit r = .ok (digitChar (r.toNat % b.toNat))) :
    ∀ (n : Nat) (l t : List Char) (r : Word),
      putDigits digit b n l.length r (l ++ t) = .ok (l.length - n,
        l.take (l.length - n) ++ (numeralText b.toNat (min n l.length) r.toNat ++ t))
  | 0, l, t, r => by simp [putDigits, numeralText, numeral]
  | n + 1, l, t, r => by
    rcases List.eq_nil_or_concat' l with rfl | ⟨l, x, rfl⟩
    · simp [putDigits, numeralText, numeral]
    · have hrest := putDigits_eq hd n l (digitChar (r.toNat % b.toNat) :: t) (r / b)
      rw [BitVec.toNat_udiv] at hrest
      rw [List.length_append, List.length_singleton, putDigits]
      refine Run.bind_of_eq (hd r) (Run.bind_of_eq (write_last l x _ t) (hrest.trans ?_))
      have htake : (l ++ [x]).take (l.length - n) = l.take (l.length - n) :=
        List.take_append_of_le_length (Nat.sub_le _ _)
      rw [Nat.add_sub_add_right, Nat.add_min_add_right, numeralText_succ, htake,
        List.append_assoc, List.singleton_append]

/-- What two rounds write is one numeral. -/
theorem leaf_numeral (b : Nat) {v n k i : Nat} (hi : i ≤ k - n) :
    numeralText b (k - n - i) (v / b ^ n) ++ numeralText b (min n k) (v % b ^ n) =
      numeralText b (k - i) v := by
  rw [numeralText_mod v (Nat.min_le_left n k)]
  rcases Nat.le_total n k with hle | hle
  · rw [Nat.min_eq_left hle, ← numeralText_append]
    congr 1
    omega
  · rw [Nat.min_eq_right hle, Nat.sub_eq_zero_of_le hle] at *
    rw [Nat.le_zero.mp hi]
    rfl

/-- Each division takes a bit at least. -/
theorem div_lt_two_pow {v d n : Nat} (hd : 2 ≤ d) (h : v < 2 ^ (n + 1)) : v / d < 2 ^ n := by
  refine (Nat.div_le_div_left hd (by decide)).trans_lt (Nat.div_lt_of_lt_mul ?_)
  rwa [← pow_succ']

theorem two_le_power {b n v : Nat} (hb : 2 ≤ b) (hn : 1 ≤ n) (hv : v = b ^ n) : 2 ≤ v := by
  rw [hv]
  exact hb.trans (Nat.le_self_pow (by omega) b)

/-- **The loop that divides by `bb`** writes the digits of `q` until there are no more, or no
more places. -/
theorem leafLoop_eq {digit : Word → Run Char} {b bb : Word} {ndigits : Nat}
    (hb : 2 ≤ b.toNat) (hd : ∀ r, digit r = .ok (digitChar (r.toNat % b.toNat)))
    (hbb : bb.toNat = b.toNat ^ ndigits) (hn : 1 ≤ ndigits) :
    ∀ (fuel : Nat) (q : CNat) (l t : List Char), q.Valid → (0 < q.len → 1 ≤ fuel) →
      q.val < 2 ^ fuel →
      ∃ i, leafLoop digit b ndigits bb (fuel + 1) q l.length (l ++ t) = .ok (i,
          l.take i ++ (numeralText b.toNat (l.length - i) q.val ++ t)) ∧
        i ≤ l.length ∧ (i = 0 ∨ q.val < b.toNat ^ (l.length - i))
  | fuel, q, l, t, hq, hone, hfuel => by
    rw [leafLoop]
    by_cases h0 : 0 < q.len
    · rw [if_pos h0]
      have hbig := two_le_power hb hn hbb
      obtain ⟨q', r, hdiv, hq', hval, hrem, -⟩ := natDivW_eq (y := bb) 0 hq h0
        (by rintro rfl; exact absurd hbig (by decide))
        (by rintro rfl; exact absurd hbig (by decide))
      cases fuel with
      | zero => exact absurd (hone h0) (by decide)
      | succ fuel =>
        have hhalf : q'.val < 2 ^ fuel := by
          rw [hval]
          exact div_lt_two_pow hbig hfuel
        have hone' : 0 < q'.len → 1 ≤ fuel := by
          intro hpos
          have hne : q'.val ≠ 0 := fun h => hpos.ne' (hq'.len_eq_zero_iff.mpr h)
          refine Nat.pos_of_ne_zero fun hf => hne ?_
          rw [hf, pow_zero] at hhalf
          omega
        have hl : (l.take (l.length - ndigits)).length = l.length - ndigits :=
          List.length_take.trans (Nat.min_eq_left (Nat.sub_le _ _))
        obtain ⟨i, hi, hile, hend⟩ := leafLoop_eq hb hd hbb hn fuel q' (l.take (l.length - ndigits))
          (numeralText b.toNat (min ndigits l.length) r.toNat ++ t) hq'.1 hone' hhalf
        rw [hl] at hi hile hend
        have hput := putDigits_eq hd ndigits l t r
        refine ⟨i, Run.bind_of_eq hdiv (Run.bind_of_eq hput (hi.trans ?_)), by omega, ?_⟩
        · rw [List.take_take, Nat.min_eq_left hile, ← List.append_assoc (numeralText ..),
            hval, hrem, hbb, leaf_numeral b.toNat hile]
        · rcases Nat.eq_zero_or_pos i with h0 | hpos
          · exact .inl h0
          · refine hend.imp_right fun hlt => ?_
            rw [hval, hbb, Nat.div_lt_iff_lt_mul (Nat.pow_pos (by omega)), ← pow_add,
              show l.length - ndigits - i + ndigits = l.length - i by omega] at hlt
            exact hlt
    · rw [if_neg h0]
      have hzero : q.val = 0 := by
        rw [CNat.val, CNat.words, show q.len = 0 by omega, List.take_zero, value_nil]
      refine ⟨l.length, ?_, le_rfl, .inr ?_⟩
      · simp [numeralText, numeral]
      · rw [hzero]
        exact Nat.pow_pos (by omega)

theorem putZeros_eq : ∀ (l t : List Char),
    putZeros l.length (l ++ t) = .ok (List.replicate l.length '0' ++ t) := by
  intro l
  induction l using List.reverseRecOn with
  | nil => intro t; rfl
  | append_singleton l x ih =>
    intro t
    rw [List.length_append, List.length_singleton, putZeros]
    refine Run.bind_of_eq (write_last l x '0' t) ((ih ('0' :: t)).trans ?_)
    rw [List.replicate_succ', List.append_assoc, List.singleton_append]

section

variable {b bb : Word} {ndigits : Nat}

/-- **Without a table `convertWords` writes the numeral**, whatever stood there. -/
theorem convertLeaf_eq (hb : 2 ≤ b.toNat) (hb62 : b.toNat ≤ 62)
    (hbb : bb.toNat = b.toNat ^ ndigits) (hn : 1 ≤ ndigits) {q : CNat} (hq : q.Valid)
    (l t : List Char) :
    convertLeaf b ndigits bb q (l ++ t) l.length =
      .ok (numeralText b.toNat l.length q.val ++ t) := by
  have hfuel : q.val < 2 ^ (64 * q.len) := by
    rw [pow_mul]
    exact CNat.val_lt
  obtain ⟨i, hi, hile, hend⟩ := leafLoop_eq hb (digit_eq hb hb62) hbb hn _ q l t hq (by omega) hfuel
  have hl : (l.take i).length = i := List.length_take.trans (Nat.min_eq_left hile)
  have hzeros := putZeros_eq (l.take i) (numeralText b.toNat (l.length - i) q.val ++ t)
  rw [hl] at hzeros
  refine Run.bind_of_eq hi (hzeros.trans ?_)
  rw [← List.append_assoc]
  rcases hend with rfl | hlt
  · rw [List.replicate_zero, List.nil_append, Nat.sub_zero]
  · rw [← numeralText_pad hlt, Nat.add_sub_cancel' hile]

end

end CDemo.BigInt
