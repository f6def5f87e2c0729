/-
# Powers of two

For a base `2^shift` the digits of a number are its bits, `shift` at a time.  `natI2a` walks up the
words and keeps in `w` the bits it has not written yet.  Where a digit lies in two words it takes
the missing bits from the next one.

`Pending` is the invariant.  It says what the text will be once the bits in `w` and in the words
still to come are written: the bits in `w` with the words above them are the number divided by the
power of the base written so far.  A digit is written only while that is not zero, so that none is
a leading zero, and since there is a place for each digit the place never goes below the first one.

At the end of the module this is compared with the text that comes out when one divides.
-/
import CDemo.BigInt.ConvTable

namespace CDemo.BigInt

/-! ## 1. What is still to be written -/

/-- The digits of `v`, without zeros in front. -/
def digitsText (b v : Nat) : List Char := (Nat.digits b v).reverse.map digitChar

/-- The place and the text when the digits of `v` are written at the end of `l`, before `t`. -/
def written (b v : Nat) (l t : List Char) : Nat × List Char :=
  (l.length - (Nat.digits b v).length,
    l.take (l.length - (Nat.digits b v).length) ++ (digitsText b v ++ t))

theorem written_zero (b : Nat) (l t : List Char) : written b 0 l t = (l.length, l ++ t) := by
  simp [written, digitsText]

/-- The last digit first. -/
theorem written_step {b v : Nat} (hb : 1 < b) (hv : v ≠ 0) (l : List Char) (c : Char)
    (t : List Char) : written b v (l ++ [c]) t = written b (v / b) l (digitChar (v % b) :: t) := by
  have hd := Nat.digits_def' hb (Nat.pos_of_ne_zero hv)
  have htake : (l ++ [c]).take (l.length - (Nat.digits b (v / b)).length) =
      l.take (l.length - (Nat.digits b (v / b)).length) :=
    List.take_append_of_le_length (Nat.sub_le _ _)
  rw [written, written, digitsText, digitsText, hd, List.length_append, List.length_singleton,
    List.length_cons, Nat.add_sub_add_right, htake, List.reverse_cons, List.map_append,
    List.append_assoc]
  rfl

/-- **The invariant**: with `v` in the words to come, the digits still to be written have their
places, and they make the text `out`. -/
structure Pending (b v : Nat) (p : BitWriter) (out : Nat × List Char) : Prop where
  low : p.w.toNat < 2 ^ p.nbits
  bits : p.nbits ≤ 64
  room : ∃ l t, p.i = l.length ∧ p.s = l ++ t ∧
    (Nat.digits b (p.w.toNat + 2 ^ p.nbits * v)).length ≤ l.length ∧
    written b (p.w.toNat + 2 ^ p.nbits * v) l t = out

theorem Pending.of_rest {b v r n : Nat} {w : Word} {l t : List Char} {out : Nat × List Char}
    (hlow : w.toNat < 2 ^ n) (hbits : n ≤ 64) (hr : w.toNat + 2 ^ n * v = r)
    (hroom : (Nat.digits b r).length ≤ l.length) (hout : written b r l t = out) :
    Pending b v ⟨l.length, w, n, l ++ t⟩ out := by
  subst hr
  exact ⟨hlow, hbits, l, t, rfl, rfl, hroom, hout⟩

section

variable {shift : Nat}

/-- `mask`. -/
def lowMask (shift : Nat) : Word := (1#64 <<< shift) - 1

theorem toNat_and_lowMask (h : shift < 64) (w : Word) :
    (w &&& lowMask shift).toNat = w.toNat % 2 ^ shift := by
  have hone : (1#64 <<< shift).toNat = 2 ^ shift := by
    rw [BitVec.toNat_shiftLeft, BitVec.toNat_ofNat, Nat.one_mod_eq_one.mpr (by decide),
      Nat.one_shiftLeft, Nat.mod_eq_of_lt (Nat.pow_lt_pow_right (by decide) h)]
  have hle : (1 : Word) ≤ 1#64 <<< shift := by
    rw [BitVec.le_def, hone]
    exact Nat.one_le_two_pow
  rw [BitVec.toNat_and, lowMask, BitVec.toNat_sub_of_le hle, hone, word_one,
    Nat.and_two_pow_sub_one_eq_mod]

/-- One digit: it is written in the last free place. -/
theorem putMasked_eq (h5 : shift ≤ 5) {v : Nat} (hv : v ≠ 0) {w : Word}
    (hw : w.toNat % 2 ^ shift = v % 2 ^ shift) (h1 : 1 ≤ shift) {l t : List Char}
    (hroom : (Nat.digits (2 ^ shift) v).length ≤ l.length) :
    ∃ l', putMasked (lowMask shift) w (l ++ t) l.length =
        .ok (l'.length, l' ++ digitChar (v % 2 ^ shift) :: t) ∧
      (Nat.digits (2 ^ shift) (v / 2 ^ shift)).length ≤ l'.length ∧
      written (2 ^ shift) (v / 2 ^ shift) l' (digitChar (v % 2 ^ shift) :: t) =
        written (2 ^ shift) v l t := by
  have hb : 1 < 2 ^ shift := Nat.one_lt_two_pow (by omega)
  have hb32 : 2 ^ shift ≤ 2 ^ 5 := Nat.pow_le_pow_right (by decide) h5
  rw [Nat.digits_def' hb (Nat.pos_of_ne_zero hv), List.length_cons] at hroom
  rcases List.eq_nil_or_concat' l with rfl | ⟨l', c, rfl⟩
  · exact absurd hroom (by simp)
  · rw [List.length_append, List.length_singleton] at hroom ⊢
    have hlt : v % 2 ^ shift < digitChars.length := by
      rw [length_digitChars]
      have := Nat.mod_lt v (show 0 < 2 ^ shift by omega)
      omega
    have hread : Run.read digitChars (w &&& lowMask shift).toNat =
        .ok (digitChar (v % 2 ^ shift)) := by
      rw [toNat_and_lowMask (by omega), hw]
      refine Run.read_eq_ok ?_
      rw [digitChar, List.getD_eq_getElem?_getD, List.getElem?_eq_getElem hlt, Option.getD_some]
    refine ⟨l', ?_, by omega, (written_step hb hv l' c t).symm⟩
    exact Run.bind_of_eq hread (Run.bind_of_eq (write_last l' c _ t) rfl)

/-- A digit off the bits in `w`. -/
theorem digit_of_low {w n v : Nat} (h : shift ≤ n) :
    (w + 2 ^ n * v) % 2 ^ shift = w % 2 ^ shift ∧
      (w + 2 ^ n * v) / 2 ^ shift = w / 2 ^ shift + 2 ^ (n - shift) * v := by
  have hpow : 2 ^ n * v = 2 ^ shift * (2 ^ (n - shift) * v) := by
    rw [← Nat.mul_assoc, ← pow_add, Nat.add_sub_cancel' h]
  rw [hpow]
  exact ⟨Nat.add_mul_mod_self_left _ _ _, Nat.add_mul_div_left _ _ (by positivity)⟩

/-- A digit that takes `shift - n` bits of the next word. -/
theorem digit_of_both {w n x : Nat} (hn : n ≤ shift) (hw : w < 2 ^ n) :
    (w + 2 ^ n * x) / 2 ^ shift = x / 2 ^ (shift - n) := by
  rw [← Nat.add_sub_cancel' hn, pow_add, ← Nat.div_div_eq_div_mul,
    Nat.add_mul_div_left _ _ (by positivity), Nat.div_eq_of_lt hw, Nat.zero_add,
    Nat.add_sub_cancel_left]

/-- **The digits that lie in `w`.** -/
theorem wholeDigits_eq (h1 : 1 ≤ shift) (h5 : shift ≤ 5) {v : Nat} (hv : v ≠ 0)
    {out : Nat × List Char} :
    ∀ (fuel : Nat) (p : BitWriter), p.nbits < fuel → Pending (2 ^ shift) v p out →
      ∃ p', wholeDigits shift (lowMask shift) fuel p = .ok p' ∧ Pending (2 ^ shift) v p' out ∧
        p'.nbits < shift
  | 0, p, hf, _ => absurd hf (by omega)
  | fuel + 1, p, hf, ⟨hlow, hbits, l, t, hi, hs, hroom, hout⟩ => by
    rw [wholeDigits]
    by_cases hle : shift ≤ p.nbits
    · rw [if_pos hle, hs, hi]
      obtain ⟨hmod, hdiv⟩ := digit_of_low (w := p.w.toNat) (v := v) hle
      have hne : p.w.toNat + 2 ^ p.nbits * v ≠ 0 := by
        have := Nat.mul_pos (show 0 < 2 ^ p.nbits by positivity) (Nat.pos_of_ne_zero hv)
        omega
      obtain ⟨l', hput, hroom', hwritten⟩ := putMasked_eq h5 hne hmod.symm h1 (t := t) hroom
      rw [hdiv] at hroom' hwritten
      have hw := toNat_shr p.w shift
      have hlow' : (p.w >>> shift).toNat < 2 ^ (p.nbits - shift) := by
        rw [hw]
        refine Nat.div_lt_of_lt_mul ?_
        rwa [← pow_add, Nat.add_sub_cancel' hle]
      have hnext := Pending.of_rest hlow' ((Nat.sub_le _ _).trans hbits) (by rw [hw]) hroom'
        (hwritten.trans hout)
      obtain ⟨p', hp', hrest⟩ := wholeDigits_eq h1 h5 hv fuel _ (by dsimp only; omega) hnext
      exact ⟨p', Run.bind_of_eq hput hp', hrest⟩
    · rw [if_neg hle]
      exact ⟨p, rfl, ⟨hlow, hbits, l, t, hi, hs, hroom, hout⟩, by omega⟩

/-- The low bits of `w` with the bits of the next word above them. -/
theorem toNat_or_shiftLeft_mod {n : Nat} (hn : n ≤ shift) (h64 : shift ≤ 64) {w : Word}
    (hw : w.toNat < 2 ^ n) (x : Word) :
    (w ||| x <<< n).toNat % 2 ^ shift = (w.toNat + 2 ^ n * x.toNat) % 2 ^ shift := by
  have hdvd : (2 : Nat) ^ shift ∣ 2 ^ 64 := Nat.pow_dvd_pow 2 h64
  have hpow : (2 : Nat) ^ shift = 2 ^ n * 2 ^ (shift - n) := by
    rw [← pow_add, Nat.add_sub_cancel' hn]
  have hx : (x <<< n).toNat % 2 ^ shift = (x.toNat % 2 ^ (shift - n)) <<< n := by
    rw [BitVec.toNat_shiftLeft, Nat.mod_mod_of_dvd _ hdvd, Nat.shiftLeft_eq, Nat.shiftLeft_eq, hpow,
      Nat.mul_comm (2 ^ n), Nat.mul_mod_mul_right]
  have hlow : w.toNat % 2 ^ shift = w.toNat :=
    Nat.mod_eq_of_lt (hw.trans_le (Nat.pow_le_pow_right (by decide) hn))
  rw [BitVec.toNat_or, Nat.or_mod_two_pow, hx, hlow, Nat.or_comm,
    ← Nat.shiftLeft_add_eq_or_of_lt hw, Nat.shiftLeft_eq]
  have hrest := Nat.mod_add_div x.toNat (2 ^ (shift - n))
  have hlt : x.toNat % 2 ^ (shift - n) < 2 ^ (shift - n) := Nat.mod_lt _ (by positivity)
  have hsmall : w.toNat + 2 ^ n * (x.toNat % 2 ^ (shift - n)) < 2 ^ shift := by
    calc w.toNat + 2 ^ n * (x.toNat % 2 ^ (shift - n))
        < 2 ^ n + 2 ^ n * (x.toNat % 2 ^ (shift - n)) := Nat.add_lt_add_right hw _
      _ = 2 ^ n * (x.toNat % 2 ^ (shift - n) + 1) := by ring
      _ ≤ 2 ^ shift := by rw [hpow]; exact Nat.mul_le_mul_left _ hlt
  calc x.toNat % 2 ^ (shift - n) * 2 ^ n + w.toNat
      = (w.toNat + 2 ^ n * (x.toNat % 2 ^ (shift - n)) +
          2 ^ shift * (x.toNat / 2 ^ (shift - n))) % 2 ^ shift := by
        rw [Nat.add_mul_mod_self_left, Nat.mod_eq_of_lt hsmall]
        ring
    _ = (w.toNat + 2 ^ n * x.toNat) % 2 ^ shift := by
        rw [hpow, Nat.add_assoc, Nat.mul_assoc, ← Nat.mul_add, hrest]

/-- **The next word**, and the digit that lies in two words if there is one. -/
theorem nextWord_eq (h1 : 1 ≤ shift) (h5 : shift ≤ 5) {p : BitWriter} {xk : Word} {v : Nat}
    {out : Nat × List Char} (hn : p.nbits < shift) (hv : xk.toNat + radix * v ≠ 0)
    (h : Pending (2 ^ shift) (xk.toNat + radix * v) p out) :
    ∃ p', nextWord shift (lowMask shift) xk p = .ok p' ∧ Pending (2 ^ shift) v p' out := by
  obtain ⟨hlow, -, l, t, hi, hs, hroom, hout⟩ := h
  rw [nextWord]
  by_cases h0 : p.nbits = 0
  · rw [if_pos h0]
    rw [h0, pow_zero] at hlow
    have hw : p.w.toNat = 0 := by omega
    rw [hw, h0, pow_zero, Nat.one_mul, Nat.zero_add] at hroom hout
    refine ⟨_, rfl, ?_⟩
    rw [hi, hs]
    exact Pending.of_rest xk.isLt le_rfl rfl hroom hout
  · rw [if_neg h0, hi, hs]
    have hne : p.w.toNat + 2 ^ p.nbits * (xk.toNat + radix * v) ≠ 0 := by
      have := Nat.mul_pos (show 0 < 2 ^ p.nbits by positivity) (Nat.pos_of_ne_zero hv)
      omega
    have hmod : (p.w ||| xk <<< p.nbits).toNat % 2 ^ shift =
        (p.w.toNat + 2 ^ p.nbits * (xk.toNat + radix * v)) % 2 ^ shift := by
      have hword : p.w.toNat + 2 ^ p.nbits * (xk.toNat + radix * v) =
          p.w.toNat + 2 ^ p.nbits * xk.toNat + 2 ^ (p.nbits + 64) * v := by
        rw [radix, pow_add]
        ring
      rw [toNat_or_shiftLeft_mod hn.le (by omega) hlow, hword]
      exact (digit_of_low (by omega)).1.symm
    obtain ⟨l', hput, hroom', hwritten⟩ := putMasked_eq h5 hne hmod h1 (t := t) hroom
    have hw := toNat_shr xk (shift - p.nbits)
    have hrest : (xk.toNat + radix * v) / 2 ^ (shift - p.nbits) =
        xk.toNat / 2 ^ (shift - p.nbits) + 2 ^ (64 - (shift - p.nbits)) * v :=
      (digit_of_low (by omega)).2
    rw [digit_of_both hn.le hlow] at hroom' hwritten
    refine ⟨_, Run.bind_of_eq hput rfl, Pending.of_rest ?_ (Nat.sub_le _ _) (by rw [hw, hrest])
      hroom' (hwritten.trans hout)⟩
    rw [hw]
    refine Nat.div_lt_of_lt_mul ?_
    rw [← pow_add, Nat.add_sub_cancel' (by omega)]
    exact xk.isLt

theorem normal_tail {w : Word} {ws : List Word} (h : Normal (w :: ws)) : Normal ws := by
  intro hne
  have := h (List.cons_ne_nil w ws)
  rwa [List.getLast_cons hne] at this

/-- A list of words without a zero word at the top has a value. -/
theorem value_ne_zero {w : Word} {ws : List Word} (h : Normal (w :: ws)) :
    w.toNat + radix * value ws ≠ 0 := by
  intro h0
  exact absurd (h.eq_nil_iff.mpr h0) (by simp)

/-- **The loop over the words**: what is left are the bits in `w`. -/
theorem wordsLoop_eq (h1 : 1 ≤ shift) (h5 : shift ≤ 5) {out : Nat × List Char} :
    ∀ (data : List Word) (n : Nat) (p : BitWriter), n ≤ data.length → Normal (data.take n) →
      Pending (2 ^ shift) (value (data.take n)) p out →
      ∃ p', wordsLoop shift (lowMask shift) data n p = .ok p' ∧ Pending (2 ^ shift) 0 p' out
  | data, 0, p, _, _, h => by
    rw [wordsLoop]
    exact ⟨p, rfl, h⟩
  | [], n + 1, p, hn, _, _ => absurd hn (by simp)
  | xk :: data, n + 1, p, hn, hnorm, h => by
    have hv := value_ne_zero hnorm
    obtain ⟨p1, hp1, hpend1, hbits⟩ :=
      wholeDigits_eq h1 h5 hv (p.nbits + 1) p (Nat.lt_succ_self _) h
    obtain ⟨p2, hp2, hpend2⟩ := nextWord_eq h1 h5 hbits hv hpend1
    obtain ⟨p', hp', hrest⟩ := wordsLoop_eq h1 h5 data n p2 (Nat.le_of_succ_le_succ hn)
      (normal_tail hnorm) hpend2
    rw [wordsLoop]
    exact ⟨p', Run.bind_of_eq hp1 (Run.bind_of_eq hp2 hp'), hrest⟩

/-- **What is left of the top word.** -/
theorem topDigits_eq (h1 : 1 ≤ shift) (h5 : shift ≤ 5) :
    ∀ (fuel : Nat) (w : Word) (l t : List Char), w.toNat < 2 ^ fuel →
      (Nat.digits (2 ^ shift) w.toNat).length ≤ l.length →
      topDigits shift (lowMask shift) (fuel + 1) l.length w (l ++ t) =
        .ok (written (2 ^ shift) w.toNat l t)
  | fuel, w, l, t, hf, hroom => by
    rw [topDigits]
    by_cases h0 : w = 0
    · rw [if_neg (not_not.mpr h0), h0, word_zero, written_zero]
    · have hne : w.toNat ≠ 0 := fun h => h0 (BitVec.eq_of_toNat_eq h)
      rw [if_pos h0]
      obtain ⟨l', hput, hroom', hwritten⟩ := putMasked_eq h5 hne rfl h1 (t := t) hroom
      have hw := toNat_shr w shift
      cases fuel with
      | zero => omega
      | succ fuel =>
        have hhalf : (w >>> shift).toNat < 2 ^ fuel := by
          have htwo : 2 ≤ 2 ^ shift := Nat.le_self_pow (by omega) 2
          rw [hw]
          exact div_lt_two_pow htwo hf
        have hrest := topDigits_eq h1 h5 fuel (w >>> shift) l'
          (digitChar (w.toNat % 2 ^ shift) :: t)
          hhalf (by rw [hw]; exact hroom')
        rw [hw, hwritten] at hrest
        exact Run.bind_of_eq hput hrest


/-- The bases that are powers of two. -/
theorem power_of_two (h1 : 1 ≤ shift) (h5 : shift ≤ 5) :
    trailingZeros64 (BitVec.ofNat 64 (2 ^ shift)) = .ok shift ∧
      BitVec.ofNat 64 (2 ^ shift) = BitVec.ofNat 64 (2 ^ shift) &&& -BitVec.ofNat 64 (2 ^ shift) ∧
      (BitVec.ofNat 64 (2 ^ shift)).toNat = 2 ^ shift ∧ 2 ≤ 2 ^ shift ∧ 2 ^ shift ≤ 62 := by
  have hall : ∀ k : Fin 5, trailingZeros64 (BitVec.ofNat 64 (2 ^ (k.val + 1))) = .ok (k.val + 1) ∧
      BitVec.ofNat 64 (2 ^ (k.val + 1)) =
        BitVec.ofNat 64 (2 ^ (k.val + 1)) &&& -BitVec.ofNat 64 (2 ^ (k.val + 1)) ∧
      (BitVec.ofNat 64 (2 ^ (k.val + 1))).toNat = 2 ^ (k.val + 1) ∧ 2 ≤ 2 ^ (k.val + 1) ∧
      2 ^ (k.val + 1) ≤ 62 := by
    decide
  have h := hall ⟨shift - 1, by omega⟩
  dsimp only at h
  rw [Nat.sub_add_cancel h1] at h
  exact h

/-- **The path for powers of two** writes the digits of the number, in their places. -/
theorem shiftPath_eq (h1 : 1 ≤ shift) (h5 : shift ≤ 5) {x : CNat} (hx : Shaped x) (hlen : 0 < x.len)
    {l t : List Char} (hroom : (Nat.digits (2 ^ shift) x.val).length ≤ l.length) :
    shiftPath x (BitVec.ofNat 64 (2 ^ shift)) l.length (l ++ t) =
      .ok (written (2 ^ shift) x.val l t) := by
  obtain ⟨hshift, -⟩ := power_of_two h1 h5
  have hvalid : x.len ≤ x.data.length := hx.1
  obtain ⟨w, data, hdata⟩ : ∃ w data, x.data = w :: data :=
    List.exists_cons_of_length_pos (hlen.trans_le hvalid)
  have hwords : x.words = w :: data.take (x.len - 1) := by
    rw [CNat.words, hdata]
    obtain ⟨n, hn⟩ := Nat.exists_eq_succ_of_ne_zero hlen.ne'
    rw [hn]
    rfl
  have hnorm : Normal (data.take (x.len - 1)) := by
    rcases hx.2 with hn | hz
    · exact normal_tail (hwords ▸ hn)
    · rw [hwords] at hz
      rw [(List.cons.inj hz).2]
      exact normal_nil
  have hval : x.val = w.toNat + 2 ^ 64 * value (data.take (x.len - 1)) := by
    rw [CNat.val, hwords]
    rfl
  have hdl : x.len - 1 ≤ data.length := by
    rw [hdata, List.length_cons] at hvalid
    omega
  obtain ⟨p, hp, hlow, hbits, l', t', hi, hs, hroom', hout⟩ := wordsLoop_eq h1 h5 data (x.len - 1)
    ⟨l.length, w, 64, l ++ t⟩ hdl hnorm
    (Pending.of_rest w.isLt le_rfl hval.symm hroom rfl)
  rw [Nat.mul_zero, Nat.add_zero] at hroom' hout
  have htop := topDigits_eq h1 h5 64 p.w l' t' p.w.isLt hroom'
  rw [hout, ← hi, ← hs] at htop
  refine Run.bind_of_eq hshift (Run.bind_of_eq (a := w) ?_ ?_)
  · rw [hdata]
    rfl
  · rw [hdata]
    exact Run.bind_of_eq hp htop

end

/-! ## 2. Dividing -/

/-- The only digit that is written as a zero is 0. -/
theorem digitChar_ne_zero {d : Nat} (hd : d < 62) (h0 : d ≠ 0) : digitChar d ≠ '0' := by
  have hall : ∀ d : Fin 62, d.val ≠ 0 → digitChar d.val ≠ '0' := by decide +kernel
  exact hall ⟨d, hd⟩ h0

theorem skipZeros_eq (c : Char) (hc : c ≠ '0') (t : List Char) :
    ∀ (n i : Nat), skipZeros (List.replicate n '0' ++ c :: t) i = .ok (i + n)
  | 0, i => if_neg hc
  | n + 1, i => by
    rw [List.replicate_succ, List.cons_append, skipZeros, if_pos rfl, skipZeros_eq c hc t n (i + 1)]
    congr 1
    omega

/-- The digits of a number start with one that is not zero, if there is any. -/
theorem digitsText_cons {b : Nat} (hb : 1 < b) (hb62 : b ≤ 62) (v : Nat) :
    ∃ c rest, digitsText b v ++ [nul] = c :: rest ∧ c ≠ '0' := by
  rcases Nat.eq_zero_or_pos v with rfl | hpos
  · exact ⟨nul, [], by simp [digitsText], by decide⟩
  have hne : Nat.digits b v ≠ [] := Nat.digits_ne_nil_iff_ne_zero.mpr hpos.ne'
  obtain ⟨d, ds, hd⟩ : ∃ d ds, (Nat.digits b v).reverse = d :: ds :=
    List.exists_cons_of_ne_nil (by simpa using hne)
  have hlast : (Nat.digits b v).getLast hne = d := by
    rw [← List.head_reverse (by simpa using hne)]
    simp [hd]
  refine ⟨digitChar d, ds.map digitChar ++ [nul], by rw [digitsText, hd]; rfl, ?_⟩
  refine digitChar_ne_zero ?_ ?_
  · rw [← hlast]
    exact (Nat.digits_lt_base hb (List.getLast_mem hne)).trans_le hb62
  · rw [← hlast]
    exact Nat.getLast_digit_ne_zero b hpos.ne'

theorem length_digitsText (b v : Nat) : (digitsText b v).length = (Nat.digits b v).length := by
  rw [digitsText, List.length_map, List.length_reverse]

/-- **The path for the other bases** skips the zeros in front of the digits. -/
theorem dividePath_eq {a : Arith} {x : CNat} {b bb : Word} {ndigits : Nat}
    {o : Option (List CDivisor)} (hb : 2 ≤ b.toNat) (hb62 : b.toNat ≤ 62) {l : List Char}
    (hroom : (Nat.digits b.toNat x.val).length ≤ l.length)
    (hrun : convertWords a x (l ++ [nul]) l.length b ndigits bb o (o.elim 0 List.length) =
      .ok (numeralText b.toNat l.length x.val ++ [nul])) :
    dividePath a x b ndigits bb o l.length (l ++ [nul]) =
      .ok (l.length - (Nat.digits b.toNat x.val).length,
        List.replicate (l.length - (Nat.digits b.toNat x.val).length) '0' ++
          (digitsText b.toNat x.val ++ [nul])) := by
  obtain ⟨c, rest, htext, hc⟩ := digitsText_cons (by omega) hb62 x.val
  rw [numeralText_digits (by omega) hroom, paddedDigits, List.append_assoc] at hrun
  refine Run.bind_of_eq hrun
    (Run.bind_of_eq (a := l.length - (Nat.digits b.toNat x.val).length) ?_ rfl)
  change skipZeros (_ ++ (digitsText b.toNat x.val ++ [nul])) 0 = _
  rw [htext, skipZeros_eq c hc, Nat.zero_add]

/-! ## 3. The sign -/

/-- What is moved to the front is the string that comes back. -/
theorem move_front {l txt : List Char} {t : List Char} (ht : t ≠ []) (htxt : nul ∉ txt) :
    ∃ buf, Run.write (((l ++ (txt ++ t)).take (l.length + txt.length)).drop l.length ++
        (l ++ (txt ++ t)).drop txt.length) txt.length nul = .ok buf ∧ cString buf = txt := by
  have htake : ((l ++ (txt ++ t)).take (l.length + txt.length)).drop l.length = txt := by
    rw [← List.append_assoc, List.take_left' (by simp), List.drop_left]
  obtain ⟨c, rest, hrest⟩ : ∃ c rest, (l ++ (txt ++ t)).drop txt.length = c :: rest := by
    refine List.exists_cons_of_length_pos ?_
    have := List.length_pos_iff.mpr ht
    simp only [List.length_drop, List.length_append]
    omega
  refine ⟨txt ++ nul :: rest, ?_, ?_⟩
  · rw [htake, hrest, Run.write_eq_ok (by simp)]
    simp
  · rw [cString, List.takeWhile_append_of_pos]
    · simp
    · intro c hc
      simpa using fun h : c = nul => htxt (h ▸ hc)

/-- **The end of `natI2a`**: the sign in front of the digits, and both to the front. -/
theorem signAndMove_eq {neg : Bool} {l txt t : List Char} (hl : neg = true → l ≠ []) (ht : t ≠ [])
    (htxt : nul ∉ txt) :
    ∃ buf, signAndMove neg (l.length + txt.length) (l.length, l ++ (txt ++ t)) = .ok buf ∧
      cString buf = (if neg then ['-'] else []) ++ txt := by
  cases neg with
  | false =>
    obtain ⟨buf, hbuf, hstr⟩ := move_front (l := l) ht htxt
    refine ⟨buf, Run.bind_of_eq rfl ?_, hstr⟩
    dsimp only
    rw [if_neg (by simp), Nat.add_sub_cancel_left]
    exact hbuf
  | true =>
    rcases List.eq_nil_or_concat' l with rfl | ⟨l, c, rfl⟩
    · exact absurd rfl (hl rfl)
    · have hminus : nul ∉ '-' :: txt := by
        rw [List.mem_cons, not_or]
        exact ⟨by decide, htxt⟩
      obtain ⟨buf, hbuf, hstr⟩ := move_front (l := l) ht hminus
      have hlen : (l ++ [c]).length + txt.length = l.length + ('-' :: txt).length := by
        rw [List.length_append, List.length_singleton, List.length_cons]
        omega
      rw [hlen, List.length_append, List.length_singleton]
      refine ⟨buf, Run.bind_of_eq (a := (l.length, l ++ ('-' :: txt ++ t))) ?_ ?_, hstr⟩
      · exact Run.bind_of_eq (write_last l c '-' (txt ++ t)) rfl
      · dsimp only
        rw [if_neg (by simp), Nat.add_sub_cancel_left]
        exact hbuf

/-! ## 4. The string -/

/-- Only digits are written. -/
theorem notMem_digitsText {b : Nat} (hb : 1 < b) (hb62 : b ≤ 62) {c : Char} (hc : c ∉ digitChars)
    (v : Nat) : c ∉ digitsText b v := by
  intro h
  obtain ⟨d, hd, rfl⟩ := List.mem_map.mp h
  have hlt : d < digitChars.length := by
    rw [length_digitChars]
    exact (Nat.digits_lt_base hb (List.mem_reverse.mp hd)).trans_le hb62
  refine hc ?_
  rw [digitChar, List.getD_eq_getElem?_getD, List.getElem?_eq_getElem hlt, Option.getD_some]
  exact List.getElem_mem hlt

/-- The numeral of a number with its sign. -/
def signedText (b : Nat) (neg : Bool) (v : Nat) : List Char :=
  (if neg then ['-'] else []) ++ digitsText b v

/-- Once the digits are in their places the string is the numeral, whatever is in front of
them. -/
theorem signAndMove_digits {b v est : Nat} (hb : 1 < b) (hb62 : b ≤ 62) (neg : Bool)
    (hest : (Nat.digits b v).length ≤ est) {l t : List Char} (ht : t ≠ [])
    (hl : l.length = est + (if neg then 1 else 0) - (Nat.digits b v).length) :
    Run.Returns (signAndMove neg (est + if neg then 1 else 0)
        (est + (if neg then 1 else 0) - (Nat.digits b v).length, l ++ (digitsText b v ++ t)))
      (fun buf => cString buf = signedText b neg v) := by
  have hsum : l.length + (digitsText b v).length = est + if neg then 1 else 0 := by
    rw [length_digitsText, hl]
    omega
  rw [← hl, ← hsum]
  refine signAndMove_eq (fun hneg hnil => ?_) ht (notMem_digitsText hb hb62 (by decide) v)
  rw [hneg, if_pos rfl, hnil, List.length_nil] at hl
  omega

/-- The text that comes out by dividing, without a table. -/
def plainText (a : Arith) (slen : Nat) (x : CNat) (neg : Bool) (b : Word) : Run (List Char) := do
  let (bb, ndigits) ← maxPow b
  let p ← dividePath a x b ndigits bb none slen (List.replicate (slen + 1) nul)
  signAndMove neg slen p

/-- A number has at most as many digits as `natI2a` estimates. -/
theorem digits_le_estimate {shift : Nat} (h1 : 1 ≤ shift) (v : Nat) :
    (Nat.digits (2 ^ shift) v).length ≤ v.size / shift + 1 := by
  have hb : 1 < 2 ^ shift := Nat.one_lt_two_pow (by omega)
  rw [Nat.digits_length_le_iff hb, ← pow_mul]
  refine (Nat.lt_size_self v).trans_le (Nat.pow_le_pow_right (by decide) ?_)
  exact (Nat.lt_mul_div_succ v.size (by omega)).le

section

variable {a : Arith} {x : CNat}

/-- The buffer before anything is written. -/
theorem blank_buffer (n : Nat) :
    List.replicate (n + 1) nul = List.replicate n nul ++ [nul] := List.replicate_succ'

/-- **`natI2a` for a power of two**, with any estimate that is not too small. -/
theorem natI2a_shift (a : Arith) {est : Nat → Nat → Nat} (hx : Shaped x) (hlen : 0 < x.len)
    (neg : Bool) {shift : Nat} (h1 : 1 ≤ shift) (h5 : shift ≤ 5)
    (hest : (Nat.digits (2 ^ shift) x.val).length ≤ est x.val.size (2 ^ shift)) :
    Run.Returns (natI2a a est x neg (2 ^ shift))
      (fun buf => cString buf = signedText (2 ^ shift) neg x.val) := by
  obtain ⟨-, hpow, -, hb2, hb62⟩ := power_of_two h1 h5
  generalize hs : est x.val.size (2 ^ shift) = e at hest
  have hroom : (Nat.digits (2 ^ shift) x.val).length ≤ e + if neg then 1 else 0 :=
    hest.trans (Nat.le_add_right _ _)
  have hpath := shiftPath_eq h1 h5 hx hlen
    (l := List.replicate (e + if neg then 1 else 0) nul) (t := [nul])
    (by rw [List.length_replicate]; exact hroom)
  rw [written, List.length_replicate, ← blank_buffer] at hpath
  obtain ⟨buf, hbuf, hstr⟩ := signAndMove_digits hb2 hb62 neg hest
    (l := (List.replicate (e + if neg then 1 else 0) nul).take
      (e + (if neg then 1 else 0) - (Nat.digits (2 ^ shift) x.val).length)) (t := [nul]) (by simp)
    (by rw [List.length_take, List.length_replicate, Nat.min_eq_left (Nat.sub_le _ _)])
  refine ⟨buf, ?_, hstr⟩
  rw [natI2a, decide_eq_true ⟨hb2, hb62⟩, Run.assert_true, Run.ok_bind, if_neg hlen.ne']
  refine Run.bind_of_eq (natBitLen_shaped hx) ?_
  dsimp only
  rw [hs, if_pos hpow]
  exact Run.bind_of_eq hpath hbuf

/-- **Dividing, with any table with which `convertWords` writes the numeral.** -/
theorem dividePath_text {b bb : Word} {ndigits : Nat} {o : Option (List CDivisor)}
    (hb : 2 ≤ b.toNat) (hb62 : b.toNat ≤ 62) (neg : Bool) {est : Nat}
    (hest : (Nat.digits b.toNat x.val).length ≤ est)
    (hrun : ∀ l t : List Char, (Nat.digits b.toNat x.val).length ≤ l.length →
      convertWords a x (l ++ t) l.length b ndigits bb o (o.elim 0 List.length) =
        .ok (numeralText b.toNat l.length x.val ++ t)) :
    Run.Returns (dividePath a x b ndigits bb o (est + if neg then 1 else 0)
        (List.replicate (est + (if neg then 1 else 0) + 1) nul) >>=
          signAndMove neg (est + if neg then 1 else 0))
      (fun buf => cString buf = signedText b.toNat neg x.val) := by
  have hroom : (Nat.digits b.toNat x.val).length ≤ est + if neg then 1 else 0 :=
    hest.trans (Nat.le_add_right _ _)
  have hlb : (List.replicate (est + if neg then 1 else 0) nul).length =
    est + if neg then 1 else 0 := List.length_replicate
  have hpath := dividePath_eq hb hb62 (by rw [hlb]; exact hroom)
    (hrun (List.replicate (est + if neg then 1 else 0) nul) [nul] (by rw [hlb]; exact hroom))
  rw [hlb, ← blank_buffer] at hpath
  obtain ⟨buf, hbuf, hstr⟩ := signAndMove_digits (b := b.toNat) (by omega) hb62 neg hest
    (l := List.replicate (est + (if neg then 1 else 0) - (Nat.digits b.toNat x.val).length) '0')
    (t := [nul]) (by simp) List.length_replicate
  exact ⟨buf, Run.bind_of_eq hpath hbuf, hstr⟩

/-- Dividing without a table. -/
theorem plainText_eq (a : Arith) (hx : x.Valid) (neg : Bool) {b : Word}
    (hb : 2 ≤ b.toNat) (hb62 : b.toNat ≤ 62) {est : Nat}
    (hest : (Nat.digits b.toNat x.val).length ≤ est) :
    Run.Returns (plainText a (est + if neg then 1 else 0) x neg b)
      (fun buf => cString buf = signedText b.toNat neg x.val) := by
  obtain ⟨bb, ndigits, hmax, hbb, hn, -⟩ := maxPow_eq hb
  obtain ⟨buf, hbuf, hstr⟩ := dividePath_text (a := a) (o := none) hb hb62 neg hest
    fun l t _ => convertWords_plain a hb hb62 hbb hn hx l t
  exact ⟨buf, Run.bind_of_eq hmax hbuf, hstr⟩

end

/-- **For a power of two shifting and dividing give the same string**: the sign and the digits, no
zero in front. -/
theorem natI2a_agrees_plain (a : Arith) {x : CNat} (hx : Clean x) (h0 : x.val ≠ 0) (neg : Bool)
    {shift : Nat} (h1 : 1 ≤ shift) (h5 : shift ≤ 5) :
    Run.Returns (natI2a a (fun bits _ => bits / shift + 1) x neg (2 ^ shift))
        (fun buf => cString buf = signedText (2 ^ shift) neg x.val) ∧
      Run.Returns (plainText a (x.val.size / shift + 1 + if neg then 1 else 0) x neg
          (BitVec.ofNat 64 (2 ^ shift)))
        (fun buf => cString buf = signedText (2 ^ shift) neg x.val) := by
  obtain ⟨-, -, htoNat, hb2, hb62⟩ := power_of_two h1 h5
  have hlen : 0 < x.len := Nat.pos_of_ne_zero fun h => h0 (hx.len_eq_zero_iff.mp h)
  have hest := digits_le_estimate h1 x.val
  have hest' : (Nat.digits (BitVec.ofNat 64 (2 ^ shift)).toNat x.val).length ≤
      x.val.size / shift + 1 := by
    rw [htoNat]
    exact hest
  have hplain := plainText_eq a hx.1 neg (by omega) (by omega) hest'
  rw [htoNat] at hplain
  exact ⟨natI2a_shift a hx.shaped hlen neg h1 h5 hest, hplain⟩

/-- `2^65 + 5` and its negative in base 8: a digit lies in both words. -/
theorem natI2a_agrees_plain_octal :
    Run.Returns (natI2a idealArith (fun bits _ => bits / 3 + 1) ⟨[5, 2], 2, 2⟩ true (2 ^ 3))
        (fun buf => cString buf = signedText (2 ^ 3) true (⟨[5, 2], 2, 2⟩ : CNat).val) ∧
      Run.Returns
        (plainText idealArith ((⟨[5, 2], 2, 2⟩ : CNat).val.size / 3 + 1 + if true then 1 else 0)
          ⟨[5, 2], 2, 2⟩ true (BitVec.ofNat 64 (2 ^ 3)))
        (fun buf => cString buf = signedText (2 ^ 3) true (⟨[5, 2], 2, 2⟩ : CNat).val) :=
  natI2a_agrees_plain idealArith (x := ⟨[5, 2], 2, 2⟩) ⟨by decide, by decide⟩ (by decide) true
    (show 1 ≤ 3 by decide) (by decide)

end CDemo.BigInt
