/-
# Conversion with a table of powers

`divisors` makes a table of powers of the base.  Each entry is the square of the one before, or
for the first `bb` to the eighth, times the base as often as that needs no further word.
`convertWords` splits a number at the largest of them that is not too large for it, and converts
both parts by themselves.

The divisor that is picked never exceeds the number (`pickPower_le`).  The loop goes down to an
entry of at most half the bits above it, and steps down once more if the entry it stands on is too
large.  The first entry never is: it has at most as many words as a number that is not split.

Which squares are taken and which numbers are divided by which powers is said in terms of numbers
(`tablePower`, `Splits`), so that the results hold for arithmetic that is exact there.
-/
import CDemo.BigInt.ConvWords

namespace CDemo.BigInt

/-! ## 1. The powers in the table -/

/-- `v` times `b`, as often as the product stays below `limit`. -/
def grown (b limit : Nat) : Nat → Nat → Nat
  | 0, v => v
  | fuel + 1, v => if v * b < limit then grown b limit fuel (v * b) else v

/-- The power that `divisors` makes of `v`. -/
def grownPower (b v : Nat) : Nat := grown b (radix ^ wordLen v) (64 * wordLen v + 1) v

/-- The powers in the table. -/
def tablePower (b first : Nat) : Nat → Nat
  | 0 => grownPower b first
  | i + 1 => grownPower b (tablePower b first i * tablePower b first i)

/-- What the powers in the table are made of. -/
def rawPower (b first : Nat) : Nat → Nat
  | 0 => first
  | i + 1 => tablePower b first i * tablePower b first i

theorem tablePower_eq (b first : Nat) :
    ∀ i : Nat, tablePower b first i = grownPower b (rawPower b first i)
  | 0 => rfl
  | _ + 1 => rfl

/-- An entry: a power of the base, its digits and its bits. -/
structure IsDivisor (b : Nat) (d : CDivisor) : Prop where
  power : Holds d.bbb (b ^ d.ndigits)
  nbits_eq : d.nbits = d.bbb.val.size
  ndigits_pos : 1 ≤ d.ndigits

/-- **The table of divisors.** -/
structure IsTable (b first : Nat) (table : List CDivisor) : Prop where
  entry : ∀ d ∈ table, IsDivisor b d
  powers : table.map (·.bbb.val) = (List.range table.length).map (tablePower b first)

/-- A vector of its length is clean if its number is as large as that. -/
theorem clean_of_le {x : CNat} (hx : x.Valid) (h : radix ^ (x.len - 1) ≤ x.val) : Clean x := by
  refine ⟨hx, fun hne h0 => ?_⟩
  have hsplit := List.dropLast_append_getLast hne
  have hlen : x.words.dropLast.length = x.len - 1 := by
    rw [List.length_dropLast, CNat.length_words hx]
  rw [CNat.val, ← hsplit, value_append, h0, value_cons, value_nil, word_zero] at h
  have hlt := value_lt x.words.dropLast
  rw [hlen] at hlt
  omega

theorem le_grown {b limit : Nat} (hb : 1 ≤ b) : ∀ (fuel v : Nat), v ≤ grown b limit fuel v
  | 0, v => le_rfl
  | fuel + 1, v => by
    rw [grown]
    split
    · exact (Nat.le_mul_of_pos_right v hb).trans (le_grown hb fuel (v * b))
    · exact le_rfl

theorem grown_lt {b limit : Nat} :
    ∀ (fuel : Nat) {v : Nat}, v < limit → grown b limit fuel v < limit
  | 0, _, h => h
  | fuel + 1, v, h => by
    rw [grown]
    split
    · next hlt => exact grown_lt fuel hlt
    · exact h

theorem le_grownPower {b : Nat} (hb : 1 ≤ b) (v : Nat) : v ≤ grownPower b v := le_grown hb _ v

section

variable {b first : Nat}

theorem two_le_tablePower (hb : 1 ≤ b) (hfirst : 2 ≤ first) : ∀ i : Nat, 2 ≤ tablePower b first i
  | 0 => hfirst.trans (le_grownPower hb first)
  | i + 1 => by
    have h2 := two_le_tablePower hb hfirst i
    refine le_trans ?_ (le_grownPower hb _)
    exact h2.trans (Nat.le_mul_of_pos_right _ (by omega))

/-- **The powers increase.** -/
theorem tablePower_strictMono (hb : 1 ≤ b) (hfirst : 2 ≤ first) :
    StrictMono (tablePower b first) := by
  refine strictMono_nat_of_lt_succ fun i => ?_
  have h2 := two_le_tablePower hb hfirst i
  calc tablePower b first i < tablePower b first i * 2 := by omega
    _ ≤ tablePower b first i * tablePower b first i := Nat.mul_le_mul_left _ h2
    _ ≤ tablePower b first (i + 1) := le_grownPower hb _

namespace IsTable

variable {table : List CDivisor}

theorem val_eq (h : IsTable b first table) {i : Nat} {d : CDivisor} (hd : table[i]? = some d) :
    d.bbb.val = tablePower b first i := by
  obtain ⟨hi, -⟩ := List.getElem?_eq_some_iff.mp hd
  have hmap := congrArg (·[i]?) h.powers
  simp only [List.getElem?_map, hd, List.getElem?_range hi, Option.map_some] at hmap
  exact Option.some.inj hmap

/-- **The entries increase.** -/
theorem increasing (h : IsTable b first table) (hb : 1 ≤ b) (hfirst : 2 ≤ first) :
    table.Pairwise fun d e => d.bbb.val < e.bbb.val := by
  rw [← List.pairwise_map, h.powers]
  exact List.pairwise_lt_range.map _ fun _ _ hlt => tablePower_strictMono hb hfirst hlt

/-- **The first entry has `leafSize` words at most.** -/
theorem head_len (h : IsTable b first table) (hfirst : first < radix ^ leafSize) {d : CDivisor}
    (hd : table[0]? = some d) : d.bbb.len ≤ leafSize := by
  have hclean := (h.entry d (List.mem_of_getElem? hd)).power.clean
  rw [hclean.len_eq, h.val_eq hd, wordLen_le_iff]
  refine (grown_lt _ (lt_radix_pow_wordLen first)).trans_le ?_
  exact Nat.pow_le_pow_right radix_pos (wordLen_le_iff.mpr hfirst)

end IsTable

end

/-! ## 2. Making the table -/

/-- `x` with other words. -/
def reworded (x : CNat) (zs : List Word) : CNat := { x with data := zs ++ x.data.drop x.len }

section

variable {x y : CNat} {zs : List Word}

theorem reworded_val (hz : zs.length = x.len) : (reworded x zs).val = value zs := by
  rw [CNat.val, CNat.words]
  exact congrArg value (List.take_left' hz)

theorem reworded_valid (hz : zs.length = x.len) : (reworded x zs).Valid := by
  simp [CNat.Valid, reworded, hz]

/-- A product in place: the words of `x` become those of the product. -/
theorem mulAddVWW_self (hx : x.Valid) (b : Word) :
    ∃ c zs, mulAddVWW x x b 0 = .ok (c, (reworded x zs).data) ∧ zs.length = x.len ∧
      value zs + c.toNat * radix ^ x.len = x.val * b.toNat := by
  obtain ⟨c, zs, hrun, hlen, hval⟩ := mulAddLoop_spec b (c := 0) (n := x.len) hx hx
  refine ⟨c, zs, ?_, hlen, hval⟩
  rw [mulAddVWW, Nat.min_self]
  exact hrun

theorem natCopy_reworded (hx : x.Valid) (hcap : x.len ≤ x.cap) (hlen : y.len = x.len)
    (hz : zs.length = y.len) : natCopy x (reworded y zs) = .ok (reworded x zs).data := by
  rw [natCopy_eq (by exact hlen ▸ hcap)]
  refine (memcpy_eq (k := y.len) (by exact hlen ▸ hx) (reworded_valid hz)).trans ?_
  rw [show (reworded y zs).data.take y.len = zs from List.take_left' hz, hlen]
  rfl

end

/-- **The loop that adds digits**: the power stays a power and keeps its length. -/
theorem growPower_eq {b : Word} (hb : 2 ≤ b.toNat) :
    ∀ (fuel n : Nat) (larger bbb : CNat), larger.Valid → bbb.Valid → bbb.len ≤ bbb.cap →
      larger.len = bbb.len → larger.val = bbb.val → bbb.val = b.toNat ^ n →
      radix ^ bbb.len ≤ bbb.val * 2 ^ fuel →
      ∃ p m, growPower b fuel larger bbb n = .ok (p, m) ∧ p.Valid ∧ p.len ≤ p.cap ∧
        p.len = bbb.len ∧ p.val = b.toNat ^ m ∧ n ≤ m ∧
        p.val = grown b.toNat (radix ^ bbb.len) fuel bbb.val
  | 0, n, larger, bbb, _, _, _, _, _, _, hroom => by
    have := CNat.val_lt (x := bbb)
    rw [pow_zero, Nat.mul_one] at hroom
    omega
  | fuel + 1, n, larger, bbb, hlv, hbv, hcap, hlen, hval, hpow, hroom => by
    obtain ⟨c, zs, hrun, hzl, hzv⟩ := mulAddVWW_self hlv b
    rw [hval, hlen] at hzv
    have hlt : value zs < radix ^ bbb.len := hlen ▸ hzl ▸ value_lt zs
    rw [growPower, grown]
    by_cases hc : c = 0
    · have hfit : bbb.val * b.toNat = value zs := by
        rw [← hzv, hc, word_zero, Nat.zero_mul, Nat.add_zero]
      have hnew := reworded_val (x := bbb) (hzl.trans hlen)
      obtain ⟨p, m, hp, hpb, hpc, hpl, hpv, hnm, hgrown⟩ := growPower_eq hb fuel (n + 1) _ _
        (reworded_valid hzl) (reworded_valid (hzl.trans hlen)) hcap hlen
        ((reworded_val hzl).trans hnew.symm) (by rw [hnew, ← hfit, hpow, pow_succ]) (by
          rw [hnew, ← hfit]
          refine hroom.trans ?_
          rw [pow_succ', ← Nat.mul_assoc]
          exact Nat.mul_le_mul_right _ (Nat.mul_le_mul_left _ hb))
      refine ⟨p, m, Run.bind_of_eq hrun ?_, hpb, hpc, hpl, hpv, by omega, ?_⟩
      · dsimp only
        rw [if_pos hc]
        exact Run.bind_of_eq (natCopy_reworded hbv hcap hlen hzl) hp
      · rw [hgrown, hnew, hfit, if_pos hlt]
        rfl
    · have hpos : 1 ≤ c.toNat := Nat.pos_of_ne_zero fun h => hc (BitVec.eq_of_toNat_eq h)
      have hover : radix ^ bbb.len ≤ c.toNat * radix ^ bbb.len := Nat.le_mul_of_pos_left _ hpos
      refine ⟨bbb, n, Run.bind_of_eq hrun ?_, hbv, hcap, rfl, hpow, le_rfl, ?_⟩
      · dsimp only
        rw [if_neg hc]
      · rw [if_neg (by omega)]

section

variable {a : Arith} {M : Nat → Nat → Prop} {S : Nat → Prop} {D : Nat → Nat → Prop}
  {b bb : Word} {ndigits : Nat}

/-- The squares and products that the table for `m` words takes are exact. -/
structure TableExact (M : Nat → Nat → Prop) (S : Nat → Prop) (b bb m : Nat) : Prop where
  first : ∀ e ≤ leafSize, S (bb ^ e) ∧ M (bb ^ e) bb
  square : ∀ i, leafSize * 2 ^ i < m / 2 → S (tablePower b (bb ^ leafSize) i)

/-- What an entry starts with. -/
theorem firstPower_eq (ha : a.ExactOn M S D) (hb : 2 ≤ b.toNat)
    (hbb : bb.toNat = b.toNat ^ ndigits) (hn : 1 ≤ ndigits) {table : List CDivisor} {m k : Nat}
    (hfit : TableExact M S b.toNat bb.toNat m) (hk : ∀ i, i + 1 < k → leafSize * 2 ^ i < m / 2)
    (hlen : table.length < k) (ht : IsTable b.toNat (bb.toNat ^ leafSize) table) :
    ∃ p n, firstPower a ndigits bb table = .ok (p, n) ∧
      Holds p (rawPower b.toNat (bb.toNat ^ leafSize) table.length) ∧
      rawPower b.toNat (bb.toNat ^ leafSize) table.length = b.toNat ^ n ∧ 1 ≤ n := by
  cases table with
  | nil =>
    have hbig := two_le_power hb hn hbb
    have h8 : (BitVec.ofNat 64 leafSize).toNat = leafSize := rfl
    have hbits := expBits_exponent 0 (y := BitVec.ofNat 64 leafSize) (by decide)
    obtain ⟨p, hp, hholds⟩ := natExpWW_eq ha 0 (z := natNewLen 0) (by decide) (x := bb)
      (y := BitVec.ofNat 64 leafSize) (by rintro rfl; exact absurd hbig (by decide)) (by decide)
      (by rw [hbits, h8]; exact hfit.first)
    rw [hbits, h8] at hholds
    refine ⟨p, ndigits * leafSize, Run.bind_of_eq hp rfl, hholds, ?_, ?_⟩
    · rw [List.length_nil, rawPower, hbb, pow_mul]
    · rw [leafSize]
      omega
  | cons d table =>
    have hlast : (d :: table)[table.length]? =
      some ((d :: table).getLast (List.cons_ne_nil d table)) := by
      rw [List.getLast_eq_getElem, List.getElem?_eq_getElem (by simp)]
      rfl
    have hval := ht.val_eq hlast
    have hentry := ht.entry _ (List.mem_of_getElem? hlast)
    obtain ⟨p, hp, hholds⟩ := ha.sqr _ hentry.power.clean.shaped
      (by rw [hval]; exact hfit.square _ (hk _ hlen))
    refine ⟨p, _, Run.bind_of_eq hp rfl, ?_, ?_, ?_⟩
    · rw [hval] at hholds
      exact hholds
    · rw [List.length_cons, rawPower, ← hval, hentry.power.val_eq, ← pow_add, two_mul]
    · have := hentry.ndigits_pos
      omega

/-- **One more entry.** -/
theorem nextDivisor_eq (ha : a.ExactOn M S D) (hb : 2 ≤ b.toNat)
    (hbb : bb.toNat = b.toNat ^ ndigits) (hn : 1 ≤ ndigits) {table : List CDivisor} {m k : Nat}
    (hfit : TableExact M S b.toNat bb.toNat m) (hk : ∀ i, i + 1 < k → leafSize * 2 ^ i < m / 2)
    (hlen : table.length < k) (ht : IsTable b.toNat (bb.toNat ^ leafSize) table) :
    ∃ d, nextDivisor a b ndigits bb table = .ok d ∧
      IsTable b.toNat (bb.toNat ^ leafSize) (table ++ [d]) := by
  obtain ⟨p, n, hp, hholds, hpow, hpos⟩ := firstPower_eq ha hb hbb hn hfit hk hlen ht
  have hvalid := hholds.clean.1
  have hwl := CNat.length_words hvalid
  have hone : 1 ≤ p.val := by
    rw [hholds.val_eq, hpow]
    exact Nat.pow_pos (by omega)
  have hroom : radix ^ p.len ≤ p.val * 2 ^ (64 * p.len + 1) := by
    rw [pow_succ, pow_mul]
    change (2 ^ 64) ^ p.len ≤ _
    calc (2 ^ 64) ^ p.len ≤ 1 * ((2 ^ 64) ^ p.len * 2) := by omega
      _ ≤ p.val * ((2 ^ 64) ^ p.len * 2) := Nat.mul_le_mul_right _ hone
  obtain ⟨p', n', hgrow, hpv, hpc, hlen', hval, hnm, hgrown⟩ := growPower_eq hb _ n
    ⟨p.words, p.len, p.len⟩ p hwl.ge hvalid hholds.len_le_cap rfl (val_full hwl)
    (hholds.val_eq.trans hpow) hroom
  have hle : p.val ≤ p'.val := by
    rw [hgrown]
    exact le_grown (by omega) _ _
  have hclean : Clean p' := by
    refine clean_of_le hpv ?_
    rw [hlen']
    rcases Nat.eq_zero_or_pos p.len with h0 | hlpos
    · rw [h0]
      exact hone.trans hle
    · refine le_trans ?_ hle
      rw [← lt_wordLen_iff, ← hholds.clean.len_eq]
      omega
  have htable : p'.val = tablePower b.toNat (bb.toNat ^ leafSize) table.length := by
    rw [hgrown, tablePower_eq, grownPower, hholds.clean.len_eq, hholds.val_eq]
  refine ⟨⟨p', p'.val.size, n'⟩, ?_, fun e he => ?_, ?_⟩
  · exact Run.bind_of_eq hp (Run.bind_of_eq (natDup_eq hvalid) (Run.bind_of_eq hgrow
      (Run.bind_of_eq (natBitLen_eq hclean) rfl)))
  · rcases List.mem_append.mp he with he | he
    · exact ht.entry e he
    · rw [List.mem_singleton.mp he]
      exact ⟨⟨hclean, hpc, hval⟩, rfl, hpos.trans hnm⟩
  · rw [List.map_append, ht.powers, List.length_append, List.length_singleton, List.range_succ,
      List.map_append, List.map_singleton, List.map_singleton, ← htable]

/-- All entries. -/
theorem fillTable_eq (ha : a.ExactOn M S D) (hb : 2 ≤ b.toNat)
    (hbb : bb.toNat = b.toNat ^ ndigits) (hn : 1 ≤ ndigits) {m k : Nat}
    (hfit : TableExact M S b.toNat bb.toNat m) (hk : ∀ i, i + 1 < k → leafSize * 2 ^ i < m / 2) :
    ∀ (n : Nat) (table : List CDivisor), table.length + n = k →
      IsTable b.toNat (bb.toNat ^ leafSize) table →
      ∃ t, fillTable a b ndigits bb n table = .ok t ∧
        IsTable b.toNat (bb.toNat ^ leafSize) t ∧ t.length = k
  | 0, table, hlen, ht => ⟨table, rfl, ht, hlen⟩
  | n + 1, table, hlen, ht => by
    obtain ⟨d, hd, hd'⟩ := nextDivisor_eq ha hb hbb hn hfit hk (by omega) ht
    obtain ⟨t, hrun, ht'⟩ := fillTable_eq ha hb hbb hn hfit hk n (table ++ [d])
      (by rw [List.length_append, List.length_singleton]; omega) hd'
    exact ⟨t, Run.bind_of_eq hd hrun, ht'⟩

/-- The loop that counts the entries stops, and counts one for each size below half of `m`. -/
theorem tableLen_eq (m : Nat) : ∀ (fuel j : Nat), m / 2 ≤ leafSize * 2 ^ j + fuel →
    (∀ i < j, leafSize * 2 ^ i < m / 2) →
    ∃ k, tableLen m (fuel + 1) (leafSize * 2 ^ j) (j + 1) = .ok k ∧ j + 1 ≤ k ∧
      ∀ i, i + 1 < k → leafSize * 2 ^ i < m / 2
  | fuel, j, hm, hbelow => by
    rw [tableLen]
    by_cases hlt : leafSize * 2 ^ j < m / 2
    · rw [if_pos hlt]
      cases fuel with
      | zero => omega
      | succ fuel =>
        have hpos : 0 < leafSize * 2 ^ j := Nat.mul_pos (by decide) (by positivity)
        have hnext : leafSize * 2 ^ (j + 1) = 2 * (leafSize * 2 ^ j) := by ring
        obtain ⟨k, hk, hle, hall⟩ := tableLen_eq m fuel (j + 1) (by omega) fun i hi => by
          rcases Nat.lt_succ_iff_lt_or_eq.mp hi with h | rfl
          · exact hbelow i h
          · exact hlt
        rw [hnext] at hk
        exact ⟨k, hk, by omega, hall⟩
    · rw [if_neg hlt]
      exact ⟨j + 1, rfl, le_rfl, fun i hi => hbelow i (by omega)⟩

/-- **`divisors`** returns a table for a number of more than `leafSize` words. -/
theorem divisors_eq (ha : a.ExactOn M S D) (hb : 2 ≤ b.toNat)
    (hbb : bb.toNat = b.toNat ^ ndigits) (hn : 1 ≤ ndigits) {m : Nat}
    (hfit : leafSize < m → TableExact M S b.toNat bb.toNat m) :
    ∃ t, divisors a m b ndigits bb = .ok t ∧ (t = none ↔ m ≤ leafSize) ∧
      ∀ table ∈ t, IsTable b.toNat (bb.toNat ^ leafSize) table ∧ table ≠ [] ∧
        tableLen m (m + 1) leafSize 1 = .ok table.length := by
  rw [divisors]
  by_cases hsmall : m ≤ leafSize
  · rw [if_pos (.inr hsmall)]
    exact ⟨none, rfl, iff_of_true rfl hsmall, fun _ h => absurd h (by simp)⟩
  · rw [if_neg (by rintro (h | h); exacts [absurd h (by decide), hsmall h])]
    obtain ⟨k, hlen, hpos, hk⟩ := tableLen_eq m m 0 (by omega) fun i hi => absurd hi (by omega)
    obtain ⟨t, hrun, ht, htl⟩ := fillTable_eq ha hb hbb hn (hfit (by omega)) hk k [] (by simp)
      ⟨fun _ h => (List.not_mem_nil h).elim, rfl⟩
    refine ⟨some t, Run.bind_of_eq hlen (Run.bind_of_eq hrun rfl),
      iff_of_false (by simp) hsmall, ?_⟩
    intro table hmem
    obtain rfl := Option.mem_some.mp hmem
    refine ⟨ht, fun h => ?_, htl ▸ hlen⟩
    rw [h, List.length_nil] at htl
    omega

end

/-! ## 3. Picking a divisor -/

/-- `lowerIndex` in terms of the powers. -/
def loweredIndex (P : Nat → Nat) (minLen : Nat) : Nat → Nat
  | 0 => 0
  | i + 1 => if minLen < (P i).size then loweredIndex P minLen i else i + 1

/-- `pickIndex` in terms of numbers. -/
def pickPower (P : Nat → Nat) (q index : Nat) : Nat :=
  let low := loweredIndex P (q.size / 2) index
  if q.size ≤ (P low).size ∧ q ≤ P low then low - 1 else low

theorem loweredIndex_le (P : Nat → Nat) (minLen : Nat) :
    ∀ index : Nat, loweredIndex P minLen index ≤ index
  | 0 => le_rfl
  | i + 1 => by
    rw [loweredIndex]
    split
    · exact (loweredIndex_le P minLen i).trans (Nat.le_succ i)
    · exact le_rfl

/-- Below the index where the loop stops the powers are short. -/
theorem loweredIndex_size {P : Nat → Nat} {minLen i : Nat} :
    ∀ {index : Nat}, loweredIndex P minLen index = i + 1 → (P i).size ≤ minLen
  | 0, h => absurd h (by simp [loweredIndex])
  | n + 1, h => by
    rw [loweredIndex] at h
    split at h
    · exact loweredIndex_size h
    · next hle => exact Nat.succ.inj h ▸ Nat.le_of_not_lt hle

theorem lt_of_size_lt {v w : Nat} (h : v.size < w.size) : v < w := by
  by_contra hle
  exact absurd (Nat.size_le_size (Nat.le_of_not_lt hle)) (by omega)

theorem pickPower_le_index (P : Nat → Nat) (q index : Nat) : pickPower P q index ≤ index := by
  have := loweredIndex_le P (q.size / 2) index
  simp only [pickPower]
  split <;> omega

/-- **The divisor that is picked does not exceed the number.** -/
theorem pickPower_le {P : Nat → Nat} {q index : Nat} (h0 : (P 0).size < q.size) :
    P (pickPower P q index) ≤ q := by
  simp only [pickPower]
  split
  · next hlarge =>
    cases hlow : loweredIndex P (q.size / 2) index with
    | zero =>
      -- the first power is never too large
      rw [hlow] at hlarge
      omega
    | succ i =>
      have := loweredIndex_size hlow
      exact (lt_of_size_lt (by simp only [Nat.add_sub_cancel]; omega)).le
  · next hsmall =>
    by_contra hgt
    exact hsmall ⟨Nat.size_le_size (by omega), by omega⟩

section

variable {b first : Nat} {table : List CDivisor}

theorem lowerIndex_eq (ht : IsTable b first table) (minLen : Nat) :
    ∀ {index : Nat}, index ≤ table.length →
      lowerIndex table minLen index = .ok (loweredIndex (tablePower b first) minLen index)
  | 0, _ => rfl
  | i + 1, hi => by
    have hd := List.getElem?_eq_getElem (l := table) hi
    have hbits := (ht.entry _ (List.mem_of_getElem? hd)).nbits_eq
    rw [lowerIndex, loweredIndex]
    refine Run.bind_of_eq (Run.read_eq_ok hd) ?_
    rw [hbits, ht.val_eq hd]
    split
    · exact lowerIndex_eq ht minLen (by omega)
    · rfl

theorem divisorAt_eq {i : Nat} {d : CDivisor} (h : table[i]? = some d) :
    divisorAt table (i : Int) = .ok d := by
  rw [divisorAt, if_pos (Int.natCast_nonneg i), Int.toNat_natCast]
  exact Run.read_eq_ok h

theorem zero_le_cmpSign_iff {v w : Nat} : 0 ≤ cmpSign v w ↔ w ≤ v := by
  rw [cmpSign]
  split
  · next h => exact iff_of_false (by decide) (by omega)
  · next h =>
    split
    · exact iff_of_true (by decide) (by omega)
    · exact iff_of_true (by decide) (by omega)

/-- A number that is split has more bits than the first power. -/
theorem tablePower_zero_size (hfirst : first < radix ^ leafSize) {q : Nat}
    (hq : leafSize < wordLen q) : (tablePower b first 0).size < q.size := by
  have hlt : tablePower b first 0 < 2 ^ (64 * leafSize) := by
    refine (grown_lt _ (lt_radix_pow_wordLen first)).trans_le ?_
    rw [pow_mul]
    exact Nat.pow_le_pow_right radix_pos (wordLen_le_iff.mpr hfirst)
  have hge : 2 ^ (64 * leafSize) ≤ q := by
    rw [pow_mul]
    exact lt_wordLen_iff.mp hq
  exact (Nat.size_le.mpr hlt).trans_lt (Nat.lt_size.mpr hge)

/-- **`pickIndex`**: its `assert` holds, and what it returns is the index of a power that does not
exceed `q`. -/
theorem pickIndex_eq (ht : IsTable b first table) (hfirst : first < radix ^ leafSize) {q : CNat}
    (hq : Clean q) (hlong : leafSize < q.len) {index : Nat} (hi : index < table.length) :
    pickIndex table q index = .ok (pickPower (tablePower b first) q.val index : Nat) := by
  have hsize := tablePower_zero_size (b := b) hfirst (hq.len_eq ▸ hlong)
  have hlow := loweredIndex_le (tablePower b first) (q.val.size / 2) index
  have hd := List.getElem?_eq_getElem (l := table) (hlow.trans_lt hi)
  have hentry := ht.entry _ (List.mem_of_getElem? hd)
  have hval := ht.val_eq hd
  have hcmp := natCmp_normal hentry.power.clean.1 hq.1 hentry.power.clean.2 hq.2
  rw [pickIndex]
  refine Run.bind_of_eq (natBitLen_eq hq) (Run.bind_of_eq
    (lowerIndex_eq ht _ (by rw [Int.toNat_natCast]; exact hi.le)) ?_)
  rw [Int.toNat_natCast]
  have hindex : (if 0 < (index : Int) then
      (loweredIndex (tablePower b first) (q.val.size / 2) index : Int) else index) =
      (loweredIndex (tablePower b first) (q.val.size / 2) index : Nat) := by
    split
    · rfl
    · next h0 =>
      obtain rfl : index = 0 := by omega
      rfl
  dsimp only
  rw [hindex]
  refine Run.bind_of_eq (divisorAt_eq hd) ?_
  rw [hentry.nbits_eq, hval, pickPower]
  by_cases hbits : q.val.size ≤ (tablePower b first
      (loweredIndex (tablePower b first) (q.val.size / 2) index)).size
  · rw [if_pos hbits]
    refine Run.bind_of_eq hcmp ?_
    rw [hval]
    by_cases hle : q.val ≤ tablePower b first
        (loweredIndex (tablePower b first) (q.val.size / 2) index)
    · have hpos : 1 ≤ loweredIndex (tablePower b first) (q.val.size / 2) index := by
        by_contra h0
        rw [show loweredIndex (tablePower b first) (q.val.size / 2) index = 0 by omega] at hbits
        omega
      rw [if_pos (zero_le_cmpSign_iff.mpr hle), if_pos ⟨hbits, hle⟩, decide_eq_true (by omega),
        Run.assert_true, Run.ok_bind, Nat.cast_sub hpos]
      rfl
    · rw [if_neg (fun h => hle (zero_le_cmpSign_iff.mp h)), if_neg (fun h => hle h.2)]
  · rw [if_neg hbits, if_neg (fun h => hbits h.1)]

end

/-! ## 4. Splitting -/

/-- `Splits P q index u p`: to convert `q` with the powers up to the one at `index`, `u` is divided
by `p`. -/
inductive Splits (P : Nat → Nat) : Nat → Nat → Nat → Nat → Prop where
  | here {q index : Nat} : leafSize < wordLen q → Splits P q index q (P (pickPower P q index))
  | quotient {q index u p : Nat} : leafSize < wordLen q →
      Splits P (q / P (pickPower P q index)) (pickPower P q index) u p → Splits P q index u p
  | remainder {q index u p : Nat} : leafSize < wordLen q →
      Splits P (q % P (pickPower P q index)) (pickPower P q index - 1) u p → Splits P q index u p

section

variable {a : Arith} {M : Nat → Nat → Prop} {S : Nat → Prop} {D : Nat → Nat → Prop}
  {b bb : Word} {ndigits first : Nat} {table : List CDivisor}

/-- `convert` writes numerals, with the first `n` entries of the table at most. -/
def Converts (D : Nat → Nat → Prop) (P : Nat → Nat) (b n : Nat)
    (convert : CNat → List Char → Nat → Nat → Run (List Char)) : Prop :=
  ∀ tableNum ≤ n, ∀ (x : CNat) (l t : List Char), Clean x → x.val < b ^ l.length →
    (leafSize < x.len → 0 < tableNum) → (∀ u p, Splits P x.val (tableNum - 1) u p → D u p) →
    convert x (l ++ t) l.length tableNum = .ok (numeralText b l.length x.val ++ t)

/-- **One round of the first loop**: the number is split at a power that does not exceed it. -/
theorem split_step (ha : a.ExactOn M S D) (hb : 2 ≤ b.toNat) (ht : IsTable b.toNat first table)
    (hfirst : first < radix ^ leafSize) {q r : CNat} {index : Nat} (hq : Clean q)
    (hqc : q.cap ≤ q.data.length) (hrc : r.cap ≤ r.data.length) (hlong : leafSize < q.len)
    (hi : index < table.length)
    (hD : D q.val (tablePower b.toNat first (pickPower (tablePower b.toNat first) q.val index))) :
    ∃ d q' r', pickIndex table q index =
        .ok (pickPower (tablePower b.toNat first) q.val index : Nat) ∧
      divisorAt table (pickPower (tablePower b.toNat first) q.val index : Nat) = .ok d ∧
      a.div q r q d.bbb = .ok (q', r') ∧ IsDivisor b.toNat d ∧
      d.bbb.val = tablePower b.toNat first (pickPower (tablePower b.toNat first) q.val index) ∧
      d.bbb.val ≤ q.val ∧ Holds q' (q.val / d.bbb.val) ∧ Holds r' (q.val % d.bbb.val) ∧
      (q'.cap ≤ q'.data.length ∧ r'.cap ≤ r'.data.length) ∧
      (leafSize < r'.len → 0 < pickPower (tablePower b.toNat first) q.val index) := by
  have hwl : leafSize < wordLen q.val := hq.len_eq ▸ hlong
  have hpick := pickPower_le_index (tablePower b.toNat first) q.val index
  obtain ⟨d, hd⟩ : ∃ d, table[pickPower (tablePower b.toNat first) q.val index]? = some d :=
    ⟨_, List.getElem?_eq_getElem (hpick.trans_lt hi)⟩
  have hentry := ht.entry _ (List.mem_of_getElem? hd)
  have hval := ht.val_eq hd
  have hpos : d.bbb.val ≠ 0 := by
    rw [hentry.power.val_eq]
    exact (Nat.pow_pos (by omega)).ne'
  obtain ⟨⟨q', r'⟩, hdiv, hq', hr', hcaps⟩ := ha.div q r q _ hqc hrc hq hentry.power.clean hpos
    (hval ▸ hD)
  refine ⟨d, q', r', pickIndex_eq ht hfirst hq hlong hi, divisorAt_eq hd, hdiv, hentry, hval,
    hval ▸ pickPower_le (tablePower_zero_size hfirst hwl), hq', hr', hcaps, fun hlong' => ?_⟩
  -- a remainder of the first power is short
  refine Nat.pos_of_ne_zero fun h0 => absurd hlong' (Nat.not_lt.mpr ?_)
  rw [h0] at hd
  refine le_trans (hr'.clean.len_le hentry.power.clean ?_) (ht.head_len hfirst hd)
  exact hr'.val_eq.le.trans (Nat.mod_lt _ (Nat.pos_of_ne_zero hpos)).le

/-- **The first loop of `convertWords`**, and what follows it, write the numeral of `q`. -/
theorem splitLoop_eq (ha : a.ExactOn M S D) (hb : 2 ≤ b.toNat) (hb62 : b.toNat ≤ 62)
    (hbb : bb.toNat = b.toNat ^ ndigits) (hn : 1 ≤ ndigits) (ht : IsTable b.toNat first table)
    (hfirst : first < radix ^ leafSize) {n : Nat}
    {convert : CNat → List Char → Nat → Nat → Run (List Char)}
    (hconv : Converts D (tablePower b.toNat first) b.toNat n convert) :
    ∀ (fuel : Nat) (q r : CNat) (l t : List Char) (index : Nat), Clean q →
      q.cap ≤ q.data.length → r.cap ≤ r.data.length → q.val < b.toNat ^ l.length →
      q.val < 2 ^ fuel → index < table.length → index ≤ n →
      (∀ u p, Splits (tablePower b.toNat first) q.val index u p → D u p) →
      (splitLoop a table convert (fuel + 1) q r (l ++ t) l.length index >>=
        fun p => convertLeaf b ndigits bb p.1 p.2.1 p.2.2) =
          .ok (numeralText b.toNat l.length q.val ++ t)
  | fuel, q, r, l, t, index, hq, hqc, hrc, hlt, hfuel, hi, hin, hD => by
    rw [splitLoop]
    by_cases hlong : leafSize < q.len
    · rw [if_pos hlong]
      have hwl : leafSize < wordLen q.val := hq.len_eq ▸ hlong
      have hpick := pickPower_le_index (tablePower b.toNat first) q.val index
      obtain ⟨d, q', r', hidx, hat, hdiv, hentry, hval, hle, hq', hr', hcaps, hshort⟩ :=
        split_step ha hb ht hfirst hq hqc hrc hlong hi (hD _ _ (.here hwl))
      have hD' := fun u p h => hD u p (.quotient hwl h)
      have hDr := fun u p h => hD u p (.remainder hwl h)
      rw [← hval] at hD' hDr
      rw [hentry.power.val_eq] at hle hq' hr' hD' hDr
      generalize pickPower (tablePower b.toNat first) q.val index = i at *
      have hdig : d.ndigits < l.length :=
        (Nat.pow_lt_pow_iff_right (by omega)).mp (hle.trans_lt hlt)
      have hdrop : (l.drop (l.length - d.ndigits)).length = d.ndigits := by
        rw [List.length_drop]
        omega
      have htake : (l.take (l.length - d.ndigits)).length = l.length - d.ndigits :=
        List.length_take.trans (Nat.min_eq_left (Nat.sub_le _ _))
      have htail := hconv i (hpick.trans hin) r' (l.drop (l.length - d.ndigits)) t hr'.clean
        (by rw [hr'.val_eq, hdrop]; exact Nat.mod_lt _ (Nat.pow_pos (by omega))) hshort
        (hr'.val_eq ▸ hDr)
      rw [hdrop, hr'.val_eq, numeralText_mod _ le_rfl] at htail
      cases fuel with
      | zero =>
        have := Nat.pow_pos (n := d.ndigits) (show 0 < b.toNat by omega)
        omega
      | succ fuel =>
        have hhalf : q'.val < 2 ^ fuel := by
          rw [hq'.val_eq]
          exact div_lt_two_pow (two_le_power hb hentry.ndigits_pos rfl) hfuel
        have hfit : q'.val < b.toNat ^ (l.take (l.length - d.ndigits)).length := by
          rw [hq'.val_eq, htake]
          refine Nat.div_lt_of_lt_mul ?_
          rwa [← pow_add, Nat.add_sub_cancel' hdig.le]
        have hrest := splitLoop_eq ha hb hb62 hbb hn ht hfirst hconv fuel q' r'
          (l.take (l.length - d.ndigits)) (numeralText b.toNat d.ndigits q.val ++ t) i hq'.clean
          hcaps.1 hcaps.2 hfit hhalf (hpick.trans_lt hi) (hpick.trans hin)
          (hq'.val_eq ▸ hD')
        rw [htake, hq'.val_eq] at hrest
        refine (congrArg (· >>= _) (Run.bind_of_eq hidx (Run.bind_of_eq hat
          (Run.bind_of_eq hdiv ?_)))).trans (hrest.trans ?_)
        · dsimp only
          rw [if_neg (Nat.not_lt.mpr hdig.le), List.drop_append_of_le_length (Nat.sub_le _ _),
            List.take_append_of_le_length (Nat.sub_le _ _), Int.toNat_natCast]
          exact Run.bind_of_eq htail rfl
        · rw [← List.append_assoc, ← numeralText_append, Nat.sub_add_cancel hdig.le]
    · rw [if_neg hlong, Run.ok_bind]
      exact convertLeaf_eq hb hb62 hbb hn hq.1 l t

/-- **`convertWords` with a table writes numerals**, to any depth of the recursion. -/
theorem convertWordsRec_eq (ha : a.ExactOn M S D) (hb : 2 ≤ b.toNat) (hb62 : b.toNat ≤ 62)
    (hbb : bb.toNat = b.toNat ^ ndigits) (hn : 1 ≤ ndigits) (ht : IsTable b.toNat first table)
    (hfirst : first < radix ^ leafSize) :
    ∀ n : Nat, n ≤ table.length → Converts D (tablePower b.toNat first) b.toNat n
      (convertWordsRec a b ndigits bb (some table) (n + 1))
  | n, hnt, tableNum, hle, x, l, t, hx, hlt, hlong, hD => by
    have hwl := CNat.length_words hx.1
    have hval : (⟨x.words, x.len, x.len⟩ : CNat).val = x.val := val_full hwl
    rw [convertWordsRec]
    refine Run.bind_of_eq (natDup_eq hx.1) ?_
    cases tableNum with
    | zero =>
      -- without a divisor the number is short, and the loop does not run
      have hshort : ¬ leafSize < x.len := fun h => absurd (hlong h) (by decide)
      have hstop : splitLoop a table (convertWordsRec a b ndigits bb (some table) n)
          (64 * x.len + 1) ⟨x.words, x.len, x.len⟩ (natNewLen 0) (l ++ t) l.length
          (((0 : Nat) : Int) - 1) = .ok (⟨x.words, x.len, x.len⟩, l ++ t, l.length) := by
        rw [splitLoop, if_neg hshort]
      rw [← hval]
      exact Run.bind_of_eq hstop (convertLeaf_eq hb hb62 hbb hn hx.dup.1 l t)
    | succ index =>
      cases n with
      | zero => omega
      | succ n =>
        have hrec := convertWordsRec_eq ha hb hb62 hbb hn ht hfirst n (by omega)
        have hrun := splitLoop_eq ha hb hb62 hbb hn ht hfirst hrec (64 * x.len)
          ⟨x.words, x.len, x.len⟩ (natNewLen 0) l t index hx.dup hwl.ge (by decide)
          (hval ▸ hlt) (by rw [hval, pow_mul]; exact CNat.val_lt) (by omega) (by omega)
          (hval ▸ hD)
        rw [hval] at hrun
        rw [Nat.cast_succ, Int.add_sub_cancel]
        exact hrun

/-- Without a table any vector is converted. -/
theorem convertWords_plain (a : Arith) (hb : 2 ≤ b.toNat) (hb62 : b.toNat ≤ 62)
    (hbb : bb.toNat = b.toNat ^ ndigits) (hn : 1 ≤ ndigits) {x : CNat} (hx : x.Valid)
    (l t : List Char) :
    convertWords a x (l ++ t) l.length b ndigits bb none 0 =
      .ok (numeralText b.toNat l.length x.val ++ t) := by
  have hwl := CNat.length_words hx
  have hval : (⟨x.words, x.len, x.len⟩ : CNat).val = x.val := val_full hwl
  rw [← hval]
  have hvalid : (⟨x.words, x.len, x.len⟩ : CNat).Valid := hwl.ge
  exact Run.bind_of_eq (natDup_eq hx) (convertLeaf_eq hb hb62 hbb hn hvalid l t)

/-- `convertWords` writes the numeral, whichever table it has. -/
theorem convertWords_eq (ha : a.ExactOn M S D) (hb : 2 ≤ b.toNat) (hb62 : b.toNat ≤ 62)
    (hbb : bb.toNat = b.toNat ^ ndigits) (hn : 1 ≤ ndigits) (hfirst : first < radix ^ leafSize)
    {x : CNat} (hx : Clean x) {o : Option (List CDivisor)}
    (ho : ∀ table ∈ o, IsTable b.toNat first table ∧ table ≠ [] ∧
      ∀ u p, Splits (tablePower b.toNat first) x.val (table.length - 1) u p → D u p)
    (l t : List Char) (hlt : x.val < b.toNat ^ l.length) :
    convertWords a x (l ++ t) l.length b ndigits bb o (o.elim 0 List.length) =
      .ok (numeralText b.toNat l.length x.val ++ t) := by
  cases o with
  | none => exact convertWords_plain a hb hb62 hbb hn hx.1 l t
  | some table =>
    obtain ⟨ht, hne, hD⟩ := ho table rfl
    exact convertWordsRec_eq ha hb hb62 hbb hn ht hfirst table.length le_rfl table.length le_rfl x l
      t hx hlt (fun _ => List.length_pos_iff.mpr hne) hD

end

/-! ## 5. Both ways agree -/

/-- What the table is like: powers of the base, with their bit lengths, in increasing order, and
the first of them short. -/
structure PowerTable (b : Nat) (table : List CDivisor) : Prop where
  power : ∀ d ∈ table, d.bbb.val = b ^ d.ndigits
  nbits : ∀ d ∈ table, d.nbits = d.bbb.val.size
  increasing : table.Pairwise fun d e => d.bbb.val < e.bbb.val
  head : ∀ d ∈ table.head?, d.bbb.len ≤ leafSize

theorem IsTable.powerTable {b first : Nat} {table : List CDivisor} (h : IsTable b first table)
    (hb : 1 ≤ b) (hfirst : 2 ≤ first) (hlt : first < radix ^ leafSize) : PowerTable b table where
  power d hd := (h.entry d hd).power.val_eq
  nbits d hd := (h.entry d hd).nbits_eq
  increasing := h.increasing hb hfirst
  head d hd := h.head_len hlt (by rw [← List.head?_eq_getElem?]; exact hd)

/-- The power that the table starts from. -/
theorem first_bounds {b bb : Word} {ndigits : Nat} (hb : 2 ≤ b.toNat)
    (hbb : bb.toNat = b.toNat ^ ndigits) (hn : 1 ≤ ndigits) :
    2 ≤ bb.toNat ^ leafSize ∧ bb.toNat ^ leafSize < radix ^ leafSize := by
  have hbig := two_le_power hb hn hbb
  exact ⟨hbig.trans (Nat.le_self_pow (by decide) _),
    Nat.pow_lt_pow_left (toNat_lt_radix bb) (by decide)⟩

/-- The digits of `v`, with zeros in front up to `n` characters. -/
def paddedDigits (b n v : Nat) : List Char :=
  List.replicate (n - (Nat.digits b v).length) '0' ++ (Nat.digits b v).reverse.map digitChar

theorem numeralText_digits {b n v : Nat} (hb : 1 < b) (h : (Nat.digits b v).length ≤ n) :
    numeralText b n v = paddedDigits b n v := by
  rw [numeralText, numeral_eq hb h, List.map_append, List.map_replicate]
  rfl

/-- **With the table of `divisors` and without a table `convertWords` writes the same**: the digits
of `x`, with zeros in front up to `slen` characters. -/
theorem convertWords_agrees {a : Arith} (ha : a.Exact) {x : CNat} (hx : Clean x) {b : Word}
    (hb : 2 ≤ b.toNat) (hb62 : b.toNat ≤ 62) {slen : Nat} {s : List Char} (hs : slen ≤ s.length)
    (hslen : (Nat.digits b.toNat x.val).length ≤ slen) :
    ∃ bb ndigits t, maxPow b = .ok (bb, ndigits) ∧ divisors a x.len b ndigits bb = .ok t ∧
      (t = none ↔ x.len ≤ leafSize) ∧ (∀ table ∈ t, PowerTable b.toNat table) ∧
      convertWords a x s slen b ndigits bb t (t.elim 0 List.length) =
        .ok (paddedDigits b.toNat slen x.val ++ s.drop slen) ∧
      convertWords a x s slen b ndigits bb none 0 =
        .ok (paddedDigits b.toNat slen x.val ++ s.drop slen) := by
  obtain ⟨bb, ndigits, hmax, hbb, hn, -⟩ := maxPow_eq hb
  obtain ⟨hfirst, hlt⟩ := first_bounds hb hbb hn
  obtain ⟨t, hdiv, hnone, ht⟩ := divisors_eq ha hb hbb hn (m := x.len)
    fun _ => ⟨fun _ _ => ⟨trivial, trivial⟩, fun _ _ => trivial⟩
  have hl : (s.take slen).length = slen := List.length_take.trans (Nat.min_eq_left hs)
  have hrun : ∀ o, (∀ table ∈ o, table ∈ t) →
      convertWords a x s slen b ndigits bb o (o.elim 0 List.length) =
        .ok (paddedDigits b.toNat slen x.val ++ s.drop slen) := by
    intro o ho
    have h := convertWords_eq ha hb hb62 hbb hn hlt hx (o := o)
      (fun table hm => ⟨(ht table (ho table hm)).1, (ht table (ho table hm)).2.1,
        fun _ _ _ => trivial⟩)
      (s.take slen) (s.drop slen)
      (by rw [hl]; exact (Nat.digits_length_le_iff (by omega) _).mp hslen)
    rw [List.take_append_drop, hl, numeralText_digits (by omega) hslen] at h
    exact h
  exact ⟨bb, ndigits, t, hmax, hdiv, hnone,
    fun table h => (ht table h).1.powerTable (by omega) hfirst hlt, hrun t fun _ h => h,
    hrun none fun _ h => absurd h (by simp)⟩

/-- Nine words of ones, in base 10: the number is split. -/
theorem convertWords_agrees_nine :
    ∃ bb ndigits t, maxPow 10 = .ok (bb, ndigits) ∧ divisors idealArith 9 10 ndigits bb = .ok t ∧
      (t = none ↔ 9 ≤ leafSize) ∧ (∀ table ∈ t, PowerTable (10 : Word).toNat table) ∧
      convertWords idealArith ⟨List.replicate 9 1, 9, 9⟩ (List.replicate 200 nul) 200 10 ndigits bb
          t (t.elim 0 List.length) =
        .ok (paddedDigits (10 : Word).toNat 200 (⟨List.replicate 9 1, 9, 9⟩ : CNat).val ++
          (List.replicate 200 nul).drop 200) ∧
      convertWords idealArith ⟨List.replicate 9 1, 9, 9⟩ (List.replicate 200 nul) 200 10 ndigits bb
          none 0 =
        .ok (paddedDigits (10 : Word).toNat 200 (⟨List.replicate 9 1, 9, 9⟩ : CNat).val ++
          (List.replicate 200 nul).drop 200) :=
  convertWords_agrees idealArith_exact (x := ⟨List.replicate 9 1, 9, 9⟩) ⟨by decide, by decide⟩
    (b := 10) (by decide) (by decide) (s := List.replicate 200 nul) List.length_replicate.ge
    ((Nat.digits_length_le_iff (by decide) _).mpr (by decide))

end CDemo.BigInt
