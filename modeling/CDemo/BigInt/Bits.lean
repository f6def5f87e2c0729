/-
# Bit counts and shifts

The bit counts of `base.c` and the shifts of `natdiv.c`.

The trailing zeros are looked up by a de Bruijn product, whose top bits name the lowest set bit.
For 64 bits the product wraps where it has to.  For 16 and 32 bits it should wrap at 32, but
`deBruijn32` is declared `uint64_t` and so the product has 64 bits: from bit 6 on the index lies
outside the table.

`shlVU` walks down and `shrVU` walks
up, so that each of them may work in place: no word is read after it was written.  The loops
here go up in both cases and hand on the neighbouring word.
-/
import CDemo.BigInt.Nat
import CDemo.Lib.LowestBit
import Mathlib.Data.Nat.Size

namespace CDemo.BigInt

/-! ## 1. Bit counts -/

/-- `len8tab`: 0, 1, then two 2s, four 3s, and so on up to 128 8s. -/
def len8tab : List Nat :=
  0 :: (List.range 8).flatMap fun k => List.replicate (2 ^ k) (k + 1)

/-- One test of `Len64`: if `x` has more than `k` bits, they are shifted out and counted. -/
def lenStep (k : Nat) (p : Word × Nat) : Word × Nat :=
  if 1#64 <<< k ≤ p.1 then (p.1 >>> k, p.2 + k) else p

def len64 (x : Word) : Run Nat := do
  let (x, n) := lenStep 8 (lenStep 16 (lenStep 32 (x, 0)))
  let l ← Run.read len8tab x.toNat
  .ok (n + l)

/-- `LeadingZeros64`, which is also `nlz`. -/
def nlz (x : Word) : Run Nat := do
  let l ← len64 x
  .ok (64 - l)

def deBruijn64 : Word := 0x03f79d71b4ca8b09

def deBruijn64tab : List Nat :=
  [0, 1, 56, 2, 57, 49, 28, 3, 61, 58, 42, 50, 38, 29, 17, 4,
   62, 47, 59, 36, 45, 43, 51, 22, 53, 39, 33, 30, 24, 18, 12, 5,
   63, 55, 48, 27, 60, 41, 37, 16, 46, 35, 44, 21, 52, 32, 23, 11,
   54, 26, 40, 15, 34, 20, 31, 10, 25, 14, 19, 9, 13, 8, 7, 6]

def trailingZeros64 (x : Word) : Run Nat :=
  if x = 0 then .ok 64
  else Run.read deBruijn64tab (((x &&& -x) * deBruijn64) >>> 58).toNat

/-- Declared `uint64_t`. -/
def deBruijn32 : Word := 0x077CB531

def deBruijn32tab : List Nat :=
  [0, 1, 28, 2, 29, 14, 24, 3, 30, 22, 20, 15, 25, 17, 4, 8,
   31, 27, 13, 23, 21, 19, 16, 7, 26, 12, 18, 6, 11, 5, 10, 9]

/-- `deBruijn32tab[(x & -x) * deBruijn32 >> (32 - 5)]`: the product is one of 64 bits. -/
def lookup32 (x : BitVec 32) : Run Nat :=
  Run.read deBruijn32tab (((x &&& -x).setWidth 64 * deBruijn32) >>> 27).toNat

def trailingZeros16 (x : BitVec 16) : Run Nat :=
  if x = 0 then .ok 16 else lookup32 (x.setWidth 32)

def trailingZeros32 (x : BitVec 32) : Run Nat := if x = 0 then .ok 32 else lookup32 x

/-- A byte has as many bits as the table says. -/
theorem len8tab_eq (b : Nat) (hb : b < 256) : len8tab[b]? = some b.size := by
  have h : ∀ b : Fin 256, len8tab[b.val]? = some b.val.size := by decide +kernel
  exact h ⟨b, hb⟩

/-- `k` bits more. -/
theorem size_div_pow {x k : Nat} (hle : 2 ^ k ≤ x) : x.size = (x / 2 ^ k).size + k := by
  have hpos : 0 < 2 ^ k := by positivity
  refine le_antisymm ?_ ?_
  · rw [Nat.size_le, pow_add]
    exact (Nat.div_lt_iff_lt_mul hpos).mp (Nat.lt_size_self _)
  · have hsize : 0 < (x / 2 ^ k).size := Nat.size_pos.mpr (Nat.div_pos hle hpos)
    have hlt : (x / 2 ^ k).size - 1 < (x / 2 ^ k).size := Nat.sub_lt hsize Nat.zero_lt_one
    have hge := (Nat.le_div_iff_mul_le hpos).mp (Nat.lt_size.mp hlt)
    rw [← pow_add] at hge
    have := Nat.lt_size.mpr hge
    omega

/-- `lenStep` drops exactly the bits it counts, and half of the bits remain. -/
theorem lenStep_spec {k : Nat} (hk : k < 64) {p : Word × Nat} (hp : p.1.toNat < 2 ^ (k + k)) :
    (lenStep k p).2 + (lenStep k p).1.toNat.size = p.2 + p.1.toNat.size ∧
      (lenStep k p).1.toNat < 2 ^ k := by
  have hone : (1#64 <<< k).toNat = 2 ^ k := by
    rw [BitVec.toNat_shiftLeft, BitVec.toNat_ofNat, Nat.one_mod_eq_one.mpr (by decide),
      Nat.one_shiftLeft, Nat.mod_eq_of_lt (Nat.pow_lt_pow_right (by decide) hk)]
  by_cases hle : 1#64 <<< k ≤ p.1
  · rw [lenStep, if_pos hle, toNat_shr]
    rw [BitVec.le_def, hone] at hle
    rw [pow_add] at hp
    refine ⟨?_, Nat.div_lt_of_lt_mul hp⟩
    rw [size_div_pow hle]
    omega
  · rw [lenStep, if_neg hle]
    rw [BitVec.le_def, hone] at hle
    exact ⟨rfl, Nat.lt_of_not_le hle⟩

/-- **`Len64` counts the bits of a word.** -/
theorem len64_eq (x : Word) : len64 x = .ok x.toNat.size := by
  obtain ⟨h1, b1⟩ := lenStep_spec (k := 32) (by decide) (p := (x, 0)) x.isLt
  obtain ⟨h2, b2⟩ := lenStep_spec (k := 16) (by decide) b1
  obtain ⟨h3, b3⟩ := lenStep_spec (k := 8) (by decide) b2
  rw [len64]
  simp only [Run.read_eq_ok (len8tab_eq _ b3), Run.ok_bind]
  rw [h3, h2, h1, Nat.zero_add]

theorem nlz_eq (x : Word) : nlz x = .ok (64 - x.toNat.size) := by
  rw [nlz, len64_eq, Run.ok_bind]

/-- Shifted left by `nlz` a word has its top bit set. -/
theorem nlz_shift {x : Word} (hx : x ≠ 0) :
    64 - x.toNat.size < 64 ∧ x.toNat * 2 ^ (64 - x.toNat.size) < 2 ^ 64 ∧
      2 ^ 63 ≤ x.toNat * 2 ^ (64 - x.toNat.size) := by
  have hpos : 0 < x.toNat := Nat.pos_of_ne_zero fun h => hx (BitVec.eq_of_toNat_eq h)
  have hsize : 0 < x.toNat.size := Nat.size_pos.mpr hpos
  have hle : x.toNat.size ≤ 64 := Nat.size_le.mpr x.isLt
  have hlt : x.toNat < 2 ^ x.toNat.size := Nat.lt_size_self _
  have hge : 2 ^ (x.toNat.size - 1) ≤ x.toNat := Nat.lt_size.mp (Nat.sub_lt hsize Nat.zero_lt_one)
  refine ⟨by omega, ?_, ?_⟩
  · calc x.toNat * 2 ^ (64 - x.toNat.size)
        < 2 ^ x.toNat.size * 2 ^ (64 - x.toNat.size) :=
          Nat.mul_lt_mul_of_pos_right hlt (by positivity)
      _ = 2 ^ 64 := by rw [← pow_add, Nat.add_sub_cancel' hle]
  · calc 2 ^ 63 = 2 ^ (x.toNat.size - 1) * 2 ^ (64 - x.toNat.size) := by
          rw [← pow_add]; congr 1; omega
      _ ≤ x.toNat * 2 ^ (64 - x.toNat.size) := Nat.mul_le_mul_right _ hge

/-- The table of 64 entries matches its constant at every bit. -/
theorem deBruijn64_entry (k : Fin 64) :
    Run.read deBruijn64tab ((BitVec.twoPow 64 k * deBruijn64) >>> 58).toNat = .ok k.val := by
  revert k
  decide

/-- The table of 32 entries is reached for the lowest six bits only. -/
theorem deBruijn32_entry (k : Fin 32) :
    Run.read deBruijn32tab (((BitVec.twoPow 32 k).setWidth 64 * deBruijn32) >>> 27).toNat =
      if k.val < 6 then .ok k.val else .error .outOfBounds := by
  revert k
  decide

theorem lookup32_eq {x : BitVec 32} {k : Nat} (h : IsTrailingZeros x k) (hk : k < 32) :
    lookup32 x = if k < 6 then .ok k else .error .outOfBounds := by
  rw [lookup32, h.and_neg hk]
  exact deBruijn32_entry ⟨k, hk⟩

/-- A lookup that stops at `6` is right exactly for the numbers with a bit below that. -/
theorem returns_lookup_iff {w k : Nat} {x : BitVec w} (h : IsTrailingZeros x k) (hx : x ≠ 0) :
    Run.Returns (if k < 6 then .ok k else .error .outOfBounds) (IsTrailingZeros x) ↔
      x = 0 ∨ x.toNat % 64 ≠ 0 := by
  have hmod : k < 6 ↔ x.toNat % 64 ≠ 0 := h.lt_iff_mod (h.lt_of_ne_zero hx) 6
  rw [or_iff_right hx, ← hmod]
  by_cases hk : k < 6
  · rw [if_pos hk]
    exact iff_of_true (Run.returns_ok.mpr h) hk
  · rw [if_neg hk]
    exact iff_of_false Run.not_returns_error hk

/-- **When the trailing zeros are counted.**  For 64 bits always; for 16 and 32 bits when there are
none but zeros, or fewer than six. -/
theorem trailingZeros_iff (x16 : BitVec 16) (x32 : BitVec 32) (x64 : Word) :
    (Run.Returns (trailingZeros16 x16) (IsTrailingZeros x16) ↔ x16 = 0 ∨ x16.toNat % 64 ≠ 0) ∧
    (Run.Returns (trailingZeros32 x32) (IsTrailingZeros x32) ↔ x32 = 0 ∨ x32.toNat % 64 ≠ 0) ∧
    Run.Returns (trailingZeros64 x64) (IsTrailingZeros x64) := by
  refine ⟨?_, ?_, ?_⟩
  · rw [trailingZeros16]
    by_cases hx : x16 = 0
    · rw [if_pos hx, hx]
      exact iff_of_true (Run.returns_ok.mpr isTrailingZeros_zero) (.inl rfl)
    · obtain ⟨k, hk⟩ := exists_isTrailingZeros x16
      have hlt := hk.lt_of_ne_zero hx
      rw [if_neg hx, lookup32_eq (hk.setWidth hlt (by decide)) (hlt.trans (by decide))]
      exact returns_lookup_iff hk hx
  · rw [trailingZeros32]
    by_cases hx : x32 = 0
    · rw [if_pos hx, hx]
      exact iff_of_true (Run.returns_ok.mpr isTrailingZeros_zero) (.inl rfl)
    · obtain ⟨k, hk⟩ := exists_isTrailingZeros x32
      rw [if_neg hx, lookup32_eq hk (hk.lt_of_ne_zero hx)]
      exact returns_lookup_iff hk hx
  · rw [trailingZeros64]
    by_cases hx : x64 = 0
    · rw [if_pos hx, hx]
      exact Run.returns_ok.mpr isTrailingZeros_zero
    · obtain ⟨k, hk⟩ := exists_isTrailingZeros x64
      have hlt := hk.lt_of_ne_zero hx
      rw [if_neg hx, hk.and_neg hlt, deBruijn64_entry ⟨k, hlt⟩]
      exact Run.returns_ok.mpr hk

/-- The number 64 has six trailing zeros, and its index is 59. -/
theorem bit_six_outside_table :
    trailingZeros16 64 = .error .outOfBounds ∧ trailingZeros32 64 = .error .outOfBounds ∧
      IsTrailingZeros (64 : BitVec 16) 6 ∧ IsTrailingZeros (64 : BitVec 32) 6 := by
  refine ⟨by decide, by decide, ⟨by decide, by decide, fun _ => by decide⟩, ?_⟩
  exact ⟨by decide, by decide, fun _ => by decide⟩

/-! ## 2. Shifts of vectors -/

/-- The loop of `shlVU`; `prev` is the word below, and `s1` is `_W - s`. -/
def shlLoop (s s1 : Nat) : Nat → Word → List Word → List Word → Run (Word × List Word)
  | 0, prev, z, _ => .ok (prev >>> s1, z)
  | n + 1, prev, _ :: z, xi :: x => do
    let (c, z) ← shlLoop s s1 n xi z x
    .ok (c, (xi <<< s ||| prev >>> s1) :: z)
  | _ + 1, _, _, _ => .error .outOfBounds

/-- `shlVU(z, x, s)`: the bits shifted out, and the words at `z`. -/
def shlVU (z x : CNat) (s : Nat) : Run (Word × List Word) :=
  if s = 0 then do
    let data ← natCopy z x
    .ok (0, data)
  else if z.len = 0 then .ok (0, z.data)
  else shlLoop (s % 64) ((64 - s % 64) % 64) z.len 0 z.data x.data

/-- The loop of `shrVU`. -/
def shrLoop (s s1 : Nat) : Nat → List Word → List Word → Run (List Word)
  | 0, z, _ => .ok z
  | 1, _ :: z, xi :: _ => .ok (xi >>> s :: z)
  | n + 2, _ :: z, xi :: xj :: x => do
    let z ← shrLoop s s1 (n + 1) z (xj :: x)
    .ok ((xi >>> s ||| xj <<< s1) :: z)
  | _ + 1, _, _ => .error .outOfBounds

/-- `shrVU(z, x, s)`: the words at `z`. -/
def shrVU (z x : CNat) (s : Nat) : Run (List Word) := do
  Run.assert (x.len = z.len)
  if s = 0 then natCopy z x
  else if z.len = 0 then .ok z.data
  else shrLoop (s % 64) ((64 - s % 64) % 64) z.len z.data x.data

/-- The words of `shlLoop`. -/
def shlWords (s : Nat) : Word → List Word → Word × List Word
  | prev, [] => (prev >>> (64 - s), [])
  | prev, x :: xs => ((shlWords s x xs).1, (x <<< s ||| prev >>> (64 - s)) :: (shlWords s x xs).2)

theorem length_shlWords (s : Nat) : ∀ (prev : Word) (xs : List Word),
    (shlWords s prev xs).2.length = xs.length
  | _, [] => rfl
  | _, x :: xs => by simp only [shlWords, List.length_cons, length_shlWords s x xs]

theorem shlLoop_eq {s : Nat} :
    ∀ {n : Nat} {prev : Word} {z x : List Word}, n ≤ z.length → n ≤ x.length →
      shlLoop s (64 - s) n prev z x = .ok ((shlWords s prev (x.take n)).1,
        (shlWords s prev (x.take n)).2 ++ z.drop n)
  | 0, prev, z, x, _, _ => by simp [shlLoop, shlWords]
  | n + 1, _, [], _, hz, _ => by simp at hz
  | n + 1, _, _ :: _, [], _, hx => by simp at hx
  | n + 1, prev, _ :: z, xi :: x, hz, hx => by
    simp only [shlLoop, shlLoop_eq (Nat.le_of_succ_le_succ hz) (Nat.le_of_succ_le_succ hx),
      Run.ok_bind]
    rfl

/-- A word shifted left, with the bits that the word below hands on. -/
theorem toNat_shl_or {s : Nat} (hs : 0 < s) (hs' : s < 64) (x prev : Word) :
    (x <<< s ||| prev >>> (64 - s)).toNat + radix * (x >>> (64 - s)).toNat =
      x.toNat * 2 ^ s + (prev >>> (64 - s)).toNat := by
  have hpow : (2 : Nat) ^ 64 = 2 ^ s * 2 ^ (64 - s) := by rw [← pow_add]; congr 1; omega
  have hprev : (prev >>> (64 - s)).toNat < 2 ^ s := by
    rw [toNat_shr]
    refine Nat.div_lt_of_lt_mul ?_
    rw [Nat.mul_comm, ← hpow]
    exact prev.isLt
  have hlow : (x <<< s).toNat = (x.toNat % 2 ^ (64 - s)) <<< s := by
    rw [BitVec.toNat_shiftLeft, Nat.shiftLeft_eq, Nat.shiftLeft_eq, hpow, Nat.mul_comm (2 ^ s),
      Nat.mul_mod_mul_right]
  rw [BitVec.toNat_or, hlow, ← Nat.shiftLeft_add_eq_or_of_lt hprev, Nat.shiftLeft_eq,
    toNat_shr x, radix, hpow]
  have hdiv := Nat.mod_add_div x.toNat (2 ^ (64 - s))
  generalize x.toNat % 2 ^ (64 - s) = r at *
  generalize x.toNat / 2 ^ (64 - s) = q at *
  rw [← hdiv]
  ring

/-- The number of the words of `shlLoop`. -/
theorem value_shlWords {s : Nat} (hs : 0 < s) (hs' : s < 64) :
    ∀ (prev : Word) (xs : List Word),
      value (shlWords s prev xs).2 + (shlWords s prev xs).1.toNat * radix ^ xs.length =
        value xs * 2 ^ s + (prev >>> (64 - s)).toNat
  | prev, [] => by simp [shlWords]
  | prev, x :: xs => by
    have hstep := toNat_shl_or hs hs' x prev
    have ih := value_shlWords hs hs' x xs
    simp only [shlWords, value_cons, List.length_cons, pow_succ]
    linear_combination hstep + radix * ih

/-- **`shlVU` multiplies by `2^s`**: what it returns are the bits above the vector. -/
theorem shlVU_spec {z x : CNat} (hz : z.Valid) (hx : x.Valid) (hlen : z.len = x.len) {s : Nat}
    (hs : 0 < s) (hs' : s < 64) :
    ∃ c ws, shlVU z x s = .ok (c, ws ++ z.data.drop z.len) ∧ ws.length = z.len ∧
      value ws + c.toNat * radix ^ z.len = x.val * 2 ^ s := by
  have hzx : z.len ≤ x.data.length := hlen ▸ hx
  rw [shlVU, if_neg hs.ne']
  by_cases h0 : z.len = 0
  · have hval : x.val = 0 := by rw [CNat.val, CNat.words, ← hlen, h0, List.take_zero, value_nil]
    rw [if_pos h0]
    refine ⟨0, [], ?_, h0.symm, ?_⟩
    · rw [h0]
      rfl
    · rw [hval, word_zero, value_nil, Nat.zero_mul, Nat.zero_mul]
  · have hv := value_shlWords hs hs' 0 (x.data.take z.len)
    have h00 : ((0 : Word) >>> (64 - s)).toNat = 0 := by rw [toNat_shr, word_zero, Nat.zero_div]
    rw [List.length_take_of_le hzx, h00, Nat.add_zero] at hv
    rw [if_neg h0, Nat.mod_eq_of_lt hs', Nat.mod_eq_of_lt (Nat.sub_lt (by decide) hs)]
    refine ⟨_, _, shlLoop_eq hz hzx, ?_, ?_⟩
    · rw [length_shlWords, List.length_take_of_le hzx]
    · rw [hv, hlen, x.value_take_len]

/-- The words of `shrLoop`. -/
def shrWords (s : Nat) : List Word → List Word
  | [] => []
  | [x] => [x >>> s]
  | x :: y :: xs => (x >>> s ||| y <<< (64 - s)) :: shrWords s (y :: xs)

theorem length_shrWords (s : Nat) : ∀ xs : List Word, (shrWords s xs).length = xs.length
  | [] => rfl
  | [_] => rfl
  | _ :: y :: xs => by
    simp only [shrWords, List.length_cons, length_shrWords s (y :: xs)]

theorem shrLoop_eq {s : Nat} :
    ∀ {n : Nat} {z x : List Word}, n ≤ z.length → n ≤ x.length →
      shrLoop s (64 - s) n z x = .ok (shrWords s (x.take n) ++ z.drop n)
  | 0, z, x, _, _ => by simp [shrLoop, shrWords]
  | n + 1, [], _, hz, _ => by simp at hz
  | n + 1, _ :: _, [], _, hx => by simp at hx
  | 1, _ :: z, xi :: x, _, _ => by simp [shrLoop, shrWords]
  | n + 2, _ :: z, [xi], _, hx => by simp at hx
  | n + 2, _ :: z, xi :: xj :: x, hz, hx => by
    simp only [shrLoop, shrLoop_eq (x := xj :: x) (Nat.le_of_succ_le_succ hz)
      (Nat.le_of_succ_le_succ hx), Run.ok_bind]
    rfl

/-- **`shrVU` divides by `2^s`.** -/
theorem value_shrWords {s : Nat} (hs : 0 < s) (hs' : s < 64) :
    ∀ xs : List Word, value (shrWords s xs) = value xs / 2 ^ s
  | [] => by simp [shrWords]
  | [x] => by
    simp only [shrWords, value_cons, value_nil, Nat.mul_zero, Nat.add_zero,
      toNat_shr]
  | x :: y :: xs => by
    have ih := value_shrWords hs hs' (y :: xs)
    have hpow : radix = 2 ^ s * 2 ^ (64 - s) := by rw [radix, ← pow_add]; congr 1; omega
    have hstep := toNat_shl_or (s := 64 - s) (by omega) (by omega) y x
    rw [show 64 - (64 - s) = s by omega] at hstep
    rw [shrWords, value_cons, ih, BitVec.or_comm, value_cons x]
    rw [toNat_shr x, toNat_shr y] at hstep
    have hrest : value (y :: xs) / 2 ^ s = y.toNat / 2 ^ s + 2 ^ (64 - s) * value xs := by
      rw [value_cons, hpow, Nat.mul_assoc, Nat.add_mul_div_left _ _ (by positivity)]
    have hall : (x.toNat + radix * value (y :: xs)) / 2 ^ s =
        x.toNat / 2 ^ s + 2 ^ (64 - s) * value (y :: xs) := by
      rw [hpow, Nat.mul_assoc, Nat.add_mul_div_left _ _ (by positivity)]
    rw [hall, hrest, value_cons]
    linear_combination hstep

end CDemo.BigInt
