/-
# The schoolbook product

The loops that multiply by one word are exact, for no intermediate sum overflows: the largest is
`(2^64 - 1)^2 + 2 (2^64 - 1) = 2^128 - 1`.  With them `basicMul`, `natMulAddWW` and, in the order
of the squares first and the mixed products after, `basicSqr`.
-/
import CDemo.BigInt.Mul
import CDemo.BigInt.InPlace

namespace CDemo.BigInt

/-! ## 1. Products with one word -/

/-- Two words hold the product of two words and two words more. -/
theorem mul_add_add_lt {a b c d : Nat} (ha : a < radix) (hb : b < radix) (hc : c < radix)
    (hd : d < radix) : a * b + c + d < radix * radix := by
  have hab : a * b ≤ (radix - 1) * (radix - 1) := Nat.mul_le_mul (by omega) (by omega)
  obtain ⟨r, hr⟩ : ∃ r, radix = r + 1 := ⟨radix - 1, by have := radix_pos; omega⟩
  rw [hr] at hab hc hd ⊢
  rw [Nat.add_sub_cancel] at hab
  nlinarith

/-- A sum of a high word and a carry that fits is not cut off. -/
theorem toNat_add_of_fits {a b : Word} {lo v : Nat} (h : lo + radix * (a.toNat + b.toNat) = v)
    (hv : v < radix * radix) : (a + b).toNat = a.toNat + b.toNat := by
  rw [BitVec.toNat_add]
  refine Nat.mod_eq_of_lt ?_
  have : radix * (a.toNat + b.toNat) < radix * radix := by omega
  exact Nat.lt_of_mul_lt_mul_left this

/-- `mulAddWWW` before its carries are put together. -/
theorem mulAddWWW_parts (x y c : Word) :
    (u64Add (u64Mul x y).1 c 0).1.toNat +
        radix * ((u64Mul x y).2.toNat + (u64Add (u64Mul x y).1 c 0).2.toNat) =
      x.toNat * y.toNat + c.toNat := by
  have hmul := u64Mul_eq x y
  have hadd := u64Add_eq (u64Mul x y).1 c 0 (by decide)
  rw [word_zero, Nat.add_zero] at hadd
  linarith

/-- `hi + cc` fits a word. -/
theorem mulAddWWW_carry (x y c : Word) :
    ((u64Mul x y).2 + (u64Add (u64Mul x y).1 c 0).2).toNat =
      (u64Mul x y).2.toNat + (u64Add (u64Mul x y).1 c 0).2.toNat := by
  have hlt := mul_add_add_lt (toNat_lt_radix x) (toNat_lt_radix y) (toNat_lt_radix c) radix_pos
  exact toNat_add_of_fits (mulAddWWW_parts x y c) (by omega)

theorem mulAddWWW_eq (x y c : Word) :
    (mulAddWWW x y c).1.toNat + radix * (mulAddWWW x y c).2.toNat =
      x.toNat * y.toNat + c.toNat := by
  simp only [mulAddWWW]
  rw [mulAddWWW_carry, mulAddWWW_parts]

/-- A round of `addMulVVW` before its carries are put together. -/
theorem addMul_parts (x y z c : Word) :
    (u64Add (mulAddWWW x y z).1 c 0).1.toNat +
        radix * ((u64Add (mulAddWWW x y z).1 c 0).2.toNat + (mulAddWWW x y z).2.toNat) =
      x.toNat * y.toNat + z.toNat + c.toNat := by
  have hw := mulAddWWW_eq x y z
  have hadd := u64Add_eq (mulAddWWW x y z).1 c 0 (by decide)
  rw [word_zero, Nat.add_zero] at hadd
  linarith

/-- `cc + z1` fits a word. -/
theorem addMul_carry (x y z c : Word) :
    ((u64Add (mulAddWWW x y z).1 c 0).2 + (mulAddWWW x y z).2).toNat =
      (u64Add (mulAddWWW x y z).1 c 0).2.toNat + (mulAddWWW x y z).2.toNat :=
  toNat_add_of_fits (addMul_parts x y z c) (mul_add_add_lt (toNat_lt_radix x) (toNat_lt_radix y)
    (toNat_lt_radix z) (toNat_lt_radix c))

/-- **`addMulVVW` adds a multiple.** -/
theorem addMulLoop_spec (y : Word) :
    ∀ {n : Nat} {z x : List Word} {c : Word}, n ≤ z.length → n ≤ x.length →
      ∃ c' zs, addMulLoop y n z x c = .ok (c', zs ++ z.drop n) ∧ zs.length = n ∧
        value zs + c'.toNat * radix ^ n =
          value (z.take n) + value (x.take n) * y.toNat + c.toNat
  | 0, z, x, c, _, _ => ⟨c, [], rfl, rfl, by simp⟩
  | n + 1, [], _, _, hz, _ => by simp at hz
  | n + 1, _ :: _, [], _, _, hx => by simp at hx
  | n + 1, zi :: z, xi :: x, c, hz, hx => by
    have hv := addMul_parts xi y zi c
    obtain ⟨c', zs, hrun, hlen, hval⟩ := addMulLoop_spec y
      (c := (u64Add (mulAddWWW xi y zi).1 c 0).2 + (mulAddWWW xi y zi).2)
      (Nat.le_of_succ_le_succ hz) (Nat.le_of_succ_le_succ hx)
    refine ⟨c', (u64Add (mulAddWWW xi y zi).1 c 0).1 :: zs, ?_, by simp [hlen], ?_⟩
    · simp only [addMulLoop, hrun, Run.ok_bind]
      rfl
    · rw [addMul_carry] at hval
      simp only [List.take_succ_cons, value_cons, pow_succ]
      linear_combination hv + radix * hval

/-- **`mulAddVWW` multiplies by a word and adds one.** -/
theorem mulAddLoop_spec (y : Word) :
    ∀ {n : Nat} {z x : List Word} {c : Word}, n ≤ z.length → n ≤ x.length →
      ∃ c' zs, mulAddLoop y n z x c = .ok (c', zs ++ z.drop n) ∧ zs.length = n ∧
        value zs + c'.toNat * radix ^ n = value (x.take n) * y.toNat + c.toNat
  | 0, z, x, c, _, _ => ⟨c, [], rfl, rfl, by simp⟩
  | n + 1, [], _, _, hz, _ => by simp at hz
  | n + 1, _ :: _, [], _, _, hx => by simp at hx
  | n + 1, _ :: z, xi :: x, c, hz, hx => by
    have hw := mulAddWWW_eq xi y c
    obtain ⟨c', zs, hrun, hlen, hval⟩ := mulAddLoop_spec y (c := (mulAddWWW xi y c).2)
      (Nat.le_of_succ_le_succ hz) (Nat.le_of_succ_le_succ hx)
    refine ⟨c', (mulAddWWW xi y c).1 :: zs, ?_, by simp [hlen], ?_⟩
    · simp only [mulAddLoop, hrun, Run.ok_bind]
      rfl
    · simp only [List.take_succ_cons, value_cons, pow_succ]
      linear_combination hw + radix * hval

theorem Run.write_append {l : List Word} {i : Nat} (hi : l.length = i) (w a : Word)
    (r : List Word) : Run.write (l ++ w :: r) i a = .ok (l ++ a :: r) := by
  rw [Run.write_eq_ok (by simp [hi]), List.set_append_right _ _ hi.le, hi, Nat.sub_self]
  rfl

/-- A normal vector with the given number. -/
theorem natNorm_val {p : CNat} (hp : p.Valid) {v : Nat} (hv : p.val = v) :
    Run.Returns (natNorm p) (fun q => q.Valid ∧ Normal q.words ∧ q.val = v) := by
  obtain ⟨q, hq, -, -, -, hqv, hqn, hval⟩ := natNorm_eq hp
  exact ⟨q, hq, hqv, hqn, hval.trans hv⟩

/-- `q` lies in a block of `b` words with room for a product of `l` words, as its capacity says,
and above `q` there are zeros. -/
structure Roomy (q : CNat) (l b : Nat) : Prop where
  clean : Clean q
  block : q.data.length = b
  room : l ≤ b
  value_room : value (q.data.take l) = q.val
  cap : l ≤ q.cap

/-- What `natNorm` leaves behind has room. -/
theorem natNorm_roomy {p : CNat} (hp : p.Valid) (hcap : p.len ≤ p.cap) {v : Nat}
    (hv : p.val = v) : ∃ q, natNorm p = .ok q ∧ q.val = v ∧ Roomy q p.len p.data.length := by
  obtain ⟨q, hq, hqd, hqc, -, hqv, hqn, hval⟩ := natNorm_eq hp
  refine ⟨q, hq, hval.trans hv, ⟨hqv, hqn⟩, congrArg _ hqd, hp, ?_, ?_⟩
  · rw [hqd, hval]
    rfl
  · rw [hqc]
    exact hcap

/-- The number in a vector that fills its block. -/
theorem val_full {l : List Word} {n c : Nat} (h : l.length = n) :
    (⟨l, n, c⟩ : CNat).val = value l := by
  rw [CNat.val, CNat.words, List.take_of_length_le h.le]

/-- **`natMulAddWW` is exact.** -/
theorem natMulAddWW_exact {x : CNat} (hx : x.Valid) (y r : Word) :
    Run.Returns (natMulAddWW x y r) (fun q => q.Valid ∧ q.val = x.val * y.toNat + r.toNat ∧
      (x.len ≠ 0 → y ≠ 0 → Roomy q (x.len + 1) (x.len + 1)) ∧
      ((x.len = 0 ∨ y = 0) → q = natNew r)) := by
  rw [natMulAddWW]
  split
  · next h0 =>
    refine ⟨natNew r, rfl, by simp [natNew, CNat.Valid], ?_, ?_, fun _ => rfl⟩
    · have hxy : x.val * y.toNat = 0 := by
        rcases h0 with h | h
        · simp [CNat.val, CNat.words, h]
        · simp [h]
      rw [hxy]
      simp [natNew, CNat.val, CNat.words]
    · intro hx0 hy0
      rcases h0 with h | h
      · exact absurd h hx0
      · exact absurd h hy0
  · next h0 =>
    obtain ⟨c', zs, hrun, hlen, hval⟩ := mulAddLoop_spec y (n := x.len) (c := r)
      (z := (natNewLen (x.len + 1)).data) (by simp) hx
    have hfull : (zs ++ [c']).length = x.len + 1 := by simp [hlen]
    obtain ⟨q, hq, hqval, hroom⟩ := natNorm_roomy
      (p := ⟨zs ++ [c'], x.len + 1, x.len + 1⟩) hfull.ge le_rfl (val_full hfull)
    rw [show (zs ++ [c']).length = x.len + 1 from hfull] at hroom
    refine ⟨q, ?_, hroom.clean.1, ?_, fun _ _ => hroom, fun h => absurd h h0⟩
    · have hm : mulAddVWW ⟨(natNewLen (x.len + 1)).data.drop 0, x.len - 0, x.len - 0⟩ x y r =
          .ok (c', zs ++ [0]) := by
        simp only [mulAddVWW, List.drop_zero, Nat.sub_zero, Nat.min_self, hrun]
        rw [natNewLen_data, List.drop_replicate, Nat.add_sub_cancel_left]
        rfl
      simp only [natPart_eq _ (Nat.zero_le _), Run.ok_bind, hm, Run.write_append hlen]
      exact hq
    · rw [hqval, value_append, hlen, value_cons, value_nil, Nat.mul_zero, Nat.add_zero,
        Nat.mul_comm (radix ^ x.len)]
      exact hval

/-! ## 2. `basicMul` -/

/-- A round of `basicMul` on `x.len` words and a zero above them. -/
theorem basicMulRound_spec {x : CNat} (hx : x.Valid) (yi : Word) {w : List Word}
    (rest : List Word) (hw : w.length = x.len) :
    ∃ w0 w', basicMulRound x yi (w ++ 0 :: rest) = .ok ((w0 :: w') ++ rest) ∧
      w'.length = x.len ∧ value (w0 :: w') = value w + x.val * yi.toNat := by
  suffices h : ∃ lo c, basicMulRound x yi (w ++ 0 :: rest) = .ok ((lo ++ [c]) ++ rest) ∧
      lo.length = x.len ∧ value (lo ++ [c]) = value w + x.val * yi.toNat by
    obtain ⟨lo, c, hrun, hlo, hval⟩ := h
    obtain ⟨w0, w', hw⟩ := List.exists_cons_of_ne_nil (l := lo ++ [c]) (by simp)
    have hlen := congrArg List.length hw
    rw [List.length_append, hlo, List.length_cons, List.length_cons, List.length_nil] at hlen
    exact ⟨w0, w', hw ▸ hrun, by omega, hw ▸ hval⟩
  rw [basicMulRound]
  by_cases hyi : yi = 0
  · refine ⟨w, 0, ?_, hw, ?_⟩
    · rw [if_neg (not_not.mpr hyi), List.append_assoc]
      rfl
    · rw [value_append, hyi]
      simp
  · obtain ⟨c, zs, hrun, hlen, hval⟩ := addMulLoop_spec yi (n := x.len) (c := 0)
      (z := w ++ 0 :: rest) (by simp [hw]) hx
    refine ⟨zs, c, ?_, hlen, ?_⟩
    · rw [if_pos hyi]
      simp only [addMulVVW, Nat.min_self, hrun, Run.ok_bind]
      rw [List.drop_left' hw, Run.write_append hlen, List.append_assoc]
      rfl
    · rw [List.take_left' hw, word_zero,
        x.value_take_len] at hval
      rw [value_append, hlen, value_cons, value_nil]
      linarith

/-- The loop of `basicMul`: the storage starts with `x.len` words and as many zeros as there are
rounds to go. -/
theorem basicMulLoop_spec {x : CNat} (hx : x.Valid) :
    ∀ {n : Nat} {w y : List Word} (rest : List Word), w.length = x.len → n ≤ y.length →
      ∃ out, basicMulLoop x n (w ++ (List.replicate n 0 ++ rest)) y = .ok (out ++ rest) ∧
        out.length = x.len + n ∧ value out = value w + x.val * value (y.take n)
  | 0, w, y, rest, hw, _ => ⟨w, by simp [basicMulLoop], hw, by simp⟩
  | n + 1, _, [], _, _, hy => by simp at hy
  | n + 1, w, yi :: y, rest, hw, hy => by
    obtain ⟨w0, w', hround, hw', hval⟩ := basicMulRound_spec hx yi
      (List.replicate n 0 ++ rest) hw
    obtain ⟨out, hrun, hlen, hout⟩ := basicMulLoop_spec hx rest hw'
      (Nat.le_of_succ_le_succ hy)
    refine ⟨w0 :: out, ?_, by simp [hlen]; omega, ?_⟩
    · rw [basicMulLoop, List.replicate_succ, List.cons_append, hround, Run.ok_bind]
      simp only [List.cons_append, List.drop_succ_cons, List.drop_zero, hrun, Run.ok_bind,
        List.take_succ_cons, List.take_zero, List.nil_append]
    · simp only [List.take_succ_cons, value_cons] at hval ⊢
      rw [hout]
      linear_combination hval

/-- **`basicMul` is exact**, and leaves the words above the product. -/
theorem basicMul_spec {z x y : CNat} (hx : x.Valid) (hy : y.Valid)
    (hz : x.len + y.len ≤ z.data.length) :
    ∃ out, basicMul z x y = .ok (out ++ z.data.drop (x.len + y.len)) ∧
      out.length = x.len + y.len ∧ value out = x.val * y.val := by
  obtain ⟨out, hrun, hlen, hval⟩ := basicMulLoop_spec hx (n := y.len)
    (w := List.replicate x.len 0) (z.data.drop (x.len + y.len)) (by simp) hy
  refine ⟨out, ?_, hlen, by rw [hval, value_replicate_zero, Nat.zero_add]; rfl⟩
  rw [basicMul, natPart_eq _ (Nat.zero_le _), Run.ok_bind, natClear_eq, Run.ok_bind]
  · simp only [List.drop_zero, Nat.sub_zero, ← List.append_assoc, List.replicate_append_replicate]
      at hrun ⊢
    exact hrun
  · simpa [CNat.Valid] using hz

/-! ## 3. The carries, watched -/

/-- The sum of two carry words; a sum that does not fit a word stops the run. -/
def carrySum (a b : Word) : Run Word := do
  Run.assert (a.toNat + b.toNat < radix)
  .ok (a + b)

/-- `mulAddWWW`, with `hi + cc` watched. -/
def mulAddWWWIn (x y c : Word) : Run (Word × Word) := do
  let (lo, hi) := u64Mul x y
  let (lo, cc) := u64Add lo c 0
  let z1 ← carrySum hi cc
  .ok (lo, z1)

/-- The loop of `addMulVVW`, with `cc + z1` watched as well. -/
def addMulLoopIn (y : Word) : Nat → List Word → List Word → Word → Run (Word × List Word)
  | 0, z, _, c => .ok (c, z)
  | n + 1, zi :: z, xi :: x, c => do
    let (z0, z1) ← mulAddWWWIn xi y zi
    let (lo, cc) := u64Add z0 c 0
    let c ← carrySum cc z1
    let (c, z) ← addMulLoopIn y n z x c
    .ok (c, lo :: z)
  | _ + 1, _, _, _ => .error .outOfBounds

def addMulVVWIn (z x : CNat) (y : Word) : Run (Word × List Word) :=
  addMulLoopIn y (min z.len x.len) z.data x.data 0

theorem carrySum_eq {a b : Word} (h : (a + b).toNat = a.toNat + b.toNat) :
    carrySum a b = .ok (a + b) := by
  have hlt : a.toNat + b.toNat < radix := h ▸ toNat_lt_radix (a + b)
  rw [carrySum, decide_eq_true hlt, Run.assert_true, Run.ok_bind]

theorem mulAddWWWIn_eq (x y c : Word) : mulAddWWWIn x y c = .ok (mulAddWWW x y c) := by
  have hsum := carrySum_eq (mulAddWWW_carry x y c)
  simp only [mulAddWWWIn, hsum, Run.ok_bind]
  rfl

/-- No carry of `addMulVVW` overflows, whatever the words are. -/
theorem addMulLoopIn_eq (y : Word) :
    ∀ (n : Nat) (z x : List Word) (c : Word), addMulLoopIn y n z x c = addMulLoop y n z x c
  | 0, _, _, _ => rfl
  | _ + 1, [], _, _ => rfl
  | _ + 1, _ :: _, [], _ => rfl
  | n + 1, zi :: z, xi :: x, c => by
    simp only [addMulLoopIn, addMulLoop, mulAddWWWIn_eq, Run.ok_bind,
      carrySum_eq (addMul_carry xi y zi c), addMulLoopIn_eq y n z x]

theorem addMulVVWIn_eq (z x : CNat) (y : Word) : addMulVVWIn z x y = addMulVVW z x y :=
  addMulLoopIn_eq y _ _ _ _

end CDemo.BigInt
