/-
# Squares

`natSqr` has a path of its own for every length: `basicSqr` adds the squares of the words and
twice the products of different words, `karatsubaSqr` is Karatsuba with one distance, which is
always subtracted, and the blocks above the lowest one come in twice and squared.
-/
import CDemo.BigInt.Product

namespace CDemo.BigInt

/-! ## 1. `basicSqr` -/

/-- The word at `i` is the digit at `i`. -/
theorem toNat_getElem {x : CNat} (hx : x.Valid) {i : Nat} (hi : i < x.len)
    (hil : i < x.data.length) : x.val % radix ^ (i + 1) = x.val % radix ^ i +
      radix ^ i * x.data[i].toNat := by
  have h1 := value_take_succ hil
  have h2 : value (x.data.take (i + 1)) = x.val % radix ^ (i + 1) := low_val hx hi
  have h3 : value (x.data.take i) = x.val % radix ^ i := low_val hx hi.le
  rw [h2, h3] at h1
  exact h1

/-- The square of a word, written at its place. -/
theorem value_set_square {z : List Word} {i : Nat} (hz : 2 * i + 1 < z.length) (d : Word) :
    value (((z.set (2 * i + 1) (u64Mul d d).2).set (2 * i) (u64Mul d d).1).take (2 * (i + 1))) =
      value (z.take (2 * i)) + radix ^ (2 * i) * (d.toNat * d.toNat) := by
  have hsq := u64Mul_eq d d
  generalize hz1 : (z.set (2 * i + 1) (u64Mul d d).2).set (2 * i) (u64Mul d d).1 = z1
  have hl : z1.length = z.length := by simp [← hz1]
  have h1 : z1[2 * i + 1] = (u64Mul d d).2 := by simp [← hz1]
  have h2 : z1[2 * i] = (u64Mul d d).1 := by simp [← hz1]
  have h3 : z1.take (2 * i) = z.take (2 * i) := by
    rw [← hz1, List.take_set_of_le le_rfl, List.take_set_of_le (by omega)]
  rw [show 2 * (i + 1) = 2 * i + 1 + 1 by ring, value_take_succ (by omega),
    value_take_succ (by omega), ← hsq, h1, h2, h3, pow_succ]
  ring

/-- A round of `basicSqr` on the mixed products: a zero, `2i - 2` words, and zeros. -/
theorem mixed_round {x : CNat} (hx : x.Valid) {i r : Nat} {t : List Word} (hi : 1 ≤ i)
    (hil : i ≤ x.len) (ht : t.length = 2 * i - 2) (d : Word) :
    ∃ T c zs t1, T = (0 : Word) :: (t ++ List.replicate (2 * (r + 1) + 1) 0) ∧
      addMulLoop d i (T.drop i) x.data 0 = .ok (c, zs) ∧
      Run.write (splice T i zs) (2 * i) c = .ok (0 :: (t1 ++ List.replicate (2 * r + 1) 0)) ∧
      t1.length = 2 * (i + 1) - 2 ∧
      radix * value t1 = radix * value t + radix ^ i * (x.val % radix ^ i * d.toNat) := by
  have hxl : x.len ≤ x.data.length := hx
  obtain ⟨T, hT⟩ : ∃ T, T = (0 : Word) :: (t ++ List.replicate (2 * (r + 1) + 1) 0) := ⟨_, rfl⟩
  have hTl : T.length = 2 * i + 2 * (r + 1) := by
    rw [hT, List.length_cons, List.length_append, List.length_replicate]
    omega
  have hT2 : T.take (i + i) = (0 : Word) :: (t ++ [0]) := by
    rw [hT, show i + i = (2 * i - 2 + 1) + 1 by omega, List.take_succ_cons,
      List.take_append, ht, List.take_of_length_le (by omega), Nat.add_sub_cancel_left]
    rfl
  have hTd : T.drop (i + i) = (0 : Word) :: List.replicate (2 * r + 1) 0 := by
    rw [hT, show i + i = (2 * i - 2 + 1) + 1 by omega, List.drop_succ_cons,
      List.drop_append, ht, List.drop_of_length_le (by omega), Nat.add_sub_cancel_left]
    rfl
  have hTi : (T.take i).length = i := List.length_take_of_le (by omega)
  obtain ⟨c, zs, hrun, hlen, hmul⟩ := addMulLoop_spec d (n := i) (c := 0) (z := T.drop i)
    (x := x.data) (by rw [List.length_drop]; omega) (by omega)
  rw [word_zero, Nat.add_zero,
    show value (x.data.take i) = x.val % radix ^ i from low_val hx hil] at hmul
  -- the low words, the sums and the carry, after the zero at the bottom
  obtain ⟨t1, ht1⟩ : ∃ t1, T.take i ++ (zs ++ [c]) = 0 :: t1 := by
    obtain ⟨j, hj⟩ : ∃ j, i = j + 1 := ⟨i - 1, by omega⟩
    rw [hT, hj, List.take_succ_cons]
    exact ⟨_, rfl⟩
  refine ⟨T, c, _, t1, hT, hrun, ?_, ?_, ?_⟩
  · rw [splice, List.drop_drop, hTd, ← List.append_assoc, Run.write_append (by
      rw [List.length_append, hTi, hlen]; omega), ← List.cons_append, ← ht1]
    simp
  · have := congrArg List.length ht1
    rw [List.length_append, hTi, List.length_append, hlen, List.length_cons, List.length_cons,
      List.length_nil] at this
    omega
  · have h1 := congrArg value ht1
    have h2 := value_take_add T (n := i) (k := i) (by omega)
    simp only [value_append, value_cons, value_nil, hTi, hlen, hT2, word_zero, Nat.mul_zero,
      Nat.add_zero, Nat.zero_add] at h1 h2
    rw [← h1, h2, Nat.add_assoc, ← Nat.mul_add]
    congr 2
    linarith

/-- The loop of `basicSqr` at word `i`.  The words of `z` below `2i` hold the squares, `t` holds
the mixed products: a zero, `2i - 2` words, and zeros. -/
theorem basicSqrLoop_spec {x : CNat} (hx : x.Valid) :
    ∀ {r i : Nat} {z t : List Word}, r + i = x.len → 1 ≤ i → 2 * x.len ≤ z.length →
      t.length = 2 * i - 2 →
      value (z.take (2 * i)) + 2 * (radix * value t) = (x.val % radix ^ i) ^ 2 →
      ∃ z' t', basicSqrLoop x r i z (0 :: (t ++ List.replicate (2 * r + 1) 0)) =
          .ok (z', 0 :: (t' ++ [0])) ∧
        z'.length = z.length ∧ z'.drop (2 * x.len) = z.drop (2 * x.len) ∧
        t'.length = 2 * x.len - 2 ∧
        value (z'.take (2 * x.len)) + 2 * (radix * value t') = x.val ^ 2
  | 0, i, z, t, hr, _, _, ht, hval => by
    rw [Nat.zero_add] at hr
    rw [hr, Nat.mod_eq_of_lt CNat.val_lt] at hval
    rw [hr] at ht
    exact ⟨z, t, rfl, rfl, rfl, ht, hval⟩
  | r + 1, i, z, t, hr, hi, hz, ht, hval => by
    have hxl : x.len ≤ x.data.length := hx
    have hil : i < x.data.length := by omega
    have hz1 : 2 * i + 1 < z.length := by omega
    have hsq := value_set_square hz1 x.data[i]
    obtain ⟨T, c, zs, t1, hT, hrun, hwrite, ht1, ht1v⟩ := mixed_round hx (r := r) hi (by omega) ht
      x.data[i]
    have hnext := toNat_getElem hx (by omega) hil
    obtain ⟨z', t', hrest, hzl', hzd', htl', hval'⟩ := basicSqrLoop_spec hx (r := r) (i := i + 1)
      (z := (z.set (2 * i + 1) (u64Mul x.data[i] x.data[i]).2).set (2 * i)
        (u64Mul x.data[i] x.data[i]).1) (t := t1) (by omega) (by omega)
      (by rw [List.length_set, List.length_set]; exact hz) ht1 (by
        rw [hsq, ht1v, hnext]
        linear_combination hval)
    rw [List.length_set, List.length_set] at hzl'
    refine ⟨z', t', ?_, hzl', hzd'.trans ?_, htl', hval'⟩
    · rw [← hT, basicSqrLoop]
      refine Run.bind_of_eq (Run.read_eq_ok (List.getElem?_eq_getElem hil)) ?_
      refine Run.bind_of_eq (Run.write_eq_ok hz1 _) ?_
      refine Run.bind_of_eq (Run.write_eq_ok (by rw [List.length_set]; omega) _) ?_
      refine Run.bind_of_eq (natPart_mid _ (h := i) (by omega)) ?_
      refine Run.bind_of_eq (natPart_low x i) ?_
      refine Run.bind_of_eq (a := (c, zs)) ?_ ?_
      · simp only [addMulVVW, low, Nat.min_self]
        exact hrun
      exact Run.bind_of_eq hwrite hrest
    · rw [List.drop_set_of_lt (by omega), List.drop_set_of_lt (by omega)]

/-- `basicSqr`, with its two last carries watched: the one of `shlVU` has to double the mixed
products, and the one of `addVV`, which nobody stores, has to be zero. -/
def basicSqrIn (z x : CNat) : Run (List Word) := do
  let n := x.len
  let t := natNewLen (2 * n)
  let x0 ← Run.read x.data 0
  let (lo, hi) := u64Mul x0 x0
  let data ← Run.write z.data 1 hi
  let data ← Run.write data 0 lo
  let (data, tdata) ← basicSqrLoop x (n - 1) 1 data t.data
  let t1 ← natPart { t with data := tdata } 1 (2 * n - 1)
  let (c, tail) ← shlVU t1 t1 1
  let doubled ← Run.write (splice tdata 1 tail) (2 * n - 1) c
  Run.assert (value doubled = 2 * value tdata)
  let z := { z with data := data }
  let (c, data) ← addVV z z { t with data := doubled }
  Run.assert (c = 0)
  .ok data

theorem basicSqrIn_agrees (z x : CNat) : Run.Agrees (basicSqrIn z x) (basicSqr z x) := by
  rw [basicSqrIn, basicSqr]
  refine Run.Agrees.bind (Run.Agrees.refl _) fun x0 => ?_
  refine Run.Agrees.bind (Run.Agrees.refl _) fun d1 => ?_
  refine Run.Agrees.bind (Run.Agrees.refl _) fun d2 => ?_
  refine Run.Agrees.bind (Run.Agrees.refl _) fun p => ?_
  refine Run.Agrees.bind (Run.Agrees.refl _) fun t1 => ?_
  refine Run.Agrees.bind (Run.Agrees.refl _) fun s => ?_
  refine Run.Agrees.bind (Run.Agrees.refl _) fun doubled => ?_
  intro d hd
  obtain ⟨-, -, hd⟩ := Run.bind_eq_ok_iff.mp hd
  obtain ⟨r, hr, hd⟩ := Run.bind_eq_ok_iff.mp hd
  obtain ⟨-, -, hd⟩ := Run.bind_eq_ok_iff.mp hd
  exact Run.bind_of_eq hr hd

/-- **`basicSqr` is exact**, loses no carry, and leaves the words above the square. -/
theorem basicSqrIn_spec {z x : CNat} (hx : x.Valid) (hx0 : 0 < x.len) (hzl : 2 * x.len ≤ z.len)
    (hz : z.Valid) :
    ∃ out, basicSqrIn z x = .ok (out ++ z.data.drop (2 * x.len)) ∧ out.length = 2 * x.len ∧
      value out = x.val ^ 2 := by
  have hxl : x.len ≤ x.data.length := hx
  have hzd : z.len ≤ z.data.length := hz
  have h0 : 0 < x.data.length := by omega
  have hsq := value_set_square (z := z.data) (i := 0) (by omega) x.data[0]
  have hx1 := toNat_getElem hx (i := 0) hx0 h0
  obtain ⟨z', t', hloop, hzl', hzd', htl', hval⟩ := basicSqrLoop_spec hx (r := x.len - 1) (i := 1)
    (z := (z.data.set 1 (u64Mul x.data[0] x.data[0]).2).set 0 (u64Mul x.data[0] x.data[0]).1)
    (t := []) (by omega) le_rfl (by rw [List.length_set, List.length_set]; omega) rfl (by
      simp only [Nat.mul_zero, Nat.zero_add, Nat.mul_one, pow_zero, List.take_zero, value_nil,
        Nat.one_mul, Nat.mod_one, Nat.add_zero] at hsq hx1 ⊢
      rw [hsq, hx1]
      ring)
  rw [List.length_set, List.length_set] at hzl'
  rw [List.drop_set_of_lt (by omega), List.drop_set_of_lt (by omega)] at hzd'
  have hTl' : (t' ++ [(0 : Word)]).length = 2 * x.len - 2 + 1 := by simp [htl']
  obtain ⟨c, ws, hshl, hwl, hwv⟩ := shlVU_spec
    (z := ⟨t' ++ [0], 2 * x.len - 2, 2 * x.len - 2⟩)
    (x := ⟨t' ++ [0], 2 * x.len - 2, 2 * x.len - 2⟩) (s :=
    1) (by simp only [CNat.Valid]; omega) (by simp only [CNat.Valid]; omega) rfl
    (by decide) (by decide)
  simp only [CNat.val, CNat.words, List.take_left' htl', List.drop_left' htl', pow_one]
    at hshl hwl hwv
  have hTl : ((0 : Word) :: (ws ++ [c])).length = 2 * x.len := by simp [hwl]; omega
  have hTv : value ((0 : Word) :: (ws ++ [c])) = 2 * (radix * value t') := by
    rw [value_cons, value_append, value_cons, value_nil, hwl, word_zero]
    linear_combination radix * hwv
  have hdouble : value ((0 : Word) :: (ws ++ [c])) = 2 * value ((0 : Word) :: (t' ++ [0])) := by
    rw [hTv, value_cons, value_append, value_cons, value_nil, word_zero]
    ring
  obtain ⟨c', out, hadd, hout, -, hsum⟩ := addVV_spec (n := 2 * x.len) (z := ⟨z', z.len, z.cap⟩)
    (x := ⟨z', z.len, z.cap⟩) (y := ⟨0 :: (ws ++ [c]), 2 * x.len, 2 * x.len⟩)
    (by simp only; omega) (by simp only; omega) (by simp only; omega) hTl.ge
  simp only [List.take_of_length_le hTl.le, hTv, hval] at hsum
  have hlt : x.val ^ 2 < radix ^ (2 * x.len) := by
    rw [two_mul, pow_add, sq]
    exact Nat.mul_lt_mul'' CNat.val_lt CNat.val_lt
  have hc0 : c'.toNat = 0 := by
    by_contra hne
    have := Nat.le_mul_of_pos_left (radix ^ (2 * x.len)) (Nat.pos_of_ne_zero hne)
    omega
  have hc : c' = 0 := BitVec.eq_of_toNat_eq hc0
  rw [hc0, Nat.zero_mul, Nat.add_zero] at hsum
  refine ⟨out, ?_, hout, hsum⟩
  rw [basicSqrIn]
  refine Run.bind_of_eq (Run.read_eq_ok (List.getElem?_eq_getElem h0)) ?_
  refine Run.bind_of_eq (Run.write_eq_ok (by omega) _) ?_
  refine Run.bind_of_eq (Run.write_eq_ok (by rw [List.length_set]; omega) _) ?_
  have hrep : (natNewLen (2 * x.len)).data =
      0 :: ([] ++ List.replicate (2 * (x.len - 1) + 1) 0) := by
    rw [natNewLen_data, show 2 * x.len = 2 * (x.len - 1) + 1 + 1 by omega, List.replicate_succ]
    rfl
  rw [hrep]
  refine Run.bind_of_eq hloop ?_
  refine Run.bind_of_eq (natPart_mid _ (h := 2 * x.len - 2) (by omega)) ?_
  refine Run.bind_of_eq hshl ?_
  have hw : Run.write (splice (0 :: (t' ++ [0])) 1 (ws ++ [0])) (2 * x.len - 1) c =
      .ok (0 :: (ws ++ [c])) := by
    have : splice ((0 : Word) :: (t' ++ [0])) 1 (ws ++ [0]) = (0 :: ws) ++ 0 :: [] := rfl
    rw [this, Run.write_append (by simp [hwl]; omega)]
    rfl
  refine Run.bind_of_eq hw ?_
  refine Run.bind_of_eq (a := ()) (by rw [decide_eq_true hdouble, Run.assert_true]) ?_
  refine Run.bind_of_eq hadd ?_
  refine Run.bind_of_eq (a := ()) (by rw [hc, decide_eq_true rfl, Run.assert_true]) ?_
  rw [hzd']

theorem basicSqr_spec {z x : CNat} (hx : x.Valid) (hx0 : 0 < x.len) (hzl : z.len = 2 * x.len)
    (hz : z.Valid) :
    ∃ d, basicSqr z x = .ok d ∧ d.length = z.data.length ∧
      value (d.take (2 * x.len)) = x.val * x.val := by
  have hzd : z.len ≤ z.data.length := hz
  obtain ⟨out, hrun, hout, hval⟩ := basicSqrIn_spec hx hx0 hzl.ge hz
  refine ⟨_, basicSqrIn_agrees z x _ hrun, ?_, ?_⟩
  · rw [List.length_append, hout, List.length_drop]
    omega
  · rw [List.take_left' hout, hval, sq]

/-- The number in a vector at the front of its block. -/
theorem val_front {ws rest : List Word} {n c : Nat} (h : ws.length = n) :
    (⟨ws ++ rest, n, c⟩ : CNat).val = value ws := by
  rw [CNat.val, CNat.words, List.take_left' h]

/-- No carry of the kernels is cut off: the sums of carries fit a word, and with the last carry
above it each vector holds the number that its operands make. -/
structure CarriesKept : Prop where
  mulAddWWW : ∀ x y c : Word, mulAddWWWIn x y c = .ok (mulAddWWW x y c) ∧
    (mulAddWWW x y c).1.toNat + radix * (mulAddWWW x y c).2.toNat = x.toNat * y.toNat + c.toNat
  addMulVVW : ∀ (z x : CNat) (y : Word), addMulVVWIn z x y = addMulVVW z x y ∧
    (z.Valid → x.Valid → z.len = x.len → Run.Returns (addMulVVW z x y) fun p =>
      (⟨p.2, z.len, z.cap⟩ : CNat).val + p.1.toNat * radix ^ z.len = z.val + x.val * y.toNat)
  shlVU : ∀ (z x : CNat) (s : Nat), z.Valid → x.Valid → z.len = x.len → 0 < s → s < 64 →
    Run.Returns (shlVU z x s) fun p =>
      (⟨p.2, z.len, z.cap⟩ : CNat).val + p.1.toNat * radix ^ z.len = x.val * 2 ^ s

theorem carriesKept : CarriesKept where
  mulAddWWW x y c := ⟨mulAddWWWIn_eq x y c, mulAddWWW_eq x y c⟩
  addMulVVW z x y := by
    refine ⟨addMulVVWIn_eq z x y, fun hz hx hlen => ?_⟩
    have hzx : z.len ≤ x.data.length := hlen ▸ hx
    obtain ⟨c, zs, hrun, hzs, hval⟩ := addMulLoop_spec y (n := z.len) (c := 0) hz hzx
    refine ⟨_, by rw [addMulVVW, ← hlen, Nat.min_self, hrun], ?_⟩
    rw [word_zero, Nat.add_zero, z.value_take_len] at hval
    dsimp only
    rw [val_front hzs, hval, hlen, x.value_take_len]
  shlVU z x s hz hx hlen hs hs' := by
    obtain ⟨c, ws, hrun, hws, hval⟩ := shlVU_spec hz hx hlen hs hs'
    refine ⟨_, hrun, ?_⟩
    dsimp only
    rw [val_front hws, hval]

/-- A vector in a block of its own length: an access outside it stops the run. -/
def alone (x : CNat) : CNat := ⟨x.words, x.len, x.cap⟩

theorem valid_alone {x : CNat} (hx : x.Valid) : (alone x).Valid := (CNat.length_words hx).ge

theorem val_alone (x : CNat) : (alone x).val = x.val := by
  rw [CNat.val, CNat.words, alone, CNat.words, List.take_take, Nat.min_self]
  rfl

/-- **The schoolbook kernels are exact** and touch the words of the result only: where the blocks
have no other words they run as well, and to the same words. -/
theorem schoolbook_exact {x : CNat} (hx : x.Valid) (hx1 : 1 ≤ x.len) :
    (∀ {y z : CNat}, y.Valid → 1 ≤ y.len → x.len + y.len ≤ z.data.length →
      ∃ out, basicMul z x y = .ok (out ++ z.data.drop (x.len + y.len)) ∧
        basicMul (alone (low z (x.len + y.len))) (alone x) (alone y) = .ok out ∧
        out.length = x.len + y.len ∧ value out = x.val * y.val) ∧
    (∀ {z : CNat}, z.Valid → 2 * x.len ≤ z.len →
      ∃ out, basicSqr z x = .ok (out ++ z.data.drop (2 * x.len)) ∧
        basicSqrIn z x = .ok (out ++ z.data.drop (2 * x.len)) ∧
        out.length = 2 * x.len ∧ value out = x.val ^ 2) ∧
    CarriesKept := by
  refine ⟨?_, ?_, carriesKept⟩
  · intro y z hy _ hz
    have hzlen : (alone (low z (x.len + y.len))).data.length = (alone x).len + (alone y).len :=
      List.length_take_of_le hz
    obtain ⟨out, hrun, hlen, hval⟩ := basicMul_spec hx hy hz
    obtain ⟨out', hrun', hlen', hval'⟩ :=
      basicMul_spec (z := alone (low z (x.len + y.len))) (valid_alone hx) (valid_alone hy) hzlen.ge
    rw [val_alone, val_alone, ← hval] at hval'
    refine ⟨out, hrun, ?_, hlen, hval⟩
    rw [hrun', value_inj (hlen'.trans hlen.symm) hval', List.drop_of_length_le hzlen.le,
      List.append_nil]
  · intro z hz hzl
    obtain ⟨out, hrun, hlen, hval⟩ := basicSqrIn_spec hx hx1 hzl hz
    exact ⟨out, basicSqrIn_agrees z x _ hrun, hrun, hlen, hval⟩

/-- Two words with all bits set, into storage that held something else. -/
theorem schoolbook_exact_allOnes :
    let x : CNat := ⟨[-1, -1], 2, 2⟩
    let z : CNat := ⟨[7, 7, 7, 7, 7], 4, 4⟩
    (∃ out, basicMul z x x = .ok (out ++ [7]) ∧ value out = x.val * x.val) ∧
      ∃ out, basicSqr z x = .ok (out ++ [7]) ∧ value out = x.val ^ 2 := by
  have h := schoolbook_exact (x := ⟨[-1, -1], 2, 2⟩) (by decide) (by decide)
  obtain ⟨out, hrun, -, -, hval⟩ := h.1 (y := ⟨[-1, -1], 2, 2⟩) (z := ⟨[7, 7, 7, 7, 7], 4, 4⟩)
    (by decide) (by decide) (by decide)
  obtain ⟨out', hrun', -, -, hval'⟩ := h.2.1 (z := ⟨[7, 7, 7, 7, 7], 4, 4⟩) (by decide) (by decide)
  exact ⟨⟨out, hrun, hval⟩, out', hrun', hval'⟩

/-! ## 2. `karatsubaSqr` -/

/-- All carries of `karatsubaSqr` on `n` words fit. -/
def KaraSqrFits : Nat → Nat → Nat → Prop
  | 0, _, _ => True
  | fuel + 1, n, x =>
    if n % 2 ≠ 0 ∨ n < karatsubaSqrThreshold ∨ n < 2 then True
    else
      let r := radix ^ (n / 2)
      KaraSqrFits fuel (n / 2) (x % r) ∧ KaraSqrFits fuel (n / 2) (x / r) ∧
      KaraSqrFits fuel (n / 2) (dist (x / r) (x % r)) ∧
      JoinFits n (x % r * (x % r)) (x / r * (x / r))
        (dist (x / r) (x % r) * dist (x / r) (x % r)) false

instance KaraSqrFits.decidable : ∀ fuel n x, Decidable (KaraSqrFits fuel n x)
  | 0, _, _ => inferInstanceAs (Decidable True)
  | fuel + 1, n, _ =>
    have := KaraSqrFits.decidable fuel
    inferInstanceAs
      (Decidable (if n % 2 ≠ 0 ∨ n < karatsubaSqrThreshold ∨ n < 2 then True else _))

/-- The distance of the halves, squared. -/
theorem middle_sqr (x0 x1 : Nat) :
    x0 * x0 + x1 * x1 = 2 * (x0 * x1) + dist x1 x0 * dist x1 x0 := by
  rcases Nat.le_total x0 x1 with h | h
  · obtain ⟨a, rfl⟩ := Nat.exists_eq_add_of_le h
    rw [show dist (x0 + a) x0 = a by unfold dist; omega]
    ring
  · obtain ⟨a, rfl⟩ := Nat.exists_eq_add_of_le h
    rw [show dist x1 (x1 + a) = a by unfold dist; omega]
    ring

theorem natCopy_eq {dst src : CNat} (h : src.len ≤ dst.cap) :
    natCopy dst src = memcpy dst.data src.data src.len := by
  rw [natCopy, decide_eq_true h, Run.assert_true, Run.ok_bind]

/-- **`karatsubaSqr` is exact if its carries fit.** -/
theorem karatsubaSqr_spec :
    ∀ {f : Nat} {z x : CNat}, x.Valid → 0 < x.len → x.len < f → 6 * x.len ≤ z.len →
      z.Valid → KaraSqrFits f x.len x.val →
      ∃ d, karatsubaSqr f z x = .ok d ∧ d.length = z.data.length ∧
        value (d.take (2 * x.len)) = x.val * x.val
  | 0, _, _, _, _, hf, _, _, _ => absurd hf (Nat.not_lt_zero _)
  | fuel + 1, z, x, hx, hx0, hf, hz, hzv, hfits => by
    have hzl : z.len ≤ z.data.length := hzv
    by_cases hsmall : x.len % 2 ≠ 0 ∨ x.len < karatsubaSqrThreshold ∨ x.len < 2
    · obtain ⟨d, hrun, hlen, hval⟩ := basicSqr_spec (z := low z (2 * x.len)) hx hx0 rfl
        (valid_low hzv (by omega))
      refine ⟨d, ?_, hlen, hval⟩
      simp only [karatsubaSqr, if_pos hsmall]
      exact Run.bind_of_eq (natPart_low z _) hrun
    obtain ⟨h, hh⟩ : ∃ h, h + h = x.len := ⟨x.len / 2, by omega⟩
    have hsh : x.len >>> 1 = h := by rw [Nat.shiftRight_eq_div_pow]; omega
    simp only [KaraSqrFits, if_neg hsmall, show x.len / 2 = h by omega] at hfits
    obtain ⟨hf1, hf2, hf3, hjoin⟩ := hfits
    -- the two halves
    have hx' := halved hx hh
    have hxl := hx'.len
    simp only [← hx'.lowVal, ← hx'.highVal] at hf1 hf2 hf3 hjoin
    -- the two squares side by side
    obtain ⟨d1, hk1, hl1, hv1⟩ := karatsubaSqr_spec (z := z) hx'.validLow
      (by simp only [low]; omega) (by simp only [low]; omega) (by simp only [low]; omega) hzv hf1
    rw [show 2 * (low x h).len = x.len by simp only [low]; omega] at hv1
    obtain ⟨e2, hk2, hl2, hv2⟩ := karatsubaSqr_spec (f := fuel)
      (z := above ⟨d1, z.len, z.cap⟩ x.len) hx'.validHigh (by omega) (by omega)
      (by rw [hxl]; simp only [above]; omega)
      (valid_above (by simp only [CNat.Valid]; omega) _) (by rw [hxl]; exact hf2)
    rw [hxl, show 2 * h = x.len by omega] at hv2
    simp only [above, List.length_drop] at hl2
    obtain ⟨hp0, hp2⟩ := value_side_by_side (by omega) hv1 hv2
    have hl2' := length_splice (show x.len ≤ d1.length by omega) (show e2.length = _ by omega)
    generalize hd2 : splice d1 x.len e2 = d2 at *
    -- the distance
    obtain ⟨e3, hk3, hl3, hv3⟩ := subVVAbs_at (d := d2) (i := 2 * x.len) (h := h) (by omega) hxl
      hx'.validHigh rfl hx'.validLow
    have ht3 : ∀ {j k : Nat}, j + k ≤ 2 * x.len →
        ((splice d2 (2 * x.len) e3).drop j).take k = (d2.drop j).take k :=
      fun hjk => take_drop_splice (by omega) hjk
    generalize hd3 : splice d2 (2 * x.len) e3 = d3 at *
    -- its square
    obtain ⟨e5, hk5, hl5, hv5⟩ := karatsubaSqr_spec (f := fuel)
      (z := above ⟨d3, z.len, z.cap⟩ (x.len * 3)) (x := ⟨d3.drop (2 * x.len), h, h⟩)
      (by simp only [CNat.Valid, List.length_drop]; omega) (by simp only; omega)
      (by simp only; omega) (by simp only [above]; omega)
      (valid_above (by simp only [CNat.Valid]; omega) _) (by rw [hv3]; exact hf3)
    rw [hv3, show 2 * h = x.len by omega] at hv5
    simp only [above, List.length_drop] at hl5
    have hp0' : value (d3.take x.len) = (low x h).val * (low x h).val := by
      rw [← hp0, ← List.drop_zero (l := d3), ht3 (by omega), List.drop_zero]
    have hp2' : value ((d3.drop x.len).take x.len) = (above x h).val * (above x h).val := by
      rw [← hp2, ht3 (by omega)]
    -- the copy and the three additions
    obtain ⟨d5, d6, hd5, hcopy, hl6, hZ, h4, h5, h3⟩ := value_copied (by omega) (by omega) hp0' hp2'
      hv5
    have hr : radix ^ x.len = radix ^ h * radix ^ h := by rw [← hh, pow_add]
    have hlt : x.val * x.val < radix ^ (2 * x.len) := by
      rw [two_mul, pow_add]
      exact Nat.mul_lt_mul'' CNat.val_lt CNat.val_lt
    obtain ⟨z1, z2, d7, hj1, hj2, hj3, hl7, hv7⟩ := karatsuba_join
      (z := ⟨splice d5 (x.len * 4) d6, z.len, z.cap⟩) hsh hh hz (by simp only [CNat.Valid]; omega)
      hZ h4 h5 h3 (hx'.fit hx' hh) (fun hs : false = true => Bool.noConfusion hs)
      (fun _ => by
        have := middle_sqr (low x h).val (above x h).val
        rw [← hx'.sum, hr]
        linear_combination (radix ^ h) * this)
      hlt hjoin
    refine ⟨d7, ?_, by rw [hl7]; simp only; omega, hv7⟩
    simp only [karatsubaSqr, if_neg hsmall, hsh]
    refine Run.bind_of_eq (natPart_low x h) ?_
    refine Run.bind_of_eq (natPart_above x hx'.le) ?_
    refine Run.bind_of_eq hk1 ?_
    refine Run.bind_of_eq (natPart_above _ (by simp only; omega)) ?_
    refine Run.bind_of_eq hk2 ?_
    simp only [hd2]
    refine Run.bind_of_eq (natPart_mid _ rfl) ?_
    refine Run.bind_of_eq hk3 ?_
    simp only [hd3]
    refine Run.bind_of_eq (natPart_mid _ rfl) ?_
    refine Run.bind_of_eq (natPart_above _ (by simp only; omega)) ?_
    refine Run.bind_of_eq hk5 ?_
    simp only [hd5]
    refine Run.bind_of_eq (natPart_above _ (by simp only; omega)) ?_
    refine Run.bind_of_eq (natPart_low _ (x.len * 2)) ?_
    refine Run.bind_of_eq (a := d6) ?_ ?_
    · rw [natCopy_eq (by simp only [low, above]; omega)]
      exact hcopy
    refine Run.bind_of_eq hj1 ?_
    refine Run.bind_of_eq hj2 ?_
    exact Run.bind_of_eq hj3 rfl

/-! ## 3. `natSqr` -/

/-- **All carries of `natSqr` fit**, for a vector of `n` words and the number `x`.  The square has
`2 n` words in a block of `max (6 k) (2 n)`. -/
def SqrFits : Nat → Nat → Nat → Prop
  | 0, _, _ => True
  | fuel + 1, n, x =>
    if n < karatsubaSqrThreshold then True
    else
      let k := karatsubaLen n karatsubaSqrThreshold
      let x0 := x % radix ^ k
      let x1 := x / radix ^ k
      let spare := decide (2 * n < 6 * k)
      KaraSqrFits (k + 1) k x0 ∧
      (k < n →
        ProductFits (wordLen x0) (n - k) x0 x1 ∧
        AddAtFits (x0 * x0) (x0 * x1) k (2 * n) spare ∧
        AddAtFits (x0 * x0 + radix ^ k * (x0 * x1)) (x0 * x1) k (2 * n) spare ∧
        SqrFits fuel (n - k) x1 ∧
        AddAtFits (x0 * x0 + radix ^ k * (x0 * x1) + radix ^ k * (x0 * x1)) (x1 * x1) (2 * k)
          (2 * n) spare)

instance SqrFits.decidable : ∀ fuel n x, Decidable (SqrFits fuel n x)
  | 0, _, _ => inferInstanceAs (Decidable True)
  | fuel + 1, n, _ =>
    have := SqrFits.decidable fuel
    inferInstanceAs (Decidable (if n < karatsubaSqrThreshold then True else _))

/-- A square is normalised. -/
theorem natSqrRec_yields : ∀ (fuel : Nat) (x : CNat), Run.Yields (natSqrRec fuel x) Clean
  | 0, _ => .error
  | fuel + 1, x => by
    rw [natSqrRec]
    simp only
    split
    · exact .ok ⟨by decide, by decide⟩
    split
    · exact .bind fun _ _ => natNorm_clean _
    split
    · exact .bind fun _ _ => natNorm_clean _
    split
    · exact .bind fun _ _ => natNorm_clean _
    · exact .bind fun _ _ => .bind fun _ _ => .bind fun _ _ => .bind fun _ _ => .bind fun _ _ =>
        .bind fun _ _ => natNorm_clean _

/-- The part of `natSqr` above the lowest block. -/
theorem natSqrRest_spec {sqr : CNat → Run CNat} {fits : Nat → Nat → Prop} {k : Nat}
    {spare : Bool} {x z : CNat}
    (hsqr : ∀ a : CNat, a.Valid → a.len < x.len → fits a.len a.val →
      ∃ t, sqr a = .ok t ∧ Shaped t ∧ t.val = a.val * a.val)
    (hk : 0 < k) (hkn : k ≤ x.len) (hx : x.Valid) (hz : z.Valid) (hzl : z.len = 2 * x.len)
    (hspare : spare = true → z.len < z.data.length)
    (hval : z.val = x.val % radix ^ k * (x.val % radix ^ k))
    (hfits : k < x.len →
      ProductFits (wordLen (x.val % radix ^ k)) (x.len - k) (x.val % radix ^ k)
        (x.val / radix ^ k) ∧
      AddAtFits (x.val % radix ^ k * (x.val % radix ^ k))
        (x.val % radix ^ k * (x.val / radix ^ k)) k (2 * x.len) spare ∧
      AddAtFits (x.val % radix ^ k * (x.val % radix ^ k) +
          radix ^ k * (x.val % radix ^ k * (x.val / radix ^ k)))
        (x.val % radix ^ k * (x.val / radix ^ k)) k (2 * x.len) spare ∧
      fits (x.len - k) (x.val / radix ^ k) ∧
      AddAtFits (x.val % radix ^ k * (x.val % radix ^ k) +
          radix ^ k * (x.val % radix ^ k * (x.val / radix ^ k)) +
          radix ^ k * (x.val % radix ^ k * (x.val / radix ^ k)))
        (x.val / radix ^ k * (x.val / radix ^ k)) (2 * k) (2 * x.len) spare) :
    ∃ z', natSqrRest sqr k x (low x k) z = .ok z' ∧ z'.Valid ∧ z'.val = x.val * x.val := by
  rw [natSqrRest]
  split
  swap
  · next hge =>
    have hxk : x.val % radix ^ k = x.val := Nat.mod_eq_of_lt
      (CNat.val_lt.trans_le (Nat.pow_le_pow_right radix_pos (Nat.le_of_not_lt hge)))
    exact ⟨z, rfl, hz, by rw [hval, hxk]⟩
  next hlt =>
  obtain ⟨hmul, hat1, hat2, hf, hat3⟩ := hfits hlt
  obtain ⟨x0, hx0, hx0v, hx0l, hx0val⟩ := natNorm_part (valid_low hx hkn) (low_val hx hkn)
  have hx1v := valid_above hx k
  have hx1val := (val_split hx hkn).2.1
  have hsplit := Nat.mod_add_div x.val (radix ^ k)
  rw [← hx0val, ← hx1val] at hsplit hmul hat1 hat2 hat3
  rw [← hx1val] at hf
  rw [← hx0val] at hval hx0l
  have hwhole : x0.val * x0.val + radix ^ k * (x0.val * (above x k).val) +
      radix ^ k * (x0.val * (above x k).val) +
      radix ^ (2 * k) * ((above x k).val * (above x k).val) = x.val * x.val := by
    rw [← hsplit, two_mul, pow_add]
    ring
  have hxx : x.val * x.val < radix ^ (2 * x.len) := by
    rw [two_mul]
    exact partial_lt CNat.val_lt CNat.val_lt le_rfl
  obtain ⟨t, ht, hts, htv⟩ := natMul_exact (x := x0) (y := above x k) hx0v hx1v
    (by rw [hx0l]; exact hmul)
  obtain ⟨d1, hd1, hl1, hv1⟩ := addAt_exact (z := z) (t := t) (i := k) hz hts (by omega)
    (by rw [hval, htv, hzl]; exact hat1) hspare (by rw [hval, htv, hzl]; omega)
  rw [hval, htv] at hv1
  obtain ⟨d2, hd2, hl2, hv2⟩ := addAt_exact (z := ⟨d1, z.len, z.cap⟩) (t := t) (i := k)
    (by simp only [CNat.Valid, hl1]; exact hz) hts (by simp only; omega)
    (by rw [hv1, htv]; simp only [hzl]; exact hat2) (by simp only [hl1]; exact hspare)
    (by rw [hv1, htv]; simp only [hzl]; omega)
  rw [hv1, htv] at hv2
  simp only at hl2
  obtain ⟨s, hs, hss, hsv⟩ := hsqr (above x k) hx1v (by simp only [above]; omega) hf
  obtain ⟨d3, hd3, hl3, hv3⟩ := addAt_exact (z := ⟨d2, z.len, z.cap⟩) (t := s) (i := 2 * k)
    (by simp only [CNat.Valid, hl2, hl1]; exact hz) hss (by simp only; omega)
    (by rw [hv2, hsv]; simp only [hzl]; exact hat3) (by simp only [hl2, hl1]; exact hspare)
    (by rw [hv2, hsv]; simp only [hzl]; omega)
  rw [hv2, hsv, hwhole] at hv3
  simp only at hl3
  refine ⟨⟨d3, z.len, z.cap⟩, ?_, by simp only [CNat.Valid, hl3, hl2, hl1]; exact hz, hv3⟩
  refine Run.bind_of_eq hx0 ?_
  refine Run.bind_of_eq (natPart_above x hkn) ?_
  refine Run.bind_of_eq ht ?_
  refine Run.bind_of_eq hd1 ?_
  refine Run.bind_of_eq hd2 ?_
  refine Run.bind_of_eq hs ?_
  exact Run.bind_of_eq hd3 rfl

/-- **`natSqr` is exact if all carries fit.** -/
theorem natSqrRec_spec :
    ∀ {fuel : Nat} {x : CNat}, x.Valid → x.len < fuel → SqrFits fuel x.len x.val →
      Run.Returns (natSqrRec fuel x) (fun q => q.val = x.val * x.val)
  | 0, _, _, hf, _ => absurd hf (Nat.not_lt_zero _)
  | fuel + 1, x, hx, hf, hfits => by
    have hxl : x.len ≤ x.data.length := hx
    rw [natSqrRec]
    simp only
    split
    · next h0 =>
      refine ⟨_, rfl, ?_⟩
      simp [CNat.val, CNat.words, h0]
    next h0 =>
    split
    · next h1 =>
      have h0' : 0 < x.data.length := by omega
      have hsq := u64Mul_eq x.data[0] x.data[0]
      have hv := toNat_getElem hx (i := 0) (by omega) h0'
      rw [Nat.zero_add, pow_zero, Nat.mod_one, Nat.one_mul, Nat.zero_add,
        Nat.mod_eq_of_lt (h1 ▸ CNat.val_lt)] at hv
      obtain ⟨q, hq, -, -, hqv⟩ := natNorm_val (v := x.val * x.val)
        (p := ⟨[(u64Mul x.data[0] x.data[0]).1, (u64Mul x.data[0] x.data[0]).2], 2, 2⟩)
        (by simp [CNat.Valid]) (by
          rw [CNat.val, CNat.words, List.take_of_length_le (by simp), value_cons, value_cons,
            value_nil, Nat.mul_zero, Nat.add_zero, hv]
          exact hsq)
      exact ⟨q, Run.bind_of_eq (Run.read_eq_ok (List.getElem?_eq_getElem h0')) hq, hqv⟩
    next h1 =>
    split
    · obtain ⟨out, hrun, hlen, hval⟩ := basicMul_spec (z := natNewLen (2 * x.len)) hx hx
        (by simp; omega)
      rw [natNewLen_data, List.drop_replicate, ← two_mul, Nat.sub_self, List.replicate_zero,
        List.append_nil] at hrun
      rw [← two_mul] at hlen
      obtain ⟨q, hq, -, -, hqv⟩ := natNorm_val (p := ⟨out, 2 * x.len, 2 * x.len⟩) hlen.ge
        (val_full hlen)
      exact ⟨q, Run.bind_of_eq hrun hq, hqv.trans hval⟩
    split
    · obtain ⟨d, hrun, hlen, hval⟩ := basicSqr_spec (z := natNewLen (2 * x.len)) hx
        (Nat.pos_of_ne_zero h0) rfl (valid_natNewLen _)
      rw [natNewLen_data, List.length_replicate] at hlen
      rw [List.take_of_length_le hlen.le] at hval
      obtain ⟨q, hq, -, -, hqv⟩ := natNorm_val (p := ⟨d, 2 * x.len, 2 * x.len⟩) hlen.ge
        (val_full hlen)
      exact ⟨q, Run.bind_of_eq hrun hq, hqv.trans hval⟩
    next h260 =>
    rw [SqrFits, if_neg h260] at hfits
    obtain ⟨hkara, hrest⟩ := hfits
    have hk := karatsubaLen_pos (show 0 < karatsubaSqrThreshold by decide)
      (Nat.pos_of_ne_zero h0)
    have hkn := karatsubaLen_le x.len karatsubaSqrThreshold
    generalize karatsubaLen x.len karatsubaSqrThreshold = k at *
    have hx0 := low_val hx hkn
    obtain ⟨d, hd, hdl, hdv⟩ := karatsubaSqr_spec (f := k + 1)
      (z := natNewLen (max (6 * k) (2 * x.len))) (valid_low hx hkn) hk (Nat.lt_succ_self k)
      (by simp only [natNewLen_len, low]; omega) (valid_natNewLen _) (by rw [hx0]; exact hkara)
    rw [natNewLen_data, List.length_replicate] at hdl
    rw [hx0, low_len x k] at hdv
    obtain ⟨e, he, hel, hev⟩ := value_cleared (d := d) (k := 2 * k) (l := 2 * x.len) (by omega)
      (by omega) hdv
    obtain ⟨z', hz', hzv', hzval'⟩ := natSqrRest_spec
      (z := ⟨splice d (2 * k) e, 2 * x.len, 2 * x.len⟩)
      (fun a ha hal haf => by
        obtain ⟨t, ht, htv⟩ := natSqrRec_spec ha (by omega) haf
        exact ⟨t, ht, (natSqrRec_yields _ _ t ht).shaped, htv⟩)
      hk hkn hx (by simp only [CNat.Valid, hel]; omega) rfl
      (fun hs => by
        have := of_decide_eq_true hs
        simp only [hel]
        omega) hev hrest
    obtain ⟨q, hq, -, -, hqv⟩ := natNorm_val hzv' hzval'
    refine ⟨q, ?_, hqv⟩
    refine Run.bind_of_eq (natPart_low x k) ?_
    refine Run.bind_of_eq hd ?_
    refine Run.bind_of_eq (natPart_low _ (2 * x.len)) ?_
    refine Run.bind_of_eq (natPart_above _ (by simp only [low]; omega)) ?_
    refine Run.bind_of_eq he ?_
    refine Run.bind_of_eq hz' ?_
    exact hq

/-- `SqrFits` with the fuel that `natSqr` has. -/
def SquareFits (n x : Nat) : Prop := SqrFits (n + 1) n x

instance (n x : Nat) : Decidable (SquareFits n x) := SqrFits.decidable _ n x

theorem natSqr_exact {x : CNat} (hx : x.Valid) (hfits : SquareFits x.len x.val) :
    ∃ q, natSqr x = .ok q ∧ Clean q ∧ q.val = x.val * x.val := by
  obtain ⟨q, hq, hval⟩ := natSqrRec_spec hx (Nat.lt_succ_self _) hfits
  exact ⟨q, hq, natSqrRec_yields _ _ q hq, hval⟩

end CDemo.BigInt
