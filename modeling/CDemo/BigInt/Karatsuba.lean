/-
# Karatsuba's product

`karatsuba(z, x, y)` works in one buffer of six times the length `n` of its operands.  With
`x = x0 + r x1` and `y = y0 + r y1`, `r = B^(n/2)`, it computes `x0 y0` and `x1 y1` side by side,
`|x1 - x0| |y0 - y1|` above them, and then adds

    x0 y0 + x1 y1 + (x1 - x0) (y0 - y1) = x0 y1 + x1 y0

to the middle of the buffer, in three additions in place.  The buffer has no word to spare, so
each of them is exact if its carry fits.  `KaraFits` says, about the numbers only, that all do, on
every level of the recursion.
-/
import CDemo.BigInt.Schoolbook

namespace CDemo.BigInt

/-! ## 1. The numbers -/

/-- The distance of two numbers. -/
def dist (a b : Nat) : Nat := a - b + (b - a)

/-- The carries of the three additions in place fit: `p0`, `p2` and `p` are the products, and `pos`
says that `p` is added. -/
def JoinFits (n p0 p2 p : Nat) (pos : Bool) : Prop :=
  let w := (p0 + radix ^ n * p2) / radix ^ (n / 2)
  CarryFits w p0 n (n / 2) false ∧ CarryFits (w + p0) p2 n (n / 2) false ∧
    if pos then CarryFits (w + p0 + p2) p n (n / 2) false
    else BorrowFits (w + p0 + p2) p n (n / 2) false

/-- All carries of `karatsuba` on `n` words fit. -/
def KaraFits : Nat → Nat → Nat → Nat → Prop
  | 0, _, _, _ => True
  | fuel + 1, n, x, y =>
    if n % 2 ≠ 0 ∨ n < karatsubaThreshold ∨ n < 2 then True
    else
      let r := radix ^ (n / 2)
      KaraFits fuel (n / 2) (x % r) (y % r) ∧ KaraFits fuel (n / 2) (x / r) (y / r) ∧
      KaraFits fuel (n / 2) (dist (x / r) (x % r)) (dist (y % r) (y / r)) ∧
      JoinFits n (x % r * (y % r)) (x / r * (y / r))
        (dist (x / r) (x % r) * dist (y % r) (y / r))
        (decide (x / r < x % r) == decide (y % r < y / r))

instance (n p0 p2 p : Nat) (pos : Bool) : Decidable (JoinFits n p0 p2 p pos) :=
  inferInstanceAs (Decidable (_ ∧ _ ∧ if pos then _ else _))

instance KaraFits.decidable : ∀ fuel n x y, Decidable (KaraFits fuel n x y)
  | 0, _, _, _ => inferInstanceAs (Decidable True)
  | fuel + 1, n, _, _ =>
    have := KaraFits.decidable fuel
    inferInstanceAs (Decidable (if n % 2 ≠ 0 ∨ n < karatsubaThreshold ∨ n < 2 then True else _))

/-- Karatsuba's identity. -/
theorem middle_pos {x0 x1 y0 y1 : Nat} (h : decide (x1 < x0) = decide (y0 < y1)) :
    x0 * y0 + x1 * y1 + dist x1 x0 * dist y0 y1 = x0 * y1 + x1 * y0 := by
  have h' : x1 < x0 ↔ y0 < y1 := by simpa using h
  by_cases hx : x1 < x0
  · obtain ⟨a, rfl⟩ := Nat.exists_eq_add_of_lt hx
    obtain ⟨b, rfl⟩ := Nat.exists_eq_add_of_lt (h'.mp hx)
    have h1 : dist x1 (x1 + a + 1) = a + 1 := by unfold dist; omega
    have h2 : dist y0 (y0 + b + 1) = b + 1 := by unfold dist; omega
    rw [h1, h2]
    ring
  · obtain ⟨a, rfl⟩ := Nat.exists_eq_add_of_le (Nat.le_of_not_lt hx)
    obtain ⟨b, rfl⟩ := Nat.exists_eq_add_of_le (Nat.le_of_not_lt (mt h'.mpr hx))
    have h1 : dist (x0 + a) x0 = a := by unfold dist; omega
    have h2 : dist (y1 + b) y1 = b := by unfold dist; omega
    rw [h1, h2]
    ring

/-- Karatsuba's identity when the signs differ. -/
theorem middle_neg {x0 x1 y0 y1 : Nat} (h : decide (x1 < x0) ≠ decide (y0 < y1)) :
    x0 * y0 + x1 * y1 = x0 * y1 + x1 * y0 + dist x1 x0 * dist y0 y1 := by
  have h' : ¬ (x1 < x0 ↔ y0 < y1) := by simpa using h
  by_cases hx : x1 < x0
  · have hy : ¬ y0 < y1 := fun hy => h' ⟨fun _ => hy, fun _ => hx⟩
    obtain ⟨a, rfl⟩ := Nat.exists_eq_add_of_lt hx
    obtain ⟨b, rfl⟩ := Nat.exists_eq_add_of_le (Nat.le_of_not_lt hy)
    have h1 : dist x1 (x1 + a + 1) = a + 1 := by unfold dist; omega
    have h2 : dist (y1 + b) y1 = b := by unfold dist; omega
    rw [h1, h2]
    ring
  · have hy : y0 < y1 := by
      by_contra hy
      exact h' ⟨fun h => absurd h hx, fun h => absurd h hy⟩
    obtain ⟨a, rfl⟩ := Nat.exists_eq_add_of_le (Nat.le_of_not_lt hx)
    obtain ⟨b, rfl⟩ := Nat.exists_eq_add_of_lt hy
    have h1 : dist (x0 + a) x0 = a := by unfold dist; omega
    have h2 : dist y0 (y0 + b + 1) = b + 1 := by unfold dist; omega
    rw [h1, h2]
    ring

/-- Even without what is subtracted the sum fits. -/
theorem join_fits {r p0 p2 : Nat} (h0 : p0 ≤ (r - 1) * (r - 1)) (h2 : p2 ≤ (r - 1) * (r - 1))
    (hr : 0 < r) : p0 + r * r * p2 + r * (p0 + p2) < r * r * (r * r) := by
  obtain ⟨s, rfl⟩ : ∃ s, r = s + 1 := ⟨r - 1, by omega⟩
  rw [Nat.add_sub_cancel] at h0 h2
  have hsum : p0 + (s + 1) * (s + 1) * p2 + (s + 1) * (p0 + p2) =
      (s + 2) * p0 + (s + 1) * (s + 2) * p2 := by ring
  have h1 := Nat.mul_le_mul_left (s + 2) h0
  have h3 := Nat.mul_le_mul_left ((s + 1) * (s + 2)) h2
  rw [hsum]
  calc (s + 2) * p0 + (s + 1) * (s + 2) * p2
      ≤ (s + 2) * (s * s) + (s + 1) * (s + 2) * (s * s) := Nat.add_le_add h1 h3
    _ = (s * (s + 2)) * (s * (s + 2)) := by ring
    _ < (s * (s + 2) + 1) * (s * (s + 2) + 1) := by nlinarith
    _ = (s + 1) * (s + 1) * ((s + 1) * (s + 1)) := by ring

/-! ## 2. The additions in place -/

section Carry

variable {op : Word → Word → Word → Word × Word}

/-- **`karatsubaAdd` and `karatsubaSub`** change the `n + n/2` words they are meant to. -/
theorem karatsubaCarry_eq (hop : ∀ x, op x 0 0 = (x, 0)) {z x : CNat} {n h : Nat}
    (hn : n >>> 1 = h) (hz : n + h ≤ z.len) (hzv : z.Valid) (hx : n ≤ x.len) (hxv : x.Valid)
    (hstays : CopyStays op z.data x.data n h (z.len - n)) :
    karatsubaCarry (fun z x y => vvLoop op (min z.len (min x.len y.len)) z.data x.data y.data 0)
        (vw op) z x n = .ok (inPlace op z.data x.data n h ++ z.data.drop (n + h)) := by
  have hzl : z.len ≤ z.data.length := hzv
  have hxl : x.len ≤ x.data.length := hxv
  have hlow : vvLoop op (min (n - 0) (min z.len x.len)) (z.data.drop 0) z.data x.data 0 =
      .ok ((vvWords op (z.data.take n) (x.data.take n) 0).1,
        (vvWords op (z.data.take n) (x.data.take n) 0).2 ++ z.data.drop n) := by
    rw [List.drop_zero, show min (n - 0) (min z.len x.len) = n by omega]
    exact vvLoop_eq (by omega) (by omega) (by omega)
  have hll := length_low op (show n ≤ z.data.length by omega)
    (show n ≤ x.data.length by omega) 0
  simp only [karatsubaCarry, natPart_eq _ (Nat.zero_le n), Run.ok_bind, hlow]
  split
  · next hc =>
    rw [hn, natPart_eq _ (Nat.le_add_right n h), Run.ok_bind,
      natPart_eq _ (show n ≤ z.len by omega), Run.ok_bind]
    simp only [List.drop_left' hll, Nat.add_sub_cancel_left]
    rw [vw_same hop (by omega) (by rw [List.length_drop]; omega) hstays, Run.ok_bind, splice,
      List.take_left' hll, inPlace, List.drop_drop, List.append_assoc]
  · next hc => rw [inPlace_dead hop (not_not.mp hc)]

theorem karatsubaAdd_eq {z x : CNat} {n h : Nat} (hn : n >>> 1 = h) (hz : n + h ≤ z.len)
    (hzv : z.Valid) (hx : n ≤ x.len) (hxv : x.Valid)
    (hstays : CopyStays u64Add z.data x.data n h (z.len - n)) :
    karatsubaAdd z x n = .ok (inPlace u64Add z.data x.data n h ++ z.data.drop (n + h)) :=
  karatsubaCarry_eq u64Add_zero hn hz hzv hx hxv hstays

theorem karatsubaSub_eq {z x : CNat} {n h : Nat} (hn : n >>> 1 = h) (hz : n + h ≤ z.len)
    (hzv : z.Valid) (hx : n ≤ x.len) (hxv : x.Valid)
    (hstays : CopyStays u64Sub z.data x.data n h (z.len - n)) :
    karatsubaSub z x n = .ok (inPlace u64Sub z.data x.data n h ++ z.data.drop (n + h)) :=
  karatsubaCarry_eq u64Sub_zero hn hz hzv hx hxv hstays

/-- The buffer after one of the three additions. -/
theorem karatsubaAt_eq {f : CNat → CNat → Nat → Run (List Word)} {z : CNat} {n h i : Nat}
    (hf : ∀ z x : CNat, n + h ≤ z.len → z.Valid → n ≤ x.len → x.Valid →
      CopyStays op z.data x.data n h (z.len - n) →
      f z x n = .ok (inPlace op z.data x.data n h ++ z.data.drop (n + h)))
    (hn : n >>> 1 = h) (hi : 2 * n ≤ i) (hil : i + n ≤ z.len) (hzv : z.Valid) (hh : h + h = n)
    (hstays : CopyStays op (z.data.drop h) (z.data.drop i) n h (z.len - h - n)) :
    ∃ d, karatsubaAt f z n i = .ok { z with data := d } ∧ d.length = z.data.length ∧
      d.drop (2 * n) = z.data.drop (2 * n) ∧
      value (d.take (2 * n)) = value (z.data.take (2 * n)) % radix ^ h +
        radix ^ h * value (inPlace op (z.data.drop h) (z.data.drop i) n h) := by
  have hzl : z.len ≤ z.data.length := hzv
  have hlen : (inPlace op (z.data.drop h) (z.data.drop i) n h).length = n + h :=
    length_inPlace op (by rw [List.length_drop]; omega) (by rw [List.length_drop]; omega)
  have hth : (z.data.take h).length = h := List.length_take_of_le (by omega)
  refine ⟨splice z.data h (inPlace op (z.data.drop h) (z.data.drop i) n h ++
    (z.data.drop h).drop (n + h)), ?_, ?_, ?_, ?_⟩
  · rw [karatsubaAt, hn, natPart_eq _ (show h ≤ z.len by omega), Run.ok_bind,
      natPart_eq _ (show i ≤ z.len by omega), Run.ok_bind, hf _ _ (by simp only; omega)
        (by simp only [CNat.Valid, List.length_drop]; omega) (by simp only; omega)
        (by simp only [CNat.Valid, List.length_drop]; omega) hstays, Run.ok_bind]
  · refine length_splice (by omega) ?_
    rw [List.length_append, hlen, List.length_drop, List.length_drop]
    omega
  · rw [show 2 * n = h + (n + h) by omega, drop_splice (by omega), List.drop_left' hlen,
      List.drop_drop]
  · have hv := (value_low_high (d := z.data) (n := h) (h := n + h) (by omega)).1
    rw [show h + (n + h) = 2 * n by omega] at hv
    rw [← hv, splice, ← List.append_assoc, List.take_left' (by
      rw [List.length_append, hth, hlen]; omega), value_append, hth]

/-- An addition in the middle of the buffer. -/
theorem karatsubaAt_add {z : CNat} {n h i : Nat} (hn : n >>> 1 = h) (hi : 2 * n ≤ i)
    (hil : i + n ≤ z.len) (hzv : z.Valid) (hh : h + h = n) {Z t : Nat}
    (hZ : value (z.data.take (2 * n)) = Z) (ht : value ((z.data.drop i).take n) = t)
    (hcarry : CarryFits (Z / radix ^ h) t n h false) (hfit : Z + radix ^ h * t < radix ^ (2 * n)) :
    ∃ d, karatsubaAt karatsubaAdd z n i = .ok { z with data := d } ∧
      d.length = z.data.length ∧ d.drop (2 * n) = z.data.drop (2 * n) ∧
      value (d.take (2 * n)) = Z + radix ^ h * t := by
  have hzl : z.len ≤ z.data.length := hzv
  have hv := (value_low_high (d := z.data) (n := h) (h := n + h) (by omega)).2
  rw [show h + (n + h) = 2 * n by omega, hZ] at hv
  have hd : n + h ≤ (z.data.drop h).length := by rw [List.length_drop]; omega
  have hx : n ≤ (z.data.drop i).length := by rw [List.length_drop]; omega
  rw [← hv, ← ht] at hcarry
  obtain ⟨d, hrun, hlen, hdrop, hval⟩ := karatsubaAt_eq
    (fun z x => karatsubaAdd_eq hn) hn hi hil hzv hh
    (copyStays_add hd hx hcarry fun h => absurd h Bool.false_ne_true)
  refine ⟨d, hrun, hlen, hdrop, ?_⟩
  have hpos := radix_pow_pos h
  have hsplit := Nat.mod_add_div Z (radix ^ h)
  have hadd := value_inPlace_add hd hx hcarry.1
    (by
      rw [hv, ht]
      refine Nat.lt_of_mul_lt_mul_left (a := radix ^ h) ?_
      rw [← pow_add, show h + (n + h) = 2 * n by omega, Nat.mul_add]
      exact (Nat.add_le_add_right (Nat.mul_div_le Z _) _).trans_lt hfit)
  rw [hval, hadd, hv, ht, hZ, Nat.mul_add]
  omega

/-- A subtraction in the middle of the buffer. -/
theorem karatsubaAt_sub {z : CNat} {n h i : Nat} (hn : n >>> 1 = h) (hi : 2 * n ≤ i)
    (hil : i + n ≤ z.len) (hzv : z.Valid) (hh : h + h = n) {Z t : Nat}
    (hZ : value (z.data.take (2 * n)) = Z) (ht : value ((z.data.drop i).take n) = t)
    (hborrow : BorrowFits (Z / radix ^ h) t n h false) (hge : radix ^ h * t ≤ Z) :
    ∃ d, karatsubaAt karatsubaSub z n i = .ok { z with data := d } ∧
      d.length = z.data.length ∧ d.drop (2 * n) = z.data.drop (2 * n) ∧
      value (d.take (2 * n)) = Z - radix ^ h * t := by
  have hzl : z.len ≤ z.data.length := hzv
  have hv := (value_low_high (d := z.data) (n := h) (h := n + h) (by omega)).2
  rw [show h + (n + h) = 2 * n by omega, hZ] at hv
  have hd : n + h ≤ (z.data.drop h).length := by rw [List.length_drop]; omega
  have hx : n ≤ (z.data.drop i).length := by rw [List.length_drop]; omega
  rw [← hv, ← ht] at hborrow
  obtain ⟨d, hrun, hlen, hdrop, hval⟩ := karatsubaAt_eq
    (fun z x => karatsubaSub_eq hn) hn hi hil hzv hh
    (copyStays_sub hd hx hborrow fun h => absurd h Bool.false_ne_true)
  refine ⟨d, hrun, hlen, hdrop, ?_⟩
  have hpos := radix_pow_pos h
  have hsplit := Nat.mod_add_div Z (radix ^ h)
  have hle : t ≤ Z / radix ^ h := (Nat.le_div_iff_mul_le hpos).mpr (by rw [Nat.mul_comm]; exact hge)
  have hsub := (value_inPlace_sub hd hx hborrow.1 (by rw [hv, ht]; exact hle)).1
  have hmul := Nat.mul_le_mul_left (radix ^ h) hle
  rw [hval, hsub, hv, ht, hZ, Nat.mul_sub]
  omega

end Carry

/-- **The three additions.**  The buffer holds `p0` and `p2` side by side, `p` at `3n`, and a copy
of the first two at `4n`; what comes out is `m`. -/
theorem karatsuba_join {z : CNat} {n h : Nat} (hn : n >>> 1 = h) (hh : h + h = n)
    (hz : 6 * n ≤ z.len) (hzv : z.Valid) {p0 p2 p m : Nat} {pos : Bool}
    (hZ : value (z.data.take (2 * n)) = p0 + radix ^ n * p2)
    (h4 : value ((z.data.drop (n * 4)).take n) = p0)
    (h5 : value ((z.data.drop (n * 5)).take n) = p2)
    (h3 : value ((z.data.drop (n * 3)).take n) = p)
    (hsum : p0 + radix ^ n * p2 + radix ^ h * (p0 + p2) < radix ^ (2 * n))
    (hpos : pos = true → p0 + radix ^ n * p2 + radix ^ h * (p0 + p2) + radix ^ h * p = m)
    (hneg : pos = false → p0 + radix ^ n * p2 + radix ^ h * (p0 + p2) = m + radix ^ h * p)
    (hm : m < radix ^ (2 * n)) (hfits : JoinFits n p0 p2 p pos) :
    ∃ z1 z2 d, karatsubaAt karatsubaAdd z n (n * 4) = .ok z1 ∧
      karatsubaAt karatsubaAdd z1 n (n * 5) = .ok z2 ∧
      karatsubaAt (if pos then karatsubaAdd else karatsubaSub) z2 n (n * 3) =
        .ok { z with data := d } ∧
      d.length = z.data.length ∧ value (d.take (2 * n)) = m := by
  have hzl : z.len ≤ z.data.length := hzv
  have hpow := radix_pow_pos h
  obtain ⟨hf1, hf2, hf3⟩ := hfits
  rw [show n / 2 = h by omega] at hf1 hf2 hf3
  -- words above the product are the same before and after an addition
  have habove : ∀ {d : List Word} {i : Nat}, d.drop (2 * n) = z.data.drop (2 * n) → 2 * n ≤ i →
      d.drop i = z.data.drop i := by
    intro d i hd hi
    rw [show i = 2 * n + (i - 2 * n) by omega, ← List.drop_drop, hd, List.drop_drop]
  have hdiv : ∀ {Z t : Nat}, (Z + radix ^ h * t) / radix ^ h = Z / radix ^ h + t := by
    intro Z t
    exact Nat.add_mul_div_left _ _ hpow
  rw [Nat.mul_add] at hsum
  obtain ⟨d1, hr1, hl1, ha1, hv1⟩ := karatsubaAt_add hn (i := n * 4) (by omega) (by omega) hzv hh
    hZ h4 hf1 (by omega)
  obtain ⟨d2, hr2, hl2, ha2, hv2⟩ := karatsubaAt_add (z := { z with data := d1 }) hn (i := n * 5)
    (by omega) (by simp only; omega) (by simp only [CNat.Valid]; omega) hh hv1
    (by simp only; rw [habove ha1 (by omega), h5]) (by rw [hdiv]; exact hf2) (by omega)
  have ha2' : d2.drop (2 * n) = z.data.drop (2 * n) := ha2.trans ha1
  rw [← hdiv, ← hdiv] at hf3
  have h3' : value ((d2.drop (n * 3)).take n) = p := by rw [habove ha2' (by omega), h3]
  have hl2' : d2.length = z.data.length := hl2.trans hl1
  cases pos with
  | true =>
    obtain ⟨d3, hr3, hl3, -, hv3⟩ := karatsubaAt_add (z := { z with data := d2 }) hn (i := n * 3)
      (by omega) (by simp only; omega) (by simp only [CNat.Valid]; omega) hh hv2 h3' hf3
      (by have := hpos rfl; rw [Nat.mul_add] at this; omega)
    refine ⟨_, _, d3, hr1, hr2, hr3, hl3.trans hl2', ?_⟩
    rw [hv3, ← hpos rfl, Nat.mul_add]
    ring
  | false =>
    have hneg' := hneg rfl
    rw [Nat.mul_add] at hneg'
    obtain ⟨d3, hr3, hl3, -, hv3⟩ := karatsubaAt_sub (z := { z with data := d2 }) hn (i := n * 3)
      (by omega) (by simp only; omega) (by simp only [CNat.Valid]; omega) hh hv2 h3' hf3
      (by omega)
    refine ⟨_, _, d3, hr1, hr2, hr3, hl3.trans hl2', ?_⟩
    omega

/-! ## 3. The recursion -/

/-- **The two subtractions that give a distance.** -/
theorem subVVAbs_spec {d x y : CNat} {h : Nat} (hd : d.len = h) (hdv : d.Valid) (hx : x.len = h)
    (hxv : x.Valid) (hy : y.len = h) (hyv : y.Valid) :
    ∃ w, subVVAbs d x y = .ok (decide (x.val < y.val), w ++ d.data.drop h) ∧ w.length = h ∧
      value w = dist x.val y.val := by
  have hdl : h ≤ d.data.length := hd ▸ hdv
  have hxl : h ≤ x.data.length := hx ▸ hxv
  have hyl : h ≤ y.data.length := hy ▸ hyv
  have hxval : value (x.data.take h) = x.val := by rw [CNat.val, CNat.words, hx]
  have hyval : value (y.data.take h) = y.val := by rw [CNat.val, CNat.words, hy]
  have hxlt : x.val < radix ^ h := hx ▸ CNat.val_lt
  obtain ⟨c, w, hrun, hw, hc, hv⟩ := subVV_spec (z := d) (x := x) (y := y) (n := h)
    (by rw [hd, hx, hy, Nat.min_self, Nat.min_self]) hdl hxl hyl
  have hwlt := value_lt w
  rw [hw] at hwlt
  rw [hxval, hyval] at hv
  simp only [subVVAbs, hrun, Run.ok_bind]
  rcases Nat.le_one_iff_eq_zero_or_eq_one.mp hc with h0 | h1
  · rw [h0, Nat.zero_mul, Nat.add_zero] at hv
    refine ⟨w, ?_, hw, ?_⟩
    · rw [if_neg (not_not.mpr (BitVec.eq_of_toNat_eq h0)), decide_eq_false (by omega)]
    · unfold dist
      omega
  · -- there is a borrow, so `y - x` has none
    have hne : c ≠ 0 := by
      rintro rfl
      exact absurd h1 (by decide)
    rw [h1, Nat.one_mul] at hv
    obtain ⟨c', w', hrun', hw', hc', hv'⟩ := subVV_spec (n := h) (x := y) (y := x)
      (z := { d with data := w ++ d.data.drop h }) (by simp only [hd, hx, hy, Nat.min_self])
      (by simp only [List.length_append, hw]; omega) hyl hxl
    rw [hxval, hyval] at hv'
    have h0' : c'.toNat = 0 := by
      rcases Nat.le_one_iff_eq_zero_or_eq_one.mp hc' with h | h
      · exact h
      · have hw'lt := value_lt w'
        rw [hw'] at hw'lt
        rw [h] at hv'
        omega
    rw [h0', Nat.zero_mul, Nat.add_zero] at hv'
    rw [List.drop_left' hw] at hrun'
    refine ⟨w', ?_, hw', ?_⟩
    · rw [if_pos hne, hrun', Run.ok_bind, decide_eq_true (by omega)]
    · unfold dist
      omega

/-- The buffer with two products side by side. -/
theorem value_side_by_side {d e : List Word} {n p0 p2 : Nat} (hd : n + n ≤ d.length)
    (hp0 : value (d.take n) = p0) (hp2 : value (e.take n) = p2) :
    value ((splice d n e).take n) = p0 ∧ value (((splice d n e).drop n).take n) = p2 := by
  have hdrop := drop_splice (t := e) (j := 0) (show n ≤ d.length by omega)
  rw [Nat.add_zero, List.drop_zero] at hdrop
  rw [take_splice (by omega) le_rfl, hdrop]
  exact ⟨hp0, hp2⟩

/-- The buffer with the third product, and with the copy of the first two. -/
theorem value_copied {d e : List Word} {n p0 p2 p : Nat} (hd : 6 * n ≤ d.length)
    (he : e.length = d.length - n * 3) (hp0 : value (d.take n) = p0)
    (hp2 : value ((d.drop n).take n) = p2) (hp : value (e.take n) = p) :
    ∃ d' d'', splice d (n * 3) e = d' ∧
      memcpy (d'.drop (n * 4)) d' (n * 2) = .ok d'' ∧
      (splice d' (n * 4) d'').length = d.length ∧
      value ((splice d' (n * 4) d'').take (2 * n)) = p0 + radix ^ n * p2 ∧
      value (((splice d' (n * 4) d'').drop (n * 4)).take n) = p0 ∧
      value (((splice d' (n * 4) d'').drop (n * 5)).take n) = p2 ∧
      value (((splice d' (n * 4) d'').drop (n * 3)).take n) = p := by
  obtain ⟨d', hd'⟩ : ∃ d', splice d (n * 3) e = d' := ⟨_, rfl⟩
  have hl' : d'.length = d.length := by rw [← hd', length_splice (by omega) he]
  have ht1 : (d'.drop 0).take n = (d.drop 0).take n := by
    rw [← hd', take_drop_splice (by omega) (by omega)]
  have ht2 : (d'.drop n).take n = (d.drop n).take n := by
    rw [← hd', take_drop_splice (by omega) (by omega)]
  have ht3 : (d'.drop (n * 3)).take n = e.take n := by
    have hdrop := drop_splice (t := e) (j := 0) (show n * 3 ≤ d.length by omega)
    rw [Nat.add_zero, List.drop_zero, hd'] at hdrop
    rw [hdrop]
  rw [List.drop_zero, List.drop_zero] at ht1
  have hcopy := memcpy_eq (d := d'.drop (n * 4)) (s := d') (k := n * 2)
    (by rw [List.length_drop]; omega) (by omega)
  have hlc : (d'.take (n * 2)).length = n * 2 := List.length_take_of_le (by omega)
  refine ⟨d', _, hd', hcopy, ?_, ?_, ?_, ?_, ?_⟩
  · rw [length_splice (by omega), hl']
    rw [List.length_append, hlc, List.length_drop, List.length_drop]
    omega
  · rw [take_splice (by omega) (by omega), show 2 * n = n + n by omega,
      value_take_add _ (by omega), ht1, ht2, hp0, hp2]
  · have h4 := drop_splice (t := d'.take (n * 2) ++ (d'.drop (n * 4)).drop (n * 2)) (j := 0)
      (show n * 4 ≤ d'.length by omega)
    rw [Nat.add_zero, List.drop_zero] at h4
    rw [h4, List.take_append_of_le_length (by omega), List.take_take, Nat.min_eq_left (by omega),
      ht1, hp0]
  · have h5 := drop_splice (t := d'.take (n * 2) ++ (d'.drop (n * 4)).drop (n * 2)) (j := n)
      (show n * 4 ≤ d'.length by omega)
    rw [show n * 4 + n = n * 5 by omega] at h5
    rw [h5, List.drop_append_of_le_length (by omega), List.drop_take,
      show n * 2 - n = n by omega, List.take_append_of_le_length (by
        rw [List.length_take_of_le (by rw [List.length_drop]; omega)]), List.take_take,
      Nat.min_self, ht2, hp2]
  · rw [take_drop_splice (by omega) (by omega), ht3, hp]

/-- A distance, written into the buffer at `i`. -/
theorem subVVAbs_at {d : List Word} {x y : CNat} {i h : Nat} (hd : i + h ≤ d.length)
    (hx : x.len = h) (hxv : x.Valid) (hy : y.len = h) (hyv : y.Valid) :
    ∃ e, subVVAbs ⟨d.drop i, h, h⟩ x y = .ok (decide (x.val < y.val), e) ∧
      (splice d i e).length = d.length ∧
      (⟨(splice d i e).drop i, h, h⟩ : CNat).val = dist x.val y.val := by
  obtain ⟨w, hrun, hw, hval⟩ := subVVAbs_spec (d := ⟨d.drop i, h, h⟩) (h := h) rfl
    (by simp only [CNat.Valid, List.length_drop]; omega) hx hxv hy hyv
  refine ⟨_, hrun, ?_, ?_⟩
  · refine length_splice (by omega) ?_
    rw [List.length_append, hw, List.length_drop, List.length_drop]
    omega
  · rw [CNat.val, CNat.words, take_drop_splice_self (by omega) hw, hval]

theorem natPart_mid (p : CNat) {i h j : Nat} (hj : i + h = j) :
    natPart p i j = .ok ⟨p.data.drop i, h, h⟩ := by
  rw [natPart_eq p (by omega), show j - i = h by omega]

/-- The products and the sums of the halves. -/
theorem halves_fit {r x0 x1 y0 y1 : Nat} (hx0 : x0 < r) (hx1 : x1 < r) (hy0 : y0 < r)
    (hy1 : y1 < r) : x0 * y0 + r * r * (x1 * y1) + r * (x0 * y0 + x1 * y1) < r * r * (r * r) :=
  join_fits (Nat.mul_le_mul (by omega) (by omega)) (Nat.mul_le_mul (by omega) (by omega)) (by omega)

/-- What the halves of a vector of `h + h` words are. -/
structure Halved (x : CNat) (h : Nat) : Prop where
  le : h ≤ x.len
  len : (above x h).len = h
  validLow : (low x h).Valid
  validHigh : (above x h).Valid
  lowVal : (low x h).val = x.val % radix ^ h
  highVal : (above x h).val = x.val / radix ^ h
  sum : (low x h).val + radix ^ h * (above x h).val = x.val

theorem halved {x : CNat} {h : Nat} (hx : x.Valid) (hh : h + h = x.len) : Halved x h := by
  have hle : h ≤ x.len := hh ▸ Nat.le_add_right h h
  obtain ⟨-, hhigh, hsum⟩ := val_split hx hle
  refine ⟨hle, ?_, valid_low hx hle, valid_above hx h, low_val hx hle, hhigh, hsum⟩
  rw [above_len, ← hh, Nat.add_sub_cancel]

theorem Halved.high_lt {x : CNat} {h : Nat} (hx : Halved x h) :
    (above x h).val < radix ^ h := by
  have hlt := CNat.val_lt (x := above x h)
  rwa [hx.len] at hlt

/-- The products of the halves and their sum fit the buffer. -/
theorem Halved.fit {x y : CNat} {h n : Nat} (hx : Halved x h) (hy : Halved y h) (hn : h + h = n) :
    (low x h).val * (low y h).val + radix ^ n * ((above x h).val * (above y h).val) +
      radix ^ h * ((low x h).val * (low y h).val + (above x h).val * (above y h).val) <
      radix ^ (2 * n) := by
  have hfit := halves_fit (CNat.val_lt (x := low x h)) hx.high_lt (CNat.val_lt (x := low y h))
    hy.high_lt
  rw [low_len] at hfit
  rwa [two_mul, pow_add, ← hn, pow_add]

/-- **`karatsuba` is exact if all carries fit.** -/
theorem karatsuba_spec :
    ∀ {f : Nat} {z x y : CNat}, x.Valid → y.Valid → x.len = y.len → y.len < f →
      6 * y.len ≤ z.len → z.Valid → KaraFits f y.len x.val y.val →
      ∃ d, karatsuba f z x y = .ok d ∧ d.length = z.data.length ∧
        value (d.take (2 * y.len)) = x.val * y.val
  | 0, _, _, _, _, _, _, hf, _, _, _ => absurd hf (Nat.not_lt_zero _)
  | fuel + 1, z, x, y, hx, hy, hxy, hf, hz, hzv, hfits => by
    have hzl : z.len ≤ z.data.length := hzv
    by_cases hsmall : y.len % 2 ≠ 0 ∨ y.len < karatsubaThreshold ∨ y.len < 2
    · obtain ⟨out, hrun, hlen, hval⟩ := basicMul_spec (z := z) hx hy (by omega)
      refine ⟨out ++ z.data.drop (x.len + y.len), ?_, ?_, ?_⟩
      · simp only [karatsuba, if_pos hsmall]
        exact hrun
      · rw [List.length_append, hlen, List.length_drop]
        omega
      · rw [List.take_left' (by omega), hval]
    obtain ⟨h, hh⟩ : ∃ h, h + h = y.len := ⟨y.len / 2, by omega⟩
    have hsh : y.len >>> 1 = h := by rw [Nat.shiftRight_eq_div_pow]; omega
    simp only [KaraFits, if_neg hsmall, show y.len / 2 = h by omega] at hfits
    obtain ⟨hf1, hf2, hf3, hjoin⟩ := hfits
    -- the four halves
    have hx' := halved hx (hh.trans hxy.symm)
    have hy' := halved hy hh
    have hxl := hx'.len
    have hyl := hy'.len
    simp only [← hx'.lowVal, ← hx'.highVal, ← hy'.lowVal, ← hy'.highVal] at hf1 hf2 hf3 hjoin
    -- the two products side by side
    obtain ⟨d1, hk1, hl1, hv1⟩ := karatsuba_spec (z := z) hx'.validLow hy'.validLow rfl
      (by simp only [low]; omega)
      (by simp only [low]; omega) hzv hf1
    rw [show 2 * (low y h).len = y.len by simp only [low]; omega] at hv1
    obtain ⟨e2, hk2, hl2, hv2⟩ := karatsuba_spec (f := fuel)
      (z := above ⟨d1, z.len, z.cap⟩ y.len) hx'.validHigh hy'.validHigh (by omega) (by omega)
      (by rw [hyl]; simp only [above]; omega)
      (valid_above (by simp only [CNat.Valid]; omega) _) (by rw [hyl]; exact hf2)
    rw [hyl, show 2 * h = y.len by omega] at hv2
    simp only [above, List.length_drop] at hl2
    obtain ⟨hp0, hp2⟩ := value_side_by_side (by omega) hv1 hv2
    have hl2' := length_splice (show y.len ≤ d1.length by omega) (show e2.length = _ by omega)
    generalize hd2 : splice d1 y.len e2 = d2 at *
    -- the distances
    obtain ⟨e3, hk3, hl3, hv3⟩ := subVVAbs_at (d := d2) (i := 2 * y.len) (h := h) (by omega) hxl
      hx'.validHigh rfl hx'.validLow
    have ht3 : ∀ {j k : Nat}, j + k ≤ 2 * y.len →
        ((splice d2 (2 * y.len) e3).drop j).take k = (d2.drop j).take k :=
      fun hjk => take_drop_splice (by omega) hjk
    generalize hd3 : splice d2 (2 * y.len) e3 = d3 at *
    obtain ⟨e4, hk4, hl4, hv4⟩ := subVVAbs_at (d := d3) (i := 2 * y.len + h) (h := h) (by omega) rfl
      hy'.validLow hyl hy'.validHigh
    have ht4 : ∀ {j k : Nat}, j + k ≤ 2 * y.len + h →
        ((splice d3 (2 * y.len + h) e4).drop j).take k = (d3.drop j).take k :=
      fun hjk => take_drop_splice (by omega) hjk
    generalize hd4 : splice d3 (2 * y.len + h) e4 = d4 at *
    have hv3' : (⟨d4.drop (2 * y.len), h, h⟩ : CNat).val = dist (above x h).val (low x h).val := by
      rw [← hv3, CNat.val, CNat.words, ht4 le_rfl]
      rfl
    -- their product
    obtain ⟨e5, hk5, hl5, hv5⟩ := karatsuba_spec (f := fuel)
      (z := above ⟨d4, z.len, z.cap⟩ (y.len * 3)) (x := ⟨d4.drop (2 * y.len), h, h⟩)
      (y := ⟨d4.drop (2 * y.len + h), h, h⟩) (by simp only [CNat.Valid, List.length_drop]; omega)
      (by simp only [CNat.Valid, List.length_drop]; omega) rfl (by simp only; omega)
      (by simp only [above]; omega) (valid_above (by simp only [CNat.Valid]; omega) _)
      (by rw [hv3', hv4]; exact hf3)
    rw [hv3', hv4, show 2 * h = y.len by omega] at hv5
    simp only [above, List.length_drop] at hl5
    have hp0' : value (d4.take y.len) = (low x h).val * (low y h).val := by
      rw [← hp0, ← List.drop_zero (l := d4), ht4 (by omega), ht3 (by omega), List.drop_zero]
    have hp2' : value ((d4.drop y.len).take y.len) = (above x h).val * (above y h).val := by
      rw [← hp2, ht4 (by omega), ht3 (by omega)]
    -- the copy and the three additions
    obtain ⟨d5, d6, hd5, hcopy, hl6, hZ, h4, h5, h3⟩ := value_copied (by omega) (by omega) hp0' hp2'
      hv5
    have hr : radix ^ y.len = radix ^ h * radix ^ h := by rw [← hh, pow_add]
    have hlt : x.val * y.val < radix ^ (2 * y.len) := by
      rw [two_mul, pow_add]
      exact Nat.mul_lt_mul'' (hxy ▸ CNat.val_lt) CNat.val_lt
    obtain ⟨z1, z2, d7, hj1, hj2, hj3, hl7, hv7⟩ := karatsuba_join
      (z := ⟨splice d5 (y.len * 4) d6, z.len, z.cap⟩) hsh hh hz (by simp only [CNat.Valid]; omega)
      hZ h4 h5 h3 (hx'.fit hy' hh)
      (fun hs => by
        have := middle_pos (beq_iff_eq.mp hs)
        rw [← hx'.sum, ← hy'.sum, hr]
        linear_combination (radix ^ h) * this)
      (fun hs => by
        have := middle_neg (beq_eq_false_iff_ne.mp hs)
        rw [← hx'.sum, ← hy'.sum, hr]
        linear_combination (radix ^ h) * this)
      hlt hjoin
    refine ⟨d7, ?_, by rw [hl7]; simp only; omega, hv7⟩
    simp only [karatsuba, if_neg hsmall, hsh]
    refine Run.bind_of_eq (natPart_low x h) ?_
    refine Run.bind_of_eq (natPart_above x hx'.le) ?_
    refine Run.bind_of_eq (natPart_low y h) ?_
    refine Run.bind_of_eq (natPart_above y hy'.le) ?_
    refine Run.bind_of_eq hk1 ?_
    refine Run.bind_of_eq (natPart_above _ (by simp only; omega)) ?_
    refine Run.bind_of_eq hk2 ?_
    simp only [hd2]
    refine Run.bind_of_eq (natPart_mid _ rfl) ?_
    refine Run.bind_of_eq hk3 ?_
    simp only [hd3]
    refine Run.bind_of_eq (natPart_mid _ (h := h) (by omega)) ?_
    refine Run.bind_of_eq hk4 ?_
    simp only [hd4]
    refine Run.bind_of_eq (natPart_mid _ rfl) ?_
    refine Run.bind_of_eq (natPart_mid _ (h := h) (by omega)) ?_
    refine Run.bind_of_eq (natPart_above _ (by simp only; omega)) ?_
    refine Run.bind_of_eq hk5 ?_
    simp only [hd5]
    refine Run.bind_of_eq (natPart_above _ (by simp only; omega)) ?_
    refine Run.bind_of_eq hcopy ?_
    refine Run.bind_of_eq hj1 ?_
    refine Run.bind_of_eq hj2 ?_
    refine Run.bind_of_eq (a := ⟨d7, z.len, z.cap⟩) ?_ rfl
    simp only [beq_iff_eq] at hj3
    exact hj3

end CDemo.BigInt
