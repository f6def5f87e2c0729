/-
# Adding and subtracting in place

Karatsuba, `addAt` and the recursive division add to the low words of a vector, or subtract from
them, and pass what is left over on to the words above, with `addVW` or `subVW` in place.

Two things go wrong there.  A carry runs on (`RunsOn`) when it leaves the low words, finds a word of
ones above them, and goes through; then `addVW` counts it twice.  And where the first word above
takes the carry up, the loop for more than 32 words copies all words from there on onto themselves,
one more than there are: past the end of the block, if the block has no word to spare.  `CarryFits`
says that neither happens.  A borrow runs on when it finds a zero word (`BorrowsOn`, `BorrowFits`).
-/
import CDemo.BigInt.AddSub

namespace CDemo.BigInt

/-- A carry out of the low `n` words of `z + t` finds a word of ones. -/
def RunsOn (z t n : Nat) : Prop :=
  radix ^ n ≤ z % radix ^ n + t ∧ z / radix ^ n % radix = radix - 1

/-- A borrow out of the low `n` words of `z - t` finds a zero word. -/
def BorrowsOn (z t n : Nat) : Prop := z % radix ^ n < t ∧ z / radix ^ n % radix = 0

/-- No carry out of the low `n` words of `z + t` runs on, and none at all is passed on through more
than 32 words, of the `h` that follow, in a block without a word to spare. -/
def CarryFits (z t n h : Nat) (spare : Bool) : Prop :=
  ¬ RunsOn z t n ∧ (32 < h → spare = false → z % radix ^ n + t < radix ^ n)

/-- The same for a borrow out of the low `n` words of `z - t`. -/
def BorrowFits (z t n h : Nat) (spare : Bool) : Prop :=
  ¬ BorrowsOn z t n ∧ (32 < h → spare = false → t ≤ z % radix ^ n)

instance (z t n : Nat) : Decidable (RunsOn z t n) := inferInstanceAs (Decidable (_ ∧ _))

instance (z t n : Nat) : Decidable (BorrowsOn z t n) := inferInstanceAs (Decidable (_ ∧ _))

instance (z t n h : Nat) (spare : Bool) : Decidable (CarryFits z t n h spare) :=
  inferInstanceAs (Decidable (_ ∧ (_ → _ → _)))

instance (z t n h : Nat) (spare : Bool) : Decidable (BorrowFits z t n h spare) :=
  inferInstanceAs (Decidable (_ ∧ (_ → _ → _)))

/-- The words of `d` after `x` was added to its low `n` words and the carry passed on through `h`
more; with `u64Sub`, after it was subtracted. -/
def inPlace (op : Word → Word → Word → Word × Word) (d x : List Word) (n h : Nat) : List Word :=
  (vvWords op (d.take n) (x.take n) 0).2 ++
    (vwWords op ((d.drop n).take h) (vvWords op (d.take n) (x.take n) 0).1 0).2

section

variable {op : Word → Word → Word → Word × Word} {d x : List Word} {n h : Nat}

theorem length_low (op : Word → Word → Word → Word × Word) (hd : n ≤ d.length) (hx : n ≤ x.length)
    (c : Word) :
    (vvWords op (d.take n) (x.take n) c).2.length = n := by
  rw [length_vvWords (by rw [List.length_take_of_le hd, List.length_take_of_le hx]),
    List.length_take_of_le hd]

/-- **`addVV`** on its first `n` words. -/
theorem addVV_spec {z x y : CNat} (hn : min z.len (min x.len y.len) = n) (hz : n ≤ z.data.length)
    (hx : n ≤ x.data.length) (hy : n ≤ y.data.length) :
    ∃ c w, addVV z x y = .ok (c, w ++ z.data.drop n) ∧ w.length = n ∧ c.toNat ≤ 1 ∧
      value w + c.toNat * radix ^ n = value (x.data.take n) + value (y.data.take n) := by
  obtain ⟨hc, hv⟩ := value_vvAdd (c := 0) (show (x.data.take n).length = (y.data.take n).length by
    rw [List.length_take_of_le hx, List.length_take_of_le hy]) (by decide)
  rw [List.length_take_of_le hx, word_zero, Nat.add_zero] at hv
  exact ⟨_, _, by rw [addVV, hn, vvLoop_eq hz hx hy], length_low u64Add hx hy 0, hc, hv⟩

/-- **`subVV`** on its first `n` words. -/
theorem subVV_spec {z x y : CNat} (hn : min z.len (min x.len y.len) = n) (hz : n ≤ z.data.length)
    (hx : n ≤ x.data.length) (hy : n ≤ y.data.length) :
    ∃ c w, subVV z x y = .ok (c, w ++ z.data.drop n) ∧ w.length = n ∧ c.toNat ≤ 1 ∧
      value w + value (y.data.take n) = value (x.data.take n) + c.toNat * radix ^ n := by
  obtain ⟨hc, hv⟩ := value_vvSub (c := 0) (show (x.data.take n).length = (y.data.take n).length by
    rw [List.length_take_of_le hx, List.length_take_of_le hy]) (by decide)
  rw [List.length_take_of_le hx, word_zero, Nat.add_zero] at hv
  exact ⟨_, _, by rw [subVV, hn, vvLoop_eq hz hx hy], length_low u64Sub hx hy 0, hc, hv⟩

theorem length_inPlace (op : Word → Word → Word → Word × Word) (hd : n + h ≤ d.length)
    (hx : n ≤ x.length) :
    (inPlace op d x n h).length = n + h := by
  have hh : h ≤ (d.drop n).length := by rw [List.length_drop]; omega
  rw [inPlace, List.length_append, length_low op (by omega) hx, length_vwWords,
    List.length_take_of_le hh]

/-- With nothing to pass on the words above stay. -/
theorem inPlace_dead (hop : ∀ x, op x 0 0 = (x, 0))
    (h0 : (vvWords op (d.take n) (x.take n) 0).1 = 0) :
    inPlace op d x n h ++ d.drop (n + h) =
      (vvWords op (d.take n) (x.take n) 0).2 ++ d.drop n := by
  rw [inPlace, h0, vwWords_zero hop, List.append_assoc, ← List.drop_drop, List.take_append_drop]

/-- **`addVW` and `subVW` in place**, whichever loop they take, with a copy that stays in the
block. -/
theorem vw_same (hop : ∀ x, op x 0 0 = (x, 0)) {t : List Word} {l h' l' : Nat} {c : Word}
    (hl : h ≤ l) (ht : l ≤ t.length)
    (hroom : 32 < h → c ≠ 0 → l < t.length ∧ ∀ w ∈ t.head?, (op w c 0).2 = 0) :
    vw op ⟨t, h, h'⟩ ⟨t, l, l'⟩ c =
      .ok ((vwWords op (t.take h) c 0).1, (vwWords op (t.take h) c 0).2 ++ t.drop h) := by
  rw [vw]
  simp only [Nat.min_eq_left hl]
  split
  · next hlarge => exact vwLargeLoop_self hop (hl.trans ht) ht (hroom hlarge)
  · exact vwLoop_eq (hl.trans ht) (hl.trans ht)

/-- The low words and the `h` words above them. -/
theorem value_low_high (hd : n + h ≤ d.length) :
    value (d.take n) = value (d.take (n + h)) % radix ^ n ∧
      value ((d.drop n).take h) = value (d.take (n + h)) / radix ^ n := by
  have hlen : n ≤ (d.take (n + h)).length := by rw [List.length_take_of_le hd]; omega
  have htake : d.take n = (d.take (n + h)).take n := by
    rw [List.take_take, Nat.min_eq_left (by omega)]
  have hdrop : (d.drop n).take h = (d.take (n + h)).drop n := by
    rw [List.drop_take, Nat.add_sub_cancel_left]
  rw [htake, hdrop, value_take _ hlen, value_drop _ hlen]
  exact ⟨rfl, rfl⟩

/-- The first word above the low words. -/
theorem high_first (hh : 0 < h) (hd : n + h ≤ d.length) :
    ∃ w ws, (d.drop n).take h = w :: ws ∧ ws.length + 1 = h ∧
      w.toNat = value (d.take (n + h)) / radix ^ n % radix := by
  have hl : h ≤ (d.drop n).length := by rw [List.length_drop]; omega
  obtain ⟨w, ws, -, ht⟩ := take_eq_cons hh hl
  have hlen := List.length_take_of_le hl
  rw [ht, List.length_cons] at hlen
  refine ⟨w, _, ht, hlen, ?_⟩
  rw [← (value_low_high hd).2, ht, value_cons, Nat.add_mul_mod_self_left,
    Nat.mod_eq_of_lt (toNat_lt_radix w)]

/-- **What the long loop copies in place stays in the block**: nothing is passed on above the low
`n` words of `d`, or not through more than 32 words, or the first of them takes it up and a word is
left behind the `l` words that the loop knows of. -/
def CopyStays (op : Word → Word → Word → Word × Word) (d x : List Word) (n h l : Nat) : Prop :=
  32 < h → (vvWords op (d.take n) (x.take n) 0).1 ≠ 0 → l < (d.drop n).length ∧
    ∀ w ∈ (d.drop n).head?, (op w (vvWords op (d.take n) (x.take n) 0).1 0).2 = 0

/-- The first word above the low words, as part of the number. -/
theorem head_of_high {p : Word → Prop} (hh : 0 < h) (hd : n + h ≤ d.length)
    (hp : ∀ w : Word, w.toNat = value (d.take (n + h)) / radix ^ n % radix → p w) :
    ∀ w ∈ (d.drop n).head?, p w := by
  obtain ⟨w, ws, hws, -, hw⟩ := high_first hh hd
  have hhead : ((d.drop n).take h).head? = (d.drop n).head? := by
    rw [List.head?_take, if_neg (Nat.ne_of_gt hh)]
  rw [hws] at hhead
  intro w' hw'
  rw [← Option.some.inj (hhead.trans hw')]
  exact hp w hw

theorem copyStays_add {l : Nat} {spare : Bool} (hd : n + h ≤ d.length) (hx : n ≤ x.length)
    (hfits : CarryFits (value (d.take (n + h))) (value (x.take n)) n h spare)
    (hspare : spare = true → n + l < d.length) : CopyStays u64Add d x n h l := by
  intro hh hc
  have hdn : n ≤ d.length := (Nat.le_add_right n h).trans hd
  obtain ⟨hc1, hlow⟩ := value_vvAdd (c := 0)
    (show (d.take n).length = (x.take n).length by
      rw [List.length_take_of_le hdn, List.length_take_of_le hx]) (by decide)
  have hone := (eq_zero_or_one hc1).resolve_left hc
  rw [List.length_take_of_le hdn, (value_low_high hd).1, hone, word_zero, word_one, Nat.one_mul,
    Nat.add_zero] at hlow
  have hcarry : radix ^ n ≤ value (d.take (n + h)) % radix ^ n + value (x.take n) :=
    hlow ▸ Nat.le_add_left _ _
  obtain ⟨hno, hroom⟩ := hfits
  refine ⟨?_, head_of_high (by omega) hd fun w hw => u64Add_noCarry ?_⟩
  · cases hs : spare with
    | false => exact absurd (hroom hh hs) (Nat.not_lt.mpr hcarry)
    | true =>
      have := hspare hs
      rw [List.length_drop]
      omega
  · have hne : w.toNat ≠ radix - 1 := fun hM => hno ⟨hcarry, hw ▸ hM⟩
    have hlt := toNat_lt_radix w
    rw [hone, word_one]
    omega

theorem copyStays_sub {l : Nat} {spare : Bool} (hd : n + h ≤ d.length) (hx : n ≤ x.length)
    (hfits : BorrowFits (value (d.take (n + h))) (value (x.take n)) n h spare)
    (hspare : spare = true → n + l < d.length) : CopyStays u64Sub d x n h l := by
  intro hh hc
  have hdn : n ≤ d.length := (Nat.le_add_right n h).trans hd
  obtain ⟨hc1, hlow⟩ := value_vvSub (c := 0)
    (show (d.take n).length = (x.take n).length by
      rw [List.length_take_of_le hdn, List.length_take_of_le hx]) (by decide)
  have hone := (eq_zero_or_one hc1).resolve_left hc
  have hlt := value_lt (vvWords u64Sub (d.take n) (x.take n) 0).2
  rw [length_low u64Sub hdn hx] at hlt
  rw [List.length_take_of_le hdn, (value_low_high hd).1, hone, word_zero, word_one, Nat.one_mul,
    Nat.add_zero] at hlow
  have hborrow : value (d.take (n + h)) % radix ^ n < value (x.take n) := by omega
  obtain ⟨hno, hroom⟩ := hfits
  refine ⟨?_, head_of_high (by omega) hd fun w hw => u64Sub_noBorrow ?_⟩
  · cases hs : spare with
    | false => exact absurd (hroom hh hs) (Nat.not_le.mpr hborrow)
    | true =>
      have := hspare hs
      rw [List.length_drop]
      omega
  · have hne : w.toNat ≠ 0 := fun h0 => hno ⟨hborrow, hw ▸ h0⟩
    rw [hone, word_one]
    omega

/-- **Adding in place is exact unless a carry runs on.** -/
theorem value_inPlace_add (hd : n + h ≤ d.length) (hx : n ≤ x.length)
    (hno : ¬ RunsOn (value (d.take (n + h))) (value (x.take n)) n)
    (hfit : value (d.take (n + h)) + value (x.take n) < radix ^ (n + h)) :
    value (inPlace u64Add d x n h) = value (d.take (n + h)) + value (x.take n) := by
  have hdn : n ≤ d.length := by omega
  obtain ⟨hc, hlow⟩ := value_vvAdd (c := 0)
    (show (d.take n).length = (x.take n).length by
      rw [List.length_take_of_le hdn, List.length_take_of_le hx]) (by decide)
  have hwl := length_low u64Add hdn hx 0
  have hsplit := Nat.mod_add_div (value (d.take (n + h))) (radix ^ n)
  obtain ⟨h1, h2⟩ := value_low_high hd
  rw [List.length_take_of_le hdn, h1, word_zero, Nat.add_zero] at hlow
  rw [inPlace, value_append, hwl]
  generalize hlo : vvWords u64Add (d.take n) (x.take n) 0 = lo at *
  rcases Nat.le_one_iff_eq_zero_or_eq_one.mp hc with h0 | h1'
  · rw [show lo.1 = 0 from BitVec.eq_of_toNat_eq h0, vwWords_zero u64Add_zero, h2]
    rw [h0] at hlow
    linarith
  · have hone : lo.1 = 1 := BitVec.eq_of_toNat_eq h1'
    have hlt := value_lt lo.2
    rw [hwl] at hlt
    rw [h1', Nat.one_mul] at hlow
    have hh : 0 < h := by
      by_contra hh0
      have : h = 0 := by omega
      subst this
      rw [Nat.add_zero] at *
      have := Nat.div_eq_of_lt (value_take_lt d (n := n))
      rw [this, Nat.mul_zero] at hsplit
      omega
    obtain ⟨w, ws, hws, hwl', hw⟩ := high_first hh hd
    have hwne : w.toNat ≠ radix - 1 := fun hM => hno ⟨by omega, hw ▸ hM⟩
    have hwlt := toNat_lt_radix w
    have hadd := value_vwAdd (x := w) (c := lo.1) (.inl (by rw [h1']; omega) : _ ∨ ws = [])
    rw [← hws, hwl', h2, h1'] at hadd
    have hout := value_lt (vwWords u64Add ((d.drop n).take h) lo.1 0).2
    generalize vwWords u64Add ((d.drop n).take h) lo.1 0 = hi at *
    have hmul : radix ^ n * _ = radix ^ n * _ := congrArg (radix ^ n * ·) hadd
    -- no carry is left, for the sum fits
    have hzero : hi.1.toNat = 0 := by
      by_contra hne
      have hge := Nat.le_mul_of_pos_left (radix ^ h) (Nat.pos_of_ne_zero hne)
      have := Nat.mul_le_mul_left (radix ^ n) hge
      rw [pow_add] at hfit
      rw [Nat.mul_add, Nat.mul_add] at hmul
      omega
    rw [hzero, Nat.zero_mul, Nat.add_zero] at hmul
    linarith

/-- **Subtracting in place is exact unless a borrow runs on.** -/
theorem value_inPlace_sub (hd : n + h ≤ d.length) (hx : n ≤ x.length)
    (hno : ¬ BorrowsOn (value (d.take (n + h))) (value (x.take n)) n)
    (hge : value (x.take n) ≤ value (d.take (n + h))) :
    value (inPlace u64Sub d x n h) = value (d.take (n + h)) - value (x.take n) ∧
      (vwWords u64Sub ((d.drop n).take h) (vvWords u64Sub (d.take n) (x.take n) 0).1 0).1 = 0 := by
  have hdn : n ≤ d.length := by omega
  obtain ⟨hc, hlow⟩ := value_vvSub (c := 0)
    (show (d.take n).length = (x.take n).length by
      rw [List.length_take_of_le hdn, List.length_take_of_le hx]) (by decide)
  have hwl := length_low u64Sub hdn hx 0
  have hsplit := Nat.mod_add_div (value (d.take (n + h))) (radix ^ n)
  obtain ⟨h1, h2⟩ := value_low_high hd
  rw [List.length_take_of_le hdn, h1, word_zero, Nat.add_zero] at hlow
  rw [inPlace, value_append, hwl]
  generalize hlo : vvWords u64Sub (d.take n) (x.take n) 0 = lo at *
  rcases Nat.le_one_iff_eq_zero_or_eq_one.mp hc with h0 | h1'
  · rw [show lo.1 = 0 from BitVec.eq_of_toNat_eq h0, vwWords_zero u64Sub_zero, h2]
    rw [h0, Nat.zero_mul, Nat.add_zero] at hlow
    exact ⟨by omega, rfl⟩
  · have hlt := value_lt lo.2
    rw [hwl] at hlt
    rw [h1', Nat.one_mul] at hlow
    have hh : 0 < h := by
      by_contra hh0
      have : h = 0 := by omega
      subst this
      rw [Nat.add_zero] at *
      have := Nat.div_eq_of_lt (value_take_lt d (n := n))
      rw [this, Nat.mul_zero] at hsplit
      omega
    obtain ⟨w, ws, hws, hwl', hw⟩ := high_first hh hd
    have hwne : w.toNat ≠ 0 := fun h0 => hno ⟨by omega, hw ▸ h0⟩
    have hsub := value_vwSub (x := w) (c := lo.1) (.inl (by rw [h1']; omega) : _ ∨ ws = [])
    rw [← hws, hwl', h2, h1'] at hsub
    have hout := value_lt (vwWords u64Sub ((d.drop n).take h) lo.1 0).2
    have hhl : ((d.drop n).take h).length = h := by rw [hws, List.length_cons, hwl']
    rw [length_vwWords, hhl] at hout
    generalize vwWords u64Sub ((d.drop n).take h) lo.1 0 = hi at *
    have hmul : radix ^ n * _ = radix ^ n * _ := congrArg (radix ^ n * ·) hsub
    -- no borrow is left, for the first word above takes it up
    have hzero : hi.1.toNat = 0 := by
      by_contra hne
      have hge' := Nat.le_mul_of_pos_left (radix ^ h) (Nat.pos_of_ne_zero hne)
      have hpos : 1 ≤ value (d.take (n + h)) / radix ^ n := by
        by_contra hz
        have : value (d.take (n + h)) / radix ^ n = 0 := by omega
        rw [this, Nat.zero_mod] at hw
        exact hwne hw
      omega
    simp only [hzero, Nat.zero_mul, Nat.add_zero, Nat.mul_add, Nat.mul_one] at hmul
    exact ⟨by omega, BitVec.eq_of_toNat_eq hzero⟩

end

end CDemo.BigInt
