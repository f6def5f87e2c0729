/-
# Addition and subtraction of vectors

`natadd.c` and `natsub.c`.  `addVV` and `subVV` run over two vectors with a carry, `addVW` and
`subVW` pass a word on through one vector.  The two files are mirror images of each other, so
each loop is written once, over the primitive (`u64Add` or `u64Sub`) it calls.

Two things about `addVW` and `subVW`.

* The variable `oc` goes into `UIntAdd` as well as coming out of it, and the loop then copies it
  into `c`: from the second word on a carry counts twice.  So these loops are exact only when the
  carry dies in the first word, or when there is no second one
  (`value_vwAdd`, `value_vwSub`, and `lt_value_vwAdd`, `value_vwSub_lt` for the other case).
* On vectors of more than 32 words the loop stops when the carry has died and copies the rest,
  but it copies `x.len` words from where it stands, not the words that are left.  That runs past
  the end of both vectors, also where they are one storage and the words are copied onto
  themselves; only a block with words to spare behind the vector lets it return.
-/
import CDemo.BigInt.Nat

namespace CDemo.BigInt

/-! ## 1. The loops -/

/-- The loop of `addVV` and `subVV`. -/
def vvLoop (op : Word → Word → Word → Word × Word) :
    Nat → List Word → List Word → List Word → Word → Run (Word × List Word)
  | 0, z, _, _, c => .ok (c, z)
  | n + 1, _ :: z, xi :: x, yi :: y, c => do
    let (zi, c) := op xi yi c
    let (c, z) ← vvLoop op n z x y c
    .ok (c, zi :: z)
  | _ + 1, _, _, _, _ => .error .outOfBounds

/-- `addVV(z, x, y)`: the carry, and the words at `z`.  The source counts the words in an `int`
here, and in an `ssize_t` in `subVV`; the counter of the model has no largest value. -/
def addVV (z x y : CNat) : Run (Word × List Word) :=
  vvLoop u64Add (min z.len (min x.len y.len)) z.data x.data y.data 0

/-- `subVV(z, x, y)`. -/
def subVV (z x y : CNat) : Run (Word × List Word) :=
  vvLoop u64Sub (min z.len (min x.len y.len)) z.data x.data y.data 0

/-- The plain loop of `addVW` and `subVW`.  `oc` is passed in and out. -/
def vwLoop (op : Word → Word → Word → Word × Word) :
    Nat → List Word → List Word → Word → Word → Run (Word × List Word)
  | 0, z, _, c, _ => .ok (c, z)
  | n + 1, _ :: z, xi :: x, c, oc => do
    let (zi, oc) := op xi c oc
    let (c, z) ← vwLoop op n z x oc oc
    .ok (c, zi :: z)
  | _ + 1, _, _, _, _ => .error .outOfBounds

/-- The loop of `addVWlarge` and `subVWlarge`.  In place the words are copied onto themselves, and
past the end all the same. -/
def vwLargeLoop (op : Word → Word → Word → Word × Word) (xlen : Nat) :
    Nat → List Word → List Word → Word → Word → Run (Word × List Word)
  | 0, z, _, c, _ => .ok (c, z)
  | n + 1, z, x, c, oc =>
    if c = 0 then do
      let z ← memcpy z x xlen
      .ok (c, z)
    else
      match z, x with
      | _ :: z, xi :: x => do
        let (zi, oc) := op xi c oc
        let (c, z) ← vwLargeLoop op xlen n z x oc oc
        .ok (c, zi :: z)
      | _, _ => .error .outOfBounds

/-- The choice between the two. -/
def vw (op : Word → Word → Word → Word × Word) (z x : CNat) (y : Word) :
    Run (Word × List Word) :=
  if 32 < z.len then vwLargeLoop op x.len (min z.len x.len) z.data x.data y 0
  else vwLoop op (min z.len x.len) z.data x.data y 0

/-- `addVW(z, x, y)`. -/
def addVW (z x : CNat) (y : Word) : Run (Word × List Word) := vw u64Add z x y

/-- `subVW(z, x, y)`. -/
def subVW (z x : CNat) (y : Word) : Run (Word × List Word) := vw u64Sub z x y

/-- `natAdd` once its longer operand comes first. -/
def natAddLong (x y : CNat) : Run CNat := do
  let m := x.len
  let n := y.len
  if m = 0 ∨ n = 0 then
    .ok x
  else
    let z := natNewLen (m + 1)
    let z1 ← natPart z 0 n
    let (c, data) ← addVV z1 x y
    let z := { z with data := data }
    let (c, data) ←
      if n < m then do
        let zz ← natPart z n m
        let xx ← natPart x n x.len
        let (c, data) ← addVW zz xx c
        .ok (c, splice z.data n data)
      else .ok (c, z.data)
    let data ← natSetValue { z with data := data } m c
    natNorm { z with data := data }

def natAdd (x y : CNat) : Run CNat :=
  if x.len < y.len then natAddLong y x else natAddLong x y

def natSub (x y : CNat) : Run CNat := do
  let m := x.len
  let n := y.len
  Run.assert (n ≤ m)
  if m = 0 ∨ n = 0 then
    .ok x
  else
    let z := natNewLen m
    let z1 ← natPart z 0 n
    let (c, data) ← subVV z1 x y
    let z := { z with data := data }
    let (c, data) ←
      if n < m then do
        let zz ← natPart z n z.len
        let xx ← natPart x n x.len
        let (c, data) ← subVW zz xx c
        .ok (c, splice z.data n data)
      else .ok (c, z.data)
    Run.assert (c = 0)
    natNorm { z with data := data }

/-! ## 2. The words the loops compute -/

/-- The words of `vvLoop`. -/
def vvWords (op : Word → Word → Word → Word × Word) :
    List Word → List Word → Word → Word × List Word
  | x :: xs, y :: ys, c =>
    let r := vvWords op xs ys (op x y c).2
    (r.1, (op x y c).1 :: r.2)
  | _, _, c => (c, [])

/-- The words of `vwLoop`. -/
def vwWords (op : Word → Word → Word → Word × Word) :
    List Word → Word → Word → Word × List Word
  | x :: xs, c, oc =>
    let r := vwWords op xs (op x c oc).2 (op x c oc).2
    (r.1, (op x c oc).1 :: r.2)
  | [], c, _ => (c, [])

section Loops

variable {op : Word → Word → Word → Word × Word}

theorem length_vvWords :
    ∀ {xs ys : List Word} {c : Word}, xs.length = ys.length →
      (vvWords op xs ys c).2.length = xs.length
  | [], _, _, _ => rfl
  | _ :: _, [], _, h => by simp at h
  | x :: xs, y :: ys, c, h => by
    simp only [vvWords, List.length_cons]
    rw [length_vvWords (Nat.succ.inj h)]

theorem length_vwWords :
    ∀ {xs : List Word} {c oc : Word}, (vwWords op xs c oc).2.length = xs.length
  | [], _, _ => rfl
  | x :: xs, c, oc => by
    simp only [vwWords, List.length_cons, length_vwWords]

/-- **`vvLoop` within the vectors.** -/
theorem vvLoop_eq :
    ∀ {n : Nat} {z x y : List Word} {c : Word}, n ≤ z.length → n ≤ x.length → n ≤ y.length →
      vvLoop op n z x y c = .ok ((vvWords op (x.take n) (y.take n) c).1,
        (vvWords op (x.take n) (y.take n) c).2 ++ z.drop n)
  | 0, z, x, y, c, _, _, _ => by simp [vvLoop, vvWords]
  | n + 1, [], _, _, _, hz, _, _ => by simp at hz
  | n + 1, _ :: _, [], _, _, _, hx, _ => by simp at hx
  | n + 1, _ :: _, _ :: _, [], _, _, _, hy => by simp at hy
  | n + 1, _ :: z, xi :: x, yi :: y, c, hz, hx, hy => by
    simp only [vvLoop, vvLoop_eq (Nat.le_of_succ_le_succ hz) (Nat.le_of_succ_le_succ hx)
      (Nat.le_of_succ_le_succ hy), Run.ok_bind]
    rfl

/-- **`vwLoop` within the vectors.** -/
theorem vwLoop_eq :
    ∀ {n : Nat} {z x : List Word} {c oc : Word}, n ≤ z.length → n ≤ x.length →
      vwLoop op n z x c oc = .ok ((vwWords op (x.take n) c oc).1,
        (vwWords op (x.take n) c oc).2 ++ z.drop n)
  | 0, z, x, c, oc, _, _ => by simp [vwLoop, vwWords]
  | n + 1, [], _, _, _, hz, _ => by simp at hz
  | n + 1, _ :: _, [], _, _, _, hx => by simp at hx
  | n + 1, _ :: z, xi :: x, c, oc, hz, hx => by
    simp only [vwLoop, vwLoop_eq (Nat.le_of_succ_le_succ hz) (Nat.le_of_succ_le_succ hx),
      Run.ok_bind]
    rfl

/-- Once the carry has died the words stay as they are. -/
theorem vwWords_zero (hop : ∀ x, op x 0 0 = (x, 0)) :
    ∀ xs : List Word, vwWords op xs 0 0 = (0, xs)
  | [] => rfl
  | x :: xs => by
    simp only [vwWords, hop, vwWords_zero hop xs]

/-- **The long loop in place**: where the first word takes up what is passed on, or nothing is,
the copy has to stay in the block; then the words are those of the plain loop. -/
theorem vwLargeLoop_self (hop : ∀ x, op x 0 0 = (x, 0)) {xlen n : Nat} {t : List Word} {c : Word}
    (hn : n ≤ t.length) (hx : xlen ≤ t.length)
    (hroom : c ≠ 0 → xlen < t.length ∧ ∀ w ∈ t.head?, (op w c 0).2 = 0) :
    vwLargeLoop op xlen n t t c 0 = .ok ((vwWords op (t.take n) c 0).1,
      (vwWords op (t.take n) c 0).2 ++ t.drop n) := by
  have hcopy : ∀ {k : Nat} {u : List Word}, xlen ≤ u.length →
      vwLargeLoop op xlen (k + 1) u u 0 0 = .ok (0, u) := by
    intro k u hu
    cases u <;> simp [vwLargeLoop, memcpy_eq hu hu]
  cases n with
  | zero => simp [vwLargeLoop, vwWords]
  | succ n =>
    by_cases hc : c = 0
    · rw [hc, hcopy hx, vwWords_zero hop, List.take_append_drop]
    · obtain ⟨hlt, hhead⟩ := hroom hc
      cases t with
      | nil => exact absurd hn (Nat.not_succ_le_zero n)
      | cons w ws =>
        have hw : (op w c 0).2 = 0 := hhead w rfl
        have hrest : vwLargeLoop op xlen n ws ws 0 0 = .ok (0, ws) := by
          cases n with
          | zero => rfl
          | succ k => exact hcopy (Nat.le_of_lt_succ hlt)
        rw [vwLargeLoop, if_neg hc]
        simp only [hw, hrest, Run.ok_bind, List.take_succ_cons, List.drop_succ_cons, vwWords,
          vwWords_zero hop, List.cons_append, List.take_append_drop]

/-- **The long loop between two vectors**: if it returns, it has computed the words of the plain
loop. -/
theorem vwLargeLoop_ok (hop : ∀ x, op x 0 0 = (x, 0)) {xlen : Nat} :
    ∀ {n : Nat} {z x : List Word} {c oc : Word} {r : Word × List Word},
      (c = 0 → oc = 0) → n ≤ xlen → vwLargeLoop op xlen n z x c oc = .ok r →
      n ≤ z.length → n ≤ x.length →
      r.1 = (vwWords op (x.take n) c oc).1 ∧ r.2.take n = (vwWords op (x.take n) c oc).2 ∧
        r.2.length = z.length
  | 0, z, x, c, oc, r, _, _, hok, _, _ => by
    simp only [vwLargeLoop, Except.ok.injEq] at hok
    subst hok
    simp [vwWords]
  | n + 1, [], _, _, _, _, _, _, _, hz, _ => by simp at hz
  | n + 1, _ :: _, [], _, _, _, _, _, _, _, hx => by simp at hx
  | n + 1, zi :: z, xi :: x, c, oc, r, h0, hlen, hok, hz, hx => by
    rw [vwLargeLoop] at hok
    by_cases hc : c = 0
    · rw [if_pos hc] at hok
      simp only [memcpy] at hok
      split at hok
      · next hfit =>
        simp only [Run.ok_bind, Except.ok.injEq] at hok
        subst hok
        rw [h0 hc, hc, vwWords_zero hop]
        refine ⟨rfl, ?_, ?_⟩
        · have hl : n + 1 ≤ ((xi :: x).take xlen).length := by
            rw [List.length_take]; omega
          rw [List.take_append_of_le_length hl, List.take_take, Nat.min_eq_left hlen]
        · rw [List.length_append, List.length_take, List.length_drop]
          omega
      · exact absurd hok (by simp)
    · rw [if_neg hc] at hok
      simp only at hok
      rw [Run.bind_eq_ok_iff] at hok
      obtain ⟨r', hr', hok⟩ := hok
      simp only [Except.ok.injEq] at hok
      subst hok
      obtain ⟨h1, h2, h3⟩ := vwLargeLoop_ok hop (fun h => h) (by omega) hr'
        (Nat.le_of_succ_le_succ hz) (Nat.le_of_succ_le_succ hx)
      refine ⟨h1, ?_, by simp [h3]⟩
      simp only [List.take_succ_cons, vwWords, h2]

end Loops

/-! ## 3. The numbers the words stand for -/

theorem u64Add_zero (x : Word) : u64Add x 0 0 = (x, 0) := by
  have hsum : x + 0 + 0 = x := by simp
  have h := u64Add_eq x 0 0 (by decide)
  have hx := x.isLt
  have h1 : (u64Add x 0 0).1 = x := hsum
  rw [h1] at h
  have h2 : (u64Add x 0 0).2.toNat = 0 := by simpa [radix] using h
  exact Prod.ext h1 (BitVec.eq_of_toNat_eq h2)

theorem u64Sub_zero (x : Word) : u64Sub x 0 0 = (x, 0) := by
  have hdiff : x - 0 - 0 = x := by simp
  have h := u64Sub_eq x 0 0 (by decide)
  have h1 : (u64Sub x 0 0).1 = x := hdiff
  rw [h1] at h
  have h2 : (u64Sub x 0 0).2.toNat = 0 := by simpa [radix] using h
  exact Prod.ext h1 (BitVec.eq_of_toNat_eq h2)

theorem u64Add_noCarry {x c : Word} (h : x.toNat + c.toNat < radix) : (u64Add x c 0).2 = 0 := by
  by_contra hne
  exact Nat.not_le_of_lt h ((u64Add_carry_iff x c 0 (by decide)).mp hne)

theorem u64Sub_noBorrow {x c : Word} (h : c.toNat ≤ x.toNat) : (u64Sub x c 0).2 = 0 := by
  by_contra hne
  exact Nat.not_lt_of_le h ((u64Sub_borrow_iff x c 0 (by decide)).mp hne)

/-- **`addVV` adds.** -/
theorem value_vvAdd :
    ∀ {xs ys : List Word} {c : Word}, xs.length = ys.length → c.toNat ≤ 1 →
      (vvWords u64Add xs ys c).1.toNat ≤ 1 ∧
      value (vvWords u64Add xs ys c).2 + (vvWords u64Add xs ys c).1.toNat * radix ^ xs.length =
        value xs + value ys + c.toNat
  | [], [], c, _, hc => by simp [vvWords, hc]
  | [], _ :: _, _, h, _ => by simp at h
  | _ :: _, [], _, h, _ => by simp at h
  | x :: xs, y :: ys, c, h, hc => by
    have hstep := u64Add_eq x y c hc
    obtain ⟨hle, ih⟩ := value_vvAdd (Nat.succ.inj h) (u64Add_carry_le x y c hc)
    refine ⟨hle, ?_⟩
    simp only [vvWords, value_cons, List.length_cons, pow_succ]
    linear_combination hstep + radix * ih

/-- **`subVV` subtracts.** -/
theorem value_vvSub :
    ∀ {xs ys : List Word} {c : Word}, xs.length = ys.length → c.toNat ≤ 1 →
      (vvWords u64Sub xs ys c).1.toNat ≤ 1 ∧
      value (vvWords u64Sub xs ys c).2 + value ys + c.toNat =
        value xs + (vvWords u64Sub xs ys c).1.toNat * radix ^ xs.length
  | [], [], c, _, hc => by simp [vvWords, hc]
  | [], _ :: _, _, h, _ => by simp at h
  | _ :: _, [], _, h, _ => by simp at h
  | x :: xs, y :: ys, c, h, hc => by
    have hstep := u64Sub_eq x y c hc
    obtain ⟨hle, ih⟩ := value_vvSub (Nat.succ.inj h) (u64Sub_borrow_le x y c hc)
    refine ⟨hle, ?_⟩
    simp only [vvWords, value_cons, List.length_cons, pow_succ]
    linear_combination hstep + radix * ih

/-- **`addVW` adds, as long as no carry leaves the first word of several.** -/
theorem value_vwAdd {x c : Word} {xs : List Word} (h : x.toNat + c.toNat < radix ∨ xs = []) :
    value (vwWords u64Add (x :: xs) c 0).2 +
        (vwWords u64Add (x :: xs) c 0).1.toNat * radix ^ (xs.length + 1) =
      value (x :: xs) + c.toNat := by
  have hstep := u64Add_eq x c 0 (by decide)
  rw [word_zero, Nat.add_zero] at hstep
  rcases h with hlt | rfl
  · have hoc := u64Add_noCarry hlt
    simp only [vwWords, hoc, vwWords_zero u64Add_zero, value_cons]
    rw [hoc, word_zero, Nat.mul_zero, Nat.add_zero] at hstep
    rw [hstep, word_zero]
    ring
  · simp only [vwWords, value_cons, value_nil, List.length_nil]
    linear_combination hstep

/-- **`subVW` subtracts, as long as no borrow leaves the first word of several.** -/
theorem value_vwSub {x c : Word} {xs : List Word} (h : c.toNat ≤ x.toNat ∨ xs = []) :
    value (vwWords u64Sub (x :: xs) c 0).2 + c.toNat =
      value (x :: xs) + (vwWords u64Sub (x :: xs) c 0).1.toNat * radix ^ (xs.length + 1) := by
  have hstep := u64Sub_eq x c 0 (by decide)
  rw [word_zero, Nat.add_zero] at hstep
  rcases h with hle | rfl
  · have hoc := u64Sub_noBorrow hle
    simp only [vwWords, hoc, vwWords_zero u64Sub_zero, value_cons]
    rw [hoc, word_zero, Nat.mul_zero, Nat.add_zero] at hstep
    rw [word_zero]
    linear_combination hstep
  · simp only [vwWords, value_cons, value_nil, List.length_nil]
    linear_combination hstep

/-- A carry that comes into a further word counts at least twice. -/
theorem le_value_vwAdd_one :
    ∀ {xs : List Word}, xs ≠ [] →
      value xs + 2 ≤ value (vwWords u64Add xs 1 1).2 +
        (vwWords u64Add xs 1 1).1.toNat * radix ^ xs.length
  | [], h => absurd rfl h
  | x :: xs, _ => by
    have hstep := u64Add_eq x 1 1 (by decide)
    rw [word_one] at hstep
    have hle := u64Add_carry_le x 1 1 (by decide)
    simp only [vwWords, value_cons, List.length_cons, pow_succ]
    rcases Nat.le_one_iff_eq_zero_or_eq_one.mp hle with h0 | h1
    · have hoc : (u64Add x 1 1).2 = 0 := BitVec.eq_of_toNat_eq h0
      rw [h0] at hstep
      simp only [hoc, vwWords_zero u64Add_zero]
      rw [word_zero]
      omega
    · have hoc : (u64Add x 1 1).2 = 1 := BitVec.eq_of_toNat_eq h1
      rw [h1] at hstep
      rw [hoc]
      cases xs with
      | nil =>
        simp only [vwWords, value_nil, List.length_nil, pow_zero, Nat.one_mul]
        rw [word_one]
        omega
      | cons y ys =>
        have ih := le_value_vwAdd_one (List.cons_ne_nil y ys)
        have hmul := Nat.mul_le_mul_left radix ih
        nlinarith

/-- A borrow that comes into a further word counts at least twice. -/
theorem value_vwSub_one_le :
    ∀ {xs : List Word}, xs ≠ [] →
      value (vwWords u64Sub xs 1 1).2 + 2 ≤
        value xs + (vwWords u64Sub xs 1 1).1.toNat * radix ^ xs.length
  | [], h => absurd rfl h
  | x :: xs, _ => by
    have hstep := u64Sub_eq x 1 1 (by decide)
    rw [word_one] at hstep
    have hle := u64Sub_borrow_le x 1 1 (by decide)
    simp only [vwWords, value_cons, List.length_cons, pow_succ]
    rcases Nat.le_one_iff_eq_zero_or_eq_one.mp hle with h0 | h1
    · have hoc : (u64Sub x 1 1).2 = 0 := BitVec.eq_of_toNat_eq h0
      rw [h0] at hstep
      simp only [hoc, vwWords_zero u64Sub_zero]
      rw [word_zero]
      omega
    · have hoc : (u64Sub x 1 1).2 = 1 := BitVec.eq_of_toNat_eq h1
      rw [h1] at hstep
      rw [hoc]
      cases xs with
      | nil =>
        simp only [vwWords, value_nil, List.length_nil, pow_zero, Nat.one_mul]
        rw [word_one]
        omega
      | cons y ys =>
        have ih := value_vwSub_one_le (List.cons_ne_nil y ys)
        have hmul := Nat.mul_le_mul_left radix ih
        nlinarith

/-- **A carry out of the first word of several makes `addVW` too large.** -/
theorem lt_value_vwAdd {x c : Word} {xs : List Word} (h : radix ≤ x.toNat + c.toNat)
    (hxs : xs ≠ []) :
    value (x :: xs) + c.toNat < value (vwWords u64Add (x :: xs) c 0).2 +
      (vwWords u64Add (x :: xs) c 0).1.toNat * radix ^ (xs.length + 1) := by
  have hstep := u64Add_eq x c 0 (by decide)
  rw [word_zero, Nat.add_zero] at hstep
  have hle := u64Add_carry_le x c 0 (by decide)
  have hz := toNat_lt_radix (u64Add x c 0).1
  have h1 : (u64Add x c 0).2.toNat = 1 := by
    rcases Nat.le_one_iff_eq_zero_or_eq_one.mp hle with h0 | h1
    · rw [h0] at hstep; omega
    · exact h1
  have hoc : (u64Add x c 0).2 = 1 := BitVec.eq_of_toNat_eq h1
  have hge := Nat.mul_le_mul_left radix (le_value_vwAdd_one hxs)
  have hpos := radix_pos
  rw [h1] at hstep
  simp only [vwWords, hoc, value_cons, pow_succ]
  nlinarith

/-- **A borrow out of the first word of several makes `subVW` too small.** -/
theorem value_vwSub_lt {x c : Word} {xs : List Word} (h : x.toNat < c.toNat) (hxs : xs ≠ []) :
    value (vwWords u64Sub (x :: xs) c 0).2 + c.toNat <
      value (x :: xs) + (vwWords u64Sub (x :: xs) c 0).1.toNat * radix ^ (xs.length + 1) := by
  have hstep := u64Sub_eq x c 0 (by decide)
  rw [word_zero, Nat.add_zero] at hstep
  have hle := u64Sub_borrow_le x c 0 (by decide)
  have h1 : (u64Sub x c 0).2.toNat = 1 := by
    rcases Nat.le_one_iff_eq_zero_or_eq_one.mp hle with h0 | h1
    · rw [h0] at hstep; omega
    · exact h1
  have hoc : (u64Sub x c 0).2 = 1 := BitVec.eq_of_toNat_eq h1
  have hge := Nat.mul_le_mul_left radix (value_vwSub_one_le hxs)
  have hpos := radix_pos
  rw [h1] at hstep
  simp only [vwWords, hoc, value_cons, pow_succ]
  nlinarith

/-! ## 4. `addVW` and `subVW` between two vectors -/

section Between

variable {op : Word → Word → Word → Word × Word}

/-- The first word of a vector, and the others. -/
theorem take_eq_cons {x : List Word} {k : Nat} (hk : 0 < k) (hx : k ≤ x.length) :
    ∃ x0 xs, x = x0 :: xs ∧ x.take k = x0 :: xs.take (k - 1) := by
  cases x with
  | nil => simp at hx; omega
  | cons x0 xs =>
    obtain ⟨j, rfl⟩ := Nat.exists_eq_succ_of_ne_zero (Nat.ne_of_gt hk)
    exact ⟨x0, xs, rfl, rfl⟩

/-- The long loop with nothing to pass on. -/
theorem vwLargeLoop_dead (xlen n : Nat) (z x : List Word) (oc : Word) :
    vwLargeLoop op xlen (n + 1) z x 0 oc =
      (do
        let z ← memcpy z x xlen
        .ok (0, z)) := by
  cases z <;> cases x <;> simp [vwLargeLoop]

/-- If the loop returns, it has computed the words of the plain loop. -/
theorem vw_ok (hop : ∀ x, op x 0 0 = (x, 0)) {z x : CNat} {c : Word} {r : Word × List Word}
    (hlen : z.len = x.len) (hz : z.Valid) (hx : x.Valid) (hok : vw op z x c = .ok r) :
    r.1 = (vwWords op x.words c 0).1 ∧ r.2.take x.len = (vwWords op x.words c 0).2 ∧
      r.2.length = z.data.length := by
  have hz' : x.len ≤ z.data.length := hlen ▸ hz
  rw [vw, hlen, Nat.min_self] at hok
  split at hok
  · exact vwLargeLoop_ok hop (fun _ => rfl) le_rfl hok hz' hx
  · rw [vwLoop_eq hz' hx, Except.ok.injEq] at hok
    subst hok
    have hl : (vwWords op (x.data.take x.len) c 0).2.length = x.len := by
      rw [length_vwWords, List.length_take, Nat.min_eq_left hx]
    refine ⟨rfl, ?_, ?_⟩
    · rw [List.take_append_of_le_length (by rw [hl]), List.take_of_length_le (by rw [hl])]
      rfl
    · rw [List.length_append, hl, List.length_drop]
      omega

/-- Short vectors, and a word 0 to pass on, are no problem. -/
theorem vw_returns {z x : CNat} {c : Word} (hlen : z.len = x.len) (hz : z.Valid) (hx : x.Valid)
    (h : x.len ≤ 32 ∨ c = 0) : ∃ r, vw op z x c = .ok r := by
  have hz' : x.len ≤ z.data.length := hlen ▸ hz
  rw [vw, hlen, Nat.min_self]
  split
  · next hlarge =>
    obtain ⟨k, hk⟩ : ∃ k, x.len = k + 1 := ⟨x.len - 1, by omega⟩
    have hc : c = 0 := h.resolve_left (Nat.not_le.mpr hlarge)
    have hdead := @vwLargeLoop_dead op x.len k z.data x.data 0
    rw [← hk, memcpy_eq hz' hx, Run.ok_bind] at hdead
    subst hc
    exact ⟨_, hdead⟩
  · exact ⟨_, vwLoop_eq hz' hx⟩

/-- When the first word of a long vector takes up what is passed on, the copy starts at the
second word and is one word too long. -/
theorem vw_second {z x : CNat} {c : Word} (hlen : z.len = x.len) (hz : z.Valid) (hx : x.Valid)
    (hlarge : 32 < x.len) (hc : c ≠ 0) {x0 : Word} (hx0 : x.data[0]? = some x0)
    (hoc : (op x0 c 0).2 = 0) :
    (∃ r, vw op z x c = .ok r) ↔ x.len < z.data.length ∧ x.len < x.data.length := by
  have hz' : x.len ≤ z.data.length := hlen ▸ hz
  have hx' : x.len ≤ x.data.length := hx
  obtain ⟨k, hk⟩ : ∃ k, x.len = k + 2 := ⟨x.len - 2, by omega⟩
  obtain ⟨z0, zs, hzs⟩ : ∃ z0 zs, z.data = z0 :: zs := by
    cases hd : z.data with
    | nil => rw [hd] at hz'; simp at hz'; omega
    | cons z0 zs => exact ⟨z0, zs, rfl⟩
  obtain ⟨xs, hxs⟩ : ∃ xs, x.data = x0 :: xs := by
    cases hd : x.data with
    | nil => rw [hd] at hx0; simp at hx0
    | cons y xs => rw [hd] at hx0; exact ⟨xs, by rw [show y = x0 by simpa using hx0]⟩
  have hrun : vw op z x c =
      (do
        let z ← memcpy zs xs x.len
        .ok (0, (op x0 c 0).1 :: z)) := by
    rw [vw, hlen, Nat.min_self, if_pos hlarge, hzs, hxs,
      show vwLargeLoop op x.len x.len (z0 :: zs) (x0 :: xs) c 0 =
        vwLargeLoop op x.len (k + 2) (z0 :: zs) (x0 :: xs) c 0 by rw [← hk],
      vwLargeLoop, if_neg hc]
    simp only [hoc, vwLargeLoop_dead, bind_assoc, Run.ok_bind]
  have hzl : z.data.length = zs.length + 1 := by rw [hzs]; rfl
  have hxl : x.data.length = xs.length + 1 := by rw [hxs]; rfl
  rw [hrun]
  constructor
  · rintro ⟨r, hr⟩
    obtain ⟨d, hd, -⟩ := Run.bind_eq_ok_iff.mp hr
    rw [memcpy] at hd
    split at hd
    · next hfit => omega
    · exact absurd hd (by simp)
  · rintro ⟨h1, h2⟩
    rw [memcpy_eq (by omega) (by omega), Run.ok_bind]
    exact ⟨_, rfl⟩

end Between

/-! ## 5. When `natAdd` and `natSub` are exact -/

/-- When adding the shorter `y` to `x` is exact: there is no carry out of the low words, or at
most one word above them; or the first word above takes up the carry, and the words above are
at most 32 or the block of `x` has a spare word. -/
def AddFits (x y : CNat) : Prop :=
  y.len = 0 ∨ x.len ≤ y.len + 1 ∨ x.val % radix ^ y.len + y.val < radix ^ y.len ∨
    (x.val / radix ^ y.len % radix ≠ radix - 1 ∧
      (x.len ≤ y.len + 32 ∨ x.len < x.data.length))

/-- When subtracting `y` from `x` is exact: there is no borrow out of the low words, or at most
one word above them; or the first word above takes up the borrow, and the words above are at
most 32. -/
def SubFits (x y : CNat) : Prop :=
  y.len = 0 ∨ x.len ≤ y.len + 1 ∨ y.val ≤ x.val % radix ^ y.len ∨
    (x.val / radix ^ y.len % radix ≠ 0 ∧ x.len ≤ y.len + 32)

instance (x y : CNat) : Decidable (AddFits x y) := inferInstanceAs (Decidable (_ ∨ _))

instance (x y : CNat) : Decidable (SubFits x y) := inferInstanceAs (Decidable (_ ∨ _))

section Exact

variable {x y : CNat}

/-- `k` words at the start of a block of `d` zeros. -/
def blank (d k : Nat) : CNat := ⟨List.replicate d 0, k, k⟩

/-- The words above the low `n`. -/
def above (x : CNat) (n : Nat) : CNat := ⟨x.data.drop n, x.len - n, x.len - n⟩

/-- The low `n` words. -/
def low (x : CNat) (n : Nat) : CNat := ⟨x.data, n, n⟩

theorem above_len (x : CNat) (n : Nat) : (above x n).len = x.len - n := rfl

theorem low_len (x : CNat) (n : Nat) : (low x n).len = n := rfl

theorem low_data (x : CNat) (n : Nat) : (low x n).data = x.data := rfl

theorem natPart_low (x : CNat) (n : Nat) : natPart x 0 n = .ok (low x n) :=
  natPart_eq x (Nat.zero_le n)

theorem natPart_above (x : CNat) {n : Nat} (hn : n ≤ x.len) :
    natPart x n x.len = .ok (above x n) :=
  natPart_eq x hn

theorem valid_low (hx : x.Valid) {n : Nat} (hn : n ≤ x.len) : (low x n).Valid := hn.trans hx

theorem valid_above (hx : x.Valid) (n : Nat) : (above x n).Valid := by
  simp only [CNat.Valid, above, List.length_drop] at *
  omega

theorem words_above (x : CNat) (n : Nat) : (above x n).words = x.words.drop n := by
  simp only [CNat.words, above, List.drop_take]

/-- The low words and those above. -/
theorem val_split (hx : x.Valid) {n : Nat} (hn : n ≤ x.len) :
    value (x.data.take n) = x.val % radix ^ n ∧ (above x n).val = x.val / radix ^ n ∧
      value (x.data.take n) + radix ^ n * (above x n).val = x.val := by
  have hlen : n ≤ x.words.length := by rw [CNat.length_words hx]; exact hn
  have htake : x.data.take n = x.words.take n := by
    rw [CNat.words, List.take_take, Nat.min_eq_left hn]
  rw [htake]
  simp only [CNat.val, words_above]
  exact ⟨value_take _ hlen, value_drop _ hlen, value_take_add_drop _ hlen⟩

theorem low_val (hx : x.Valid) {n : Nat} (hn : n ≤ x.len) : (low x n).val = x.val % radix ^ n :=
  (val_split hx hn).1

/-- The first word above the low `n`. -/
theorem above_first (hx : x.Valid) {n : Nat} (hn : n < x.len) :
    ∃ x0 xs, (above x n).data[0]? = some x0 ∧ (above x n).words = x0 :: xs ∧
      xs.length + 1 = x.len - n ∧ x0.toNat = x.val / radix ^ n % radix := by
  have hv := valid_above hx n
  have hpos : 0 < (above x n).len := Nat.sub_pos_of_lt hn
  obtain ⟨x0, xs, hd, ht⟩ := take_eq_cons hpos hv
  refine ⟨x0, _, by rw [hd]; rfl, ht, ?_, ?_⟩
  · have hl := CNat.length_words hv
    rw [CNat.words, ht, List.length_cons] at hl
    exact hl
  · rw [← (val_split hx hn.le).2.1, CNat.val, CNat.words, ht, value_cons,
      Nat.add_mul_mod_self_left, Nat.mod_eq_of_lt (toNat_lt_radix x0)]

/-- The carry out of the low words. -/
def lowAdd (x y : CNat) : Word × List Word := vvWords u64Add (x.data.take y.len) y.words 0

/-- The borrow out of the low words. -/
def lowSub (x y : CNat) : Word × List Word := vvWords u64Sub (x.data.take y.len) y.words 0

theorem length_take_data (hx : x.Valid) {n : Nat} (hn : n ≤ x.len) :
    (x.data.take n).length = n := by
  rw [List.length_take, Nat.min_eq_left (hn.trans hx)]

theorem lowAdd_spec (hx : x.Valid) (hy : y.Valid) (hle : y.len ≤ x.len) :
    (lowAdd x y).2.length = y.len ∧ (lowAdd x y).1.toNat ≤ 1 ∧
      value (lowAdd x y).2 + (lowAdd x y).1.toNat * radix ^ y.len =
        x.val % radix ^ y.len + y.val := by
  have hl : (x.data.take y.len).length = y.words.length := by
    rw [length_take_data hx hle, CNat.length_words hy]
  obtain ⟨hc, hv⟩ := value_vvAdd hl (show (0 : Word).toNat ≤ 1 by decide)
  rw [length_take_data hx hle, (val_split hx hle).1] at hv
  exact ⟨(length_vvWords hl).trans (length_take_data hx hle), hc, hv⟩

theorem lowSub_spec (hx : x.Valid) (hy : y.Valid) (hle : y.len ≤ x.len) :
    (lowSub x y).2.length = y.len ∧ (lowSub x y).1.toNat ≤ 1 ∧
      value (lowSub x y).2 + y.val =
        x.val % radix ^ y.len + (lowSub x y).1.toNat * radix ^ y.len := by
  have hl : (x.data.take y.len).length = y.words.length := by
    rw [length_take_data hx hle, CNat.length_words hy]
  obtain ⟨hc, hv⟩ := value_vvSub hl (show (0 : Word).toNat ≤ 1 by decide)
  rw [length_take_data hx hle, (val_split hx hle).1] at hv
  exact ⟨(length_vvWords hl).trans (length_take_data hx hle), hc, hv⟩

/-- The last lines of `natAdd`: the carry goes into the top word, and the sum is normalised. -/
def addFinish (m : Nat) (data : List Word) (c : Word) : Run CNat := do
  let data ← natSetValue ⟨data, m + 1, m + 1⟩ m c
  natNorm ⟨data, m + 1, m + 1⟩

theorem addFinish_eq {m : Nat} {data : List Word} (hd : data.length = m + 1) (c : Word) :
    ∃ q, addFinish m data c = .ok q ∧ q.Valid ∧ Normal q.words ∧
      q.val = value (data.take m) + radix ^ m * c.toNat := by
  have hm : m < data.length := by omega
  obtain ⟨q, hq, -, -, -, hqv, hqn, hval⟩ :=
    natNorm_eq (p := ⟨data.set m c, m + 1, m + 1⟩) (by simp [CNat.Valid, hd])
  refine ⟨q, ?_, hqv, hqn, ?_⟩
  · rw [addFinish, natSetValue, decide_eq_true (Nat.lt_succ_self m), Run.assert_true, Run.ok_bind,
      Run.write_eq_ok hm, Run.ok_bind, hq]
  · have hm' : m < (data.set m c).length := by rw [List.length_set]; exact hm
    rw [hval, CNat.val, CNat.words, value_take_succ hm', List.getElem_set_self,
      List.take_set_of_le le_rfl]

/-- `natAdd` on two nonempty vectors, step by step. -/
theorem natAddLong_eq (hx : x.Valid) (hy : y.Valid) (hle : y.len ≤ x.len) (hy0 : y.len ≠ 0) :
    natAddLong x y =
      if y.len < x.len then do
        let r ← addVW (blank (x.len + 1 - y.len) (x.len - y.len))
          (above x y.len) (lowAdd x y).1
        addFinish x.len ((lowAdd x y).2 ++ r.2) r.1
      else addFinish x.len ((lowAdd x y).2 ++ List.replicate (x.len + 1 - y.len) 0)
        (lowAdd x y).1 := by
  have hx' : x.len ≤ x.data.length := hx
  have hy' : y.len ≤ y.data.length := hy
  have hlow : addVV ⟨(natNewLen (x.len + 1)).data.drop 0, y.len - 0, y.len - 0⟩ x y =
      .ok ((lowAdd x y).1, (lowAdd x y).2 ++ List.replicate (x.len + 1 - y.len) 0) := by
    rw [addVV, show min (y.len - 0) (min x.len y.len) = y.len by omega,
      vvLoop_eq (by simp; omega) (by omega) hy', List.drop_drop, natNewLen_data,
      List.drop_replicate, Nat.zero_add]
    rfl
  have hll := (lowAdd_spec hx hy hle).1
  have hif : ¬ (x.len = 0 ∨ y.len = 0) := by omega
  simp only [natAddLong, if_neg hif, natPart_eq _ (Nat.zero_le y.len), Run.ok_bind, hlow,
    natPart_eq _ hle, List.drop_left' hll, splice, List.take_left' hll, natNewLen_len]
  rfl

/-- The number in the two parts of a sum. -/
theorem value_parts {l h : List Word} {n k : Nat} (hl : l.length = n) :
    value ((l ++ h).take (n + k)) = value l + radix ^ n * value (h.take k) := by
  rw [← hl, List.take_length_add_append, value_append]

/-- What a return of `addVW` makes of the sum. -/
theorem addFinish_above (hx : x.Valid) (hy : y.Valid) (hlt : y.len < x.len)
    {r : Word × List Word} (hr : addVW (blank (x.len + 1 - y.len) (x.len - y.len))
      (above x y.len) (lowAdd x y).1 = .ok r) :
    ∃ q, addFinish x.len ((lowAdd x y).2 ++ r.2) r.1 = .ok q ∧ q.val = value (lowAdd x y).2 +
      radix ^ y.len * (value (vwWords u64Add (above x y.len).words (lowAdd x y).1 0).2 +
        (vwWords u64Add (above x y.len).words (lowAdd x y).1 0).1.toNat *
          radix ^ (x.len - y.len)) := by
  obtain ⟨hll, -, -⟩ := lowAdd_spec hx hy hlt.le
  have hpow : radix ^ x.len = radix ^ y.len * radix ^ (x.len - y.len) := by
    rw [← pow_add, Nat.add_sub_cancel' hlt.le]
  obtain ⟨h1, h2, h3⟩ := vw_ok (z := blank (x.len + 1 - y.len) (x.len - y.len))
    (x := above x y.len) u64Add_zero rfl (by simp [CNat.Valid, blank]; omega)
    (valid_above hx y.len) hr
  rw [blank, List.length_replicate] at h3
  obtain ⟨q, hq, -, -, hval⟩ := addFinish_eq
    (show ((lowAdd x y).2 ++ r.2).length = x.len + 1 by
      rw [List.length_append, hll, h3]; omega) r.1
  refine ⟨q, hq, ?_⟩
  have hparts := value_parts (h := r.2) (k := x.len - y.len) hll
  rw [Nat.add_sub_cancel' hlt.le] at hparts
  have h2' : r.2.take (x.len - y.len) = _ := h2
  rw [hval, hparts, h2', h1, hpow]
  ring

/-- With words above the low ones: the sum is exact when `addVW` returns and is exact. -/
theorem natAddLong_above (hx : x.Valid) (hy : y.Valid) (hlt : y.len < x.len) (hy0 : y.len ≠ 0) :
    Run.Returns (natAddLong x y) (fun q => q.val = x.val + y.val) ↔
      (∃ r, addVW (blank (x.len + 1 - y.len) (x.len - y.len))
          (above x y.len) (lowAdd x y).1 = .ok r) ∧
      value (vwWords u64Add (above x y.len).words (lowAdd x y).1 0).2 +
          (vwWords u64Add (above x y.len).words (lowAdd x y).1 0).1.toNat *
            radix ^ (x.len - y.len) =
        (above x y.len).val + (lowAdd x y).1.toNat := by
  obtain ⟨-, -, hlow⟩ := lowAdd_spec hx hy hlt.le
  obtain ⟨-, -, hsplit⟩ := val_split hx hlt.le
  have hmod := (val_split hx hlt.le).1
  have hpos := radix_pow_pos y.len
  rw [natAddLong_eq hx hy hlt.le hy0, if_pos hlt]
  constructor
  · rintro ⟨q, hq, hval⟩
    obtain ⟨r, hr, hq'⟩ := Run.bind_eq_ok_iff.mp hq
    obtain ⟨q', hq'', hval'⟩ := addFinish_above hx hy hlt hr
    have hqq : q' = q := Except.ok.inj (hq''.symm.trans hq')
    refine ⟨⟨r, hr⟩, ?_⟩
    rw [hqq, hval] at hval'
    refine Nat.eq_of_mul_eq_mul_left hpos ?_
    linarith
  · rintro ⟨⟨r, hr⟩, hexact⟩
    obtain ⟨q, hq, hval⟩ := addFinish_above hx hy hlt hr
    refine ⟨q, by rw [hr, Run.ok_bind, hq], hval.trans ?_⟩
    rw [hexact]
    linarith

/-- **When `natAdd` is exact.** -/
theorem natAddLong_exact_iff (hx : x.Valid) (hy : y.Valid) (hle : y.len ≤ x.len) :
    Run.Returns (natAddLong x y) (fun q => q.val = x.val + y.val) ↔ AddFits x y := by
  by_cases hy0 : y.len = 0
  · have hval : y.val = 0 := by simp [CNat.val, CNat.words, hy0]
    refine iff_of_true ⟨x, ?_, by rw [hval, Nat.add_zero]⟩ (.inl hy0)
    rw [natAddLong, if_pos (.inr hy0)]
  by_cases hlt : y.len < x.len
  swap
  · have hlen : x.len = y.len := by omega
    obtain ⟨hll, -, hlow⟩ := lowAdd_spec hx hy hle
    refine iff_of_true ?_ (.inr (.inl (by omega)))
    rw [natAddLong_eq hx hy hle hy0, if_neg hlt, hlen, Nat.add_sub_cancel_left]
    obtain ⟨q, hq, -, -, hval⟩ := addFinish_eq
      (show ((lowAdd x y).2 ++ List.replicate 1 0).length = y.len + 1 by simp [hll]) (lowAdd x y).1
    refine ⟨q, hq, hval.trans ?_⟩
    rw [List.take_left' hll]
    have hmod : x.val % radix ^ y.len = x.val := Nat.mod_eq_of_lt (hlen ▸ CNat.val_lt)
    rw [hmod] at hlow
    linarith
  obtain ⟨x0, xs, hx0, hwords, hxs, hfirst⟩ := above_first hx hlt
  obtain ⟨-, hc1, hlow⟩ := lowAdd_spec hx hy hle
  have hwlt := value_lt (lowAdd x y).2
  rw [(lowAdd_spec hx hy hle).1] at hwlt
  have hvabove := valid_above hx y.len
  have hdata : (above x y.len).data.length = x.data.length - y.len := List.length_drop
  have hx' : x.len ≤ x.data.length := hx
  have hzval : (blank (x.len + 1 - y.len) (x.len - y.len)).Valid := by
    simp [CNat.Valid, blank]; omega
  have hval : (above x y.len).val = value (x0 :: xs) := by rw [CNat.val, hwords]
  rw [natAddLong_above hx hy hlt hy0, hval, hwords, AddFits, ← hfirst]
  rcases Nat.le_one_iff_eq_zero_or_eq_one.mp hc1 with hc0 | hc1
  · -- nothing to pass on
    have hc : (lowAdd x y).1 = 0 := BitVec.eq_of_toNat_eq hc0
    rw [hc0] at hlow
    refine iff_of_true ⟨?_, ?_⟩ (.inr (.inr (.inl (by omega))))
    · rw [hc]
      exact vw_returns (x := above x y.len) rfl hzval hvabove (.inr rfl)
    · rw [← hxs]
      refine value_vwAdd (.inl ?_)
      rw [hc0]
      exact toNat_lt_radix x0
  · have hc : (lowAdd x y).1 = 1 := BitVec.eq_of_toNat_eq hc1
    have hcne : (lowAdd x y).1 ≠ 0 := by rw [hc]; decide
    rw [hc1, Nat.one_mul] at hlow
    have hcarry : ¬ x.val % radix ^ y.len + y.val < radix ^ y.len := by omega
    have hx0lt := toNat_lt_radix x0
    by_cases hM : x0.toNat = radix - 1
    · -- the carry goes on
      have hge : radix ≤ x0.toNat + (lowAdd x y).1.toNat := by rw [hc1, hM]; omega
      cases xs with
      | nil =>
        rw [List.length_nil, Nat.zero_add] at hxs
        refine iff_of_true ⟨?_, by rw [← hxs]; exact value_vwAdd (.inr rfl)⟩
          (.inr (.inl (by omega)))
        exact vw_returns (x := above x y.len) rfl hzval hvabove
          (.inl (by simp only [above]; omega))
      | cons y1 ys =>
        rw [List.length_cons] at hxs
        refine iff_of_false (fun h => ?_) ?_
        · have hlt' := lt_value_vwAdd hge (List.cons_ne_nil y1 ys)
          rw [List.length_cons, hxs] at hlt'
          exact absurd h.2 (Nat.ne_of_gt hlt')
        · rintro (h | h | h | h)
          · exact hy0 h
          · omega
          · exact hcarry h
          · exact h.1 hM
    · -- the first word above takes it up
      have hlt0 : x0.toNat + (lowAdd x y).1.toNat < radix := by rw [hc1]; omega
      have hoc := u64Add_noCarry hlt0
      have hexact := value_vwAdd (.inl hlt0 : _ ∨ xs = [])
      rw [hxs] at hexact
      by_cases hshort : x.len ≤ y.len + 32
      · refine iff_of_true ⟨?_, hexact⟩ (.inr (.inr (.inr ⟨hM, .inl hshort⟩)))
        exact vw_returns (x := above x y.len) rfl hzval hvabove
          (.inl (by simp only [above]; omega))
      · have hlarge : 32 < (above x y.len).len := by simp only [above]; omega
        have hsec := vw_second (z := blank (x.len + 1 - y.len) (x.len - y.len))
          (x := above x y.len) rfl hzval hvabove hlarge hcne hx0 hoc
        rw [show (blank (x.len + 1 - y.len) (x.len - y.len)).data.length = x.len + 1 - y.len from
          List.length_replicate, hdata, above_len x y.len] at hsec
        rw [and_iff_left hexact]
        refine hsec.trans ⟨?_, ?_⟩
        · rintro ⟨-, hroom⟩
          exact .inr (.inr (.inr ⟨hM, .inr (by omega)⟩))
        · rintro (h | h | h | h)
          · exact absurd h hy0
          · omega
          · exact absurd h hcarry
          · omega

/-- Exact or not, the low words of a sum are right. -/
theorem natAddLong_mod (hx : x.Valid) (hy : y.Valid) (hle : y.len ≤ x.len) {q : CNat}
    (hq : natAddLong x y = .ok q) :
    q.val % radix ^ y.len = (x.val + y.val) % radix ^ y.len := by
  by_cases hfits : AddFits x y
  · obtain ⟨q', hq', hval⟩ := (natAddLong_exact_iff hx hy hle).mpr hfits
    rw [hq, Except.ok.injEq] at hq'
    rw [hq', hval]
  · have hy0 : y.len ≠ 0 := fun h => hfits (.inl h)
    have hlt : y.len < x.len := by
      by_contra hge
      exact hfits (.inr (.inl (by omega)))
    rw [natAddLong_eq hx hy hle hy0, if_pos hlt] at hq
    obtain ⟨r, hr, hfin⟩ := Run.bind_eq_ok_iff.mp hq
    obtain ⟨q', hq', hval⟩ := addFinish_above hx hy hlt hr
    obtain ⟨-, -, hlow⟩ := lowAdd_spec hx hy hle
    obtain rfl : q' = q := Except.ok.inj (hq'.symm.trans hfin)
    rw [hval, Nat.add_mul_mod_self_left, ← Nat.mod_add_mod x.val, ← hlow,
      Nat.add_mul_mod_self_right]

/-- The last lines of `natSub`: no borrow may be left, and the difference is normalised. -/
def subFinish (m : Nat) (data : List Word) (c : Word) : Run CNat := do
  Run.assert (c = 0)
  natNorm ⟨data, m, m⟩

theorem subFinish_eq {m : Nat} {data : List Word} (hd : data.length = m) :
    ∃ q, subFinish m data 0 = .ok q ∧ q.Valid ∧ Normal q.words ∧ q.val = value data := by
  obtain ⟨q, hq, -, -, -, hqv, hqn, hval⟩ :=
    natNorm_eq (p := ⟨data, m, m⟩) (by simp [CNat.Valid, hd])
  refine ⟨q, ?_, hqv, hqn, ?_⟩
  · rw [subFinish, decide_eq_true rfl, Run.assert_true, Run.ok_bind, hq]
  · rw [hval, CNat.val, CNat.words, List.take_of_length_le hd.le]

/-- `natSub` on two nonempty vectors, step by step. -/
theorem natSub_eq (hx : x.Valid) (hy : y.Valid) (hle : y.len ≤ x.len) (hy0 : y.len ≠ 0) :
    natSub x y =
      if y.len < x.len then do
        let r ← subVW (blank (x.len - y.len) (x.len - y.len)) (above x y.len) (lowSub x y).1
        subFinish x.len ((lowSub x y).2 ++ r.2) r.1
      else subFinish x.len ((lowSub x y).2 ++ List.replicate (x.len - y.len) 0)
        (lowSub x y).1 := by
  have hx' : x.len ≤ x.data.length := hx
  have hy' : y.len ≤ y.data.length := hy
  have hlow : subVV ⟨(natNewLen x.len).data.drop 0, y.len - 0, y.len - 0⟩ x y =
      .ok ((lowSub x y).1, (lowSub x y).2 ++ List.replicate (x.len - y.len) 0) := by
    rw [subVV, show min (y.len - 0) (min x.len y.len) = y.len by omega,
      vvLoop_eq (by simp; omega) (by omega) hy', List.drop_drop, natNewLen_data,
      List.drop_replicate, Nat.zero_add]
    rfl
  have hll := (lowSub_spec hx hy hle).1
  have hif : ¬ (x.len = 0 ∨ y.len = 0) := by omega
  simp only [natSub, decide_eq_true hle, Run.assert_true, if_neg hif,
    natPart_eq _ (Nat.zero_le y.len), Run.ok_bind, hlow, natPart_eq _ hle, List.drop_left' hll,
    splice, List.take_left' hll, natNewLen_len]
  rfl

/-- With words above the low ones: the difference is exact when `subVW` returns and is exact. -/
theorem natSub_above (hx : x.Valid) (hy : y.Valid) (hlt : y.len < x.len) (hy0 : y.len ≠ 0)
    (hge : y.val ≤ x.val) :
    Run.Returns (natSub x y) (fun q => q.val = x.val - y.val) ↔
      (∃ r, subVW (blank (x.len - y.len) (x.len - y.len)) (above x y.len)
        (lowSub x y).1 = .ok r) ∧
      value (vwWords u64Sub (above x y.len).words (lowSub x y).1 0).2 + (lowSub x y).1.toNat =
        (above x y.len).val + (vwWords u64Sub (above x y.len).words (lowSub x y).1 0).1.toNat *
          radix ^ (x.len - y.len) := by
  obtain ⟨hll, -, hlow⟩ := lowSub_spec hx hy hlt.le
  obtain ⟨hmod, -, hsplit⟩ := val_split hx hlt.le
  have hpow : radix ^ x.len = radix ^ y.len * radix ^ (x.len - y.len) := by
    rw [← pow_add, Nat.add_sub_cancel' hlt.le]
  have hpos := radix_pow_pos y.len
  generalize hwords : vwWords u64Sub (above x y.len).words (lowSub x y).1 0 = ws
  -- the words that `subVW` leaves, with the low ones
  have hdata : ∀ r, subVW (blank (x.len - y.len) (x.len - y.len)) (above x y.len)
      (lowSub x y).1 = .ok r → r.1 = ws.1 ∧ ((lowSub x y).2 ++ r.2).length = x.len ∧
        value ((lowSub x y).2 ++ r.2) = value (lowSub x y).2 + radix ^ y.len * value ws.2 := by
    intro r hr
    obtain ⟨h1, h2, h3⟩ := vw_ok (z := blank (x.len - y.len) (x.len - y.len))
      (x := above x y.len) u64Sub_zero rfl (by simp [CNat.Valid, blank]) (valid_above hx y.len) hr
    rw [blank, List.length_replicate] at h3
    rw [List.take_of_length_le (by rw [h3]; exact le_rfl)] at h2
    rw [hwords] at h1 h2
    refine ⟨h1, by rw [List.length_append, hll, h3]; omega, ?_⟩
    rw [value_append, hll, h2]
  rw [natSub_eq hx hy hlt.le hy0, if_pos hlt]
  constructor
  · rintro ⟨q, hq, hval⟩
    obtain ⟨r, hr, hq'⟩ := Run.bind_eq_ok_iff.mp hq
    obtain ⟨h1, hlen, hv⟩ := hdata r hr
    by_cases h0 : r.1 = 0
    · obtain ⟨q', hq'', -, -, hval'⟩ := subFinish_eq hlen
      rw [h0, hq'', Except.ok.injEq] at hq'
      have hws : ws.1.toNat = 0 := by rw [← h1, h0]; rfl
      refine ⟨⟨r, hr⟩, ?_⟩
      have htot : value (lowSub x y).2 + radix ^ y.len * value ws.2 + y.val = x.val := by
        rw [← hv, ← hval', hq', show q.val = x.val - y.val from hval, Nat.sub_add_cancel hge]
      rw [hws]
      refine Nat.eq_of_mul_eq_mul_left hpos ?_
      linarith
    · rw [subFinish, decide_eq_false h0, Run.assert_false, Run.error_bind] at hq'
      exact absurd hq' (by simp)
  · rintro ⟨⟨r, hr⟩, hexact⟩
    obtain ⟨h1, hlen, hv⟩ := hdata r hr
    have hmul : radix ^ y.len * _ = radix ^ y.len * _ := congrArg (radix ^ y.len * ·) hexact
    have htot : value ((lowSub x y).2 ++ r.2) + y.val = x.val + ws.1.toNat * radix ^ x.len := by
      rw [hv, hpow]
      linarith
    have hlt' := value_lt ((lowSub x y).2 ++ r.2)
    rw [hlen] at hlt'
    have h0 : ws.1.toNat = 0 := by
      by_contra hne
      have := Nat.le_mul_of_pos_left (radix ^ x.len) (Nat.pos_of_ne_zero hne)
      omega
    have hr0 : r.1 = 0 := h1.trans (BitVec.eq_of_toNat_eq h0)
    obtain ⟨q, hq, -, -, hval⟩ := subFinish_eq hlen
    refine ⟨q, by rw [hr, Run.ok_bind, hr0, hq], hval.trans ?_⟩
    rw [h0, Nat.zero_mul, Nat.add_zero] at htot
    omega

/-- **When `natSub` is exact.** -/
theorem natSub_exact_iff (hx : x.Valid) (hy : y.Valid) (hle : y.len ≤ x.len)
    (hge : y.val ≤ x.val) :
    Run.Returns (natSub x y) (fun q => q.val = x.val - y.val) ↔ SubFits x y := by
  by_cases hy0 : y.len = 0
  · have hval : y.val = 0 := by simp [CNat.val, CNat.words, hy0]
    refine iff_of_true ⟨x, ?_, by rw [hval, Nat.sub_zero]⟩ (.inl hy0)
    simp only [natSub, decide_eq_true hle, Run.assert_true, Run.ok_bind, if_pos (Or.inr hy0)]
  by_cases hlt : y.len < x.len
  swap
  · have hlen : x.len = y.len := by omega
    obtain ⟨hll, -, hlow⟩ := lowSub_spec hx hy hle
    refine iff_of_true ?_ (.inr (.inl (by omega)))
    have hmod : x.val % radix ^ y.len = x.val := Nat.mod_eq_of_lt (hlen ▸ CNat.val_lt)
    have hwlt := value_lt (lowSub x y).2
    rw [hll] at hwlt
    rw [hmod] at hlow
    have h0 : (lowSub x y).1.toNat = 0 := by
      by_contra hne
      have := Nat.le_mul_of_pos_left (radix ^ y.len) (Nat.pos_of_ne_zero hne)
      omega
    rw [natSub_eq hx hy hle hy0, if_neg hlt, hlen, Nat.sub_self, List.replicate_zero,
      List.append_nil, show (lowSub x y).1 = 0 from BitVec.eq_of_toNat_eq h0]
    obtain ⟨q, hq, -, -, hval⟩ := subFinish_eq hll
    refine ⟨q, hq, hval.trans ?_⟩
    rw [h0] at hlow
    omega
  obtain ⟨x0, xs, hx0, hwords, hxs, hfirst⟩ := above_first hx hlt
  obtain ⟨hll, hc1, hlow⟩ := lowSub_spec hx hy hle
  have hwlt := value_lt (lowSub x y).2
  rw [hll] at hwlt
  have hvabove := valid_above hx y.len
  have hx' : x.len ≤ x.data.length := hx
  have hzval : (blank (x.len - y.len) (x.len - y.len)).Valid := by simp [CNat.Valid, blank]
  have hval : (above x y.len).val = value (x0 :: xs) := by rw [CNat.val, hwords]
  rw [natSub_above hx hy hlt hy0 hge, hval, hwords, SubFits, ← hfirst]
  rcases Nat.le_one_iff_eq_zero_or_eq_one.mp hc1 with hc0 | hc1
  · -- nothing to take away
    have hc : (lowSub x y).1 = 0 := BitVec.eq_of_toNat_eq hc0
    rw [hc0] at hlow
    refine iff_of_true ⟨?_, ?_⟩ (.inr (.inr (.inl (by omega))))
    · rw [hc]
      exact vw_returns (x := above x y.len) rfl hzval hvabove (.inr rfl)
    · rw [← hxs]
      refine value_vwSub (.inl ?_)
      rw [hc0]
      exact Nat.zero_le _
  · have hc : (lowSub x y).1 = 1 := BitVec.eq_of_toNat_eq hc1
    have hcne : (lowSub x y).1 ≠ 0 := by rw [hc]; decide
    rw [hc1, Nat.one_mul] at hlow
    have hborrow : ¬ y.val ≤ x.val % radix ^ y.len := by omega
    by_cases h0 : x0.toNat = 0
    · -- the borrow goes on
      have hlt0 : x0.toNat < (lowSub x y).1.toNat := by rw [hc1, h0]; exact Nat.zero_lt_one
      cases xs with
      | nil =>
        rw [List.length_nil, Nat.zero_add] at hxs
        refine iff_of_true ⟨?_, by rw [← hxs]; exact value_vwSub (.inr rfl)⟩
          (.inr (.inl (by omega)))
        exact vw_returns (x := above x y.len) rfl hzval hvabove
          (.inl (by simp only [above]; omega))
      | cons y1 ys =>
        rw [List.length_cons] at hxs
        refine iff_of_false (fun h => ?_) ?_
        · have hlt' := value_vwSub_lt hlt0 (List.cons_ne_nil y1 ys)
          rw [List.length_cons, hxs] at hlt'
          exact absurd h.2 (Nat.ne_of_lt hlt')
        · rintro (h | h | h | h)
          · exact hy0 h
          · omega
          · exact hborrow h
          · exact h.1 h0
    · -- the first word above takes it up
      have hge0 : (lowSub x y).1.toNat ≤ x0.toNat := by rw [hc1]; omega
      have hoc := u64Sub_noBorrow hge0
      have hexact := value_vwSub (.inl hge0 : _ ∨ xs = [])
      rw [hxs] at hexact
      by_cases hshort : x.len ≤ y.len + 32
      · refine iff_of_true ⟨?_, hexact⟩ (.inr (.inr (.inr ⟨h0, hshort⟩)))
        exact vw_returns (x := above x y.len) rfl hzval hvabove
          (.inl (by simp only [above]; omega))
      · have hlarge : 32 < (above x y.len).len := by simp only [above]; omega
        have hsec := vw_second (z := blank (x.len - y.len) (x.len - y.len))
          (x := above x y.len) rfl hzval hvabove hlarge hcne hx0 hoc
        rw [show (blank (x.len - y.len) (x.len - y.len)).data.length = x.len - y.len from
          List.length_replicate, above_len x y.len] at hsec
        rw [and_iff_left hexact]
        refine hsec.trans ⟨?_, ?_⟩
        · rintro ⟨hroom, -⟩
          exact absurd hroom (Nat.lt_irrefl _)
        · rintro (h | h | h | h)
          · exact absurd h hy0
          · omega
          · exact absurd h hborrow
          · omega

end Exact

end CDemo.BigInt
