/-
# Recursive division

`natDivRecursiveStep` guesses a block of the quotient by dividing what lies above word `s` of both
operands, and corrects the guess with the product of the guess and the words below `s`.

The correction goes through `subVW` and `natMul`, and so it has their faults: a borrow that finds
a zero word counts twice, and one that is passed on through more than 32 words of a product that
fills its block leads to a copy past its end.  (The dividend always has a word to spare: it is
taken from `natMake`.)  A guess of zero for a dividend of zero has another one: `natMul` makes
of it the single word 0, which `natCmp` takes for more than the empty number, and the correction
reads past the end of that word's block.  `GuessFits` says about the numbers of a block that none
of this happens, and `DivFits` says it of a whole division; then the division is exact.
-/
import CDemo.BigInt.DivLarge
import CDemo.BigInt.Product

namespace CDemo.BigInt

/-! ## 1. A block, as numbers -/

/-- The guess: the quotient of what is above word `s`. -/
def blockGuess (s u v : Nat) : Nat := u / radix ^ s / (v / radix ^ s)

/-- What the recursive call leaves of the dividend. -/
def blockRest (s u v : Nat) : Nat :=
  u / radix ^ s % (v / radix ^ s) * radix ^ s + u % radix ^ s

/-- The guess times the words of the divisor below `s`. -/
def blockProduct (s u v : Nat) : Nat := blockGuess s u v * (v % radix ^ s)

/-- Whether the product of the guess and the words below `s` leaves words of its block free. -/
def productSpare (s u v : Nat) : Bool :=
  decide (wordLen (blockProduct s u v) < mulBlock (wordLen (blockGuess s u v)) s)

/-- **What follows a guess goes well**: the guess or the dividend is not zero, the product is
exact, no borrow finds a zero word, and the borrow of a correction stays in the product's block. -/
def GuessFits (s u v : Nat) : Prop :=
  (blockGuess s u v = 0 → u ≠ 0) ∧
  ProductFits (wordLen (blockGuess s u v)) s (blockGuess s u v) (v % radix ^ s) ∧
  if blockProduct s u v ≤ blockRest s u v then
    ¬ BorrowsOn (blockRest s u v) (blockProduct s u v) (wordLen (blockProduct s u v))
  else
    blockGuess s u v % radix ≠ 0 ∧
    BorrowFits (blockProduct s u v) (v % radix ^ s) s (wordLen (blockProduct s u v) - s)
      (productSpare s u v) ∧
    ¬ BorrowsOn (blockRest s u v + v / radix ^ s * radix ^ s) (blockProduct s u v - v % radix ^ s)
      (wordLen (blockProduct s u v))

instance (s u v : Nat) : Decidable (GuessFits s u v) :=
  inferInstanceAs (Decidable (_ ∧ _ ∧ if blockProduct s u v ≤ blockRest s u v then _ else _))

section

variable {s u v : Nat}

theorem guess_add_rest (s u v : Nat) :
    blockGuess s u v * (v / radix ^ s * radix ^ s) + blockRest s u v = u := by
  have h1 := Nat.div_add_mod (u / radix ^ s) (v / radix ^ s)
  have h2 := Nat.div_add_mod u (radix ^ s)
  rw [blockGuess, blockRest]
  linear_combination radix ^ s * h1 + h2

theorem divisor_split (s v : Nat) : v / radix ^ s * radix ^ s + v % radix ^ s = v := by
  rw [Nat.mul_comm]
  exact Nat.div_add_mod v (radix ^ s)

/-- The product fits into the rest exactly when the guess is not too large. -/
theorem product_le_iff : blockProduct s u v ≤ blockRest s u v ↔ blockGuess s u v * v ≤ u := by
  have h := guess_add_rest s u v
  have hv := congrArg (blockGuess s u v * ·) (divisor_split s v)
  simp only [Nat.mul_add] at hv
  rw [blockProduct]
  omega

/-- What is left when the product is taken away. -/
theorem rest_sub_product (hle : blockGuess s u v * v ≤ u) :
    blockRest s u v - blockProduct s u v = u - blockGuess s u v * v := by
  have h := guess_add_rest s u v
  have hv := congrArg (blockGuess s u v * ·) (divisor_split s v)
  simp only [Nat.mul_add] at hv
  rw [blockProduct]
  omega

/-- The same after a correction. -/
theorem corrected_rest (hgt : ¬ blockGuess s u v * v ≤ u)
    (hle : (blockGuess s u v - 1) * v ≤ u) :
    v % radix ^ s ≤ blockProduct s u v ∧
      blockProduct s u v - v % radix ^ s ≤ blockRest s u v + v / radix ^ s * radix ^ s ∧
      blockRest s u v + v / radix ^ s * radix ^ s - (blockProduct s u v - v % radix ^ s) =
        u - (blockGuess s u v - 1) * v := by
  have h := guess_add_rest s u v
  have hv := divisor_split s v
  rw [blockProduct]
  generalize blockRest s u v = r at *
  generalize v / radix ^ s * radix ^ s = vh at *
  generalize v % radix ^ s = vl at *
  cases hk : blockGuess s u v with
  | zero =>
    rw [hk, Nat.zero_mul] at hgt
    exact absurd (Nat.zero_le u) hgt
  | succ k =>
    have hkv := congrArg (k * ·) hv
    rw [hk] at h hgt hle
    simp only [Nat.mul_add, Nat.add_mul, Nat.one_mul, Nat.add_sub_cancel] at *
    omega

/-- **The guess is the quotient or one more.** -/
theorem guess_bounds (hv : 0 < v / radix ^ s) (hle : blockGuess s u v ≤ v / radix ^ s) :
    u / v ≤ blockGuess s u v ∧ blockGuess s u v ≤ u / v + 1 := by
  have hp := radix_pow_pos s
  have hu := Nat.div_add_mod u (radix ^ s)
  have hv' := Nat.div_add_mod v (radix ^ s)
  rw [Nat.mul_comm] at hu hv'
  refine ⟨?_, ?_⟩
  · have h := LongDivision.div_le_top (u := u / radix ^ s) hv (Nat.mod_lt u hp) (v % radix ^ s)
    rwa [hu, hv'] at h
  · have h := LongDivision.top_le_div_add_one hv hp (Nat.mod_lt v hp)
      (Nat.div_mul_le_self (u / radix ^ s) _) hle (u % radix ^ s)
    rwa [hu, hv'] at h

end

/-- What a block needs: the divisor has `n` words and its top bit is set, and the guess is neither
larger than the divisor's high part nor, with the low words, longer than the divisor. -/
structure IsBlock (s n u v : Nat) : Prop where
  two : 2 ≤ s
  lt : s < n
  high : radix ^ n ≤ 2 * v
  small : v < radix ^ n
  guess : blockGuess s u v ≤ v / radix ^ s
  length : wordLen (blockGuess s u v) + s ≤ n

section

variable {s n u v : Nat}

/-- A top bit makes a number as long as it can be. -/
theorem pow_pred_le (hn : 0 < n) (hhigh : radix ^ n ≤ 2 * v) : radix ^ (n - 1) ≤ v := by
  have hpow : radix ^ n = radix ^ (n - 1) * radix := by rw [← pow_succ, Nat.sub_add_cancel hn]
  have htwo : radix ^ (n - 1) * 2 ≤ radix ^ (n - 1) * radix := Nat.mul_le_mul_left _ (by decide)
  omega

namespace IsBlock

theorem pow_le_high (h : IsBlock s n u v) : radix ^ (n - 1) ≤ v / radix ^ s * radix ^ s := by
  have hle := Nat.div_le_div_right (c := radix ^ s) (pow_pred_le (by have := h.lt; omega) h.high)
  have hsplit : radix ^ (n - 1) = radix ^ (n - 1 - s) * radix ^ s := by
    rw [← pow_add, Nat.sub_add_cancel (by have := h.lt; omega)]
  rw [hsplit, Nat.mul_div_cancel _ (radix_pow_pos s)] at hle
  rw [hsplit]
  exact Nat.mul_le_mul_right _ hle

theorem high_pos (h : IsBlock s n u v) : 0 < v / radix ^ s :=
  Nat.pos_of_mul_pos_right ((radix_pow_pos _).trans_le h.pow_le_high)

theorem pos (h : IsBlock s n u v) : 0 < v :=
  h.high_pos.trans_le (Nat.div_le_self _ _)

theorem rest_lt (h : IsBlock s n u v) : blockRest s u v / radix ^ s < radix ^ (n - s) := by
  have hp := radix_pow_pos s
  rw [blockRest, Nat.add_comm, Nat.add_mul_div_right _ _ hp, Nat.div_eq_of_lt (Nat.mod_lt _ hp),
    Nat.zero_add]
  refine (Nat.mod_lt _ h.high_pos).trans ((Nat.div_lt_iff_lt_mul hp).mpr ?_)
  rw [← pow_add, Nat.sub_add_cancel h.lt.le]
  exact h.small

theorem product_length (h : IsBlock s n u v) : wordLen (blockProduct s u v) ≤ n := by
  refine wordLen_le_iff.mpr ?_
  calc blockProduct s u v
      < radix ^ wordLen (blockGuess s u v) * radix ^ s :=
        Nat.mul_lt_mul'' (lt_radix_pow_wordLen _) (Nat.mod_lt _ (radix_pow_pos s))
    _ = radix ^ (wordLen (blockGuess s u v) + s) := (pow_add _ _ _).symm
    _ ≤ radix ^ n := Nat.pow_le_pow_right radix_pos h.length

/-- A guess that is not too large is the quotient. -/
theorem guess_eq (h : IsBlock s n u v) (hle : blockGuess s u v * v ≤ u) :
    blockGuess s u v = u / v :=
  le_antisymm ((Nat.le_div_iff_mul_le h.pos).mpr hle) (guess_bounds h.high_pos h.guess).1

/-- A guess that is too large is too large by one. -/
theorem guess_eq_succ (h : IsBlock s n u v) (hgt : ¬ blockGuess s u v * v ≤ u) :
    blockGuess s u v = u / v + 1 := by
  have hbounds := guess_bounds h.high_pos h.guess
  have hlt : u / v < blockGuess s u v :=
    Nat.lt_of_not_le fun hle => hgt ((Nat.le_div_iff_mul_le h.pos).mp hle)
  omega

end IsBlock

end

/-! ## 2. Subtracting in place -/

/-- **`subVW(q, q, 1)`** subtracts 1 unless the lowest word is 0. -/
theorem subVW_one {q : CNat} (hq : q.len < q.data.length) (h0 : q.val % radix ≠ 0) :
    ∃ c d, subVW q q 1 = .ok (c, d) ∧ d.length = q.data.length ∧
      (⟨d, q.len, q.cap⟩ : CNat).val = q.val - 1 := by
  have hql : q.len ≤ q.data.length := hq.le
  have hpos : 0 < q.len := by
    by_contra hlen
    rw [CNat.val, CNat.words, Nat.eq_zero_of_not_pos hlen, List.take_zero, value_nil] at h0
    exact h0 rfl
  obtain ⟨w, ws, hdata, ht⟩ := take_eq_cons hpos hql
  have hval : q.val = value (w :: ws.take (q.len - 1)) := by rw [CNat.val, CNat.words, ht]
  have hw : 1 ≤ w.toNat := by
    rw [hval, value_cons, Nat.add_mul_mod_self_left, Nat.mod_eq_of_lt (toNat_lt_radix w)] at h0
    exact Nat.pos_of_ne_zero h0
  have hsub : value (vwWords u64Sub (w :: ws.take (q.len - 1)) 1 0).2 + (1 : Word).toNat =
      value (w :: ws.take (q.len - 1)) +
        (vwWords u64Sub (w :: ws.take (q.len - 1)) 1 0).1.toNat *
          radix ^ ((ws.take (q.len - 1)).length + 1) :=
    value_vwSub (.inl hw)
  have hlt := value_lt (vwWords u64Sub (w :: ws.take (q.len - 1)) 1 0).2
  have hlen : (w :: ws.take (q.len - 1)).length = q.len := by rw [← ht, List.length_take_of_le hql]
  rw [length_vwWords, hlen] at hlt
  rw [← hval, ← List.length_cons (a := w), hlen, word_one] at hsub
  have hq1 : 1 ≤ q.val := Nat.pos_of_ne_zero fun h => h0 (by rw [h, Nat.zero_mod])
  have hc : (vwWords u64Sub (w :: ws.take (q.len - 1)) 1 0).1.toNat = 0 := by
    by_contra hne
    have := Nat.le_mul_of_pos_left (radix ^ q.len) (Nat.pos_of_ne_zero hne)
    omega
  rw [hc, Nat.zero_mul, Nat.add_zero] at hsub
  have hroom : 32 < q.len → (1 : Word) ≠ 0 → q.len < q.data.length ∧
      ∀ w' ∈ q.data.head?, (u64Sub w' 1 0).2 = 0 := by
    intro _ _
    refine ⟨hq, fun w' hw' => ?_⟩
    rw [hdata] at hw'
    rw [← Option.some.inj hw']
    exact u64Sub_noBorrow hw
  refine ⟨_, _, vw_same u64Sub_zero le_rfl hql hroom, ?_, ?_⟩
  · rw [List.length_append, length_vwWords, List.length_take_of_le hql, List.length_drop]
    omega
  · rw [CNat.val, CNat.words]
    dsimp only
    rw [List.take_left' (by rw [length_vwWords, List.length_take_of_le hql]), ht]
    omega

section

variable {t x : List Word} {n h : Nat}

/-- **The low words are subtracted from and the borrow is passed on**: `subVV` on the first `n`
words and then, if there is a borrow, `subVW` on the `h` words above them. -/
theorem sub_in_place (a b c e : Nat) {spare : Bool} (ht : n + h ≤ t.length) (hx : n ≤ x.length)
    (hfits : BorrowFits (value (t.take (n + h))) (value (x.take n)) n h spare)
    (hspare : spare = true → n + h < t.length)
    (hge : value (x.take n) ≤ value (t.take (n + h))) :
    ∃ o d, subVV ⟨t, n, a⟩ ⟨t, n, a⟩ ⟨x, n, b⟩ = .ok (o, d) ∧ d.length = t.length ∧
      d.drop (n + h) = t.drop (n + h) ∧
      (o = 0 → value (d.take (n + h)) = value (t.take (n + h)) - value (x.take n)) ∧
      ∃ tail, subVW ⟨d.drop n, h, c⟩ ⟨d.drop n, h, e⟩ o = .ok (0, tail) ∧
        (splice d n tail).length = t.length ∧ (splice d n tail).drop (n + h) = t.drop (n + h) ∧
        value ((splice d n tail).take (n + h)) = value (t.take (n + h)) - value (x.take n) := by
  have hn : n ≤ t.length := by omega
  have hh : h ≤ (t.drop n).length := by rw [List.length_drop]; omega
  obtain ⟨hval, hout⟩ := value_inPlace_sub ht hx hfits.1 hge
  have hinl := length_inPlace u64Sub ht hx
  have hll := length_low u64Sub hn hx 0
  have hfirst : subVV ⟨t, n, a⟩ ⟨t, n, a⟩ ⟨x, n, b⟩ =
      .ok ((vvWords u64Sub (t.take n) (x.take n) 0).1,
        (vvWords u64Sub (t.take n) (x.take n) 0).2 ++ t.drop n) := by
    rw [subVV]
    dsimp only
    rw [Nat.min_self, Nat.min_self]
    exact vvLoop_eq hn hn hx
  refine ⟨_, _, hfirst, ?_, ?_, ?_, ?_⟩
  · rw [List.length_append, hll, List.length_drop]
    omega
  · rw [← List.drop_drop, List.drop_left' hll, List.drop_drop]
  · intro h0
    rw [← inPlace_dead u64Sub_zero h0 (h := h), List.take_left' hinl, hval]
  · have hsecond : subVW ⟨t.drop n, h, c⟩ ⟨t.drop n, h, e⟩
        (vvWords u64Sub (t.take n) (x.take n) 0).1 = _ :=
      vw_same u64Sub_zero (le_refl h) hh (copyStays_sub ht hx hfits hspare)
    rw [hout] at hsecond
    have hsplice : splice ((vvWords u64Sub (t.take n) (x.take n) 0).2 ++ t.drop n) n
        ((vwWords u64Sub ((t.drop n).take h) (vvWords u64Sub (t.take n) (x.take n) 0).1 0).2 ++
          (t.drop n).drop h) = inPlace u64Sub t x n h ++ t.drop (n + h) := by
      rw [splice, List.take_left' hll, inPlace, List.append_assoc, List.drop_drop]
    rw [List.drop_left' hll]
    refine ⟨_, hsecond, ?_, ?_, ?_⟩
    · rw [hsplice, List.length_append, hinl, List.length_drop]
      omega
    · rw [hsplice, List.drop_left' hinl]
    · rw [hsplice, List.take_left' hinl, hval]

end

/-- The number in a vector whose words from `i` on were replaced. -/
theorem value_splice {data tail : List Word} {i l : Nat} (hi : i ≤ data.length) (hl : i ≤ l) :
    value ((splice data i tail).take l) =
      value (data.take i) + radix ^ i * value (tail.take (l - i)) := by
  have hti := List.length_take_of_le hi
  rw [splice, List.take_append, hti, List.take_of_length_le (by rw [hti]; exact hl), value_append,
    hti]

theorem drop_splice_above {data tail : List Word} {i l : Nat} (hi : i ≤ data.length) (hl : i ≤ l) :
    (splice data i tail).drop l = tail.drop (l - i) := by
  have h := drop_splice (t := tail) (j := l - i) hi
  rwa [Nat.add_sub_cancel' hl] at h

/-! ## 3. Parts inside their vectors -/

/-- `natPart(p, from, to)` where the part has to lie inside the vector, within its capacity.  A part
of a part then lies inside both. -/
def natPartIn (p : CNat) (lo hi : Nat) : Run CNat :=
  if hi ≤ p.cap then natPart p lo hi else .error .outOfBounds

theorem natPartIn_low (x : CNat) {n : Nat} (hn : n ≤ x.cap) : natPartIn x 0 n = .ok (low x n) := by
  rw [natPartIn, if_pos hn, natPart_low]

theorem natPartIn_above (x : CNat) {n : Nat} (hn : n ≤ x.len) (hc : x.len ≤ x.cap) :
    natPartIn x n x.len = .ok (above x n) := by
  rw [natPartIn, if_pos hc, natPart_above x hn]

theorem natPartIn_agrees (p : CNat) (lo hi : Nat) :
    Run.Agrees (natPartIn p lo hi) (natPart p lo hi) := by
  intro a h
  rw [natPartIn] at h
  split at h
  · exact h
  · exact absurd h (by simp)

/-- `correctGuess`, with all parts inside their vectors. -/
def correctGuessIn (v : CNat) (s : Nat) (qhat qhatv uu : CNat) : Run (CNat × CNat × CNat) := do
  let (_, data) ← subVW qhat qhat 1
  let qhat := { qhat with data := data }
  let q0 ← natPartIn qhatv 0 s
  let v0 ← natPartIn v 0 s
  let (c, data) ← subVV q0 q0 v0
  let qhatv := { qhatv with data := data }
  let qhatv ←
    if s < qhatv.len then do
      let q1 ← natPartIn qhatv s qhatv.len
      let (_, tail) ← subVW q1 q1 c
      .ok { qhatv with data := splice qhatv.data s tail }
    else .ok qhatv
  let u1 ← natPartIn uu s uu.len
  let v1 ← natPartIn v s v.len
  let tail ← addAt u1 v1 0
  .ok (qhat, qhatv, { uu with data := splice uu.data s tail })

def correctLoopIn (v : CNat) (s : Nat) : Nat → CNat → CNat → CNat → Run (CNat × CNat × CNat)
  | 0, qhat, qhatv, uu => .ok (qhat, qhatv, uu)
  | rounds + 1, qhat, qhatv, uu => do
    let un ← natNorm uu
    let e ← natCmp qhatv un
    if e ≤ 0 then .ok (qhat, qhatv, uu)
    else
      let (qhat, qhatv, uu) ← correctGuessIn v s qhat qhatv uu
      correctLoopIn v s rounds qhat qhatv uu

/-- The last part of `finishGuess`: the product is taken off the dividend. -/
def takeOffIn (qhat qhatv uu : CNat) : Run (CNat × CNat × Word) := do
  let un ← natNorm uu
  let e ← natCmp qhatv un
  Run.assert (e ≤ 0)
  let u1 ← natPartIn uu 0 qhatv.len
  let (c, data) ← subVV u1 u1 qhatv
  let uu := { uu with data := data }
  if c ≠ 0 then
    let u2 ← natPartIn uu qhatv.len uu.len
    let (c, tail) ← subVW u2 u2 c
    .ok (qhat, { uu with data := splice uu.data qhatv.len tail }, c)
  else .ok (qhat, uu, c)

/-- `finishGuess`, with all parts inside their vectors. -/
def finishGuessIn (v : CNat) (s : Nat) (qhat uu : CNat) : Run (CNat × CNat × Word) := do
  let qhat ← natNorm qhat
  let v0 ← natPartIn v 0 s
  let qhatv ← natMul qhat v0
  let (qhat, qhatv, uu) ← correctLoopIn v s 2 qhat qhatv uu
  takeOffIn qhat qhatv uu

theorem correctGuessIn_agrees (v : CNat) (s : Nat) (qhat qhatv uu : CNat) :
    Run.Agrees (correctGuessIn v s qhat qhatv uu) (correctGuess v s qhat qhatv uu) := by
  refine .bind (.refl _) fun _ => .bind (natPartIn_agrees _ _ _) fun _ =>
    .bind (natPartIn_agrees _ _ _) fun _ => .bind (.refl _) fun _ => ?_
  dsimp only
  split
  · refine .bind (natPartIn_agrees _ _ _) fun _ => .bind (.refl _) fun _ =>
      .bind (.refl _) fun _ => ?_
    exact .bind (natPartIn_agrees _ _ _) fun _ => .bind (natPartIn_agrees _ _ _) fun _ => .refl _
  · refine .bind (.refl _) fun _ => ?_
    exact .bind (natPartIn_agrees _ _ _) fun _ => .bind (natPartIn_agrees _ _ _) fun _ => .refl _

theorem correctLoopIn_agrees (v : CNat) (s : Nat) : ∀ (rounds : Nat) (qhat qhatv uu : CNat),
    Run.Agrees (correctLoopIn v s rounds qhat qhatv uu) (correctLoop v s rounds qhat qhatv uu)
  | 0, _, _, _ => .refl _
  | rounds + 1, qhat, qhatv, uu => by
    refine .bind (.refl _) fun _ => .bind (.refl _) fun _ => ?_
    split
    · exact .refl _
    · refine .bind (correctGuessIn_agrees v s qhat qhatv uu) fun _ => ?_
      exact correctLoopIn_agrees v s rounds _ _ _

theorem finishGuessIn_agrees (v : CNat) (s : Nat) (qhat uu : CNat) :
    Run.Agrees (finishGuessIn v s qhat uu) (finishGuess v s qhat uu) := by
  refine .bind (.refl _) fun _ => .bind (natPartIn_agrees _ _ _) fun _ => .bind (.refl _) fun _ =>
    .bind (correctLoopIn_agrees _ _ _ _ _ _) fun _ => ?_
  refine .bind (.refl _) fun _ => .bind (.refl _) fun _ => .bind (.refl _) fun _ =>
    .bind (natPartIn_agrees _ _ _) fun _ => .bind (.refl _) fun _ => ?_
  dsimp only
  split
  · exact .bind (natPartIn_agrees _ _ _) fun _ => .refl _
  · exact .refl _

/-- `divBlocksLoop`, with all parts inside their vectors. -/
def divBlocksLoopIn (step : CNat → CNat → CNat → Nat → List (Option CNat) → Run DivState)
    (v : CNat) (b depth tempsNum : Nat) :
    Nat → Nat → CNat → CNat → List (Option CNat) → Run (Nat × CNat × CNat × List (Option CNat))
  | 0, _, _, _, _ => .error .noReturn
  | fuel + 1, j, z, u, temps =>
    if b < j then do
      let s := b - 1
      let uu ← natPartIn u (j - b) u.len
      let qhat ← Run.read temps depth
      let qhat ← Run.object qhat
      let data ← natClear qhat
      let qhat := { qhat with data := data }
      Run.assert (depth + 1 < tempsNum)
      let w ← natPartIn uu s (b + v.len)
      let v1 ← natPartIn v s v.len
      let (qdata, wdata, temps) ← step qhat w v1 (depth + 1) temps
      let uu := { uu with data := splice uu.data s wdata }
      let (qhat, uu, _) ← finishGuessIn v s { qhat with data := qdata } uu
      let u := { u with data := splice u.data (j - b) uu.data }
      let zdata ← addAt z qhat (j - b)
      divBlocksLoopIn step v b depth tempsNum fuel (j - b) { z with data := zdata } u temps
    else .ok (j, z, u, temps)

/-- `divLastBlock`, with all parts inside their vectors. -/
def divLastBlockIn (step : CNat → CNat → CNat → Nat → List (Option CNat) → Run DivState)
    (v : CNat) (b depth tempsNum : Nat) (z u : CNat) (temps : List (Option CNat)) :
    Run DivState := do
  let s := b - 1
  let qhat ← Run.read temps depth
  let qhat ← Run.object qhat
  let data ← natClear qhat
  let qhat := { qhat with data := data }
  Run.assert (depth + 1 < tempsNum)
  let w ← natPartIn u s u.len
  let w ← natNorm w
  let v1 ← natPartIn v s v.len
  let (qdata, wdata, temps) ← step qhat w v1 (depth + 1) temps
  let u := { u with data := splice u.data s wdata }
  let (qhat, u, c) ← finishGuessIn v s { qhat with data := qdata } u
  Run.assert (c = 0)
  let qhat ← natNorm qhat
  let zdata ← addAt z qhat 0
  .ok (zdata, u.data, temps)

/-- `natDivRecursiveStep`, with all parts inside their vectors. -/
def natDivRecursiveStepIn (tempsNum : Nat) :
    Nat → CNat → CNat → CNat → Nat → List (Option CNat) → Run DivState
  | 0, _, _, _, _, _ => .error .noReturn
  | fuel + 1, z, u, v, depth, temps => do
    let u ← natNorm u
    let v ← natNorm v
    if u.len = 0 then
      let data ← natClear z
      .ok (data, u.data, temps)
    else if v.len < divRecursiveThreshold then
      let (qdata, udata) ← natDivBasic z u v
      .ok (qdata, udata, temps)
    else if u.len < v.len then .ok (z.data, u.data, temps)
    else
      let m := u.len - v.len
      let b := v.len / 2
      let (_, temps) ← makeTemp temps depth v.len
      let (_, z, u, temps) ←
        divBlocksLoopIn (natDivRecursiveStepIn tempsNum fuel) v b depth tempsNum (m + 1) m z u temps
      divLastBlockIn (natDivRecursiveStepIn tempsNum fuel) v b depth tempsNum z u temps

/-- `natDivRecursive`, with all parts inside their vectors. -/
def natDivRecursiveIn (z u v : CNat) : Run (List Word × List Word) := do
  let l ← len64 (BitVec.ofNat 64 v.len)
  let recDepth := 2 * l
  let data ← natClear z
  let (q, u, _) ← natDivRecursiveStepIn recDepth (v.len + 1) { z with data := data } u v 0
    (List.replicate recDepth none)
  .ok (q, u)

section

variable {step step' : CNat → CNat → CNat → Nat → List (Option CNat) → Run DivState}

theorem divBlocksLoopIn_agrees
    (hstep : ∀ z u v depth temps, Run.Agrees (step z u v depth temps) (step' z u v depth temps))
    (v : CNat) (b depth num : Nat) :
    ∀ (fuel j : Nat) (z u : CNat) (temps : List (Option CNat)),
      Run.Agrees (divBlocksLoopIn step v b depth num fuel j z u temps)
        (divBlocksLoop step' v b depth num fuel j z u temps)
  | 0, _, _, _, _ => .refl _
  | fuel + 1, j, z, u, temps => by
    rw [divBlocksLoopIn, divBlocksLoop]
    split
    · refine .bind (natPartIn_agrees _ _ _) fun _ => .bind (.refl _) fun _ =>
        .bind (.refl _) fun _ => .bind (.refl _) fun _ => .bind (.refl _) fun _ => ?_
      refine .bind (natPartIn_agrees _ _ _) fun _ => .bind (natPartIn_agrees _ _ _) fun _ => ?_
      refine .bind (hstep _ _ _ _ _) fun _ => .bind (finishGuessIn_agrees _ _ _ _) fun _ => ?_
      exact .bind (.refl _) fun _ => divBlocksLoopIn_agrees hstep v b depth num fuel _ _ _ _
    · exact .refl _

theorem divLastBlockIn_agrees
    (hstep : ∀ z u v depth temps, Run.Agrees (step z u v depth temps) (step' z u v depth temps))
    (v : CNat) (b depth num : Nat) (z u : CNat) (temps : List (Option CNat)) :
    Run.Agrees (divLastBlockIn step v b depth num z u temps)
      (divLastBlock step' v b depth num z u temps) := by
  refine .bind (.refl _) fun _ => .bind (.refl _) fun _ => .bind (.refl _) fun _ =>
    .bind (.refl _) fun _ => .bind (natPartIn_agrees _ _ _) fun _ => ?_
  refine .bind (.refl _) fun _ => .bind (natPartIn_agrees _ _ _) fun _ => ?_
  exact .bind (hstep _ _ _ _ _) fun _ => .bind (finishGuessIn_agrees _ _ _ _) fun _ => .refl _

end

theorem natDivRecursiveStepIn_agrees (num : Nat) :
    ∀ (fuel : Nat) (z u v : CNat) (depth : Nat) (temps : List (Option CNat)),
      Run.Agrees (natDivRecursiveStepIn num fuel z u v depth temps)
        (natDivRecursiveStep num fuel z u v depth temps)
  | 0, _, _, _, _, _ => .refl _
  | fuel + 1, z, u, v, depth, temps => by
    have hstep := natDivRecursiveStepIn_agrees num fuel
    refine .bind (.refl _) fun _ => .bind (.refl _) fun _ => ?_
    split
    · exact .refl _
    · split
      · exact .refl _
      · split
        · exact .refl _
        · refine .bind (.refl _) fun _ =>
            .bind (divBlocksLoopIn_agrees hstep _ _ _ _ _ _ _ _ _) fun _ => ?_
          exact divLastBlockIn_agrees hstep _ _ _ _ _ _ _

theorem natDivRecursiveIn_agrees (z u v : CNat) :
    Run.Agrees (natDivRecursiveIn z u v) (natDivRecursive z u v) :=
  .bind (.refl _) fun _ => .bind (.refl _) fun _ =>
    .bind (natDivRecursiveStepIn_agrees _ _ _ _ _ _ _) fun _ => .refl _

/-! ## 4. Correcting a guess -/

theorem Roomy.len_le {q : CNat} {l b : Nat} (h : Roomy q l b) : q.len ≤ l := by
  have hlt := value_take_lt q.data (n := l)
  rw [h.value_room, ← wordLen_le_iff, CNat.val, ← h.clean.2.length_eq,
    CNat.length_words h.clean.1] at hlt
  exact hlt

/-- The room above a product holds zeros. -/
theorem Roomy.value_take {q : CNat} {l b k : Nat} (h : Roomy q l b) (hk : q.len ≤ k) (hkl : k ≤ l) :
    value (q.data.take k) = q.val := by
  have hq : q.val < radix ^ k := CNat.val_lt.trans_le (Nat.pow_le_pow_right radix_pos hk)
  have ht : (q.data.take l).take k = q.data.take k := by rw [List.take_take, Nat.min_eq_left hkl]
  rw [← ht, value_take_of_lt (by rw [h.value_room]; exact hq), h.value_room]

section

variable {v qhatv uu : CNat} {s l b : Nat}

/-- What the correction takes off the product, when the product is longer than the divisor's low
words. -/
theorem correct_long (hv : v.Valid) (hs : s ≤ v.len) (hqv : Roomy qhatv l b)
    (hlen : s < qhatv.len) (hge : v.val % radix ^ s ≤ qhatv.val)
    (hborrow : BorrowFits qhatv.val (v.val % radix ^ s) s (qhatv.len - s)
      (decide (qhatv.len < b))) :
    ∃ c d o tail, subVV (low qhatv s) (low qhatv s) (low v s) = .ok (c, d) ∧
      subVW (above { qhatv with data := d } s) (above { qhatv with data := d } s) c =
        .ok (o, tail) ∧
      (splice d s tail).length = qhatv.data.length ∧
      value ((splice d s tail).take qhatv.len) = qhatv.val - v.val % radix ^ s := by
  have hvl : v.len ≤ v.data.length := hv
  have hql : qhatv.len ≤ qhatv.data.length := hqv.clean.1
  have hsum : s + (qhatv.len - s) = qhatv.len := Nat.add_sub_cancel' hlen.le
  have hlow : value (v.data.take s) = v.val % radix ^ s := (val_split hv hs).1
  obtain ⟨c, d, hrun, -, -, -, tail, htail, hlen', -, hval⟩ := sub_in_place s s
    (qhatv.len - s) (qhatv.len - s) (t := qhatv.data) (x := v.data) (n := s) (h := qhatv.len - s)
    (by rw [hsum]; exact hql) (by omega) (by rw [hsum, hlow]; exact hborrow)
    (by rw [hsum, hqv.block]; exact of_decide_eq_true) (by rw [hsum, hlow]; exact hge)
  rw [hsum, hlow] at hval
  exact ⟨c, d, 0, tail, hrun, htail, hlen', hval⟩

/-- The same when it is not. -/
theorem correct_short (hv : v.Valid) (hs : s ≤ v.len) (hqv : Roomy qhatv l b) (hsl : s ≤ l)
    (hlen : qhatv.len ≤ s) (hge : v.val % radix ^ s ≤ qhatv.val) :
    ∃ c d, subVV (low qhatv s) (low qhatv s) (low v s) = .ok (c, d) ∧
      d.length = qhatv.data.length ∧
      value (d.take qhatv.len) = qhatv.val - v.val % radix ^ s := by
  have hvl : v.len ≤ v.data.length := hv
  have hqd : l ≤ qhatv.data.length := hqv.block ▸ hqv.room
  have hlow : value (v.data.take s) = v.val % radix ^ s := (val_split hv hs).1
  obtain ⟨c, w, hrun, hw, -, hval⟩ := subVV_spec (z := low qhatv s) (x := low qhatv s)
    (y := low v s) (n := s) (by simp [low]) (show s ≤ qhatv.data.length by omega)
    (show s ≤ qhatv.data.length by omega) (show s ≤ v.data.length by omega)
  rw [low_data v s, hlow, low_data qhatv s,
    hqv.value_take hlen hsl] at hval
  have hwlt := value_lt w
  rw [hw] at hwlt
  -- the product is not less than what is taken off, so nothing is borrowed
  have hc : c.toNat * radix ^ s = 0 := by
    by_contra hne
    have h1 : 1 ≤ c.toNat := Nat.pos_of_ne_zero fun h => hne (by rw [h, Nat.zero_mul])
    have := Nat.le_mul_of_pos_left (radix ^ s) h1
    omega
  have hwv : value w = qhatv.val - v.val % radix ^ s := by omega
  refine ⟨c, _, hrun, ?_, ?_⟩
  · rw [List.length_append, List.length_drop, hw, low_data qhatv s]
    omega
  · rw [List.take_append_of_le_length (by omega), value_take_of_lt, hwv]
    rw [hwv]
    exact (Nat.sub_le _ _).trans_lt CNat.val_lt

/-- What the correction gives back to the dividend. -/
theorem correct_rest (hv : v.Valid) (hu : uu.len < uu.data.length) (hs : s ≤ v.len)
    (hle : v.len ≤ uu.len) (hrest : uu.val / radix ^ s < radix ^ (v.len - s))
    (hfit : uu.val + radix ^ s * (v.val / radix ^ s) < radix ^ uu.len) :
    ∃ tail, addAt (above uu s) (above v s) 0 = .ok tail ∧
      (splice uu.data s tail).length = uu.data.length ∧
      (splice uu.data s tail).drop uu.len = uu.data.drop uu.len ∧
      value ((splice uu.data s tail).take uu.len) =
        uu.val + radix ^ s * (v.val / radix ^ s) := by
  have hul : uu.Valid := hu.le
  have hsu : s ≤ uu.len := hs.trans hle
  obtain ⟨hulow, huhigh, husum⟩ := val_split hul hsu
  have hvhigh := (val_split hv hs).2.1
  have hno : ¬ RunsOn ((above uu s).val / radix ^ 0) (above v s).val (above v s).len := by
    rintro ⟨-, hones⟩
    rw [pow_zero, Nat.div_one, huhigh, above_len v s,
      Nat.div_eq_of_lt hrest, Nat.zero_mod] at hones
    exact absurd hones (by decide)
  have hsmall : (above uu s).val + radix ^ 0 * (above v s).val < radix ^ (above uu s).len := by
    refine Nat.lt_of_mul_lt_mul_left (a := radix ^ s) ?_
    rw [above_len uu s, ← pow_add, Nat.add_sub_cancel' hsu, pow_zero,
      Nat.one_mul, hvhigh, Nat.mul_add]
    omega
  obtain ⟨d, hrun, hdl, hdrop, hdv⟩ := addAt_val (z := above uu s) (t := above v s) (i := 0)
    (valid_above hul s) (valid_above hv s) (by simp only [above]; omega)
    ⟨hno, fun _ (hs : true = false) => absurd hs.symm Bool.false_ne_true⟩
    (fun _ => by simp only [above, List.length_drop]; omega) hsmall
  have hdl' : d.length = uu.data.length - s := by rw [hdl, ← List.length_drop]; rfl
  have hul : uu.len ≤ uu.data.length := hul
  refine ⟨d, hrun, length_splice (by omega) hdl', ?_, ?_⟩
  · rw [drop_splice_above (by omega) hsu]
    refine hdrop.trans ?_
    simp only [above]
    rw [List.drop_drop, Nat.add_sub_cancel' hsu]
  · rw [pow_zero, Nat.one_mul, hvhigh] at hdv
    rw [value_splice (by omega) hsu,
      show value (d.take (uu.len - s)) = (above uu s).val + v.val / radix ^ s from hdv, Nat.mul_add,
      ← Nat.add_assoc, husum]

/-- **A correction** takes 1 off the guess, the divisor's low words off the product, and gives
the dividend its high words back. -/
theorem correctGuessIn_eq {qhat : CNat} (hv : v.Valid) (hvc : v.len ≤ v.cap) (hs : s ≤ v.len)
    (hq : qhat.len < qhat.data.length) (hq0 : qhat.val % radix ≠ 0) (hqv : Roomy qhatv l b)
    (hsl : s ≤ l) (hge : v.val % radix ^ s ≤ qhatv.val)
    (hborrow : BorrowFits qhatv.val (v.val % radix ^ s) s (qhatv.len - s) (decide (qhatv.len < b)))
    (hu : uu.len < uu.data.length) (huc : uu.len ≤ uu.cap) (hle : v.len ≤ uu.len)
    (hrest : uu.val / radix ^ s < radix ^ (v.len - s))
    (hfit : uu.val + radix ^ s * (v.val / radix ^ s) < radix ^ uu.len) :
    ∃ qd pd ud, correctGuessIn v s qhat qhatv uu = .ok (⟨qd, qhat.len, qhat.cap⟩,
        ⟨pd, qhatv.len, qhatv.cap⟩, ⟨ud, uu.len, uu.cap⟩) ∧
      qd.length = qhat.data.length ∧ pd.length = qhatv.data.length ∧
      ud.length = uu.data.length ∧ ud.drop uu.len = uu.data.drop uu.len ∧
      value (qd.take qhat.len) = qhat.val - 1 ∧
      value (pd.take qhatv.len) = qhatv.val - v.val % radix ^ s ∧
      value (ud.take uu.len) = uu.val + radix ^ s * (v.val / radix ^ s) := by
  obtain ⟨o, qd, hqrun, hqdl, hqdv⟩ := subVW_one hq hq0
  obtain ⟨tail, hadd, hudl, hudrop, hudv⟩ := correct_rest hv hu hs hle hrest hfit
  have hcap : l ≤ qhatv.cap := hqv.cap
  rw [correctGuessIn]
  refine ⟨qd, ?_⟩
  by_cases hlen : s < qhatv.len
  · obtain ⟨c, d, o', t, hsub, hpass, hpl, hpv⟩ := correct_long hv hs hqv hlen hge hborrow
    refine ⟨splice d s t, splice uu.data s tail, ?_, hqdl, hpl, hudl, hudrop, hqdv, hpv, hudv⟩
    refine Run.bind_of_eq hqrun (Run.bind_of_eq (natPartIn_low qhatv (hsl.trans hcap))
      (Run.bind_of_eq (natPartIn_low v (hs.trans hvc)) (Run.bind_of_eq hsub ?_)))
    dsimp only
    rw [if_pos hlen]
    refine Run.bind_of_eq (natPartIn_above ⟨d, qhatv.len, qhatv.cap⟩ hlen.le
      (hqv.len_le.trans hcap)) (Run.bind_of_eq hpass ?_)
    refine Run.bind_of_eq rfl (Run.bind_of_eq (natPartIn_above uu (hs.trans hle) huc) ?_)
    exact Run.bind_of_eq (natPartIn_above v hs hvc) (Run.bind_of_eq hadd rfl)
  · obtain ⟨c, d, hsub, hpl, hpv⟩ := correct_short hv hs hqv hsl (Nat.le_of_not_lt hlen) hge
    refine ⟨d, splice uu.data s tail, ?_, hqdl, hpl, hudl, hudrop, hqdv, hpv, hudv⟩
    refine Run.bind_of_eq hqrun (Run.bind_of_eq (natPartIn_low qhatv (hsl.trans hcap))
      (Run.bind_of_eq (natPartIn_low v (hs.trans hvc)) (Run.bind_of_eq hsub ?_)))
    dsimp only
    rw [if_neg hlen]
    refine Run.bind_of_eq rfl (Run.bind_of_eq (natPartIn_above uu (hs.trans hle) huc) ?_)
    exact Run.bind_of_eq (natPartIn_above v hs hvc) (Run.bind_of_eq hadd rfl)

end

/-! ## 5. What follows the recursive call -/

/-- A vector that is neither longer nor larger. -/
theorem natCmp_nonpos {x y : CNat} (hx : x.Valid) (hy : y.Valid) (hlen : x.len ≤ y.len)
    (hval : x.val ≤ y.val) : ∃ e, natCmp x y = .ok e ∧ e ≤ 0 := by
  have hsign : ∀ {a b : Nat}, a ≤ b → cmpSign a b ≤ 0 := by
    intro a b hab
    rw [cmpSign]
    split
    · decide
    · rw [if_neg (Nat.not_lt.mpr hab)]
  refine ⟨_, natCmp_eq hx hy, ?_⟩
  split
  · exact hsign hval
  · exact hsign hlen

section

variable {v qhatv uu : CNat}

/-- The comparison that ends the corrections. -/
theorem compare_done (hq : qhatv.Valid) (hu : uu.Valid) (hlen : qhatv.len ≤ wordLen uu.val)
    (hval : qhatv.val ≤ uu.val) :
    ∃ un e, natNorm uu = .ok un ∧ natCmp qhatv un = .ok e ∧ e ≤ 0 := by
  obtain ⟨un, hun, hunv, hunl, hunval⟩ := natNorm_part hu rfl
  obtain ⟨e, he, hle⟩ :=
    natCmp_nonpos hq hunv (by rw [hunl]; exact hlen) (by rw [hunval]; exact hval)
  exact ⟨un, e, hun, he, hle⟩

theorem correctLoopIn_done (s rounds : Nat) (qhat : CNat) (hq : qhatv.Valid) (hu : uu.Valid)
    (hlen : qhatv.len ≤ wordLen uu.val) (hval : qhatv.val ≤ uu.val) :
    correctLoopIn v s (rounds + 1) qhat qhatv uu = .ok (qhat, qhatv, uu) := by
  obtain ⟨un, e, hun, he, hle⟩ := compare_done hq hu hlen hval
  refine Run.bind_of_eq hun (Run.bind_of_eq he ?_)
  rw [if_pos hle]

/-- **The product is taken off** unless a borrow runs on. -/
theorem takeOffIn_eq (qhat : CNat) (hq : qhatv.Valid) (hu : uu.len < uu.data.length)
    (huc : uu.len ≤ uu.cap)
    (hlen : qhatv.len ≤ wordLen uu.val) (hval : qhatv.val ≤ uu.val)
    (hno : ¬ BorrowsOn uu.val qhatv.val qhatv.len) :
    ∃ ud, takeOffIn qhat qhatv uu = .ok (qhat, ⟨ud, uu.len, uu.cap⟩, 0) ∧
      ud.length = uu.data.length ∧ ud.drop uu.len = uu.data.drop uu.len ∧
      value (ud.take uu.len) = uu.val - qhatv.val := by
  obtain ⟨un, e, hun, he, hle⟩ := compare_done hq hu.le hlen hval
  have hlen' : qhatv.len ≤ uu.len := hlen.trans (wordLen_le_iff.mpr CNat.val_lt)
  have hsum : qhatv.len + (uu.len - qhatv.len) = uu.len := Nat.add_sub_cancel' hlen'
  obtain ⟨c, d, hsub, hdl, hdrop, hzero, tail, htail, hsl, hsdrop, hsv⟩ := sub_in_place qhatv.len
    qhatv.cap (uu.len - qhatv.len) (uu.len - qhatv.len) (t := uu.data) (x := qhatv.data)
    (n := qhatv.len) (h := uu.len - qhatv.len) (by rw [hsum]; exact hu.le) hq
    (by rw [hsum]; exact ⟨hno, fun _ (hs : true = false) => absurd hs.symm Bool.false_ne_true⟩)
    (fun _ => by rw [hsum]; exact hu) (by rw [hsum]; exact hval)
  rw [hsum] at hdrop hzero hsdrop hsv
  rw [takeOffIn]
  by_cases hc : c = 0
  · refine ⟨d, ?_, hdl, hdrop, hzero hc⟩
    refine Run.bind_of_eq hun (Run.bind_of_eq he ?_)
    rw [decide_eq_true hle, Run.assert_true, Run.ok_bind]
    refine Run.bind_of_eq (natPartIn_low uu (hlen'.trans huc)) (Run.bind_of_eq hsub ?_)
    dsimp only
    rw [if_neg (not_not.mpr hc), hc]
  · refine ⟨splice d qhatv.len tail, ?_, hsl, hsdrop, hsv⟩
    refine Run.bind_of_eq hun (Run.bind_of_eq he ?_)
    rw [decide_eq_true hle, Run.assert_true, Run.ok_bind]
    refine Run.bind_of_eq (natPartIn_low uu (hlen'.trans huc)) (Run.bind_of_eq hsub ?_)
    dsimp only
    rw [if_pos hc]
    exact Run.bind_of_eq (natPartIn_above ⟨d, uu.len, uu.cap⟩ hlen' huc) (Run.bind_of_eq htail rfl)

end

/-- `finishGuess` takes parts inside their vectors only, and leaves the quotient and the remainder
of `u`; the quotient is not longer than it may be. -/
def Finishes (v : CNat) (s : Nat) (qhat uu : CNat) (u : Nat) : Prop :=
  ∃ q ud, finishGuessIn v s qhat uu = .ok (q, ⟨ud, uu.len, uu.cap⟩, 0) ∧ q.Valid ∧
    q.val = u / v.val ∧ (∀ k, 0 < k → u / v.val < radix ^ k → q.len ≤ k) ∧
    ud.length = uu.data.length ∧ ud.drop uu.len = uu.data.drop uu.len ∧
    value (ud.take uu.len) = u % v.val

section

variable {v qhat uu : CNat} {s u : Nat}

/-- The run of `finishGuess`, up to where the product is taken off. -/
theorem finishGuessIn_of {q p q' p' uu' : CNat} {ud : List Word} (hs : s ≤ v.cap)
    (hq : natNorm qhat = .ok q) (hp : natMul q (low v s) = .ok p)
    (hloop : correctLoopIn v s 2 q p uu = .ok (q', p', uu'))
    (htake : takeOffIn q' p' uu' = .ok (q', ⟨ud, uu.len, uu.cap⟩, 0)) :
    finishGuessIn v s qhat uu = .ok (q', ⟨ud, uu.len, uu.cap⟩, 0) := by
  refine Run.bind_of_eq hq (Run.bind_of_eq (natPartIn_low v hs) (Run.bind_of_eq hp ?_))
  exact Run.bind_of_eq hloop htake

/-- The guess is right. -/
theorem finishes_right {q p : CNat} (hb : IsBlock s v.len u v.val) (hvc : v.len ≤ v.cap)
    (hu : uu.len < uu.data.length) (huc : uu.len ≤ uu.cap)
    (huv : uu.val = blockRest s u v.val) (hq : natNorm qhat = .ok q) (hqv : q.Valid)
    (hql : q.len = wordLen q.val) (hqval : q.val = blockGuess s u v.val)
    (hp : natMul q (low v s) = .ok p) (hpv : p.Valid) (hpval : p.val = blockProduct s u v.val)
    (hle : blockProduct s u v.val ≤ blockRest s u v.val) (hlen : p.len ≤ wordLen uu.val)
    (hno : ¬ BorrowsOn uu.val p.val p.len) : Finishes v s qhat uu u := by
  have hle' := product_le_iff.mp hle
  have hguess := hb.guess_eq hle'
  have hval : p.val ≤ uu.val := by rw [hpval, huv]; exact hle
  obtain ⟨ud, hrun, hudl, hudrop, hudv⟩ := takeOffIn_eq q hpv hu huc hlen hval hno
  refine ⟨q, ud, finishGuessIn_of (hb.lt.le.trans hvc) hq hp
    (correctLoopIn_done s 1 q hpv hu.le hlen hval) hrun, hqv,
    hqval.trans hguess, ?_, hudl, hudrop, ?_⟩
  · intro k _ hk
    rw [hql, hqval, hguess]
    exact wordLen_le_iff.mpr hk
  · rw [hudv, hpval, huv, rest_sub_product hle', hguess, Nat.mod_eq_sub_mul_div, Nat.mul_comm]

/-- The guess is too large by one. -/
theorem finishes_corrected {q p : CNat} {l b : Nat} (hv : v.Valid) (hvc : v.len ≤ v.cap)
    (hb : IsBlock s v.len u v.val) (hu : uu.len < uu.data.length) (huc : uu.len ≤ uu.cap)
    (hul : v.len ≤ uu.len) (huv : uu.val = blockRest s u v.val)
    (hlt : u < radix ^ uu.len) (hq : natNorm qhat = .ok q) (hqv : q.len < q.data.length)
    (hql : q.len = wordLen q.val) (hqval : q.val = blockGuess s u v.val)
    (hp : natMul q (low v s) = .ok p) (hroom : Roomy p l b) (hsl : s ≤ l)
    (hpval : p.val = blockProduct s u v.val)
    (hgt : ¬ blockProduct s u v.val ≤ blockRest s u v.val)
    (hq0 : blockGuess s u v.val % radix ≠ 0)
    (hborrow : BorrowFits (blockProduct s u v.val) (v.val % radix ^ s) s
      (wordLen (blockProduct s u v.val) - s) (decide (wordLen (blockProduct s u v.val) < b)))
    (hno' : ¬ BorrowsOn (blockRest s u v.val + v.val / radix ^ s * radix ^ s)
      (blockProduct s u v.val - v.val % radix ^ s) (wordLen (blockProduct s u v.val))) :
    Finishes v s qhat uu u := by
  have hgt' := mt product_le_iff.mpr hgt
  have hguess := hb.guess_eq_succ hgt'
  have hpred : blockGuess s u v.val - 1 = u / v.val := by rw [hguess, Nat.add_sub_cancel]
  obtain ⟨hge, hle, hrest⟩ := corrected_rest hgt' (by rw [hpred]; exact Nat.div_mul_le_self _ _)
  have hpl : p.len = wordLen (blockProduct s u v.val) := by
    rw [← CNat.length_words hroom.clean.1, hroom.clean.2.length_eq, ← hpval]
    rfl
  -- the first comparison asks for a correction
  obtain ⟨un, hun, hunv, hunn, hunval⟩ := natNorm_val hu.le huv
  have hcmp := natCmp_normal hroom.clean.1 hunv hroom.clean.2 hunn
  rw [hpval, hunval, cmpSign, if_neg (by omega), if_pos (by omega)] at hcmp
  -- the correction gives no more back than there was
  have hback : blockRest s u v.val + radix ^ s * (v.val / radix ^ s) ≤ u := by
    have h := guess_add_rest s u v.val
    have h1 := Nat.le_mul_of_pos_left (v.val / radix ^ s * radix ^ s)
      (show 0 < blockGuess s u v.val by omega)
    rw [Nat.mul_comm (radix ^ s)]
    omega
  obtain ⟨qd, pd, ud, hcorr, hqdl, hpdl, hudl, hudrop, hqdv, hpdv, hudv⟩ := correctGuessIn_eq hv
    hvc hb.lt.le hqv (by rw [hqval]; exact hq0) hroom hsl (by rw [hpval]; exact hge)
    (by rw [hpval, hpl]; exact hborrow) hu huc hul (by rw [huv]; exact hb.rest_lt)
    (by rw [huv]; exact hback.trans_lt hlt)
  rw [hpval] at hpdv
  rw [huv, Nat.mul_comm (radix ^ s)] at hudv
  have hpv' : (⟨pd, p.len, p.cap⟩ : CNat).Valid := by
    rw [CNat.Valid, hpdl]
    exact hroom.clean.1
  have huv' : (⟨ud, uu.len, uu.cap⟩ : CNat).len < (⟨ud, uu.len, uu.cap⟩ : CNat).data.length := by
    dsimp only
    rw [hudl]
    exact hu
  have hpval' : (⟨pd, p.len, p.cap⟩ : CNat).val = _ := hpdv
  have huval' : (⟨ud, uu.len, uu.cap⟩ : CNat).val = _ := hudv
  -- and the second one does not
  have hlen' : p.len ≤ wordLen (⟨ud, uu.len, uu.cap⟩ : CNat).val := by
    rw [hpl, huval']
    refine hb.product_length.trans ?_
    have := lt_wordLen_iff.mpr (hb.pow_le_high.trans (Nat.le_add_left _ (blockRest s u v.val)))
    have := hb.lt
    omega
  have hle' : (⟨pd, p.len, p.cap⟩ : CNat).val ≤ (⟨ud, uu.len, uu.cap⟩ : CNat).val := by
    rw [hpval', huval']
    exact hle
  obtain ⟨ud', hrun, hudl', hudrop', hudv'⟩ :=
    takeOffIn_eq ⟨qd, q.len, q.cap⟩ hpv' huv' huc hlen' hle'
    (by rw [hpval', huval', hpl]; exact hno')
  have hloop : correctLoopIn v s 2 q p uu =
      .ok (⟨qd, q.len, q.cap⟩, ⟨pd, p.len, p.cap⟩, ⟨ud, uu.len, uu.cap⟩) := by
    refine Run.bind_of_eq hun (Run.bind_of_eq hcmp ?_)
    rw [if_neg (by decide)]
    exact Run.bind_of_eq hcorr (correctLoopIn_done s 0 _ hpv' huv'.le hlen' hle')
  refine ⟨⟨qd, q.len, q.cap⟩, ud', finishGuessIn_of (hb.lt.le.trans hvc) hq hp hloop hrun, ?_, ?_,
    ?_, hudl'.trans hudl, hudrop'.trans hudrop, ?_⟩
  · rw [CNat.Valid, hqdl]
    exact hqv.le
  · exact hqdv.trans (by rw [hqval, hpred])
  · intro k hk hlt'
    refine hql.le.trans (wordLen_le_iff.mpr ?_)
    rw [hqval]
    refine lt_of_le_of_ne (by omega) fun heq => hq0 ?_
    rw [heq, ← Nat.succ_pred_eq_of_pos hk, pow_succ, Nat.mul_mod_left]
  · rw [hudv', hpval', huval', hrest, hpred, Nat.mod_eq_sub_mul_div, Nat.mul_comm]

/-- **What follows the recursive call divides the block.** -/
theorem finishGuessIn_eq (hv : v.Valid) (hvc : v.len ≤ v.cap) (hb : IsBlock s v.len u v.val)
    (hq : qhat.Valid) (hqval : qhat.val = blockGuess s u v.val)
    (hqroom : wordLen (blockGuess s u v.val) < qhat.data.length) (hu : uu.len < uu.data.length)
    (huc : uu.len ≤ uu.cap) (hul : v.len ≤ uu.len)
    (huv : uu.val = blockRest s u v.val) (hlt : u < radix ^ uu.len)
    (hfits : GuessFits s u v.val) : Finishes v s qhat uu u := by
  obtain ⟨hzero, hprod, hrest⟩ := hfits
  obtain ⟨q, hnorm, hqd, -, -, hqv, hqn, hqval'⟩ := natNorm_eq hq
  rw [hqval] at hqval'
  have hql : q.len = wordLen q.val := by
    rw [← CNat.length_words hqv, hqn.length_eq]
    rfl
  have hlv := valid_low hv hb.lt.le
  have hlval := low_val hv hb.lt.le
  have hprod' : ProductFits q.len (low v s).len q.val (low v s).val := by
    rw [hql, hqval', hlval]
    exact hprod
  by_cases h0 : blockGuess s u v.val = 0
  · -- nothing is taken off, and the dividend is not zero
    obtain ⟨p, hp, hshape, hpval⟩ := natMul_exact hqv hlv hprod'
    rw [hqval', hlval] at hpval
    have hprod0 : blockProduct s u v.val = 0 := by rw [blockProduct, h0, Nat.zero_mul]
    have hpv0 : p.val = 0 := hpval.trans hprod0
    have hu0 : uu.val = u := by
      have h := guess_add_rest s u v.val
      rw [h0, Nat.zero_mul, Nat.zero_add] at h
      exact huv.trans h
    have hone : p.len ≤ 1 := by
      rcases hshape.2 with hn | hz
      · rw [← CNat.length_words hshape.1, hn.length_eq, show value p.words = 0 from hpv0]
        exact wordLen_le_iff.mpr (radix_pow_pos 1)
      · rw [← CNat.length_words hshape.1, hz]
        exact le_rfl
    refine finishes_right hb hvc hu huc huv hnorm hqv hql hqval' hp hshape.1 hpval ?_ ?_ ?_
    · rw [hprod0]
      exact Nat.zero_le _
    · rw [hu0]
      refine hone.trans (lt_wordLen_iff.mpr ?_)
      rw [pow_zero]
      exact Nat.pos_of_ne_zero (hzero h0)
    · rintro ⟨h, -⟩
      rw [hpv0] at h
      exact absurd h (Nat.not_lt_zero _)
  · have hsolid : Solid q := by
      refine ⟨fun hlen => h0 ?_, fun _ h => h0 (hqval'.symm.trans h)⟩
      rw [← hqval', CNat.val, CNat.words, hlen, List.take_zero, value_nil]
    have hsolid' : Solid (low v s) :=
      ⟨fun h => absurd hb.two (by rw [show s = 0 from h]; decide),
        fun h => absurd hb.two (by rw [show s = 1 from h]; decide)⟩
    obtain ⟨p, hp, hpval, hroom⟩ := natMul_roomy hqv hlv hsolid hsolid' hprod'
    rw [hqval', hlval] at hpval
    have hpl : p.len = wordLen (blockProduct s u v.val) := by
      rw [← CNat.length_words hroom.clean.1, hroom.clean.2.length_eq, blockProduct, ← hpval]
      rfl
    by_cases hle : blockProduct s u v.val ≤ blockRest s u v.val
    · rw [if_pos hle] at hrest
      refine finishes_right hb hvc hu huc huv hnorm hqv hql hqval' hp hroom.clean.1 hpval hle ?_ ?_
      · rw [hpl, huv]
        exact wordLen_mono hle
      · rw [hpl, huv, hpval]
        exact hrest
    · rw [if_neg hle] at hrest
      rw [hql, hqval'] at hroom
      exact finishes_corrected hv hvc hb hu huc hul huv hlt hnorm
        (by rw [hql, hqval', hqd]; exact hqroom) hql hqval' hp hroom (Nat.le_add_left _ _) hpval hle
        hrest.1 hrest.2.1 hrest.2.2

end

end CDemo.BigInt
