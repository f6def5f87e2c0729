/-
# Signed numbers

`bigint.c`: a sign and a magnitude.  The pool is what a program has made so far; a call takes its
operands from the pool and adds its result, so that a number is obtainable exactly when a history
of calls puts it in the pool.

Whatever the calls, a magnitude has no zero word at the top or is the single word 0: that is what
`natNorm` leaves behind, and what `natNew(0)` makes.  Two more facts follow from the code.

* The sign and the length are those of the value, and equal numbers are equal words, exactly as
  long as nobody makes a 0 with `BigIntNewI` or `BigIntNewU` and nobody multiplies by zero.
* A sum and a difference are exact exactly when `natAdd` and `natSub` are (`AddFits`, `SubFits`).
* A product is exact if all carries inside `natMul` fit.
-/
import CDemo.BigInt.Div
import CDemo.BigInt.Square
import CDemo.Lib.Trace

namespace CDemo.BigInt

/-! ## 1. The calls -/

/-- `struct BigInt`. -/
structure CBigInt where
  neg : Bool
  abs : CNat
  deriving DecidableEq, Repr

/-- A magnitude with a sign. -/
def signed (neg : Bool) (v : Nat) : Int := if neg then -(v : Int) else v

/-- The integer a number denotes. -/
def CBigInt.val (x : CBigInt) : Int := signed x.neg x.abs.val

theorem CBigInt.signed_val (x : CBigInt) : signed x.neg x.abs.val = x.val := rfl

def bigIntNewI (v : Word) : CBigInt :=
  if v.toInt < 0 then ⟨true, natNew (-v)⟩ else ⟨false, natNew v⟩

def bigIntNewU (v : Word) : CBigInt := ⟨false, natNew v⟩

/-- `BigIntAdd` and `BigIntSub` are one text; `yneg` is the sign with which `y` counts. -/
def signedAdd (x y : CBigInt) (yneg : Bool) : Run CBigInt := do
  let (neg, abs) ←
    if x.neg = yneg then do
      let abs ← natAdd x.abs y.abs
      .ok (x.neg, abs)
    else do
      let e ← natCmp x.abs y.abs
      if 0 ≤ e then
        let abs ← natSub x.abs y.abs
        .ok (x.neg, abs)
      else
        let abs ← natSub y.abs x.abs
        .ok (!x.neg, abs)
  .ok ⟨decide (0 < abs.len) && neg, abs⟩

def bigIntAdd (x y : CBigInt) : Run CBigInt := signedAdd x y y.neg

def bigIntSub (x y : CBigInt) : Run CBigInt := signedAdd x y (!y.neg)

def bigIntMul (x y : CBigInt) : Run CBigInt := do
  let abs ← natMul x.abs y.abs
  .ok ⟨decide (0 < abs.len) && (x.neg != y.neg), abs⟩

/-- What `BigIntDiv` leaves uninitialised: `z->abs`, `r->abs`, and the variable `r2` of `natDiv`.
A vector lies within its block. -/
structure Scratch where
  z : CNat
  r : CNat
  r2 : Word
  hz : z.cap ≤ z.data.length
  hr : r.cap ≤ r.data.length

/-- `QuoRem(x, y, &r)`: the quotient, and `r->neg`. -/
def quoRem (s : Scratch) (x y : CBigInt) : Run (CBigInt × Bool) := do
  let (q, rr) ← natDiv s.z s.r x.abs y.abs s.r2
  let rr ← natNorm rr
  .ok (⟨decide (0 < q.len) && (x.neg != y.neg), q⟩, decide (0 < rr.len) && x.neg)

def intOne : CBigInt := ⟨false, ⟨[1], 1, 1⟩⟩

def bigIntDiv (s : Scratch) (x y : CBigInt) : Run CBigInt := do
  let (z, rneg) ← quoRem s x y
  if rneg then
    if y.neg then bigIntAdd z intOne else bigIntSub z intOne
  else .ok z

/-! ## 2. Histories -/

/-- A call; operands are places in the pool, the latest number first. -/
inductive Call where
  | newI (v : Word)
  | newU (v : Word)
  | add (i j : Nat)
  | sub (i j : Nat)
  | mul (i j : Nat)
  | div (s : Scratch) (i j : Nat)

/-- A call with two operands. -/
def onTwo (pool : List CBigInt) (i j : Nat) (f : CBigInt → CBigInt → Run CBigInt) :
    Run (List CBigInt) := do
  let x ← Run.read pool i
  let y ← Run.read pool j
  let z ← f x y
  .ok (z :: pool)

def runCall (pool : List CBigInt) : Call → Run (List CBigInt)
  | .newI v => .ok (bigIntNewI v :: pool)
  | .newU v => .ok (bigIntNewU v :: pool)
  | .add i j => onTwo pool i j bigIntAdd
  | .sub i j => onTwo pool i j bigIntSub
  | .mul i j => onTwo pool i j bigIntMul
  | .div s i j => onTwo pool i j (bigIntDiv s)

/-- A call that returns. -/
def CallStep (pool : List CBigInt) (c : Call) (pool' : List CBigInt) : Prop :=
  runCall pool c = .ok pool'

/-- A number that some history of calls makes. -/
def Made (x : CBigInt) : Prop := ∃ history pool, Trace CallStep [] history pool ∧ x ∈ pool

theorem onTwo_ok {pool pool' : List CBigInt} {i j : Nat} {f : CBigInt → CBigInt → Run CBigInt}
    (h : onTwo pool i j f = .ok pool') :
    ∃ x ∈ pool, ∃ y ∈ pool, ∃ z, pool[i]? = some x ∧ pool[j]? = some y ∧ f x y = .ok z ∧
      pool' = z :: pool := by
  obtain ⟨x, hx, h⟩ := Run.bind_eq_ok_iff.mp h
  obtain ⟨y, hy, h⟩ := Run.bind_eq_ok_iff.mp h
  obtain ⟨z, hz, h⟩ := Run.bind_eq_ok_iff.mp h
  have hx' := Run.read_ok hx
  have hy' := Run.read_ok hy
  exact ⟨x, List.mem_of_getElem? hx', y, List.mem_of_getElem? hy', z, hx', hy', hz,
    (Except.ok.inj h).symm⟩

/-! ## 3. The shape of a magnitude -/

/-- `natAdd` returns an operand or normalises. -/
theorem natAdd_yields {P : CNat → Prop} (hP : ∀ q, Clean q → P q) {x y : CNat} (hx : P x)
    (hy : P y) : Run.Yields (natAdd x y) P := by
  have hlong : ∀ {x y : CNat}, P x → Run.Yields (natAddLong x y) P := by
    intro x y hx
    simp only [natAddLong]
    split
    · exact .ok hx
    · refine .bind fun _ _ => .bind fun _ _ => ?_
      split
      · refine .bind fun _ _ => .bind fun _ _ => .bind fun _ _ => .bind fun _ _ => ?_
        exact .bind fun _ _ q h => hP q (natNorm_clean _ q h)
      · refine .bind fun _ _ => .bind fun _ _ => ?_
        exact fun q h => hP q (natNorm_clean _ q h)
  rw [natAdd]
  split
  · exact hlong hy
  · exact hlong hx

/-- `natSub` returns an operand or normalises. -/
theorem natSub_yields {P : CNat → Prop} (hP : ∀ q, Clean q → P q) {x y : CNat} (hx : P x) :
    Run.Yields (natSub x y) P := by
  refine .bind fun _ _ => ?_
  simp only
  split
  · exact .ok hx
  · refine .bind fun _ _ => .bind fun _ _ => ?_
    split
    · refine .bind fun _ _ => .bind fun _ _ => .bind fun _ _ => .bind fun _ _ => ?_
      exact .bind fun _ _ q h => hP q (natNorm_clean _ q h)
    · refine .bind fun _ _ => .bind fun _ _ => ?_
      exact fun q h => hP q (natNorm_clean _ q h)

theorem natDup_ok {x q : CNat} (h : natDup x = .ok q) : x.Valid ∧ q.Valid ∧ q.words = x.words := by
  obtain ⟨data, hd, h⟩ := Run.bind_eq_ok_iff.mp h
  rw [memcpy] at hd
  split at hd
  · next hfit =>
    rw [← Except.ok.inj h, ← Except.ok.inj hd]
    have hl : (x.data.take x.len).length = x.len := by
      rw [List.length_take, Nat.min_eq_left hfit.2]
    refine ⟨hfit.2, ?_, ?_⟩
    · simp [CNat.Valid, natNewLen, hl]
    · simp only [CNat.words, natNewLen]
      rw [List.take_append_of_le_length (by rw [hl]), List.take_of_length_le (by rw [hl])]
  · exact absurd hd (by simp)

theorem natDivW_yields {x : CNat} {y r : Word} (hx : x.len ≠ 0) :
    Run.Yields (natDivW x y r) (fun p => y ≠ 0 ∧ (Clean p.1 ∨ y = 1 ∧ x.Valid ∧ p.1.Valid ∧
      p.1.words = x.words)) := by
  refine .bind fun _ hy => ?_
  have hy0 : y ≠ 0 := of_decide_eq_true (Run.assert_ok hy)
  simp only
  split
  · next h1 => exact .bind fun z hz => .ok ⟨hy0, .inr ⟨h1, natDup_ok hz⟩⟩
  · exact .bind fun _ _ => .bind fun z hz => .ok ⟨hy0, .inl (natNorm_clean _ z hz)⟩

/-- **A quotient is normalised.**  The copy of the dividend that `natDivW` returns for a divisor 1
is a copy of a dividend that is at least 1. -/
theorem natDiv_yields {z z2 u v : CNat} {r2 : Word} (hu : Shaped u) (hv : v.Valid) :
    Run.Yields (natDiv z z2 u v r2) (fun p => Clean p.1) := by
  refine .bind fun _ _ => .bind fun e he => ?_
  split
  · refine .bind fun q hq => .bind fun _ _ => .ok ?_
    rw [natPart_eq _ le_rfl] at hq
    rw [← Except.ok.inj hq]
    exact ⟨by simp [CNat.Valid], by simpa [CNat.words] using normal_nil⟩
  · next hlt =>
    split
    · next hlen =>
      refine .bind fun v0 hv0 => .bind fun p hp => .bind fun _ _ => .ok ?_
      obtain ⟨hlt0, hget⟩ := List.getElem?_eq_some_iff.mp (Run.read_ok hv0)
      have hvval : v.val = v0.toNat := by
        rw [CNat.val, CNat.words, hlen, List.take_succ_eq_append_getElem hlt0, hget]
        simp
      rw [natCmp_eq hu.1 hv, Except.ok.injEq] at he
      have hul : u.len ≠ 0 := by
        intro h0
        rw [if_neg (by omega), h0, hlen] at he
        exact hlt (by rw [← he]; decide)
      obtain ⟨hv0', hclean | ⟨hone, -, hq, hw⟩⟩ := natDivW_yields hul p hp
      · exact hclean
      · refine ⟨hq, ?_⟩
        rw [hw]
        refine hu.2.resolve_right fun h0 => hlt ?_
        have hul1 : u.len = 1 := by rw [← CNat.length_words hu.1, h0]; rfl
        have huv : u.val = 0 := by rw [CNat.val, h0]; rfl
        rw [← he, if_pos (by omega), huv, hvval, hone]
        decide
    · rw [natDivLarge]
      refine .bind fun _ _ => .bind fun _ _ => .bind fun _ _ => .bind fun _ _ => .bind fun _ _ =>
        .bind fun _ _ => .bind fun _ _ => .bind fun _ _ => ?_
      split
      · exact .bind fun _ _ => .bind fun q hq => .bind fun _ _ => .bind fun _ _ =>
          .ok (natNorm_clean _ q hq)
      · exact .bind fun _ _ => .bind fun q hq => .bind fun _ _ => .bind fun _ _ =>
          .ok (natNorm_clean _ q hq)

/-- Every result of `signedAdd` has a property that its operands and all normalised vectors
have. -/
theorem signedAdd_yields {P : CNat → Prop} (hP : ∀ q, Clean q → P q) {x y : CBigInt} {yneg : Bool}
    (hx : P x.abs) (hy : P y.abs) :
    Run.Yields (signedAdd x y yneg) (fun z => P z.abs ∧ (z.abs.len = 0 → z.neg = false)) := by
  have hfin : ∀ (neg : Bool) (q : CNat), P q →
      P q ∧ (q.len = 0 → (decide (0 < q.len) && neg) = false) := by
    intro neg q hq
    exact ⟨hq, fun h0 => by simp [h0]⟩
  simp only [signedAdd]
  split
  · exact .bind fun q hq => .bind fun p hp => .ok (Except.ok.inj hp ▸
      hfin _ q (natAdd_yields hP hx hy q hq))
  · refine .bind fun _ _ => ?_
    split
    · exact .bind fun q hq => .bind fun p hp => .ok (Except.ok.inj hp ▸
        hfin _ q (natSub_yields hP hx q hq))
    · exact .bind fun q hq => .bind fun p hp => .ok (Except.ok.inj hp ▸
        hfin _ q (natSub_yields hP hy q hq))

theorem clean_intOne : Clean intOne.abs := by
  exact ⟨by decide, by decide⟩

theorem bigIntDiv_yields {s : Scratch} {x y : CBigInt} (hx : Shaped x.abs) (hy : y.abs.Valid) :
    Run.Yields (bigIntDiv s x y) (fun z => Clean z.abs ∧ (z.abs.len = 0 → z.neg = false)) := by
  have hone := clean_intOne
  have hquo : Run.Yields (quoRem s x y)
      (fun p => Clean p.1.abs ∧ (p.1.abs.len = 0 → p.1.neg = false)) := by
    refine .bind fun p hp => .bind fun _ _ => .ok ⟨natDiv_yields hx hy p hp, ?_⟩
    intro h0
    simp only at h0
    simp [h0]
  refine .bind fun p hp => ?_
  obtain ⟨hc, hn⟩ := hquo p hp
  simp only
  split
  · split
    · exact signedAdd_yields (fun _ h => h) hc hone
    · exact signedAdd_yields (fun _ h => h) hc hone
  · exact .ok ⟨hc, hn⟩

/-- **Every number has a shaped magnitude**, whatever calls made it. -/
theorem shaped_of_trace {history : List Call} {pool : List CBigInt}
    (htr : Trace CallStep [] history pool) : ∀ x ∈ pool, Shaped x.abs := by
  refine Trace.invariant (I := fun pool => ∀ x ∈ pool, Shaped x.abs) (by simp) ?_ htr
  intro pool c pool' hinv hstep
  have hcons : ∀ {z : CBigInt}, Shaped z.abs → ∀ x ∈ z :: pool, Shaped x.abs := by
    intro z hz x hx
    rcases List.mem_cons.mp hx with rfl | hx
    · exact hz
    · exact hinv x hx
  cases c with
  | newI v =>
    rw [← Except.ok.inj hstep]
    refine hcons ?_
    rw [bigIntNewI]
    split
    · exact shaped_natNew _
    · exact shaped_natNew _
  | newU v =>
    rw [← Except.ok.inj hstep]
    exact hcons (shaped_natNew v)
  | add i j =>
    obtain ⟨x, hx, y, hy, z, -, -, hz, rfl⟩ := onTwo_ok hstep
    exact hcons (signedAdd_yields (fun _ => Clean.shaped) (hinv x hx) (hinv y hy) z hz).1
  | sub i j =>
    obtain ⟨x, hx, y, hy, z, -, -, hz, rfl⟩ := onTwo_ok hstep
    exact hcons (signedAdd_yields (fun _ => Clean.shaped) (hinv x hx) (hinv y hy) z hz).1
  | mul i j =>
    obtain ⟨x, hx, y, hy, z, -, -, hz, rfl⟩ := onTwo_ok hstep
    obtain ⟨q, hq, hz⟩ := Run.bind_eq_ok_iff.mp hz
    refine hcons ?_
    rw [← Except.ok.inj hz]
    exact (natMulRec_yields _ _ _ q hq).1
  | div s i j =>
    obtain ⟨x, hx, y, hy, z, -, -, hz, rfl⟩ := onTwo_ok hstep
    exact hcons (bigIntDiv_yields (hinv x hx) (hinv y hy).1 z hz).1.shaped

theorem Made.shaped {x : CBigInt} : Made x → Shaped x.abs
  | ⟨_, _, htr, hx⟩ => shaped_of_trace htr x hx

/-! ## 4. Canonical numbers -/

/-- Normalised, and not negative when zero. -/
structure Canonical (x : CBigInt) : Prop where
  clean : Clean x.abs
  sign : x.val = 0 → x.neg = false

theorem Clean.len_eq_zero_iff {x : CNat} (h : Clean x) : x.len = 0 ↔ x.val = 0 := by
  rw [CNat.val, ← h.2.eq_nil_iff, ← List.length_eq_zero_iff, CNat.length_words h.1]

theorem signed_eq_zero_iff {neg : Bool} {v : Nat} : signed neg v = 0 ↔ v = 0 := by
  cases neg <;> simp [signed]

/-- The sign rule of the source tests the length. -/
theorem Canonical.of_clean {x : CBigInt} (h : Clean x.abs) (hs : x.abs.len = 0 → x.neg = false) :
    Canonical x :=
  ⟨h, fun h0 => hs (h.len_eq_zero_iff.mpr (signed_eq_zero_iff.mp h0))⟩

/-- **Canonical numbers of one value are the same number.** -/
theorem Canonical.eq_of_val {x y : CBigInt} (hx : Canonical x) (hy : Canonical y)
    (h : x.val = y.val) :
    x.neg = y.neg ∧ x.abs.len = y.abs.len ∧ x.abs.words = y.abs.words := by
  have key : x.neg = y.neg ∧ x.abs.val = y.abs.val := by
    have hxs := hx.sign
    have hys := hy.sign
    simp only [CBigInt.val, signed] at h hxs hys
    cases hxn : x.neg <;> cases hyn : y.neg <;>
      simp only [hxn, hyn, Bool.false_eq_true, if_false, if_true] at h hxs hys
    · exact ⟨rfl, by omega⟩
    · exact absurd (hys (by omega)) (by simp)
    · exact absurd (hxs (by omega)) (by simp)
    · exact ⟨rfl, by omega⟩
  have hw := hx.clean.2.eq_of_value hy.clean.2 key.2
  refine ⟨key.1, ?_, hw⟩
  rw [← CNat.length_words hx.clean.1, ← CNat.length_words hy.clean.1, hw]

/-- The calls that make no zero word: no 0 is constructed, and no factor is zero. -/
def MakesNoZero (pool : List CBigInt) : Call → Prop
  | .newI v => v ≠ 0
  | .newU v => v ≠ 0
  | .mul i j => ∀ x y, pool[i]? = some x → pool[j]? = some y → x.val ≠ 0 ∧ y.val ≠ 0
  | _ => True

/-- A call that returns and makes no zero word. -/
def CleanStep (pool : List CBigInt) (c : Call) (pool' : List CBigInt) : Prop :=
  CallStep pool c pool' ∧ MakesNoZero pool c

theorem natNew_clean_iff (v : Word) : Clean (natNew v) ↔ v ≠ 0 := by
  constructor
  · rintro ⟨-, hn⟩ rfl
    exact absurd hn (by decide)
  · intro hv
    exact ⟨by simp [natNew, CNat.Valid], fun hne => by simpa [natNew, CNat.words] using hv⟩

/-- **One call on canonical numbers makes a canonical number exactly when it makes no zero
word.** -/
theorem canonical_step {pool pool' : List CBigInt} {c : Call} (hpool : ∀ x ∈ pool, Canonical x)
    (hstep : CallStep pool c pool') :
    ∃ z, pool' = z :: pool ∧ (Canonical z ↔ MakesNoZero pool c) := by
  cases c with
  | newI v =>
    refine ⟨_, (Except.ok.inj hstep).symm, ?_⟩
    have hneg : -v = 0 ↔ v = 0 := BitVec.neg_eq_zero_iff
    rw [bigIntNewI]
    split
    · constructor
      · intro h h0
        exact (natNew_clean_iff _).mp h.clean (hneg.mpr h0)
      · intro hv
        refine .of_clean ((natNew_clean_iff _).mpr (mt hneg.mp hv)) ?_
        simp [natNew]
    · constructor
      · intro h
        exact (natNew_clean_iff _).mp h.clean
      · intro hv
        exact .of_clean ((natNew_clean_iff _).mpr hv) fun _ => rfl
  | newU v =>
    refine ⟨_, (Except.ok.inj hstep).symm, ?_⟩
    constructor
    · intro h
      exact (natNew_clean_iff _).mp h.clean
    · intro hv
      exact .of_clean ((natNew_clean_iff _).mpr hv) fun _ => rfl
  | add i j =>
    obtain ⟨x, hx, y, hy, z, -, -, hz, rfl⟩ := onTwo_ok hstep
    obtain ⟨h1, h2⟩ := signedAdd_yields (fun _ h => h) (hpool x hx).clean (hpool y hy).clean z hz
    exact ⟨z, rfl, iff_of_true (.of_clean h1 h2) trivial⟩
  | sub i j =>
    obtain ⟨x, hx, y, hy, z, -, -, hz, rfl⟩ := onTwo_ok hstep
    obtain ⟨h1, h2⟩ := signedAdd_yields (fun _ h => h) (hpool x hx).clean (hpool y hy).clean z hz
    exact ⟨z, rfl, iff_of_true (.of_clean h1 h2) trivial⟩
  | mul i j =>
    obtain ⟨x, hx, y, hy, z, hxi, hyj, hz, rfl⟩ := onTwo_ok hstep
    obtain ⟨q, hq, hz⟩ := Run.bind_eq_ok_iff.mp hz
    refine ⟨z, rfl, ?_⟩
    rw [← Except.ok.inj hz]
    constructor
    · intro hc x' y' hx' hy'
      obtain rfl : x = x' := Option.some.inj (hxi.symm.trans hx')
      obtain rfl : y = y' := Option.some.inj (hyj.symm.trans hy')
      by_contra hne
      have hzero : x.abs.len = 0 ∨ y.abs.len = 0 := by
        by_contra hlen
        refine hne ⟨fun h0 => hlen (.inl ?_), fun h0 => hlen (.inr ?_)⟩
        · exact (hpool x hx).clean.len_eq_zero_iff.mpr (signed_eq_zero_iff.mp h0)
        · exact (hpool y hy).clean.len_eq_zero_iff.mpr (signed_eq_zero_iff.mp h0)
      rw [natMul_empty hzero, Except.ok.injEq] at hq
      have := hc.clean
      rw [← hq] at this
      exact (natNew_clean_iff 0).mp this rfl
    · intro hno
      obtain ⟨hxv, hyv⟩ := hno x y hxi hyj
      refine .of_clean ((natMulRec_yields _ _ _ q hq).2 ?_ ?_) ?_
      · exact fun h0 => hxv (signed_eq_zero_iff.mpr h0)
      · exact fun h0 => hyv (signed_eq_zero_iff.mpr h0)
      · intro h0
        simp only at h0
        simp [h0]
  | div s i j =>
    obtain ⟨x, hx, y, hy, z, -, -, hz, rfl⟩ := onTwo_ok hstep
    obtain ⟨h1, h2⟩ := bigIntDiv_yields (hpool x hx).clean.shaped (hpool y hy).clean.1 z hz
    exact ⟨z, rfl, iff_of_true (.of_clean h1 h2) trivial⟩

/-- **A history of calls that make no zero word makes canonical numbers.** -/
theorem canonical_of_clean {history : List Call} {pool : List CBigInt}
    (htr : Trace CleanStep [] history pool) : ∀ x ∈ pool, Canonical x := by
  refine Trace.invariant (I := fun pool => ∀ x ∈ pool, Canonical x) (by simp) ?_ htr
  intro pool c pool' hinv hstep
  obtain ⟨z, rfl, hiff⟩ := canonical_step hinv hstep.1
  intro x hx
  rcases List.mem_cons.mp hx with rfl | hx
  · exact hiff.mpr hstep.2
  · exact hinv x hx

/-- A call only adds to the pool. -/
theorem CallStep.mem {pool pool' : List CBigInt} {c : Call} (h : CallStep pool c pool')
    {x : CBigInt} (hx : x ∈ pool) : x ∈ pool' := by
  have htwo : ∀ {i j : Nat} {f : CBigInt → CBigInt → Run CBigInt},
      onTwo pool i j f = .ok pool' → x ∈ pool' := by
    intro i j f h
    obtain ⟨_, _, _, _, z, _, _, _, rfl⟩ := onTwo_ok h
    exact List.mem_cons_of_mem z hx
  cases c with
  | newI v =>
    rw [← Except.ok.inj h]
    exact List.mem_cons_of_mem _ hx
  | newU v =>
    rw [← Except.ok.inj h]
    exact List.mem_cons_of_mem _ hx
  | add i j => exact htwo h
  | sub i j => exact htwo h
  | mul i j => exact htwo h
  | div s i j => exact htwo h

/-- If all numbers of a history are canonical, none of its calls made a zero word. -/
theorem clean_of_canonical {history : List Call} {pool : List CBigInt}
    (htr : Trace CallStep [] history pool) :
    (∀ x ∈ pool, Canonical x) → Trace CleanStep [] history pool := by
  induction htr with
  | start => exact fun _ => .start
  | call _ hstep ih =>
    intro hall
    have hpool := fun x hx => hall x (hstep.mem hx)
    obtain ⟨z, hz, hiff⟩ := canonical_step hpool hstep
    exact .call (ih hpool) ⟨hstep, hiff.mp (hall z (by rw [hz]; exact List.mem_cons_self))⟩

/-- **The representation is canonical exactly as long as no call makes a zero word**: then a
magnitude is normalised, zero is not negative, equal numbers are equal words with equal signs,
and `natCmp` orders magnitudes by value. -/
theorem canonical_iff_no_zero {history : List Call} {pool : List CBigInt}
    (htr : Trace CallStep [] history pool) :
    ((∀ x ∈ pool, Canonical x) ∧
      (∀ x ∈ pool, ∀ y ∈ pool, x.val = y.val →
        x.neg = y.neg ∧ x.abs.len = y.abs.len ∧ x.abs.words = y.abs.words) ∧
      (∀ x ∈ pool, ∀ y ∈ pool, natCmp x.abs y.abs = .ok (cmpSign x.abs.val y.abs.val))) ↔
    Trace CleanStep [] history pool := by
  constructor
  · intro h
    exact clean_of_canonical htr h.1
  · intro hclean
    have hall := canonical_of_clean hclean
    refine ⟨hall, ?_, ?_⟩
    · intro x hx y hy hval
      exact (hall x hx).eq_of_val (hall y hy) hval
    · intro x hx y hy
      obtain ⟨hvx, hnx⟩ := (hall x hx).clean
      obtain ⟨hvy, hny⟩ := (hall y hy).clean
      exact natCmp_normal hvx hvy hnx hny

/-- 2, 3 and their product. -/
theorem canonical_two_three :
    Canonical ⟨false, ⟨[6, 0], 1, 2⟩⟩ ∧ Canonical (bigIntNewU 3) ∧ Canonical (bigIntNewU 2) := by
  have h1 : CallStep [] (.newU 2) [bigIntNewU 2] := rfl
  have h2 : CallStep [bigIntNewU 2] (.newU 3) [bigIntNewU 3, bigIntNewU 2] := rfl
  have h3 : CallStep [bigIntNewU 3, bigIntNewU 2] (.mul 0 1)
      [⟨false, ⟨[6, 0], 1, 2⟩⟩, bigIntNewU 3, bigIntNewU 2] := by
    unfold CallStep
    decide
  have hno : MakesNoZero [bigIntNewU 3, bigIntNewU 2] (.mul 0 1) := by
    intro x y hx hy
    rw [← Option.some.inj hx, ← Option.some.inj hy]
    decide
  have hclean : Trace CleanStep [] [.mul 0 1, .newU 3, .newU 2] _ :=
    .call (.call (.call .start ⟨h1, show (2 : Word) ≠ 0 by decide⟩)
      ⟨h2, show (3 : Word) ≠ 0 by decide⟩) ⟨h3, hno⟩
  have hall := ((canonical_iff_no_zero (.call (.call (.call .start h1) h2) h3)).mpr hclean).1
  exact ⟨hall _ (by simp), hall _ (by simp), hall _ (by simp)⟩

/-- `BigIntNewI(0)` has one word, the difference of 1 and 1 has none. -/
theorem two_zeros : ∃ pool, ∃ zero ∈ pool, ∃ diff ∈ pool,
    Trace CallStep [] [.sub 0 0, .newU 1, .newI 0] pool ∧ ¬ Canonical zero ∧
      zero.val = diff.val ∧ zero.abs.words = [0] ∧ diff.abs.words = [] := by
  have h1 : CallStep [] (.newI 0) [bigIntNewI 0] := rfl
  have h2 : CallStep [bigIntNewI 0] (.newU 1) [bigIntNewU 1, bigIntNewI 0] := rfl
  have h3 : CallStep [bigIntNewU 1, bigIntNewI 0] (.sub 0 0)
      [⟨false, ⟨[0], 0, 1⟩⟩, bigIntNewU 1, bigIntNewI 0] := by
    unfold CallStep
    decide
  refine ⟨_, bigIntNewI 0, ?_, ⟨false, ⟨[0], 0, 1⟩⟩, ?_, .call (.call (.call .start h1) h2) h3,
    ?_, by decide, by decide, by decide⟩
  · simp
  · simp
  · intro h
    exact absurd h.clean.2 (by decide)

/-! ## 5. Sums and differences -/

theorem signed_eq_iff {neg : Bool} {a b : Nat} : signed neg a = signed neg b ↔ a = b := by
  cases neg <;> simp [signed]

/-- Nothing is lost when an empty magnitude loses its sign. -/
theorem signed_len (neg : Bool) (q : CNat) :
    signed (decide (0 < q.len) && neg) q.val = signed neg q.val := by
  by_cases h0 : q.len = 0
  · have hv : q.val = 0 := by simp [CNat.val, CNat.words, h0]
    rw [hv]
    cases neg <;> simp [signed]
  · rw [decide_eq_true (Nat.pos_of_ne_zero h0), Bool.true_and]

/-- When the sum of two magnitudes is exact. -/
def SumFits (x y : CNat) : Prop := if x.len < y.len then AddFits y x else AddFits x y

/-- When the difference of two magnitudes is exact. -/
def DiffFits (x y : CNat) : Prop := if x.val < y.val then SubFits y x else SubFits x y

instance (x y : CNat) : Decidable (SumFits x y) :=
  inferInstanceAs (Decidable (if x.len < y.len then AddFits y x else AddFits x y))

instance (x y : CNat) : Decidable (DiffFits x y) :=
  inferInstanceAs (Decidable (if x.val < y.val then SubFits y x else SubFits x y))

theorem natAdd_exact_iff {x y : CNat} (hx : x.Valid) (hy : y.Valid) :
    Run.Returns (natAdd x y) (fun q => q.val = x.val + y.val) ↔ SumFits x y := by
  rw [natAdd, SumFits]
  split
  · next hlt =>
    rw [Nat.add_comm]
    exact natAddLong_exact_iff hy hx hlt.le
  · next hge => exact natAddLong_exact_iff hx hy (Nat.le_of_not_lt hge)

/-- `natCmp` on shaped magnitudes, as `BigIntAdd` uses it: the number it puts first is neither
shorter nor smaller. -/
theorem Shaped.natCmp {x y : CNat} (hx : Shaped x) (hy : Shaped y) :
    ∃ e, natCmp x y = .ok e ∧ (0 ≤ e → y.len ≤ x.len ∧ y.val ≤ x.val) ∧
      (¬ 0 ≤ e → x.len ≤ y.len ∧ x.val ≤ y.val) := by
  -- a longer number is not smaller
  have hmono : ∀ {x y : CNat}, Shaped x → Shaped y → x.len < y.len → x.val ≤ y.val := by
    intro x y hx hy hlt
    rcases hy.2 with hn | h0
    · refine (hn.value_lt_of_length ?_).le
      rw [CNat.length_words hx.1, CNat.length_words hy.1]
      exact hlt
    · have hyl : y.len = 1 := by rw [← CNat.length_words hy.1, h0]; rfl
      have hxl : x.len = 0 := by omega
      have hxv : x.val = 0 := by simp [CNat.val, CNat.words, hxl]
      rw [hxv]
      exact Nat.zero_le _
  refine ⟨_, natCmp_eq hx.1 hy.1, ?_, ?_⟩
  · intro he
    split at he
    · next hlen =>
      refine ⟨hlen.ge, Nat.le_of_not_lt fun hlt => ?_⟩
      rw [cmpSign, if_pos hlt] at he
      exact absurd he (by decide)
    · next hne =>
      rcases Nat.lt_or_gt_of_ne hne with hlt | hgt
      · rw [cmpSign, if_pos hlt] at he
        exact absurd he (by decide)
      · exact ⟨hgt.le, hmono hy hx hgt⟩
  · intro he
    split at he
    · next hlen =>
      refine ⟨hlen.le, Nat.le_of_not_lt fun hlt => he ?_⟩
      rw [cmpSign, if_neg (Nat.not_lt.mpr hlt.le), if_pos hlt]
      decide
    · next hne =>
      rcases Nat.lt_or_gt_of_ne hne with hlt | hgt
      · exact ⟨hlt.le, hmono hx hy hlt⟩
      · rw [cmpSign, if_neg (Nat.not_lt.mpr hgt.le), if_pos hgt] at he
        exact absurd (by decide) he

/-- Numbers of one value subtract exactly. -/
theorem subFits_of_val_eq {x y : CNat} (h : x.val = y.val) : SubFits y x := by
  refine .inr (.inr (.inl ?_))
  rw [Nat.mod_eq_of_lt (h ▸ CNat.val_lt)]
  exact h.le

/-- **When a signed sum is exact.** -/
theorem signedAdd_exact_iff {x y : CBigInt} (hx : Shaped x.abs) (hy : Shaped y.abs)
    (yneg : Bool) :
    Run.Returns (signedAdd x y yneg)
        (fun z => z.val = signed x.neg x.abs.val + signed yneg y.abs.val) ↔
      if x.neg = yneg then SumFits x.abs y.abs else DiffFits x.abs y.abs := by
  by_cases hs : x.neg = yneg
  · have hsum : signed x.neg x.abs.val + signed yneg y.abs.val =
        signed x.neg (x.abs.val + y.abs.val) := by
      rw [← hs]
      cases x.neg with
      | false => simp [signed]
      | true =>
        simp only [signed, if_true]
        push_cast
        ring
    rw [if_pos hs, ← natAdd_exact_iff hx.1 hy.1, hsum]
    simp only [signedAdd, if_pos hs, Run.ok_bind, Run.returns_map]
    refine Run.returns_congr fun q => ?_
    rw [CBigInt.val, signed_len, signed_eq_iff]
  · obtain ⟨e, he, hge, hlt⟩ := hx.natCmp hy
    have hyneg : yneg = !x.neg := by
      cases hxn : x.neg <;> cases hyn : yneg <;> simp_all
    rw [if_neg hs]
    simp only [signedAdd, if_neg hs, he, Run.ok_bind]
    by_cases h0 : 0 ≤ e
    · obtain ⟨hlen, hval⟩ := hge h0
      have hdiff : signed x.neg x.abs.val + signed yneg y.abs.val =
          signed x.neg (x.abs.val - y.abs.val) := by
        rw [hyneg]
        cases x.neg <;> simp only [signed] <;> push_cast [Nat.cast_sub hval] <;> simp <;> ring
      rw [DiffFits, if_neg (Nat.not_lt.mpr hval), ← natSub_exact_iff hx.1 hy.1 hlen hval, hdiff]
      simp only [if_pos h0, Run.returns_map]
      refine Run.returns_congr fun q => ?_
      rw [CBigInt.val, signed_len, signed_eq_iff]
    · obtain ⟨hlen, hval⟩ := hlt h0
      have hdiff : signed x.neg x.abs.val + signed yneg y.abs.val =
          signed (!x.neg) (y.abs.val - x.abs.val) := by
        rw [hyneg]
        cases x.neg <;> simp only [signed] <;> push_cast [Nat.cast_sub hval] <;> simp <;> ring
      have hfits : DiffFits x.abs y.abs ↔ SubFits y.abs x.abs := by
        rw [DiffFits]
        split
        · rfl
        · next heq =>
          have heq' : x.abs.val = y.abs.val := le_antisymm hval (Nat.le_of_not_lt heq)
          exact iff_of_true (subFits_of_val_eq heq'.symm) (subFits_of_val_eq heq')
      rw [hfits, ← natSub_exact_iff hy.1 hx.1 hlen hval, hdiff]
      simp only [if_neg h0, Run.returns_map]
      refine Run.returns_congr fun q => ?_
      rw [CBigInt.val, signed_len, signed_eq_iff]

/-- **`BigIntAdd` and `BigIntSub` both return the right number exactly when the magnitudes can be
added and subtracted exactly.**  One of the two calls adds the magnitudes, the other subtracts
them. -/
theorem add_sub_exact_iff {x y : CBigInt} (hx : Made x) (hy : Made y) :
    (Run.Returns (bigIntAdd x y) (fun z => z.val = x.val + y.val) ∧
      Run.Returns (bigIntSub x y) (fun z => z.val = x.val - y.val)) ↔
    SumFits x.abs y.abs ∧ DiffFits x.abs y.abs := by
  have hadd := signedAdd_exact_iff hx.shaped hy.shaped y.neg
  have hsub := signedAdd_exact_iff hx.shaped hy.shaped (!y.neg)
  have hneg : x.val + signed (!y.neg) y.abs.val = x.val - y.val := by
    simp only [CBigInt.val]
    cases y.neg <;> simp [signed]
    ring
  rw [x.signed_val, hneg] at hsub
  rw [x.signed_val,
    y.signed_val] at hadd
  rw [bigIntAdd, bigIntSub, hadd, hsub]
  by_cases hs : x.neg = y.neg
  · rw [if_pos hs, if_neg (by rw [hs]; simp)]
  · rw [if_neg hs, if_pos (by cases hxn : x.neg <;> cases hyn : y.neg <;> simp_all)]
    exact and_comm

/-- 5 and 3. -/
theorem add_sub_five_three :
    Run.Returns (bigIntAdd (bigIntNewU 5) (bigIntNewU 3)) (fun z => z.val = 5 + 3) ∧
      Run.Returns (bigIntSub (bigIntNewU 5) (bigIntNewU 3)) (fun z => z.val = 5 - 3) := by
  have h5 : Made (bigIntNewU 5) := ⟨[.newU 5], _, .call .start rfl, List.mem_singleton_self _⟩
  have h3 : Made (bigIntNewU 3) := ⟨[.newU 3], _, .call .start rfl, List.mem_singleton_self _⟩
  exact (add_sub_exact_iff h5 h3).mpr (by decide)

/-- `2^128 - 1`: the borrow counts twice in the third word, and the `assert` fails. -/
theorem borrow_counts_twice : ∃ x y, Made x ∧ Made y ∧ x.val = 2 ^ 128 ∧ y.val = 1 ∧
    bigIntSub x y = .error .assertFailed := by
  have h1 : CallStep [] (.newU 2) [bigIntNewU 2] := rfl
  have h2 : CallStep [bigIntNewU 2] (.newU (1#64 <<< 63))
      [bigIntNewU (1#64 <<< 63), bigIntNewU 2] := rfl
  have h3 : CallStep [bigIntNewU (1#64 <<< 63), bigIntNewU 2] (.mul 0 1)
      [⟨false, ⟨[0, 1], 2, 2⟩⟩, bigIntNewU (1#64 <<< 63), bigIntNewU 2] := by
    unfold CallStep
    decide
  have h4 : CallStep [⟨false, ⟨[0, 1], 2, 2⟩⟩, bigIntNewU (1#64 <<< 63), bigIntNewU 2] (.mul 0 0)
      [⟨false, ⟨[0, 0, 1, 0], 3, 4⟩⟩, ⟨false, ⟨[0, 1], 2, 2⟩⟩, bigIntNewU (1#64 <<< 63),
        bigIntNewU 2] := by
    unfold CallStep
    decide
  refine ⟨⟨false, ⟨[0, 0, 1, 0], 3, 4⟩⟩, bigIntNewU 1, ?_, ?_, ?_, ?_, ?_⟩
  · exact ⟨_, _, .call (.call (.call (.call .start h1) h2) h3) h4, List.mem_cons_self⟩
  · exact ⟨[.newU 1], _, .call .start rfl, List.mem_singleton_self _⟩
  · decide
  · decide
  · decide

/-! ## 6. Exact products -/

theorem signed_mul (a b : Bool) (v w : Nat) :
    signed (a != b) (v * w) = signed a v * signed b w := by
  cases a <;> cases b <;> simp [signed]

/-- **`natMul`, `BigIntMul` and `natSqr` are exact if all carries fit**, on every path: one word,
schoolbook, `basicSqr`, Karatsuba and the blocks that Karatsuba leaves over. -/
theorem products_exact {x y : CNat} (hx : x.Valid) (hy : y.Valid) :
    (ProductFits x.len y.len x.val y.val →
      Run.Returns (natMul x y) (fun q => q.val = x.val * y.val) ∧
      ∀ xneg yneg, Run.Returns (bigIntMul ⟨xneg, x⟩ ⟨yneg, y⟩)
        (fun z => z.val = signed xneg x.val * signed yneg y.val)) ∧
    (SquareFits x.len x.val → Run.Returns (natSqr x) (fun q => q.val = x.val ^ 2)) := by
  refine ⟨fun hfits => ?_, fun hfits => ?_⟩
  · obtain ⟨q, hq, -, hval⟩ := natMul_exact hx hy hfits
    refine ⟨⟨q, hq, hval⟩, fun xneg yneg => ?_⟩
    refine ⟨_, Run.bind_of_eq hq rfl, ?_⟩
    simp only [CBigInt.val, signed_len]
    rw [hval, signed_mul]
  · obtain ⟨q, hq, -, hval⟩ := natSqr_exact hx hfits
    exact ⟨q, hq, hval.trans (sq _).symm⟩

/-- `2^2560 + 1` times itself, 41 words: the lower 40 of them go through `karatsuba`. -/
theorem products_exact_41 :
    let x : CNat := ⟨1 :: (List.replicate 39 0 ++ [1]), 41, 41⟩
    Run.Returns (natMul x x) (fun q => q.val = x.val * x.val) ∧
      Run.Returns (natSqr x) (fun q => q.val = x.val ^ 2) := by
  intro x
  have hx : x.Valid := by decide
  have h := products_exact hx hx
  exact ⟨(h.1 (by decide)).1, h.2 (by decide)⟩

/-- Two numbers of 41 words.  `natMul` adds `x_0 * y_1 = 2^128 - 1` at word 40 and then
`x_1 * y_0 = 1`: the carry goes through two words of ones and counts twice in the third. -/
theorem carry_counts_twice :
    let x : CNat := ⟨List.replicate 2 (-1) ++ List.replicate 38 0 ++ [1], 41, 41⟩
    let y : CNat := ⟨1 :: (List.replicate 39 0 ++ [1]), 41, 41⟩
    Clean x ∧ Clean y ∧
      Run.Returns (natMul x y) (fun q => q.val = x.val * y.val + radix ^ 42) := by
  exact ⟨⟨by decide, by decide⟩, ⟨by decide, by decide⟩, by decide +kernel⟩

/-- **Two faults can cancel.**  Both numbers have 40 words and their lower halves are zero.  Where
`karatsuba` adds the product of the upper halves at word 20, the carry counts twice at word 61;
where it subtracts that product again, the borrow does.  The result is right all the same. -/
theorem carries_cancel :
    let x : CNat := ⟨List.replicate 20 0 ++ -2 :: List.replicate 19 (-1), 40, 40⟩
    let y : CNat :=
      ⟨List.replicate 20 0 ++ 1 :: (List.replicate 18 0 ++ [0x8000000000000000]), 40, 40⟩
    Clean x ∧ Clean y ∧ ¬ ProductFits x.len y.len x.val y.val ∧
      Run.Returns (natMul x y) (fun q => q.val = x.val * y.val) := by
  refine ⟨⟨by decide, by decide⟩, ⟨by decide, by decide⟩, ?_, ?_⟩
  · decide +kernel
  · decide +kernel

end CDemo.BigInt
