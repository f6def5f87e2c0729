/-
# The vectors of `nat.c`

A `struct nat` is a pointer with a length and a capacity.  Here the pointer is the list of words
from its address to the end of the block it points into, so that `natPart` is `drop`, and an
access is in bounds exactly when the list is long enough: anything else stops the run.  A
function that writes through a pointer returns the words behind it as they are afterwards; a
write through `natPart(p, from, to)` is put back with `splice`.

Allocations succeed.  The field `part` only tells `natFree` what not to free, and nothing is
freed here.
-/
import CDemo.BigInt.Base
import CDemo.Lib.Run

namespace CDemo.BigInt

/-! ## 1. Vectors -/

/-- `struct nat`. -/
structure CNat where
  /-- the words from the pointer to the end of its block -/
  data : List Word
  len : Nat
  cap : Nat
  deriving DecidableEq, Repr

namespace CNat

/-- The words the vector is made of. -/
def words (x : CNat) : List Word := x.data.take x.len

/-- The number the vector stands for. -/
def val (x : CNat) : Nat := value x.words

/-- The vector lies within its block. -/
def Valid (x : CNat) : Prop := x.len ≤ x.data.length

instance (x : CNat) : Decidable x.Valid := inferInstanceAs (Decidable (_ ≤ _))

theorem value_words (x : CNat) : value x.words = x.val := rfl

theorem value_take_len (x : CNat) : value (x.data.take x.len) = x.val := rfl

theorem length_words {x : CNat} (hx : x.Valid) : x.words.length = x.len :=
  (List.length_take).trans (Nat.min_eq_left hx)

theorem val_lt {x : CNat} : x.val < radix ^ x.len := value_take_lt x.data

end CNat

/-- The words behind a pointer after those from index `i` on were replaced. -/
def splice (data : List Word) (i : Nat) (tail : List Word) : List Word := data.take i ++ tail

/-- `memcpy` of `k` words. -/
def memcpy (dst src : List Word) (k : Nat) : Run (List Word) :=
  if k ≤ dst.length ∧ k ≤ src.length then .ok (src.take k ++ dst.drop k)
  else .error .outOfBounds

/-! ## 2. The functions of `nat.c` -/

def natNewLen (len : Nat) : CNat := ⟨List.replicate len 0, len, len⟩

def natNew (v : Word) : CNat := ⟨v :: List.replicate 7 0, 1, 8⟩

def natPart (p : CNat) (lo hi : Nat) : Run CNat := do
  Run.assert (lo ≤ hi)
  .ok ⟨p.data.drop lo, hi - lo, hi - lo⟩

def natMake (z : CNat) (n : Nat) : Run CNat :=
  if n < z.cap then natPart z 0 n
  else if n = 1 then .ok (natNewLen 1)
  else .ok { natNewLen (n + 4) with len := n }

def natSetWord (z : CNat) (x : Word) : Run CNat :=
  if x = 0 then natPart z 0 0
  else do
    let z ← natMake z 1
    let data ← Run.write z.data 0 x
    .ok { z with data := data }

def natDup (x : CNat) : Run CNat := do
  let z := natNewLen x.len
  let data ← memcpy z.data x.data x.len
  .ok { z with data := data }

/-- The loop of `natNorm`. -/
def natNormLoop (data : List Word) : Nat → Run Nat
  | 0 => .ok 0
  | i + 1 => do
    let w ← Run.read data i
    if w = 0 then natNormLoop data i else .ok (i + 1)

def natNorm (p : CNat) : Run CNat := do
  let i ← natNormLoop p.data p.len
  .ok { p with len := i }

/-- The loop of `natCmp`: the index at which the words are compared. -/
def natCmpLoop (x y : List Word) : Nat → Run Nat
  | 0 => .ok 0
  | i + 1 => do
    let xi ← Run.read x (i + 1)
    let yi ← Run.read y (i + 1)
    if xi = yi then natCmpLoop x y i else .ok (i + 1)

def natCmp (x y : CNat) : Run Int :=
  if x.len ≠ y.len ∨ x.len = 0 then
    .ok (if x.len < y.len then -1 else if y.len < x.len then 1 else 0)
  else do
    let i ← natCmpLoop x.data y.data (x.len - 1)
    let xi ← Run.read x.data i
    let yi ← Run.read y.data i
    .ok (if xi.toNat < yi.toNat then -1 else if yi.toNat < xi.toNat then 1 else 0)

def natClear (x : CNat) : Run (List Word) := memcpy x.data (List.replicate x.len 0) x.len

/-- `natSetValue(t, index, v)`. -/
def natSetValue (t : CNat) (index : Nat) (v : Word) : Run (List Word) := do
  Run.assert (index < t.len)
  Run.write t.data index v

def natCopy (dst src : CNat) : Run (List Word) := do
  Run.assert (src.len ≤ dst.cap)
  memcpy dst.data src.data src.len

def natSet (z x : CNat) : Run CNat := do
  let z ← natMake z x.len
  let data ← natCopy z x
  .ok { z with data := data }

/-! ## 3. What they do -/

theorem natPart_eq (p : CNat) {lo hi : Nat} (h : lo ≤ hi) :
    natPart p lo hi = .ok ⟨p.data.drop lo, hi - lo, hi - lo⟩ := by
  rw [natPart, decide_eq_true h, Run.assert_true, Run.ok_bind]

theorem memcpy_eq {d s : List Word} {k : Nat} (hd : k ≤ d.length) (hs : k ≤ s.length) :
    memcpy d s k = .ok (s.take k ++ d.drop k) := by
  rw [memcpy, if_pos ⟨hd, hs⟩]

@[simp] theorem natNewLen_data (n : Nat) : (natNewLen n).data = List.replicate n 0 := rfl

@[simp] theorem natNewLen_len (n : Nat) : (natNewLen n).len = n := rfl

theorem valid_natNewLen (n : Nat) : (natNewLen n).Valid := by
  simp [CNat.Valid]

theorem length_splice {data tail : List Word} {i : Nat} (hi : i ≤ data.length)
    (ht : tail.length = data.length - i) : (splice data i tail).length = data.length := by
  rw [splice, List.length_append, List.length_take, Nat.min_eq_left hi, ht]
  omega

/-- Below the splice nothing changes. -/
theorem take_splice {data t : List Word} {i j : Nat} (hi : i ≤ data.length) (hj : j ≤ i) :
    (splice data i t).take j = data.take j := by
  have hl : (data.take i).length = i := by rw [List.length_take, Nat.min_eq_left hi]
  rw [splice, List.take_append_of_le_length (by omega), List.take_take, Nat.min_eq_left hj]

/-- From the splice on the new words stand. -/
theorem drop_splice {data t : List Word} {i j : Nat} (hi : i ≤ data.length) :
    (splice data i t).drop (i + j) = t.drop j := by
  have hl : (data.take i).length = i := by rw [List.length_take, Nat.min_eq_left hi]
  rw [splice, ← List.drop_drop, List.drop_left' hl]

theorem drop_splice_self {data : List Word} (t : List Word) {i : Nat} (hi : i ≤ data.length) :
    (splice data i t).drop i = t := by
  have h := drop_splice (t := t) (j := 0) hi
  rwa [Nat.add_zero, List.drop_zero] at h

/-- The first of the new words. -/
theorem take_drop_splice_self {data w tail : List Word} {i n : Nat} (hi : i ≤ data.length)
    (hw : w.length = n) : ((splice data i (w ++ tail)).drop i).take n = w := by
  rw [drop_splice_self _ hi, List.take_left' hw]

/-- Between a place below and the splice nothing changes. -/
theorem take_drop_splice {data tail : List Word} {i j k : Nat} (hi : i ≤ data.length)
    (hj : j + k ≤ i) : ((splice data i tail).drop j).take k = (data.drop j).take k := by
  have h := take_splice (t := tail) hi hj
  have h' := congrArg (List.drop j) h
  rwa [List.drop_take, List.drop_take, Nat.add_sub_cancel_left] at h'

theorem natClear_eq {x : CNat} (hx : x.Valid) :
    natClear x = .ok (List.replicate x.len 0 ++ x.data.drop x.len) := by
  rw [natClear, memcpy_eq hx (by simp), List.take_of_length_le (by simp)]

/-- The loop of `natNorm` stops at the top nonzero word. -/
theorem natNormLoop_eq (data : List Word) :
    ∀ {n : Nat}, n ≤ data.length → ∃ i, natNormLoop data n = .ok i ∧ i ≤ n ∧
      Normal (data.take i) ∧ value (data.take i) = value (data.take n)
  | 0, _ => ⟨0, rfl, le_rfl, by rw [List.take_zero]; exact normal_nil, rfl⟩
  | n + 1, hn => by
    have hlt : n < data.length := hn
    have htake : data.take (n + 1) = data.take n ++ [data[n]] :=
      List.take_succ_eq_append_getElem hlt
    by_cases hz : data[n] = 0
    · obtain ⟨i, hi, hle, hnorm, hval⟩ := natNormLoop_eq data (n := n) (by omega)
      refine ⟨i, ?_, by omega, hnorm, ?_⟩
      · rw [natNormLoop, Run.read_eq_ok (List.getElem?_eq_getElem hlt), Run.ok_bind, if_pos hz, hi]
      · rw [hval, value_take_succ hlt, hz]
        simp
    · refine ⟨n + 1, ?_, le_rfl, ?_, rfl⟩
      · rw [natNormLoop, Run.read_eq_ok (List.getElem?_eq_getElem hlt), Run.ok_bind, if_neg hz]
      · intro hne
        rw [List.getLast_congr hne (List.append_ne_nil_of_right_ne_nil _ (by simp)) htake,
          List.getLast_append_of_ne_nil _ (by simp)]
        simpa using hz

/-- **`natNorm` strips the zero words at the top.** -/
theorem natNorm_eq {p : CNat} (hp : p.Valid) :
    ∃ q, natNorm p = .ok q ∧ q.data = p.data ∧ q.cap = p.cap ∧ q.len ≤ p.len ∧ q.Valid ∧
      Normal q.words ∧ q.val = p.val := by
  obtain ⟨i, hi, hle, hnorm, hval⟩ := natNormLoop_eq p.data hp
  refine ⟨{ p with len := i }, ?_, rfl, rfl, hle, hle.trans hp, hnorm, hval⟩
  rw [natNorm, hi, Run.ok_bind]

/-- The loop of `natNorm` returns only within the block. -/
theorem natNormLoop_ok {data : List Word} :
    ∀ {n i : Nat}, natNormLoop data n = .ok i → i ≤ data.length ∧ Normal (data.take i)
  | 0, i, h => by
    rw [← Except.ok.inj h, List.take_zero]
    exact ⟨Nat.zero_le _, normal_nil⟩
  | n + 1, i, h => by
    obtain ⟨w, hw, h'⟩ := Run.bind_eq_ok_iff.mp h
    split at h'
    · exact natNormLoop_ok h'
    · obtain ⟨hlt, -⟩ := List.getElem?_eq_some_iff.mp (Run.read_ok hw)
      obtain ⟨i', hi', -, hnorm, -⟩ := natNormLoop_eq data (n := n + 1) hlt
      rw [h, Except.ok.injEq] at hi'
      rw [← Except.ok.inj h'] at hi'
      rw [← Except.ok.inj h', hi']
      exact ⟨hi' ▸ hlt, hnorm⟩

/-- **What `natNorm` returns is normal**, whatever it was given. -/
theorem natNorm_ok {p q : CNat} (h : natNorm p = .ok q) : q.Valid ∧ Normal q.words := by
  obtain ⟨i, hi, hq⟩ := Run.bind_eq_ok_iff.mp h
  rw [← Except.ok.inj hq]
  exact natNormLoop_ok hi

/-- Within its block, and without a zero word at the top. -/
def Clean (x : CNat) : Prop := x.Valid ∧ Normal x.words

/-- Within its block, and without a zero word at the top or the single word 0. -/
def Shaped (x : CNat) : Prop := x.Valid ∧ (Normal x.words ∨ x.words = [0])

theorem Clean.shaped {x : CNat} (h : Clean x) : Shaped x := ⟨h.1, .inl h.2⟩

/-- The vector lies within its capacity, and the capacity within the block. -/
def Backed (x : CNat) : Prop := x.len ≤ x.cap ∧ x.cap ≤ x.data.length

theorem natNorm_clean (p : CNat) : Run.Yields (natNorm p) Clean := fun _ h => natNorm_ok h

/-! ## 4. Comparison -/

/-- -1, 0 or 1, as `natCmp` answers. -/
def cmpSign (a b : Nat) : Int := if a < b then -1 else if b < a then 1 else 0

theorem cmpSign_add_left (a b c : Nat) : cmpSign (a + c) (b + c) = cmpSign a b := by
  simp only [cmpSign, Nat.add_lt_add_iff_right]

/-- The top word decides, if it differs. -/
theorem cmpSign_top {a b r u w : Nat} (ha : a < r) (hb : b < r) (huw : u ≠ w) :
    cmpSign (a + r * u) (b + r * w) = cmpSign u w := by
  have key : ∀ {a b u w : Nat}, a < r → u < w → a + r * u < b + r * w := by
    intro a b u w ha huw
    calc a + r * u < r + r * u := Nat.add_lt_add_right ha _
      _ = r * (u + 1) := by ring
      _ ≤ r * w := Nat.mul_le_mul_left r huw
      _ ≤ b + r * w := Nat.le_add_left _ _
  rcases Nat.lt_or_gt_of_ne huw with hlt | hgt
  · rw [cmpSign, if_pos (key ha hlt), cmpSign, if_pos hlt]
  · rw [cmpSign, if_neg (Nat.not_lt.mpr (key hb hgt).le), if_pos (key hb hgt), cmpSign,
      if_neg (Nat.not_lt.mpr hgt.le), if_pos hgt]

/-- The loop of `natCmp` finds the word that decides. -/
theorem natCmpLoop_eq {x y : List Word} :
    ∀ {i : Nat}, i < x.length → i < y.length → ∃ j xj yj, natCmpLoop x y i = .ok j ∧
      x[j]? = some xj ∧ y[j]? = some yj ∧
      cmpSign xj.toNat yj.toNat = cmpSign (value (x.take (i + 1))) (value (y.take (i + 1)))
  | 0, hx, hy => by
    refine ⟨0, x[0], y[0], rfl, List.getElem?_eq_getElem hx, List.getElem?_eq_getElem hy, ?_⟩
    rw [List.take_succ_eq_append_getElem hx, List.take_succ_eq_append_getElem hy]
    simp
  | i + 1, hx, hy => by
    have hx' : i < x.length := by omega
    have hy' : i < y.length := by omega
    have hvx := value_take_succ hx
    have hvy := value_take_succ hy
    have hstep : natCmpLoop x y (i + 1) =
        if x[i + 1] = y[i + 1] then natCmpLoop x y i else .ok (i + 1) := by
      rw [natCmpLoop, Run.read_eq_ok (List.getElem?_eq_getElem hx), Run.ok_bind,
        Run.read_eq_ok (List.getElem?_eq_getElem hy), Run.ok_bind]
    by_cases heq : x[i + 1] = y[i + 1]
    · obtain ⟨j, xj, yj, hj, hxj, hyj, hcmp⟩ := natCmpLoop_eq hx' hy'
      refine ⟨j, xj, yj, by rw [hstep, if_pos heq, hj], hxj, hyj, ?_⟩
      rw [hcmp, hvx, hvy, heq, cmpSign_add_left]
    · refine ⟨i + 1, x[i + 1], y[i + 1], by rw [hstep, if_neg heq],
        List.getElem?_eq_getElem hx, List.getElem?_eq_getElem hy, ?_⟩
      have hne : x[i + 1].toNat ≠ y[i + 1].toNat := fun h => heq (BitVec.eq_of_toNat_eq h)
      rw [hvx, hvy, cmpSign_top (value_take_lt x) (value_take_lt y) hne]

/-- **`natCmp` compares the lengths, then the numbers.** -/
theorem natCmp_eq {x y : CNat} (hx : x.Valid) (hy : y.Valid) :
    natCmp x y = .ok (if x.len = y.len then cmpSign x.val y.val else cmpSign x.len y.len) := by
  rw [natCmp]
  by_cases hlen : x.len = y.len
  · rcases Nat.eq_zero_or_pos x.len with h0 | hpos
    · rw [if_pos (.inr h0), if_pos hlen]
      simp [CNat.val, CNat.words, ← hlen, h0, cmpSign]
    · rw [if_neg (by omega), if_pos hlen]
      have hxl : x.len - 1 < x.data.length := by have : x.len ≤ x.data.length := hx; omega
      have hyl : x.len - 1 < y.data.length := by have : y.len ≤ y.data.length := hy; omega
      obtain ⟨j, xj, yj, hj, hxj, hyj, hcmp⟩ := natCmpLoop_eq hxl hyl
      rw [Nat.sub_add_cancel hpos] at hcmp
      rw [hj, Run.ok_bind, Run.read_eq_ok hxj, Run.ok_bind, Run.read_eq_ok hyj, Run.ok_bind]
      rw [CNat.val, CNat.val, CNat.words, CNat.words, ← hlen, ← hcmp, cmpSign]
  · rw [if_pos (.inl hlen), if_neg hlen, cmpSign]

/-- On normal vectors the numbers alone decide. -/
theorem natCmp_normal {x y : CNat} (hx : x.Valid) (hy : y.Valid) (hnx : Normal x.words)
    (hny : Normal y.words) : natCmp x y = .ok (cmpSign x.val y.val) := by
  rw [natCmp_eq hx hy]
  split
  · rfl
  · next hne =>
    rcases Nat.lt_or_gt_of_ne hne with hlt | hgt
    · have hval : x.val < y.val :=
        hny.value_lt_of_length (by rw [CNat.length_words hx, CNat.length_words hy]; exact hlt)
      rw [cmpSign, if_pos hlt, cmpSign, if_pos hval]
    · have hval : y.val < x.val :=
        hnx.value_lt_of_length (by rw [CNat.length_words hx, CNat.length_words hy]; exact hgt)
      rw [cmpSign, if_neg (Nat.not_lt.mpr hgt.le), if_pos hgt, cmpSign,
        if_neg (Nat.not_lt.mpr hval.le), if_pos hval]

end CDemo.BigInt
