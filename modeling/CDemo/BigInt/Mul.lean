/-
# Multiplication

`natmul.c`: the schoolbook product `basicMul`, Karatsuba in one scratch buffer, the product
`natMul` that cuts its operands into blocks and adds the partial products with `addAt`, and the
squares.

Karatsuba and `addAt` pass a carry on with `addVW` and `subVW`, in place.  There the copy at the
end copies words onto themselves; that leaves the memory as it is, also where it ends.

A recursion of the source is a recursion on fuel here.  `natMul` and `natSqr` start with more
than they can use.
-/
import CDemo.BigInt.AddSub
import CDemo.BigInt.Bits

namespace CDemo.BigInt

/-! ## 1. Products with one word -/

/-- `mulAddWWW`: the low and the high word of `x * y + c`. -/
def mulAddWWW (x y c : Word) : Word × Word :=
  let (lo, hi) := u64Mul x y
  let (lo, cc) := u64Add lo c 0
  (lo, hi + cc)

/-- The loop of `addMulVVW`. -/
def addMulLoop (y : Word) : Nat → List Word → List Word → Word → Run (Word × List Word)
  | 0, z, _, c => .ok (c, z)
  | n + 1, zi :: z, xi :: x, c => do
    let (z0, z1) := mulAddWWW xi y zi
    let (lo, cc) := u64Add z0 c 0
    let (c, z) ← addMulLoop y n z x (cc + z1)
    .ok (c, lo :: z)
  | _ + 1, _, _, _ => .error .outOfBounds

/-- `addMulVVW(z, x, y)`: the last carry, and the words at `z`. -/
def addMulVVW (z x : CNat) (y : Word) : Run (Word × List Word) :=
  addMulLoop y (min z.len x.len) z.data x.data 0

/-- The loop of `mulAddVWW`. -/
def mulAddLoop (y : Word) : Nat → List Word → List Word → Word → Run (Word × List Word)
  | 0, z, _, c => .ok (c, z)
  | n + 1, _ :: z, xi :: x, c => do
    let (zi, c) := mulAddWWW xi y c
    let (c, z) ← mulAddLoop y n z x c
    .ok (c, zi :: z)
  | _ + 1, _, _, _ => .error .outOfBounds

/-- `mulAddVWW(z, x, y, r)`. -/
def mulAddVWW (z x : CNat) (y r : Word) : Run (Word × List Word) :=
  mulAddLoop y (min z.len x.len) z.data x.data r

def natMulAddWW (x : CNat) (y r : Word) : Run CNat := do
  let m := x.len
  if m = 0 ∨ y = 0 then
    .ok (natNew r)
  else
    let z := natNewLen (m + 1)
    let zz ← natPart z 0 m
    let (c, data) ← mulAddVWW zz x y r
    let data ← Run.write data m c
    natNorm { z with data := data }

/-! ## 2. The schoolbook product -/

/-- A round of `basicMul`.  `z` is the storage from word `i` on, so `natPart(z, i, i + x.len)`
are its first `x.len` words. -/
def basicMulRound (x : CNat) (yi : Word) (z : List Word) : Run (List Word) :=
  if yi ≠ 0 then do
    let (c, z) ← addMulVVW ⟨z, x.len, x.len⟩ x yi
    Run.write z x.len c
  else .ok z

/-- The loop of `basicMul`, over the words of `y`. -/
def basicMulLoop (x : CNat) : Nat → List Word → List Word → Run (List Word)
  | 0, z, _ => .ok z
  | n + 1, z, yi :: y => do
    let z ← basicMulRound x yi z
    let rest ← basicMulLoop x n (z.drop 1) y
    .ok (z.take 1 ++ rest)
  | _ + 1, _, _ => .error .outOfBounds

/-- `basicMul(z, x, y)`: the words at `z`. -/
def basicMul (z x y : CNat) : Run (List Word) := do
  let zz ← natPart z 0 (x.len + y.len)
  let data ← natClear zz
  basicMulLoop x y.len data y.data

/-! ## 3. Karatsuba -/

def karatsubaThreshold : Nat := 40

/-- The loop of `karatsubaLen`. -/
def karatsubaLenLoop (threshold : Nat) : Nat → Nat → Nat → Nat
  | 0, n, i => n <<< i
  | fuel + 1, n, i =>
    if threshold < n then karatsubaLenLoop threshold fuel (n >>> 1) (i + 1) else n <<< i

def karatsubaLen (n threshold : Nat) : Nat := karatsubaLenLoop threshold n n 0

/-- `karatsubaAdd` and `karatsubaSub` are one text with `addVV` and `addVW`, or `subVV` and
`subVW`. -/
def karatsubaCarry (vv : CNat → CNat → CNat → Run (Word × List Word))
    (vw : CNat → CNat → Word → Run (Word × List Word)) (z x : CNat) (n : Nat) :
    Run (List Word) := do
  let z1 ← natPart z 0 n
  let (c, data) ← vv z1 z x
  if c ≠ 0 then
    let z := { z with data := data }
    let z1 ← natPart z n (n + n >>> 1)
    let z2 ← natPart z n z.len
    let (_, tail) ← vw z1 z2 c
    .ok (splice data n tail)
  else .ok data

def karatsubaAdd (z x : CNat) (n : Nat) : Run (List Word) := karatsubaCarry addVV addVW z x n

def karatsubaSub (z x : CNat) (n : Nat) : Run (List Word) := karatsubaCarry subVV subVW z x n

/-- `if (subVV(d, x, y) != 0) { s = -s; subVV(d, y, x); }`: whether the sign changed, and the
words at `d`. -/
def subVVAbs (d x y : CNat) : Run (Bool × List Word) := do
  let (c, data) ← subVV d x y
  if c ≠ 0 then
    let (_, data) ← subVV { d with data := data } y x
    .ok (true, data)
  else .ok (false, data)

/-- `op(natPart(z, n/2, z.len), natPart(z, i, z.len), n)`, within the storage of `z`. -/
def karatsubaAt (op : CNat → CNat → Nat → Run (List Word)) (z : CNat) (n i : Nat) :
    Run CNat := do
  let z2 ← natPart z (n >>> 1) z.len
  let x ← natPart z i z.len
  let data ← op z2 x n
  .ok { z with data := splice z.data (n >>> 1) data }

/-- `karatsuba(z, x, y)`: the words at `z`.  `pos` is `s > 0`. -/
def karatsuba : Nat → CNat → CNat → CNat → Run (List Word)
  | 0, _, _, _ => .error .noReturn
  | fuel + 1, z, x, y => do
    let n := y.len
    if n % 2 ≠ 0 ∨ n < karatsubaThreshold ∨ n < 2 then
      basicMul z x y
    else
      let n2 := n >>> 1
      let x0 ← natPart x 0 n2
      let x1 ← natPart x n2 x.len
      let y0 ← natPart y 0 n2
      let y1 ← natPart y n2 y.len
      let data ← karatsuba fuel z x0 y0
      let z := { z with data := data }
      let zn ← natPart z n z.len
      let data ← karatsuba fuel zn x1 y1
      let z := { z with data := splice z.data n data }
      let xd ← natPart z (2 * n) (2 * n + n2)
      let (sx, data) ← subVVAbs xd x1 x0
      let z := { z with data := splice z.data (2 * n) data }
      let yd ← natPart z (2 * n + n2) (3 * n)
      let (sy, data) ← subVVAbs yd y0 y1
      let z := { z with data := splice z.data (2 * n + n2) data }
      let xd ← natPart z (2 * n) (2 * n + n2)
      let yd ← natPart z (2 * n + n2) (3 * n)
      let p ← natPart z (n * 3) z.len
      let data ← karatsuba fuel p xd yd
      let z := { z with data := splice z.data (n * 3) data }
      let r ← natPart z (n * 4) z.len
      let data ← memcpy r.data z.data (n * 2)
      let z := { z with data := splice z.data (n * 4) data }
      let z ← karatsubaAt karatsubaAdd z n (n * 4)
      let z ← karatsubaAt karatsubaAdd z n (n * 5)
      let z ← karatsubaAt (if sx = sy then karatsubaAdd else karatsubaSub) z n (n * 3)
      .ok z.data

/-! ## 4. `natMul` -/

/-- `addAt(z, x, i)`: the words at `z`. -/
def addAt (z x : CNat) (i : Nat) : Run (List Word) :=
  if 0 < x.len then do
    let z1 ← natPart z i (i + x.len)
    let z2 ← natPart z i z.len
    let (c, tail) ← addVV z1 z2 x
    let z := { z with data := splice z.data i tail }
    let j := i + x.len
    if c ≠ 0 ∧ j < z.len then
      let z3 ← natPart z j z.len
      let (_, tail) ← addVW z3 z3 c
      .ok (splice z.data j tail)
    else .ok z.data
  else .ok z.data

/-- The block `x_i`, normalised. -/
def natMulBlock (x : CNat) (k i : Nat) : Run CNat := do
  let xi ← natPart x i x.len
  if k < xi.len then
    let xi ← natPart xi 0 k
    natNorm xi
  else natNorm xi

/-- The loop of `natMul` over the blocks of `x`; `mul` is the recursive call. -/
def natMulLoop (mul : CNat → CNat → Run CNat) (k : Nat) (x y0 y1 : CNat) :
    Nat → Nat → CNat → Run CNat
  | 0, _, _ => .error .noReturn
  | fuel + 1, i, z =>
    if i < x.len then do
      let xi ← natMulBlock x k i
      let t ← mul xi y0
      let data ← addAt z t i
      let z := { z with data := data }
      let t ← mul xi y1
      let data ← addAt z t (i + k)
      let z := { z with data := data }
      natMulLoop mul k x y0 y1 fuel (i + k) z
    else .ok z

/-- The part of `natMul` that follows the product of the two lowest blocks; `mul` is the recursive
call. -/
def natMulRest (mul : CNat → CNat → Run CNat) (k : Nat) (x y x0 y0 z : CNat) : Run CNat :=
  if k < y.len ∨ x.len ≠ y.len then do
    let x0 ← natNorm x0
    let y1 ← natPart y k y.len
    let t ← mul x0 y1
    let data ← addAt z t k
    let y0 ← natNorm y0
    natMulLoop mul k x y0 y1 (x.len + 1) k { z with data := data }
  else .ok z

/-- The recursion of `natMul`. -/
def natMulRec : Nat → CNat → CNat → Run CNat
  | 0, _, _ => .error .noReturn
  | fuel + 1, x, y => do
    let m := x.len
    let n := y.len
    if m < n then natMulRec fuel y x
    else if m = 0 ∨ n = 0 then .ok (natNew 0)
    else if n = 1 then
      let y0 ← Run.read y.data 0
      natMulAddWW x y0 0
    else if n < karatsubaThreshold then
      let z := natNewLen (m + n)
      let data ← basicMul z x y
      natNorm { z with data := data }
    else
      let k := karatsubaLen n karatsubaThreshold
      let x0 ← natPart x 0 k
      let y0 ← natPart y 0 k
      let z := natNewLen (max (6 * k) (m + n))
      let data ← karatsuba (k + 1) z x0 y0
      let z ← natPart { z with data := data } 0 (m + n)
      let zk ← natPart z (2 * k) z.len
      let data ← natClear zk
      let z := { z with data := splice z.data (2 * k) data }
      let z ← natMulRest (natMulRec fuel) k x y x0 y0 z
      natNorm z

def natMul (x y : CNat) : Run CNat := natMulRec (2 * (x.len + y.len) + 2) x y

/-! ## 5. Squares -/

def basicSqrThreshold : Nat := 20

def karatsubaSqrThreshold : Nat := 260

/-- The loop of `basicSqr` from word `i` on. -/
def basicSqrLoop (x : CNat) : Nat → Nat → List Word → List Word → Run (List Word × List Word)
  | 0, _, z, t => .ok (z, t)
  | fuel + 1, i, z, t => do
    let d ← Run.read x.data i
    let (lo, hi) := u64Mul d d
    let z ← Run.write z (2 * i + 1) hi
    let z ← Run.write z (2 * i) lo
    let ti ← natPart ⟨t, 2 * x.len, 2 * x.len⟩ i (2 * i)
    let xi ← natPart x 0 i
    let (c, tail) ← addMulVVW ti xi d
    let t ← Run.write (splice t i tail) (2 * i) c
    basicSqrLoop x fuel (i + 1) z t

/-- `basicSqr(z, x)`: the words at `z`. -/
def basicSqr (z x : CNat) : Run (List Word) := do
  let n := x.len
  let t := natNewLen (2 * n)
  let x0 ← Run.read x.data 0
  let (lo, hi) := u64Mul x0 x0
  let data ← Run.write z.data 1 hi
  let data ← Run.write data 0 lo
  let (data, tdata) ← basicSqrLoop x (n - 1) 1 data t.data
  let t1 ← natPart { t with data := tdata } 1 (2 * n - 1)
  let (c, tail) ← shlVU t1 t1 1
  let tdata ← Run.write (splice tdata 1 tail) (2 * n - 1) c
  let z := { z with data := data }
  let (_, data) ← addVV z z { t with data := tdata }
  .ok data

def karatsubaSqr : Nat → CNat → CNat → Run (List Word)
  | 0, _, _ => .error .noReturn
  | fuel + 1, z, x => do
    let n := x.len
    if n % 2 ≠ 0 ∨ n < karatsubaSqrThreshold ∨ n < 2 then
      let zz ← natPart z 0 (2 * n)
      basicSqr zz x
    else
      let n2 := n >>> 1
      let x0 ← natPart x 0 n2
      let x1 ← natPart x n2 x.len
      let data ← karatsubaSqr fuel z x0
      let z := { z with data := data }
      let z1 ← natPart z n z.len
      let data ← karatsubaSqr fuel z1 x1
      let z := { z with data := splice z.data n data }
      let xd ← natPart z (2 * n) (2 * n + n2)
      let (_, data) ← subVVAbs xd x1 x0
      let z := { z with data := splice z.data (2 * n) data }
      let xd ← natPart z (2 * n) (2 * n + n2)
      let p ← natPart z (n * 3) z.len
      let data ← karatsubaSqr fuel p xd
      let z := { z with data := splice z.data (n * 3) data }
      let r ← natPart z (n * 4) z.len
      let zz ← natPart z 0 (n * 2)
      let data ← natCopy r zz
      let z := { z with data := splice z.data (n * 4) data }
      let z ← karatsubaAt karatsubaAdd z n (n * 4)
      let z ← karatsubaAt karatsubaAdd z n (n * 5)
      let z ← karatsubaAt karatsubaSub z n (n * 3)
      .ok z.data

/-- The part of `natSqr` that follows the square of the lowest block; `sqr` is the recursive
call. -/
def natSqrRest (sqr : CNat → Run CNat) (k : Nat) (x x0 z : CNat) : Run CNat :=
  if k < x.len then do
    let x0 ← natNorm x0
    let x1 ← natPart x k x.len
    let t ← natMul x0 x1
    let data ← addAt z t k
    let z := { z with data := data }
    let data ← addAt z t k
    let z := { z with data := data }
    let t ← sqr x1
    let data ← addAt z t (2 * k)
    .ok { z with data := data }
  else .ok z

/-- The recursion of `natSqr`. -/
def natSqrRec : Nat → CNat → Run CNat
  | 0, _ => .error .noReturn
  | fuel + 1, x => do
    let n := x.len
    if n = 0 then .ok (natNewLen 0)
    else if n = 1 then
      let d ← Run.read x.data 0
      let (lo, hi) := u64Mul d d
      natNorm { natNewLen 2 with data := [lo, hi] }
    else if n < basicSqrThreshold then
      let z := natNewLen (2 * n)
      let data ← basicMul z x x
      natNorm { z with data := data }
    else if n < karatsubaSqrThreshold then
      let z := natNewLen (2 * n)
      let data ← basicSqr z x
      natNorm { z with data := data }
    else
      let k := karatsubaLen n karatsubaSqrThreshold
      let x0 ← natPart x 0 k
      let z := natNewLen (max (6 * k) (2 * n))
      let data ← karatsubaSqr (k + 1) z x0
      let z ← natPart { z with data := data } 0 (2 * n)
      let zk ← natPart z (2 * k) z.len
      let data ← natClear zk
      let z := { z with data := splice z.data (2 * k) data }
      let z ← natSqrRest (natSqrRec fuel) k x x0 z
      natNorm z

def natSqr (x : CNat) : Run CNat := natSqrRec (x.len + 1) x

/-! ## 6. The shape of a product -/

theorem shaped_natNew (v : Word) : Shaped (natNew v) := by
  refine ⟨by simp [natNew, CNat.Valid], ?_⟩
  by_cases hv : v = 0
  · exact .inr (by simp [natNew, CNat.words, hv])
  · exact .inl fun hne => by simpa [natNew, CNat.words] using hv

theorem natMulAddWW_yields {x : CNat} {y r : Word} :
    Run.Yields (natMulAddWW x y r) (fun q => Shaped q ∧ (x.len ≠ 0 → y ≠ 0 → Clean q)) := by
  rw [natMulAddWW]
  split
  · next h =>
    refine .ok ⟨shaped_natNew r, fun hx hy => ?_⟩
    rcases h with h | h
    · exact absurd h hx
    · exact absurd h hy
  · refine .bind fun _ _ => .bind fun _ _ => .bind fun _ _ => ?_
    intro q h
    exact ⟨(natNorm_clean _ q h).shaped, fun _ _ => natNorm_clean _ q h⟩

theorem len_ne_zero_of_val {x : CNat} (h : x.val ≠ 0) : x.len ≠ 0 := by
  intro h0
  exact h (by simp [CNat.val, CNat.words, h0])

/-- A product is `natNew(0)` or normalised, and normalised unless a factor is zero. -/
theorem natMulRec_yields :
    ∀ (fuel : Nat) (x y : CNat), Run.Yields (natMulRec fuel x y)
      (fun q => Shaped q ∧ (x.val ≠ 0 → y.val ≠ 0 → Clean q))
  | 0, _, _ => .error
  | fuel + 1, x, y => by
    have hnorm : ∀ p, Run.Yields (natNorm p)
        (fun q => Shaped q ∧ (x.val ≠ 0 → y.val ≠ 0 → Clean q)) := fun p q h =>
      ⟨(natNorm_clean p q h).shaped, fun _ _ => natNorm_clean p q h⟩
    rw [natMulRec]
    simp only
    split
    · intro q h
      obtain ⟨h1, h2⟩ := natMulRec_yields fuel y x q h
      exact ⟨h1, fun hx hy => h2 hy hx⟩
    split
    · next h =>
      refine .ok ⟨shaped_natNew 0, fun hx hy => ?_⟩
      rcases h with h | h
      · exact absurd h (len_ne_zero_of_val hx)
      · exact absurd h (len_ne_zero_of_val hy)
    split
    · next h1 =>
      refine .bind fun y0 hy0 q h => ?_
      obtain ⟨hs, hc⟩ := natMulAddWW_yields q h
      refine ⟨hs, fun hx hy => hc (len_ne_zero_of_val hx) fun h0 => hy ?_⟩
      obtain ⟨hlt, hget⟩ := List.getElem?_eq_some_iff.mp (Run.read_ok hy0)
      rw [CNat.val, CNat.words, h1, List.take_succ_eq_append_getElem hlt, hget, h0]
      rfl
    split
    · exact .bind fun _ _ => hnorm _
    · refine .bind fun _ _ => .bind fun _ _ => .bind fun _ _ => .bind fun _ _ => .bind fun _ _ =>
        .bind fun _ _ => .bind fun _ _ => hnorm _

/-- A product with an empty factor. -/
theorem natMul_empty {x y : CNat} (h : x.len = 0 ∨ y.len = 0) : natMul x y = .ok (natNew 0) := by
  rw [natMul, natMulRec]
  simp only
  split
  · next hlt =>
    rw [natMulRec]
    simp only [if_neg (Nat.not_lt.mpr hlt.le), if_pos h.symm]
  · rfl

end CDemo.BigInt
