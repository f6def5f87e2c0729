/-
# Division

`natdiv.c`, with the two-word division of `base.c`.  A divisor of one word is divided by word for
word (`natDivW`), one of fewer than 100 words by Knuth's algorithm D (`natDivBasic`), a longer
one by the recursive division (`natDivRecursiveStep`).

`_M` is `2^64 - 1`, as the comment in `nat.h` has it.  The loops that correct a guess run at most
twice; they get three rounds here.  What the source leaves uninitialised is an argument.
-/
import CDemo.BigInt.Mul

namespace CDemo.BigInt

/-! ## 1. Two words by one -/

/-- The loop of `U64Div` that corrects a digit: `(q, rhat)`. -/
def divDigitLoop (yn1 yn0 un : Word) : Nat → Word → Word → Run Word
  | 0, _, _ => .error .noReturn
  | fuel + 1, q, rhat =>
    let two32 : Word := 1#64 <<< 32
    if two32 ≤ q ∨ two32 * rhat + un < q * yn0 then
      if two32 ≤ rhat + yn1 then .ok (q - 1)
      else divDigitLoop yn1 yn0 un fuel (q - 1) (rhat + yn1)
    else .ok q

/-- One digit of `U64Div`: the quotient of `un` by `yn1`, corrected. -/
def divDigit (un yn1 yn0 next : Word) : Run Word :=
  let q := un / yn1
  divDigitLoop yn1 yn0 next 3 q (un - q * yn1)

/-- `U64Div(hi, lo, y)`: the quotient and the remainder. -/
def u64Div (hi lo y : Word) : Run (Word × Word) := do
  Run.assert (y ≠ 0)
  Run.assert (hi < y)
  if hi = 0 then
    .ok (lo / y, lo % y)
  else
    let s ← nlz y
    let y := y <<< s
    let two32 : Word := 1#64 <<< 32
    let mask32 := two32 - 1
    let yn1 := y >>> 32
    let yn0 := y &&& mask32
    let un32 := if s ≠ 0 then hi <<< s ||| lo >>> (64 - s) else hi <<< s
    let un10 := if s < 64 then lo <<< s else 0
    let un1 := un10 >>> 32
    let un0 := un10 &&& mask32
    let q1 ← divDigit un32 yn1 yn0 un1
    let un21 := un32 * two32 + un1 - q1 * y
    let q0 ← divDigit un21 yn1 yn0 un0
    .ok (q1 * two32 + q0, (un21 * two32 + un0 - q0 * y) >>> s)

def reciprocalWord (d1 : Word) : Run Word := do
  let s ← nlz d1
  let u := d1 <<< s
  let (q, _) ← u64Div (~~~u) (BitVec.allOnes 64) u
  .ok q

/-- `divWW(x1, x0, y, m)`: the quotient and the remainder. -/
def divWW (x1 x0 y m : Word) : Run (Word × Word) := do
  let s ← nlz y
  let x1' := if s ≠ 0 then x1 <<< s ||| x0 >>> (64 - s) else x1
  let x0' := if s ≠ 0 then x0 <<< s else x0
  let d := if s ≠ 0 then y <<< s else y
  let (t0, t1) := u64Mul m x1'
  let (_, c) := u64Add t0 x0' 0
  let (qq, _) := u64Add t1 x1' c
  let (dq0, dq1) := u64Mul d qq
  let (r0, b) := u64Sub x0' dq0 0
  let (r1, _) := u64Sub x1' dq1 b
  let (qq, r0) := if r1 ≠ 0 then (qq + 1, r0 - d) else (qq, r0)
  let (qq, r0) := if d ≤ r0 then (qq + 1, r0 - d) else (qq, r0)
  .ok (qq, r0 >>> s)

/-! ## 2. Vectors by one word -/

/-- The loop of `natDivWVW`, from the top word down: the remainder and the words at `z`. -/
def natDivWVWLoop (x : List Word) (y rec : Word) : Nat → Word → List Word → Run (Word × List Word)
  | 0, r, z => .ok (r, z)
  | i + 1, r, z => do
    let xi ← Run.read x i
    let (q, r) ← divWW r xi y rec
    let z ← Run.write z i q
    natDivWVWLoop x y rec i r z

/-- `natDivWVW(z, xn, x, y)`. -/
def natDivWVW (z : CNat) (xn : Word) (x : CNat) (y : Word) : Run (Word × List Word) :=
  if x.len = 1 then do
    let x0 ← Run.read x.data 0
    let (q, r) ← u64Div xn x0 y
    let data ← Run.write z.data 0 q
    .ok (r, data)
  else do
    let rec ← reciprocalWord y
    natDivWVWLoop x.data y rec z.len xn z.data

/-- `natDivW(x, y, &r)`: the quotient, and what `r` holds afterwards.  For `y = 1` and for an
empty `x` nothing is stored in `r`. -/
def natDivW (x : CNat) (y r : Word) : Run (CNat × Word) := do
  let m := x.len
  Run.assert (y ≠ 0)
  if y = 1 then
    let z ← natDup x
    .ok (z, r)
  else if m = 0 then
    .ok (natNew 0, r)
  else
    let z := natNewLen m
    let (r, data) ← natDivWVW z 0 x y
    let z ← natNorm { z with data := data }
    .ok (z, r)

/-! ## 3. Knuth's algorithm D -/

def greaterThan (x1 x2 y1 y2 : Word) : Bool := y1 < x1 || (x1 == y1 && y2 < x2)

/-- The loop of `natDivBasic` that corrects `qhat`. -/
def qhatLoop (vn1 vn2 ujn2 : Word) : Nat → Word → Word → Run Word
  | 0, _, _ => .error .noReturn
  | fuel + 1, qhat, rhat =>
    let (x2, x1) := u64Mul qhat vn2
    if greaterThan x1 x2 rhat ujn2 then
      if rhat + vn1 < rhat then .ok (qhat - 1)
      else qhatLoop vn1 vn2 ujn2 fuel (qhat - 1) (rhat + vn1)
    else .ok qhat

/-- The guess of `natDivBasic` for the digit at `j`. -/
def qhatGuess (u v : CNat) (rec vn1 : Word) (j : Nat) : Run Word := do
  let n := v.len
  let ujn ← if j + n < u.len then Run.read u.data (j + n) else .ok 0
  if ujn ≠ vn1 then
    let ujn1 ← Run.read u.data (j + n - 1)
    let (qhat, rhat) ← divWW ujn ujn1 vn1 rec
    let vn2 ← Run.read v.data (n - 2)
    let ujn2 ← Run.read u.data (j + n - 2)
    qhatLoop vn1 vn2 ujn2 3 qhat rhat
  else .ok (BitVec.allOnes 64)

/-- One round of `natDivBasic` at `j`: the digit, and the words at `u` and `qhatv`. -/
def natDivBasicStep (u v qhatv : CNat) (rec vn1 : Word) (j : Nat) :
    Run (Word × List Word × List Word) := do
  let n := v.len
  let qhat ← qhatGuess u v rec vn1 j
  let qv ← natPart qhatv 0 n
  let (c, data) ← mulAddVWW qv v qhat 0
  let data ← Run.write data n c
  let qhatv := { qhatv with data := data }
  let qhl := if u.len < j + qhatv.len ∧ c = 0 then qhatv.len - 1 else qhatv.len
  let u1 ← natPart u j (j + qhl)
  let u2 ← natPart u j u.len
  let (c, tail) ← subVV u1 u2 qhatv
  let u := { u with data := splice u.data j tail }
  if c ≠ 0 then
    let u3 ← natPart u j (j + n)
    let u2 ← natPart u j u.len
    let (cc, tail) ← addVV u3 u2 v
    let data := splice u.data j tail
    let data ←
      if n < qhl then do
        let w ← Run.read data (j + n)
        Run.write data (j + n) (w + cc)
      else .ok data
    .ok (qhat - 1, data, qhatv.data)
  else .ok (qhat, u.data, qhatv.data)

/-- The loop of `natDivBasic`: the words at `q` and at `u`. -/
def natDivBasicLoop (m qlen : Nat) (v : CNat) (rec vn1 : Word) (ulen : Nat) :
    Nat → List Word → List Word → List Word → Run (List Word × List Word)
  | 0, q, u, _ => .ok (q, u)
  | j + 1, q, u, qhatv => do
    let (qhat, u, qhatv) ←
      natDivBasicStep ⟨u, ulen, ulen⟩ v ⟨qhatv, v.len + 1, v.len + 1⟩ rec vn1 j
    let q ← if j = m ∧ m = qlen ∧ qhat = 0 then .ok q else Run.write q j qhat
    natDivBasicLoop m qlen v rec vn1 ulen j q u qhatv

/-- `natDivBasic(q, u, v)`: the words at `q` and at `u`.  With `u` shorter than `v` the loop does
not run. -/
def natDivBasic (q u v : CNat) : Run (List Word × List Word) := do
  let n := v.len
  let m := u.len - n
  let qhatv := natNewLen (n + 1)
  let vn1 ← Run.read v.data (n - 1)
  let rec ← reciprocalWord vn1
  if n ≤ u.len then natDivBasicLoop m q.len v rec vn1 u.len (m + 1) q.data u.data qhatv.data
  else .ok (q.data, u.data)

/-! ## 4. Recursive division -/

def divRecursiveThreshold : Nat := 100

/-- `temps[depth]`, made ready: a block of its own the first time, and what `natMake` makes of it
later.  Its words are cleared before they are used, so only the block is remembered. -/
def makeTemp (temps : List (Option CNat)) (depth n : Nat) :
    Run (CNat × List (Option CNat)) := do
  let t ← Run.read temps depth
  let t ←
    match t with
    | none => .ok (natNewLen n)
    | some t => natMake t (n / 2 + 1)
  .ok (t, temps.set depth (some t))

/-- The correction of a guess that is too large: `qhat`, `qhatv` and `uu` afterwards. -/
def correctGuess (v : CNat) (s : Nat) (qhat qhatv uu : CNat) : Run (CNat × CNat × CNat) := do
  let (_, data) ← subVW qhat qhat 1
  let qhat := { qhat with data := data }
  let q0 ← natPart qhatv 0 s
  let v0 ← natPart v 0 s
  let (c, data) ← subVV q0 q0 v0
  let qhatv := { qhatv with data := data }
  let qhatv ←
    if s < qhatv.len then do
      let q1 ← natPart qhatv s qhatv.len
      let (_, tail) ← subVW q1 q1 c
      .ok { qhatv with data := splice qhatv.data s tail }
    else .ok qhatv
  let u1 ← natPart uu s uu.len
  let v1 ← natPart v s v.len
  let tail ← addAt u1 v1 0
  .ok (qhat, qhatv, { uu with data := splice uu.data s tail })

/-- The two rounds of corrections. -/
def correctLoop (v : CNat) (s : Nat) : Nat → CNat → CNat → CNat → Run (CNat × CNat × CNat)
  | 0, qhat, qhatv, uu => .ok (qhat, qhatv, uu)
  | rounds + 1, qhat, qhatv, uu => do
    let un ← natNorm uu
    let e ← natCmp qhatv un
    if e ≤ 0 then .ok (qhat, qhatv, uu)
    else
      let (qhat, qhatv, uu) ← correctGuess v s qhat qhatv uu
      correctLoop v s rounds qhat qhatv uu

/-- What follows the recursive call, for the words `uu` of the dividend: the guess is multiplied
out and corrected, and the product is subtracted.  Returns `qhat`, `uu` and the last borrow. -/
def finishGuess (v : CNat) (s : Nat) (qhat uu : CNat) : Run (CNat × CNat × Word) := do
  let qhat ← natNorm qhat
  let v0 ← natPart v 0 s
  let qhatv ← natMul qhat v0
  let (qhat, qhatv, uu) ← correctLoop v s 2 qhat qhatv uu
  let un ← natNorm uu
  let e ← natCmp qhatv un
  Run.assert (e ≤ 0)
  let u1 ← natPart uu 0 qhatv.len
  let (c, data) ← subVV u1 u1 qhatv
  let uu := { uu with data := data }
  if c ≠ 0 then
    let u2 ← natPart uu qhatv.len uu.len
    let (c, tail) ← subVW u2 u2 c
    .ok (qhat, { uu with data := splice uu.data qhatv.len tail }, c)
  else .ok (qhat, uu, c)

/-- What a step leaves: the words at `z` and at `u`, and the temporary blocks. -/
abbrev DivState := List Word × List Word × List (Option CNat)

/-- The loop of `natDivRecursiveStep` over the upper blocks; `step` is the recursive call. -/
def divBlocksLoop (step : CNat → CNat → CNat → Nat → List (Option CNat) → Run DivState)
    (v : CNat) (b depth tempsNum : Nat) :
    Nat → Nat → CNat → CNat → List (Option CNat) → Run (Nat × CNat × CNat × List (Option CNat))
  | 0, _, _, _, _ => .error .noReturn
  | fuel + 1, j, z, u, temps =>
    if b < j then do
      let s := b - 1
      let uu ← natPart u (j - b) u.len
      let qhat ← Run.read temps depth
      let qhat ← Run.object qhat
      let data ← natClear qhat
      let qhat := { qhat with data := data }
      Run.assert (depth + 1 < tempsNum)
      let w ← natPart uu s (b + v.len)
      let v1 ← natPart v s v.len
      let (qdata, wdata, temps) ← step qhat w v1 (depth + 1) temps
      let uu := { uu with data := splice uu.data s wdata }
      let (qhat, uu, _) ← finishGuess v s { qhat with data := qdata } uu
      let u := { u with data := splice u.data (j - b) uu.data }
      let zdata ← addAt z qhat (j - b)
      divBlocksLoop step v b depth tempsNum fuel (j - b) { z with data := zdata } u temps
    else .ok (j, z, u, temps)

/-- The last block of `natDivRecursiveStep`. -/
def divLastBlock (step : CNat → CNat → CNat → Nat → List (Option CNat) → Run DivState)
    (v : CNat) (b depth tempsNum : Nat) (z u : CNat) (temps : List (Option CNat)) :
    Run DivState := do
  let s := b - 1
  let qhat ← Run.read temps depth
  let qhat ← Run.object qhat
  let data ← natClear qhat
  let qhat := { qhat with data := data }
  Run.assert (depth + 1 < tempsNum)
  let w ← natPart u s u.len
  let w ← natNorm w
  let v1 ← natPart v s v.len
  let (qdata, wdata, temps) ← step qhat w v1 (depth + 1) temps
  let u := { u with data := splice u.data s wdata }
  let (qhat, u, c) ← finishGuess v s { qhat with data := qdata } u
  Run.assert (c = 0)
  let qhat ← natNorm qhat
  let zdata ← addAt z qhat 0
  .ok (zdata, u.data, temps)

/-- `natDivRecursiveStep(z, u, v, depth, tmp, temps, tempsNum)`. -/
def natDivRecursiveStep (tempsNum : Nat) :
    Nat → CNat → CNat → CNat → Nat → List (Option CNat) → Run DivState
  | 0, _, _, _, _, _ => .error .noReturn
  | fuel + 1, z, u, v, depth, temps => do
    let u ← natNorm u
    let v ← natNorm v
    if u.len = 0 then
      let data ← natClear z
      .ok (data, u.data, temps)
    else if v.len < divRecursiveThreshold then
      let (qdata, udata) ← natDivBasic z u v
      .ok (qdata, udata, temps)
    else if u.len < v.len then .ok (z.data, u.data, temps)
    else
      let m := u.len - v.len
      let b := v.len / 2
      let (_, temps) ← makeTemp temps depth v.len
      let (_, z, u, temps) ←
        divBlocksLoop (natDivRecursiveStep tempsNum fuel) v b depth tempsNum (m + 1) m z u temps
      divLastBlock (natDivRecursiveStep tempsNum fuel) v b depth tempsNum z u temps

/-- `natDivRecursive(z, u, v)`: the words at `z` and at `u`. -/
def natDivRecursive (z u v : CNat) : Run (List Word × List Word) := do
  let l ← len64 (BitVec.ofNat 64 v.len)
  let recDepth := 2 * l
  let data ← natClear z
  let (q, u, _) ← natDivRecursiveStep recDepth (v.len + 1) { z with data := data } u v 0
    (List.replicate recDepth none)
  .ok (q, u)

/-! ## 5. `natDiv` -/

/-- `natDivLarge(z, u, uIn, vIn)`: the quotient and the remainder. -/
def natDivLarge (z u uIn vIn : CNat) : Run (CNat × CNat) := do
  let n := vIn.len
  let m := uIn.len - n
  let vn1 ← Run.read vIn.data (n - 1)
  let shift ← nlz vn1
  let v := natNewLen n
  let (_, data) ← shlVU v vIn shift
  let v := { v with data := data }
  let u ← natMake u (uIn.len + 1)
  let u1 ← natPart u 0 uIn.len
  let (c, data) ← shlVU u1 uIn shift
  let data ← Run.write data uIn.len c
  let u := { u with data := data }
  let q ← natMake z (m + 1)
  let (qdata, udata) ←
    if n < divRecursiveThreshold then natDivBasic q u v else natDivRecursive q u v
  let q ← natNorm { q with data := qdata }
  let u := { u with data := udata }
  let data ← shrVU u u shift
  let r ← natNorm { u with data := data }
  .ok (q, r)

/-- `natDiv(z, z2, u, v)`: the quotient and the remainder.  `r2` is what the local variable of
that name holds before anything is stored in it. -/
def natDiv (z z2 u v : CNat) (r2 : Word) : Run (CNat × CNat) := do
  Run.assert (0 < v.len)
  let e ← natCmp u v
  if e < 0 then
    let q ← natPart z 0 0
    let r ← natSet z2 u
    .ok (q, r)
  else if v.len = 1 then
    let v0 ← Run.read v.data 0
    let (q, r2) ← natDivW u v0 r2
    let r ← natSetWord z2 r2
    .ok (q, r)
  else natDivLarge z z2 u v

end CDemo.BigInt
