/-
# Numbers as text

The conversions of `natconv.c`.  `natI2a` writes the digits from the right into a buffer whose
length it has estimated, then moves what it wrote to the front.  For a power of two it shifts and
masks.  For the other bases `convertWords` divides: a number of many words by the largest power in
a table that is not too large for it (`divisors`), so that both halves are converted by themselves,
and a number of few words by the largest power that fits a word (`maxPow`).

A pointer into the text is the list of characters from there to the end of the buffer.  Nothing
may be written in front of it, and a place in front of it, such as a negative `h` in
`convertWords`, stops the run.
-/
import CDemo.BigInt.Exp
import CDemo.Lib.Numeral

namespace CDemo.BigInt

/-! ## 1. Bit lengths and powers -/

/-- The bits below the top bit of `top` are all set. -/
def smear (top : Word) : Word :=
  let top := top ||| top >>> 1
  let top := top ||| top >>> 2
  let top := top ||| top >>> 4
  let top := top ||| top >>> 8
  let top := top ||| top >>> 16
  top ||| top >>> 16 >>> 16

def natBitLen (x : CNat) : Run Nat :=
  if 0 < x.len then do
    let top ← Run.read x.data (x.len - 1)
    let l ← len64 (smear top)
    .ok ((x.len - 1) * 64 + l)
  else .ok 0

/-- The loop of `maxPow`: `p` and `*n`. -/
def maxPowLoop (b max : Word) : Nat → Word → Nat → Run (Word × Nat)
  | 0, _, _ => .error .noReturn
  | fuel + 1, p, n => if p < max then maxPowLoop b max fuel (p * b) (n + 1) else .ok (p, n)

/-- `maxPow(b, &n)`: the power and its exponent. -/
def maxPow (b : Word) : Run (Word × Nat) := maxPowLoop b (BitVec.allOnes 64 / b) 64 b 1

/-! ## 2. The table of divisors -/

/-- `struct divisor`. -/
structure CDivisor where
  bbb : CNat
  nbits : Nat
  ndigits : Nat
  deriving DecidableEq, Repr

def leafSize : Nat := 8

/-- The loop of `divisors` that sets `k`.  `m` is the length of a vector, and `words` stays
below twice of it. -/
def tableLen (m : Nat) : Nat → Nat → Nat → Run Nat
  | 0, _, _ => .error .noReturn
  | fuel + 1, words, k => if words < m / 2 then tableLen m fuel (2 * words) (k + 1) else .ok k

/-- The loop of `divisors` that adds digits as long as the power keeps its length: `bbb` and
`ndigits`. -/
def growPower (b : Word) : Nat → CNat → CNat → Nat → Run (CNat × Nat)
  | 0, _, _, _ => .error .noReturn
  | fuel + 1, larger, bbb, ndigits => do
    let (c, data) ← mulAddVWW larger larger b 0
    let larger := { larger with data := data }
    if c = 0 then do
      let data ← natCopy bbb larger
      growPower b fuel larger { bbb with data := data } (ndigits + 1)
    else .ok (bbb, ndigits)

/-- What `divisors` starts an entry of the table with: the power and its digits.  The exponent
`leafSize` is shifted by less than 64. -/
def firstPower (a : Arith) (ndigits : Nat) (bb : Word) : List CDivisor → Run (CNat × Nat)
  | [] => do
    let bbb ← natExpWW a 0 (natNewLen 0) bb (BitVec.ofNat 64 leafSize)
    .ok (bbb, ndigits * leafSize)
  | d :: table => do
    let last := (d :: table).getLast (List.cons_ne_nil d table)
    let bbb ← a.sqr last.bbb
    .ok (bbb, 2 * last.ndigits)

/-- An entry of the table, after the entries in `table`. -/
def nextDivisor (a : Arith) (b : Word) (ndigits : Nat) (bb : Word) (table : List CDivisor) :
    Run CDivisor := do
  let (bbb, n) ← firstPower a ndigits bb table
  let larger ← natDup bbb
  let (bbb, n) ← growPower b (64 * bbb.len + 1) larger bbb n
  let nbits ← natBitLen bbb
  .ok ⟨bbb, nbits, n⟩

/-- `n` more entries. -/
def fillTable (a : Arith) (b : Word) (ndigits : Nat) (bb : Word) :
    Nat → List CDivisor → Run (List CDivisor)
  | 0, table => .ok table
  | n + 1, table => do
    let d ← nextDivisor a b ndigits bb table
    fillTable a b ndigits bb n (table ++ [d])

/-- `divisors(m, b, ndigits, bb, &divisorNum)`: `none` is `NULL`, and `divisorNum` is the length
of the table. -/
def divisors (a : Arith) (m : Nat) (b : Word) (ndigits : Nat) (bb : Word) :
    Run (Option (List CDivisor)) :=
  if leafSize = 0 ∨ m ≤ leafSize then .ok none
  else do
    let k ← tableLen m (m + 1) leafSize 1
    let table ← fillTable a b ndigits bb k []
    .ok (some table)

/-! ## 3. `convertWords` -/

/-- `digits`. -/
def digitChars : List Char :=
  "0123456789abcdefghijklmnopqrstuvwxyzABCDEFGHIJKLMNOPQRSTUVWXYZ".toList

/-- The last digit of `r` in base 10. -/
def decimalDigit (r : Word) : Run Char := .ok (Char.ofNat ('0'.toNat + (r - r / 10 * 10).toNat))

/-- The last digit of `r` in base `b`. -/
def baseDigit (b r : Word) : Run Char := Run.read digitChars (r % b).toNat

/-- The loop over the digits of `r`: `i` and the text. -/
def putDigits (digit : Word → Run Char) (b : Word) :
    Nat → Nat → Word → List Char → Run (Nat × List Char)
  | n + 1, i + 1, r, s => do
    let c ← digit r
    let s ← Run.write s i c
    putDigits digit b n i (r / b) s
  | _, i, _, s => .ok (i, s)

/-- The loop of `convertWords` that divides by `bb`: `i` and the text. -/
def leafLoop (digit : Word → Run Char) (b : Word) (ndigits : Nat) (bb : Word) :
    Nat → CNat → Nat → List Char → Run (Nat × List Char)
  | 0, _, _, _ => .error .noReturn
  | fuel + 1, q, i, s =>
    if 0 < q.len then do
      let (q, r) ← natDivW q bb 0
      let (i, s) ← putDigits digit b ndigits i r s
      leafLoop digit b ndigits bb fuel q i s
    else .ok (i, s)

/-- The loop of `convertWords` that fills up with zeros. -/
def putZeros : Nat → List Char → Run (List Char)
  | 0, s => .ok s
  | i + 1, s => do
    let s ← Run.write s i '0'
    putZeros i s

/-- `convertWords` below its first loop. -/
def convertLeaf (b : Word) (ndigits : Nat) (bb : Word) (q : CNat) (s : List Char) (slen : Nat) :
    Run (List Char) := do
  let digit := if b = 10 then decimalDigit else baseDigit b
  let (i, s) ← leafLoop digit b ndigits bb (64 * q.len + 1) q slen s
  putZeros i s

/-- `table[index]`. -/
def divisorAt (table : List CDivisor) (index : Int) : Run CDivisor :=
  if 0 ≤ index then Run.read table index.toNat else .error .outOfBounds

/-- The loop of `convertWords` that looks for a smaller divisor. -/
def lowerIndex (table : List CDivisor) (minLen : Nat) : Nat → Run Nat
  | 0 => .ok 0
  | index + 1 => do
    let d ← Run.read table index
    if minLen < d.nbits then lowerIndex table minLen index else .ok (index + 1)

/-- The divisor that `convertWords` takes for `q`. -/
def pickIndex (table : List CDivisor) (q : CNat) (index : Int) : Run Int := do
  let maxLen ← natBitLen q
  let low ← lowerIndex table (maxLen / 2) index.toNat
  -- an index below 0 stays as it is
  let index := if 0 < index then (low : Int) else index
  let d ← divisorAt table index
  if maxLen ≤ d.nbits then do
    let e ← natCmp d.bbb q
    if 0 ≤ e then do
      Run.assert (0 ≤ index - 1)
      .ok (index - 1)
    else .ok index
  else .ok index

/-- The first loop of `convertWords`: `q`, the text and `slen`. -/
def splitLoop (a : Arith) (table : List CDivisor)
    (convert : CNat → List Char → Nat → Nat → Run (List Char)) :
    Nat → CNat → CNat → List Char → Nat → Int → Run (CNat × List Char × Nat)
  | 0, _, _, _, _, _ => .error .noReturn
  | fuel + 1, q, r, s, slen, index =>
    if leafSize < q.len then do
      let index ← pickIndex table q index
      let d ← divisorAt table index
      let (q, r) ← a.div q r q d.bbb
      if slen < d.ndigits then .error .outOfBounds
      else do
        let h := slen - d.ndigits
        let tail ← convert r (s.drop h) d.ndigits index.toNat
        splitLoop a table convert fuel q r (s.take h ++ tail) h index
    else .ok (q, s, slen)

/-- `convertWords` to a depth. -/
def convertWordsRec (a : Arith) (b : Word) (ndigits : Nat) (bb : Word)
    (table : Option (List CDivisor)) : Nat → CNat → List Char → Nat → Nat → Run (List Char)
  | 0, _, _, _, _ => .error .noReturn
  | fuel + 1, x, s, slen, tableNum => do
    let q ← natDup x
    match table with
    | none => convertLeaf b ndigits bb q s slen
    | some t => do
      let (q, s, slen) ← splitLoop a t (convertWordsRec a b ndigits bb table fuel)
        (64 * q.len + 1) q
        (natNewLen 0) s slen ((tableNum : Int) - 1)
      convertLeaf b ndigits bb q s slen

/-- `convertWords(x, s, slen, b, ndigits, bb, table, tableNum)`: the characters at `s`. -/
def convertWords (a : Arith) (x : CNat) (s : List Char) (slen : Nat) (b : Word) (ndigits : Nat)
    (bb : Word) (table : Option (List CDivisor)) (tableNum : Nat) : Run (List Char) :=
  convertWordsRec a b ndigits bb table (tableNum + 1) x s slen tableNum

/-! ## 4. `natI2a` -/

/-- The end of a string. -/
def nul : Char := Char.ofNat 0

/-- What the path for powers of two works with: the next place, the bits not yet written, how many
they are, and the text. -/
structure BitWriter where
  i : Nat
  w : Word
  nbits : Nat
  s : List Char
  deriving DecidableEq, Repr

/-- `--i; s[i] = digits[w & mask];` -/
def putMasked (mask w : Word) (s : List Char) : Nat → Run (Nat × List Char)
  | 0 => .error .outOfBounds
  | i + 1 => do
    let c ← Run.read digitChars (w &&& mask).toNat
    let s ← Run.write s i c
    .ok (i, s)

/-- The loop that writes the digits that lie in `w`. -/
def wholeDigits (shift : Nat) (mask : Word) : Nat → BitWriter → Run BitWriter
  | 0, _ => .error .noReturn
  | fuel + 1, p =>
    if shift ≤ p.nbits then do
      let (i, s) ← putMasked mask p.w p.s p.i
      wholeDigits shift mask fuel ⟨i, p.w >>> shift, p.nbits - shift, s⟩
    else .ok p

/-- A digit that may lie in two words, or the next word. -/
def nextWord (shift : Nat) (mask xk : Word) (p : BitWriter) : Run BitWriter :=
  if p.nbits = 0 then .ok { p with w := xk, nbits := 64 }
  else do
    let (i, s) ← putMasked mask (p.w ||| xk <<< p.nbits) p.s p.i
    .ok ⟨i, xk >>> (shift - p.nbits), 64 - (shift - p.nbits), s⟩

/-- The loop over the words of `x` from the second on. -/
def wordsLoop (shift : Nat) (mask : Word) : List Word → Nat → BitWriter → Run BitWriter
  | _, 0, p => .ok p
  | [], _ + 1, _ => .error .outOfBounds
  | xk :: data, n + 1, p => do
    let p ← wholeDigits shift mask (p.nbits + 1) p
    let p ← nextWord shift mask xk p
    wordsLoop shift mask data n p

/-- The loop that writes what is left of the top word. -/
def topDigits (shift : Nat) (mask : Word) : Nat → Nat → Word → List Char → Run (Nat × List Char)
  | 0, _, _, _ => .error .noReturn
  | fuel + 1, i, w, s =>
    if w ≠ 0 then do
      let (i, s) ← putMasked mask w s i
      topDigits shift mask fuel i (w >>> shift) s
    else .ok (i, s)

/-- `natI2a` for a power of two: `i` and the text. -/
def shiftPath (x : CNat) (b : Word) (i : Nat) (s : List Char) : Run (Nat × List Char) := do
  let shift ← trailingZeros64 b
  let mask := (1#64 <<< shift) - 1
  let w ← Run.read x.data 0
  let p ← wordsLoop shift mask (x.data.drop 1) (x.len - 1) ⟨i, w, 64, s⟩
  topDigits shift mask 65 p.i p.w p.s

/-- `while (s[i] == '0') ++i;` -/
def skipZeros : List Char → Nat → Run Nat
  | [], _ => .error .outOfBounds
  | c :: s, i => if c = '0' then skipZeros s (i + 1) else .ok i

/-- `natI2a` for the other bases, with the table it is given: `i` and the text. -/
def dividePath (a : Arith) (x : CNat) (b : Word) (ndigits : Nat) (bb : Word)
    (table : Option (List CDivisor)) (slen : Nat) (s : List Char) : Run (Nat × List Char) := do
  let s ← convertWords a x s slen b ndigits bb table (table.elim 0 List.length)
  let i ← skipZeros s 0
  .ok (i, s)

/-- `if (neg) { --i; s[i] = '-'; }` -/
def putSign : Bool → Nat → List Char → Run (Nat × List Char)
  | false, i, s => .ok (i, s)
  | true, 0, _ => .error .outOfBounds
  | true, i + 1, s => do
    let s ← Run.write s i '-'
    .ok (i, s)

/-- The end of `natI2a`: the sign, and everything to the front. -/
def signAndMove (neg : Bool) (slen : Nat) (p : Nat × List Char) : Run (List Char) := do
  let (i, s) ← putSign neg p.1 p.2
  if s.length < slen ∨ slen < i then .error .outOfBounds
  else Run.write ((s.take slen).drop i ++ s.drop (slen - i)) (slen - i) nul

/-- `natI2a(x, neg, base)`: the buffer it returns.  `est` is the number of digits that it
estimates with `log2` from the bit length and the base. -/
def natI2a (a : Arith) (est : Nat → Nat → Nat) (x : CNat) (neg : Bool) (base : Nat) :
    Run (List Char) := do
  Run.assert (2 ≤ base ∧ base ≤ 62)
  if x.len = 0 then .ok ['0', nul]
  else do
    let bits ← natBitLen x
    let slen := est bits base + if neg then 1 else 0
    let s := List.replicate (slen + 1) nul
    let b := BitVec.ofNat 64 base
    if b = b &&& -b then do
      let p ← shiftPath x b slen s
      signAndMove neg slen p
    else do
      let (bb, ndigits) ← maxPow b
      let table ← divisors a x.len b ndigits bb
      let p ← dividePath a x b ndigits bb table slen s
      signAndMove neg slen p

/-- The string in a buffer. -/
def cString (s : List Char) : List Char := s.takeWhile (· ≠ nul)

end CDemo.BigInt
