/-
# The table of `swissmap.h`

`CSwissMap` keeps one control byte for each slot, a sentinel after them and copies of the
first fifteen after that, so that sixteen bytes can be loaded from any index up to the
capacity.  A control byte is `kEmpty`, `kDeleted` or the seven low bits `H2` of the salted hash
of the key in the slot; the other bits, `H1`, say where the search starts.

The functions are under their source names.  What stands for the machine:

* a control byte is the integer its `int8_t` holds, and a comparison of sixteen bytes followed
  by `_mm_movemask_epi8` is the list of the lanes that compare true, lowest first: the head is
  `std::countr_zero(mask)`, the tail `mask & (mask - 1)`;
* a `Slot` has a place for a key and one for a value, and each is empty until an object is
  constructed there;
* a pointer `&m_slot[i].v` is the index `i`, and a `const V&` leads to an object of the caller's or
  to the value of a slot (`Ref`), which `insert` reads after `find` is done; a `const K&` is an
  object of the caller's, since no function but `foreach` hands out a key of the table;
* what is read where there is no object any more is an argument, and may be anything;
* the addresses that `new char[size]` returns are those of `Host.addr`, in order, and an
  allocation of more than `PTRDIFF_MAX` bytes throws;
* `while (true)` gets a number of rounds, and a search that has not ended when they are used up
  stops with `noReturn`: a call returns when some number of rounds is enough for it.
-/
import CDemo.Lib.Run
import Mathlib.Tactic.Ring

namespace CDemo.SwissMap

/-! ## 1. Data -/

/-- `enum class Ctrl : int8_t`. -/
abbrev Ctrl := Int

def kWidth : Nat := 16

def kEmpty : Ctrl := -128

def kDeleted : Ctrl := -2

def kSentinel : Ctrl := -1

/-- `PTRDIFF_MAX`. -/
def ptrdiffMax : Nat := 2 ^ 63 - 1

/-- `struct Slot`: places for a key and a value. -/
structure Slot (K V : Type) where
  k : Option K
  v : Option V
  deriving DecidableEq, Repr

/-- What the table takes from outside: `std::hash<K>` and the addresses of its allocations. -/
structure Host (K : Type) where
  hash : K → BitVec 64
  addr : Nat → BitVec 64

/-- `class CSwissMap`, with the number of allocations made so far. -/
structure CSwissMap (K V : Type) where
  ctrlAddr : BitVec 64
  ctrl : List Ctrl
  slot : List (Slot K V)
  cap : Nat
  num : Nat
  growthInfo : Nat
  salt : BitVec 64
  allocs : Nat
  deriving DecidableEq, Repr

variable {K V : Type}

/-- `a - b` in `size_t`. -/
def sizeSub (a b : Nat) : Nat := (a + (2 ^ 64 - b)) % 2 ^ 64

/-- `a + b` in `size_t`. -/
def sizeAdd (a b : Nat) : Nat := (a + b) % 2 ^ 64

/-! ## 2. Allocation -/

def init (h : Host K) (n : Nat) (m : CSwissMap K V) : Run (CSwissMap K V) := do
  let ctrlSize := n + kWidth
  if ptrdiffMax < ctrlSize then
    .error .noMemory
  else
    let ctrl ← Run.write (List.replicate ctrlSize kEmpty) n kSentinel
    .ok { m with
      ctrlAddr := h.addr m.allocs
      ctrl := ctrl
      slot := List.replicate n ⟨none, none⟩
      cap := n
      growthInfo := sizeSub (n - n / 8) m.num
      allocs := m.allocs + 1 }

/-- The constructor, with the salt it drew. -/
def new (h : Host K) (salt : BitVec 64) : Run (CSwissMap K V) :=
  init h 0 ⟨0, [], [], 0, 0, 0, salt, 0⟩

def isValidCapacity (n : Nat) : Bool := (n + 1) &&& n = 0 && 0 < n

def nextCap (m : CSwissMap K V) : Run Nat := do
  Run.assert (isValidCapacity (m.cap * 2 + 1))
  .ok (m.cap * 2 + 1)

/-! ## 3. The search -/

/-- The hash, salted. -/
def saltedHash (h : Host K) (m : CSwissMap K V) (key : K) : BitVec 64 := h.hash key ^^^ m.salt

def H1 (m : CSwissMap K V) (hash : BitVec 64) : BitVec 64 := (hash >>> 7) ^^^ (m.ctrlAddr >>> 12)

def H2 (hash : BitVec 64) : Ctrl := (hash &&& 0x7F#64).toNat

/-- `_mm_loadu_si128`: the sixteen bytes from `index` on. -/
def loadu (ctrl : List Ctrl) (index : Nat) : Run (List Ctrl) :=
  if index + kWidth ≤ ctrl.length then .ok ((ctrl.drop index).take kWidth)
  else .error .outOfBounds

/-- The lanes of a group that a comparison selects, lowest first. -/
def movemask (p : Ctrl → Bool) (group : List Ctrl) : List Nat :=
  (List.range kWidth).filter fun j => p (group.getD j 0)

/-- The slot of lane `lane` of the group at `index`. -/
def getSlotIndex (m : CSwissMap K V) (index lane : Nat) : Run Nat := do
  Run.assert (m.cap = 0 || isValidCapacity m.cap)
  .ok ((index + lane) &&& m.cap)

/-- The inner loop of `findIndex`: the slots whose control byte matches, one by one. -/
def matchSlots [DecidableEq K] (m : CSwissMap K V) (key : K) (h2 : Ctrl) (index : Nat) :
    List Nat → Run (Option Nat)
  | [] => .ok none
  | lane :: mask => do
    let slotIndex ← getSlotIndex m index lane
    let c ← Run.read m.ctrl slotIndex
    Run.assert (c = h2)
    let s ← Run.read m.slot slotIndex
    let k ← Run.object s.k
    if k = key then .ok (some slotIndex) else matchSlots m key h2 index mask

/-- The outer loop of `findIndex`, from the group at `index` on: whether the key was found, and
the index it leaves in `retIndex`. -/
def probe [DecidableEq K] (m : CSwissMap K V) (key : K) (h2 : Ctrl) :
    Nat → Nat → Run (Bool × Nat)
  | 0, _ => .error .noReturn
  | rounds + 1, index => do
    let ctrl ← loadu m.ctrl index
    match ← matchSlots m key h2 index (movemask (fun c => c = h2) ctrl) with
    | some slotIndex => .ok (true, slotIndex)
    | none =>
      match movemask (fun c => c = kEmpty) ctrl with
      | lane :: _ => do
        let retIndex ← getSlotIndex m index lane
        .ok (false, retIndex)
      -- the next group, the index kept within the capacity
      | [] => probe m key h2 rounds ((index + kWidth) &&& m.cap)

/-- The group the search for the key starts with. -/
def startIndex (h : Host K) (m : CSwissMap K V) (key : K) : Nat :=
  (H1 m (saltedHash h m key)).toNat &&& m.cap

/-- `findIndex`: found or not, `retIndex` and `h2`. -/
def findIndex [DecidableEq K] (h : Host K) (rounds : Nat) (m : CSwissMap K V) (key : K) :
    Run (Bool × Nat × Ctrl) := do
  let h2 := H2 (saltedHash h m key)
  let (found, retIndex) ← probe m key h2 rounds (startIndex h m key)
  .ok (found, retIndex, h2)

/-! ## 4. Storing a key -/

def setCtrl (m : CSwissMap K V) (index : Nat) (c : Ctrl) : Run (CSwissMap K V) := do
  let ctrl ← Run.write m.ctrl index c
  if index < kWidth - 1 then
    let ctrl ← Run.write ctrl (index + m.cap + 1) c
    .ok { m with ctrl := ctrl }
  else
    .ok { m with ctrl := ctrl }

/-- `new(&m_slot[index].k) K(key)`. -/
def constructKey (m : CSwissMap K V) (index : Nat) (key : K) : Run (CSwissMap K V) := do
  let s ← Run.read m.slot index
  .ok { m with slot := m.slot.set index { s with k := some key } }

/-- `new(x) V(v)` for `x = &m_slot[index].v`. -/
def constructValue (m : CSwissMap K V) (index : Nat) (v : V) : Run (CSwissMap K V) := do
  let s ← Run.read m.slot index
  .ok { m with slot := m.slot.set index { s with v := some v } }

/-- `destorySlot(m_slot[index])`. -/
def destorySlot (m : CSwissMap K V) (index : Nat) : Run (CSwissMap K V) := do
  let slot ← Run.write m.slot index ⟨none, none⟩
  .ok { m with slot := slot }

/-- The branch of `find` that stores the key: the first free lane of the group at `index`. -/
def store (m : CSwissMap K V) (key : K) (h2 : Ctrl) (index lane : Nat) :
    Run (Nat × CSwissMap K V) := do
  let index ← getSlotIndex m index lane
  let c ← Run.read m.ctrl index
  Run.assert (c = kEmpty || c = kDeleted)
  let m ← setCtrl m index h2
  let m ← constructKey m index key
  .ok (index, { m with num := sizeAdd m.num 1, growthInfo := sizeSub m.growthInfo 1 })

/-- The loop of `rehash`: every live slot of the old arrays goes into the new table through
`find`. -/
def reinsert (find : K → CSwissMap K V → Run (Nat × CSwissMap K V)) :
    List (Ctrl × Slot K V) → CSwissMap K V → Run (CSwissMap K V)
  | [], m => .ok m
  | (c, s) :: rest, m =>
    if 0 ≤ c then do
      let k ← Run.object s.k
      let (x, m) ← find k m
      let v ← Run.object s.v
      let m ← constructValue m x v
      reinsert find rest m
    else reinsert find rest m

/-- How often the loop of `rehash` goes round at most.  Its counter is an `int` (`auto i = 0`): the
round after `2^31 - 1` makes it negative, and as a `size_t` that is not below any capacity. -/
def intRounds : Nat := 2 ^ 31

/-- `rehash(n)`.  The old arrays have `m_cap` slots, so pairing them runs over `i < cap`. -/
def rehash (h : Host K) (find : K → CSwissMap K V → Run (Nat × CSwissMap K V)) (n : Nat)
    (m : CSwissMap K V) : Run (CSwissMap K V) := do
  let m' ← init h n m
  reinsert find ((m.ctrl.zip m.slot).take intRounds) { m' with num := 0 }

/-- `find(key, true)`: the slot of the key, which is stored if it is not there yet. -/
def findAdd [DecidableEq K] (h : Host K) : Nat → K → CSwissMap K V → Run (Nat × CSwissMap K V)
  | 0, _, _ => .error .noReturn
  | rounds + 1, key, m => do
    let (found, index, h2) ← findIndex h (rounds + 1) m key
    if found then
      .ok (index, m)
    else
      let ctrl ← loadu m.ctrl index
      let grow : Run (Nat × CSwissMap K V) := do
        let n ← nextCap m
        let m ← rehash h (findAdd h rounds) n m
        findAdd h rounds key m
      -- `_mm_cmpgt_epi8(specail, ctrl)`: the empty and the deleted bytes
      match movemask (fun c => c < kSentinel) ctrl with
      | lane :: _ => if 0 < m.growthInfo then store m key h2 index lane else grow
      | [] => grow

/-- `find(key, false)`: the slot of the key, if there is one. -/
def findOnly [DecidableEq K] (h : Host K) (rounds : Nat) (key : K) (m : CSwissMap K V) :
    Run (Option Nat) := do
  let (found, index, _) ← findIndex h rounds m key
  .ok (if found then some index else none)

/-! ## 5. The public functions -/

/-- `operator[]`, with the value the pointer leads to. -/
def index [DecidableEq K] (h : Host K) (rounds : Nat) (m : CSwissMap K V) (key : K) :
    Run (Option V) := do
  match ← findOnly h rounds key m with
  | some i => do
    let s ← Run.read m.slot i
    let v ← Run.object s.v
    .ok (some v)
  | none => .ok none

/-- Where a `const V&` leads. -/
inductive Ref (V : Type) where
  | caller (v : V)
  | slot (i : Nat)
  deriving DecidableEq, Repr

/-- Reading the reference for `new(x) V(v)`, in the table `m'` that `find` made of `m`.  A value of
`m` is no object any more when its block was freed, which shows in the number of allocations, or
when it lies at `x` itself, where the new one is about to begin: then `stale` is read. -/
def Ref.load (m m' : CSwissMap K V) (x : Nat) (stale : V) : Ref V → Run V
  | .caller v => .ok v
  | .slot i =>
    if m'.allocs = m.allocs ∧ i ≠ x then do
      let s ← Run.read m'.slot i
      Run.object s.v
    else .ok stale

def insert [DecidableEq K] (h : Host K) (rounds : Nat) (m : CSwissMap K V) (key : K) (r : Ref V)
    (stale : V) : Run (CSwissMap K V) := do
  let (x, m') ← findAdd h rounds key m
  let v ← r.load m m' x stale
  constructValue m' x v

def erase [DecidableEq K] (h : Host K) (rounds : Nat) (m : CSwissMap K V) (key : K) :
    Run (Bool × CSwissMap K V) := do
  let (found, index, _) ← findIndex h rounds m key
  if found then
    let m ← setCtrl m index kDeleted
    let m ← destorySlot m index
    .ok (true, { m with num := sizeSub m.num 1, growthInfo := sizeAdd m.growthInfo 1 })
  else
    .ok (false, m)

end CDemo.SwissMap
