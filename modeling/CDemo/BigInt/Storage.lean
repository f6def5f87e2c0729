/-
# Who frees the words of a number (`bigint.c`, `nat.c`)

A `BigInt` is a block, and its words are another one; `BigIntFree` gives back both.  The other
modules of this directory say which number a call makes.  Here a program has pointers to numbers,
and frees them in any order.

`natMul` allocates and frees on the way, however deep it recurses, and keeps one block
(`natMulHeapRec_ok`).  `natAdd` and `natSub` allocate one too, but an operand without words makes
them return the other operand as it is.  The result then has the words of a number that the program
also has, and frees too.

* As long as no operand of a sum or a difference is empty, every number has two blocks of its own,
  nothing else is allocated, and no call touches a block that is not (`storage_exact`).
* After the first sum or difference with an empty operand there are two numbers that cannot both be
  freed (`storage_shared_iff`).

An empty number is a difference of equal numbers; `BigIntNewU(0)` has one word.
-/
import CDemo.BigInt.Signed
import CDemo.Lib.Ledger

namespace CDemo.BigInt

/-! ## 1. The data -/

/-- A number that a program has a pointer to: the block of the `BigInt`, and that of its words. -/
structure Obj where
  block : Nat
  data : Nat
  num : CBigInt
  deriving DecidableEq, Repr

def Obj.len (o : Obj) : Nat := o.num.abs.len

/-- The numbers that a program has not freed. -/
structure Store where
  objs : List Obj
  heap : Ledger
  deriving DecidableEq, Repr

/-! ## 2. The functions -/

/-- `BigIntNewI` and `BigIntNewU`, with the number they make. -/
def newObj (h : Ledger) (num : CBigInt) : Obj × Ledger :=
  let (block, h) := h.alloc
  let (data, h) := h.alloc
  (⟨block, data, num⟩, h)

/-- `natAdd` once its longer operand comes first. -/
def natAddLongHeap (h : Ledger) (x y : Obj) : Run (Nat × Ledger) :=
  if x.len = 0 ∨ y.len = 0 then .ok (x.data, h)
  else do
    h.touch x.data
    h.touch y.data
    .ok h.alloc

def natAddHeap (h : Ledger) (x y : Obj) : Run (Nat × Ledger) :=
  if x.len < y.len then natAddLongHeap h y x else natAddLongHeap h x y

/-- `natSub`; its `assert` is in the number's `natSub`. -/
def natSubHeap (h : Ledger) (x y : Obj) : Run (Nat × Ledger) :=
  if x.len = 0 ∨ y.len = 0 then .ok (x.data, h)
  else do
    h.touch x.data
    h.touch y.data
    .ok h.alloc

/-- `natCmp` looks at the words of numbers of one length. -/
def natCmpHeap (h : Ledger) (x y : Obj) : Run Unit :=
  if x.len ≠ y.len ∨ x.len = 0 then .ok ()
  else do
    h.touch x.data
    h.touch y.data

/-- `z->abs` in `BigIntAdd` and `BigIntSub`, as in `signedAdd`. -/
def signedWordsHeap (h : Ledger) (x y : Obj) (yneg : Bool) : Run (Nat × Ledger) :=
  if x.num.neg = yneg then natAddHeap h x y
  else do
    natCmpHeap h x y
    let e ← natCmp x.num.abs y.num.abs
    if 0 ≤ e then natSubHeap h x y else natSubHeap h y x

/-- `BigIntAdd` and `BigIntSub`. -/
def signedAddHeap (h : Ledger) (x y : Obj) (yneg : Bool) : Run (Obj × Ledger) := do
  let num ← signedAdd x.num y.num yneg
  let (block, h) := h.alloc
  let (data, h) ← signedWordsHeap h x y yneg
  .ok (⟨block, data, num⟩, h)

def bigIntAddHeap (h : Ledger) (x y : Obj) : Run (Obj × Ledger) := signedAddHeap h x y y.num.neg

def bigIntSubHeap (h : Ledger) (x y : Obj) : Run (Obj × Ledger) := signedAddHeap h x y (!y.num.neg)

/-- The loop of `natMul`: two products are made and freed in a round. -/
def natMulLoopHeap (mul : Ledger → CNat → CNat → Run (Nat × Ledger)) (k : Nat) (x y0 y1 : CNat) :
    Nat → Nat → Ledger → Run Ledger
  | 0, _, _ => .error .noReturn
  | fuel + 1, i, h =>
    if i < x.len then do
      let xi ← natMulBlock x k i
      let (t, h) ← mul h xi y0
      let h ← h.free t
      let (t, h) ← mul h xi y1
      let h ← h.free t
      natMulLoopHeap mul k x y0 y1 fuel (i + k) h
    else .ok h

/-- The part of `natMul` that follows the product of the two lowest blocks. -/
def natMulRestHeap (mul : Ledger → CNat → CNat → Run (Nat × Ledger)) (k : Nat) (x y x0 y0 : CNat)
    (h : Ledger) : Run Ledger :=
  if k < y.len ∨ x.len ≠ y.len then do
    let x0 ← natNorm x0
    let y1 ← natPart y k y.len
    let (t, h) ← mul h x0 y1
    let h ← h.free t
    let y0 ← natNorm y0
    natMulLoopHeap mul k x y0 y1 (x.len + 1) k h
  else .ok h

/-- The recursion of `natMul`: the block of the product. -/
def natMulHeapRec : Nat → Ledger → CNat → CNat → Run (Nat × Ledger)
  | 0, _, _, _ => .error .noReturn
  | fuel + 1, h, x, y =>
    if x.len < y.len then natMulHeapRec fuel h y x
    else if y.len < karatsubaThreshold then .ok h.alloc
    else do
      let k := karatsubaLen y.len karatsubaThreshold
      let x0 ← natPart x 0 k
      let y0 ← natPart y 0 k
      let (z, h) := h.alloc
      let h ← natMulRestHeap (natMulHeapRec fuel) k x y x0 y0 h
      .ok (z, h)

def natMulHeap (h : Ledger) (x y : CNat) : Run (Nat × Ledger) :=
  natMulHeapRec (2 * (x.len + y.len) + 2) h x y

def bigIntMulHeap (h : Ledger) (x y : Obj) : Run (Obj × Ledger) := do
  let num ← bigIntMul x.num y.num
  let (block, h) := h.alloc
  if x.len ≠ 0 ∧ y.len ≠ 0 then
    h.touch x.data
    h.touch y.data
  let (data, h) ← natMulHeap h x.num.abs y.num.abs
  .ok (⟨block, data, num⟩, h)

/-- `BigIntFree`. -/
def bigIntFree (h : Ledger) (o : Obj) : Run Ledger := do
  let h ← h.free o.data
  h.free o.block

/-! ## 3. Programs -/

/-- A call; operands are places among the numbers that are not freed, the latest first. -/
inductive StoreCall where
  | newI (v : Word)
  | newU (v : Word)
  | add (i j : Nat)
  | sub (i j : Nat)
  | mul (i j : Nat)
  | free (i : Nat)
  deriving DecidableEq, Repr

/-- A call with two operands. -/
def onObjs (s : Store) (i j : Nat) (f : Ledger → Obj → Obj → Run (Obj × Ledger)) : Run Store := do
  let x ← Run.read s.objs i
  let y ← Run.read s.objs j
  let (z, h) ← f s.heap x y
  .ok ⟨z :: s.objs, h⟩

def runStore (s : Store) : StoreCall → Run Store
  | .newI v => let (z, h) := newObj s.heap (bigIntNewI v); .ok ⟨z :: s.objs, h⟩
  | .newU v => let (z, h) := newObj s.heap (bigIntNewU v); .ok ⟨z :: s.objs, h⟩
  | .add i j => onObjs s i j bigIntAddHeap
  | .sub i j => onObjs s i j bigIntSubHeap
  | .mul i j => onObjs s i j bigIntMulHeap
  | .free i => do
    let o ← Run.read s.objs i
    let h ← bigIntFree s.heap o
    .ok ⟨s.objs.eraseIdx i, h⟩

/-- No operand of a sum or a difference is empty. -/
def NoEmpty (s : Store) : StoreCall → Prop
  | .add i j | .sub i j => ∀ x y, s.objs[i]? = some x → s.objs[j]? = some y → x.len ≠ 0 ∧ y.len ≠ 0
  | _ => True

/-- A call that returns and adds nothing empty. -/
def StoreStep (s : Store) (c : StoreCall) (s' : Store) : Prop := runStore s c = .ok s' ∧ NoEmpty s c

/-- A program before its first call. -/
def emptyStore : Store := ⟨[], ⟨[], 0⟩⟩

/-! ## 4. Products -/

section Products

variable {h : Ledger} {owned lost : List Nat}

/-- Where `mul` returns, `mulHeap` keeps one block. -/
def KeepsOne (mul : CNat → CNat → Run CNat) (mulHeap : Ledger → CNat → CNat → Run (Nat × Ledger)) :
    Prop :=
  ∀ (x y q : CNat) (h : Ledger) (owned lost : List Nat), mul x y = .ok q → h.Owns owned lost →
    ∃ b h', mulHeap h x y = .ok (b, h') ∧ h'.Owns (b :: owned) lost

variable {mul : CNat → CNat → Run CNat} {mulHeap : Ledger → CNat → CNat → Run (Nat × Ledger)}

/-- A product that is freed at once. -/
theorem KeepsOne.freed (hmul : KeepsOne mul mulHeap) {x y q : CNat} (hq : mul x y = .ok q)
    (hown : h.Owns owned lost) :
    ∃ b h₁ h₂, mulHeap h x y = .ok (b, h₁) ∧ h₁.free b = .ok h₂ ∧ h₂.Owns owned lost := by
  obtain ⟨b, h₁, hrun, hown₁⟩ := hmul x y q h owned lost hq hown
  obtain ⟨h₂, hfree, hown₂⟩ := hown₁.free
  exact ⟨b, h₁, h₂, hrun, hfree, hown₂⟩

theorem natMulLoopHeap_ok (hmul : KeepsOne mul mulHeap) (k : Nat) (x y0 y1 : CNat) (fuel : Nat) :
    ∀ {i : Nat} {z z' : CNat} {h : Ledger}, natMulLoop mul k x y0 y1 fuel i z = .ok z' →
      h.Owns owned lost →
      ∃ h', natMulLoopHeap mulHeap k x y0 y1 fuel i h = .ok h' ∧ h'.Owns owned lost := by
  induction fuel with
  | zero =>
    intro i z z' h hrun hown
    exact absurd hrun nofun
  | succ fuel ih =>
    intro i z z' h hrun hown
    rw [natMulLoop] at hrun
    rw [natMulLoopHeap]
    split
    · next hi =>
      rw [if_pos hi] at hrun
      obtain ⟨xi, hxi, hrun⟩ := Run.bind_eq_ok_iff.mp hrun
      obtain ⟨t, ht, hrun⟩ := Run.bind_eq_ok_iff.mp hrun
      obtain ⟨d, -, hrun⟩ := Run.bind_eq_ok_iff.mp hrun
      obtain ⟨t', ht', hrun⟩ := Run.bind_eq_ok_iff.mp hrun
      obtain ⟨d', -, hrun⟩ := Run.bind_eq_ok_iff.mp hrun
      obtain ⟨b, h₁, h₂, hmul₁, hfree₁, hown₂⟩ := hmul.freed ht hown
      obtain ⟨b', h₃, h₄, hmul₂, hfree₂, hown₄⟩ := hmul.freed ht' hown₂
      obtain ⟨h', hloop, hown'⟩ := ih hrun hown₄
      refine ⟨h', ?_, hown'⟩
      exact Run.bind_of_eq hxi (Run.bind_of_eq hmul₁ (Run.bind_of_eq hfree₁
        (Run.bind_of_eq hmul₂ (Run.bind_of_eq hfree₂ hloop))))
    · exact ⟨h, rfl, hown⟩

theorem natMulRestHeap_ok (hmul : KeepsOne mul mulHeap) {k : Nat} {x y x0 y0 z z' : CNat}
    (hrun : natMulRest mul k x y x0 y0 z = .ok z') (hown : h.Owns owned lost) :
    ∃ h', natMulRestHeap mulHeap k x y x0 y0 h = .ok h' ∧ h'.Owns owned lost := by
  rw [natMulRest] at hrun
  rw [natMulRestHeap]
  split
  · next hmore =>
    rw [if_pos hmore] at hrun
    obtain ⟨x0', hx0, hrun⟩ := Run.bind_eq_ok_iff.mp hrun
    obtain ⟨y1, hy1, hrun⟩ := Run.bind_eq_ok_iff.mp hrun
    obtain ⟨t, ht, hrun⟩ := Run.bind_eq_ok_iff.mp hrun
    obtain ⟨d, -, hrun⟩ := Run.bind_eq_ok_iff.mp hrun
    obtain ⟨y0', hy0, hrun⟩ := Run.bind_eq_ok_iff.mp hrun
    obtain ⟨b, h₁, h₂, hmul₁, hfree₁, hown₂⟩ := hmul.freed ht hown
    obtain ⟨h', hloop, hown'⟩ := natMulLoopHeap_ok hmul k x y0' y1 (x.len + 1) hrun hown₂
    refine ⟨h', ?_, hown'⟩
    exact Run.bind_of_eq hx0 (Run.bind_of_eq hy1 (Run.bind_of_eq hmul₁
      (Run.bind_of_eq hfree₁ (Run.bind_of_eq hy0 hloop))))
  · exact ⟨h, rfl, hown⟩

/-- **`natMul` frees what it allocates**, but for the product. -/
theorem natMulHeapRec_ok (fuel : Nat) : KeepsOne (natMulRec fuel) (natMulHeapRec fuel) := by
  induction fuel with
  | zero =>
    intro x y q h owned lost hq hown
    exact absurd hq nofun
  | succ fuel ih =>
    intro x y q h owned lost hq hown
    rw [natMulRec] at hq
    rw [natMulHeapRec]
    dsimp only at hq
    split
    · next hlt =>
      rw [if_pos hlt] at hq
      exact ih y x q h owned lost hq hown
    next hle =>
    split
    · exact ⟨_, _, rfl, hown.alloc⟩
    next hlong =>
    have h40 : 40 ≤ y.len := Nat.not_lt.mp hlong
    rw [if_neg hle, if_neg (by omega), if_neg (by omega), if_neg hlong] at hq
    obtain ⟨x0, hx0, hq⟩ := Run.bind_eq_ok_iff.mp hq
    obtain ⟨y0, hy0, hq⟩ := Run.bind_eq_ok_iff.mp hq
    obtain ⟨d, -, hq⟩ := Run.bind_eq_ok_iff.mp hq
    obtain ⟨z, -, hq⟩ := Run.bind_eq_ok_iff.mp hq
    obtain ⟨zk, -, hq⟩ := Run.bind_eq_ok_iff.mp hq
    obtain ⟨d', -, hq⟩ := Run.bind_eq_ok_iff.mp hq
    obtain ⟨z', hrest, -⟩ := Run.bind_eq_ok_iff.mp hq
    obtain ⟨h', hrun, hown'⟩ := natMulRestHeap_ok ih hrest hown.alloc
    refine ⟨h.next, h', ?_, hown'⟩
    exact Run.bind_of_eq hx0 (Run.bind_of_eq hy0 (Run.bind_of_eq hrun rfl))

end Products

/-! ## 5. Sums and differences -/

section Sums

variable {h : Ledger} {owned lost : List Nat} {x y : Obj}

/-- The blocks of a number. -/
def Obj.blocks (o : Obj) : List Nat := [o.block, o.data]

theorem natAddLongHeap_ok (hown : h.Owns owned lost) (hx : x.data ∈ owned) (hy : y.data ∈ owned)
    (hne : x.len ≠ 0 ∧ y.len ≠ 0) : natAddLongHeap h x y = .ok h.alloc := by
  rw [natAddLongHeap, if_neg (not_or.mpr hne)]
  exact Run.bind_of_eq (hown.touch hx) (Run.bind_of_eq (hown.touch hy) rfl)

theorem natAddHeap_ok (hown : h.Owns owned lost) (hx : x.data ∈ owned) (hy : y.data ∈ owned)
    (hne : x.len ≠ 0 ∧ y.len ≠ 0) : natAddHeap h x y = .ok h.alloc := by
  rw [natAddHeap]
  split
  · exact natAddLongHeap_ok hown hy hx hne.symm
  · exact natAddLongHeap_ok hown hx hy hne

theorem natSubHeap_ok (hown : h.Owns owned lost) (hx : x.data ∈ owned) (hy : y.data ∈ owned)
    (hne : x.len ≠ 0 ∧ y.len ≠ 0) : natSubHeap h x y = .ok h.alloc := by
  rw [natSubHeap, if_neg (not_or.mpr hne)]
  exact Run.bind_of_eq (hown.touch hx) (Run.bind_of_eq (hown.touch hy) rfl)

theorem natCmpHeap_ok (hown : h.Owns owned lost) (hx : x.data ∈ owned) (hy : y.data ∈ owned) :
    natCmpHeap h x y = .ok () := by
  rw [natCmpHeap]
  split
  · rfl
  · exact Run.bind_of_eq (hown.touch hx) (hown.touch hy)

theorem signedWordsHeap_ok (hown : h.Owns owned lost) (hx : x.data ∈ owned) (hy : y.data ∈ owned)
    (hne : x.len ≠ 0 ∧ y.len ≠ 0) {yneg : Bool} {num : CBigInt}
    (hnum : signedAdd x.num y.num yneg = .ok num) :
    signedWordsHeap h x y yneg = .ok h.alloc := by
  rw [signedWordsHeap]
  split
  · exact natAddHeap_ok hown hx hy hne
  · next hsign =>
    simp only [signedAdd, if_neg hsign] at hnum
    obtain ⟨e, he, -⟩ := Run.bind_eq_ok_iff.mp hnum
    refine Run.bind_of_eq (natCmpHeap_ok hown hx hy) (Run.bind_of_eq he ?_)
    split
    · exact natSubHeap_ok hown hx hy hne
    · exact natSubHeap_ok hown hy hx hne.symm

/-- **A sum of numbers that are not empty has two new blocks.** -/
theorem signedAddHeap_ok (hown : h.Owns owned lost) (hx : x.data ∈ owned) (hy : y.data ∈ owned)
    (hne : x.len ≠ 0 ∧ y.len ≠ 0) {yneg : Bool} {num : CBigInt}
    (hnum : signedAdd x.num y.num yneg = .ok num) :
    ∃ z h', signedAddHeap h x y yneg = .ok (z, h') ∧ z.num = num ∧
      h'.Owns (z.blocks ++ owned) lost := by
  have hown₁ := hown.alloc
  have hwords := signedWordsHeap_ok hown₁ (List.mem_cons_of_mem _ hx) (List.mem_cons_of_mem _ hy)
    hne hnum
  refine ⟨⟨h.next, h.next + 1, num⟩, h.alloc.2.alloc.2, ?_, rfl,
    hown₁.alloc.congr (List.Perm.swap ..)⟩
  exact Run.bind_of_eq hnum (Run.bind_of_eq hwords rfl)

/-- **A product has two new blocks.** -/
theorem bigIntMulHeap_ok (hown : h.Owns owned lost) (hx : x.data ∈ owned) (hy : y.data ∈ owned)
    {num : CBigInt} (hnum : bigIntMul x.num y.num = .ok num) :
    ∃ z h', bigIntMulHeap h x y = .ok (z, h') ∧ z.num = num ∧
      h'.Owns (z.blocks ++ owned) lost := by
  have hown₁ := hown.alloc
  have hx₁ : x.data ∈ h.next :: owned := List.mem_cons_of_mem _ hx
  have hy₁ : y.data ∈ h.next :: owned := List.mem_cons_of_mem _ hy
  obtain ⟨q, hq, -⟩ := Run.bind_eq_ok_iff.mp hnum
  obtain ⟨b, h', hrun, hown'⟩ := natMulHeapRec_ok _ _ _ q _ _ _ hq hown₁
  refine ⟨⟨h.next, b, num⟩, h', ?_, rfl, hown'.congr (List.Perm.swap ..)⟩
  refine Run.bind_of_eq hnum ?_
  dsimp only
  split
  · exact Run.bind_of_eq (hown₁.touch hx₁) (Run.bind_of_eq (hown₁.touch hy₁)
      (Run.bind_of_eq hrun rfl))
  · exact Run.bind_of_eq hrun rfl

/-- **A number with two blocks of its own can be freed.** -/
theorem bigIntFree_ok {o : Obj} (hown : h.Owns (o.blocks ++ owned) lost) :
    ∃ h', bigIntFree h o = .ok h' ∧ h'.Owns owned lost := by
  obtain ⟨h₁, hdata, hown₁⟩ := (hown.congr (List.Perm.swap ..)).free
  obtain ⟨h₂, hblock, hown₂⟩ := hown₁.free
  exact ⟨h₂, Run.bind_of_eq hdata hblock, hown₂⟩

theorem natAddLongHeap_empty (h : Ledger) (hempty : x.len = 0 ∨ y.len = 0) :
    natAddLongHeap h x y = .ok (x.data, h) := if_pos hempty

theorem natSubHeap_empty (h : Ledger) (hempty : x.len = 0 ∨ y.len = 0) :
    natSubHeap h x y = .ok (x.data, h) := if_pos hempty

/-- **A sum with an empty operand** has the words of an operand. -/
theorem signedAddHeap_empty {yneg : Bool} {z : Obj} {h' : Ledger} (hempty : x.len = 0 ∨ y.len = 0)
    (hrun : signedAddHeap h x y yneg = .ok (z, h')) :
    (z.data = x.data ∨ z.data = y.data) ∧ z.block = h.next ∧ h' = h.alloc.2 := by
  obtain ⟨num, -, hrun⟩ := Run.bind_eq_ok_iff.mp hrun
  obtain ⟨⟨data, h₁⟩, hdata, hrun⟩ := Run.bind_eq_ok_iff.mp hrun
  obtain ⟨rfl, rfl⟩ := Prod.mk.inj (Except.ok.inj hrun)
  have hwords : (data = x.data ∨ data = y.data) ∧ h₁ = h.alloc.2 := by
    rw [signedWordsHeap] at hdata
    split at hdata
    · rw [natAddHeap] at hdata
      split at hdata
      · obtain ⟨rfl, rfl⟩ := Prod.mk.inj
          (Except.ok.inj (hdata.symm.trans (natAddLongHeap_empty _ hempty.symm)))
        exact ⟨.inr rfl, rfl⟩
      · obtain ⟨rfl, rfl⟩ := Prod.mk.inj
          (Except.ok.inj (hdata.symm.trans (natAddLongHeap_empty _ hempty)))
        exact ⟨.inl rfl, rfl⟩
    · obtain ⟨-, -, hdata⟩ := Run.bind_eq_ok_iff.mp hdata
      obtain ⟨e, -, hdata⟩ := Run.bind_eq_ok_iff.mp hdata
      split at hdata
      · obtain ⟨rfl, rfl⟩ := Prod.mk.inj
          (Except.ok.inj (hdata.symm.trans (natSubHeap_empty _ hempty)))
        exact ⟨.inl rfl, rfl⟩
      · obtain ⟨rfl, rfl⟩ := Prod.mk.inj
          (Except.ok.inj (hdata.symm.trans (natSubHeap_empty _ hempty.symm)))
        exact ⟨.inr rfl, rfl⟩
  exact ⟨hwords.1, rfl, hwords.2⟩

end Sums

/-! ## 6. Every program -/

/-- **The invariant**: every number has two blocks of its own, and nothing else is allocated. -/
def Exclusive (s : Store) : Prop := s.heap.Owns (s.objs.flatMap Obj.blocks) []

section Programs

variable {s s' : Store}

theorem mem_blocks {o : Obj} (ho : o ∈ s.objs) : o.data ∈ s.objs.flatMap Obj.blocks :=
  List.mem_flatMap.mpr ⟨o, ho, List.mem_cons_of_mem _ (List.mem_singleton_self _)⟩

/-- A new number. -/
theorem Exclusive.new (hs : Exclusive s) (num : CBigInt) :
    Exclusive ⟨(newObj s.heap num).1 :: s.objs, (newObj s.heap num).2⟩ :=
  hs.alloc.alloc.congr (List.Perm.swap ..)

/-- A call with two operands, where its function gives the result two new blocks. -/
theorem exclusive_onObjs {i j : Nat} {x y : Obj} (hx : s.objs[i]? = some x)
    (hy : s.objs[j]? = some y) {f : Ledger → Obj → Obj → Run (Obj × Ledger)} {num : CBigInt}
    (hf : ∃ z h', f s.heap x y = .ok (z, h') ∧ z.num = num ∧
      h'.Owns (z.blocks ++ s.objs.flatMap Obj.blocks) []) :
    ∃ z h', onObjs s i j f = .ok ⟨z :: s.objs, h'⟩ ∧ z.num = num ∧ Exclusive ⟨z :: s.objs, h'⟩ := by
  obtain ⟨z, h', hrun, hnum, hown⟩ := hf
  refine ⟨z, h', ?_, hnum, hown⟩
  exact Run.bind_of_eq (Run.read_eq_ok hx) (Run.bind_of_eq (Run.read_eq_ok hy)
    (Run.bind_of_eq hrun rfl))

/-- Taking one number out. -/
theorem blocks_eraseIdx {i : Nat} {o : Obj} (ho : s.objs[i]? = some o) :
    (s.objs.flatMap Obj.blocks).Perm (o.blocks ++ (s.objs.eraseIdx i).flatMap Obj.blocks) := by
  obtain ⟨hi, hget⟩ := List.getElem?_eq_some_iff.mp ho
  have hperm := (List.getElem_cons_eraseIdx_perm hi).symm.flatMap_right Obj.blocks
  rw [List.flatMap_cons, hget] at hperm
  exact hperm

/-- **Every number can be freed.** -/
theorem Exclusive.free (hs : Exclusive s) {i : Nat} {o : Obj} (ho : s.objs[i]? = some o) :
    ∃ h', runStore s (.free i) = .ok ⟨s.objs.eraseIdx i, h'⟩ ∧
      Exclusive ⟨s.objs.eraseIdx i, h'⟩ := by
  obtain ⟨h', hfree, hown⟩ := bigIntFree_ok (hs.congr (blocks_eraseIdx ho))
  exact ⟨h', Run.bind_of_eq (Run.read_eq_ok ho) (Run.bind_of_eq hfree rfl), hown⟩

/-- **A sum or a difference** of numbers that are not empty. -/
theorem Exclusive.signedAdd (hs : Exclusive s) {i j : Nat} {x y : Obj} (hx : s.objs[i]? = some x)
    (hy : s.objs[j]? = some y) (hne : x.len ≠ 0 ∧ y.len ≠ 0) (sign : Bool → Bool) {num : CBigInt}
    (hnum : BigInt.signedAdd x.num y.num (sign y.num.neg) = .ok num) :
    ∃ z h', onObjs s i j (fun h x y => signedAddHeap h x y (sign y.num.neg)) =
        .ok ⟨z :: s.objs, h'⟩ ∧ z.num = num ∧ Exclusive ⟨z :: s.objs, h'⟩ := by
  have hxb := mem_blocks (List.mem_of_getElem? hx)
  have hyb := mem_blocks (List.mem_of_getElem? hy)
  exact exclusive_onObjs hx hy (signedAddHeap_ok hs hxb hyb hne hnum)

/-- **A product.** -/
theorem Exclusive.mul (hs : Exclusive s) {i j : Nat} {x y : Obj} (hx : s.objs[i]? = some x)
    (hy : s.objs[j]? = some y) {num : CBigInt} (hnum : bigIntMul x.num y.num = .ok num) :
    ∃ z h', runStore s (.mul i j) = .ok ⟨z :: s.objs, h'⟩ ∧ z.num = num ∧
      Exclusive ⟨z :: s.objs, h'⟩ := by
  have hxb := mem_blocks (List.mem_of_getElem? hx)
  have hyb := mem_blocks (List.mem_of_getElem? hy)
  exact exclusive_onObjs hx hy (bigIntMulHeap_ok hs hxb hyb hnum)

theorem onObjs_ok {i j : Nat} {f : Ledger → Obj → Obj → Run (Obj × Ledger)}
    (hrun : onObjs s i j f = .ok s') : ∃ x y z h', s.objs[i]? = some x ∧ s.objs[j]? = some y ∧
      f s.heap x y = .ok (z, h') ∧ s' = ⟨z :: s.objs, h'⟩ := by
  obtain ⟨x, hx, hrun⟩ := Run.bind_eq_ok_iff.mp hrun
  obtain ⟨y, hy, hrun⟩ := Run.bind_eq_ok_iff.mp hrun
  obtain ⟨⟨z, h'⟩, hf, hrun⟩ := Run.bind_eq_ok_iff.mp hrun
  exact ⟨x, y, z, h', Run.read_ok hx, Run.read_ok hy, hf, (Except.ok.inj hrun).symm⟩

/-- A sum or a difference that returned. -/
theorem Exclusive.signedAdd_step (hs : Exclusive s) {i j : Nat} (sign : Bool → Bool)
    (hne : ∀ x y, s.objs[i]? = some x → s.objs[j]? = some y → x.len ≠ 0 ∧ y.len ≠ 0)
    (hrun : onObjs s i j (fun h x y => signedAddHeap h x y (sign y.num.neg)) = .ok s') :
    Exclusive s' := by
  obtain ⟨x, y, z, h', hx, hy, hadd, -⟩ := onObjs_ok hrun
  obtain ⟨num, hnum, -⟩ := Run.bind_eq_ok_iff.mp hadd
  obtain ⟨z', h'', hrun', -, hexcl⟩ := hs.signedAdd hx hy (hne x y hx hy) sign hnum
  rw [← Except.ok.inj (hrun'.symm.trans hrun)]
  exact hexcl

/-- **The step lemma.** -/
theorem StoreStep.exclusive {c : StoreCall} (hstep : StoreStep s c s') (hs : Exclusive s) :
    Exclusive s' := by
  obtain ⟨hrun, hne⟩ := hstep
  cases c with
  | newI v =>
    rw [← Except.ok.inj hrun]
    exact hs.new _
  | newU v =>
    rw [← Except.ok.inj hrun]
    exact hs.new _
  | add i j => exact hs.signedAdd_step id hne hrun
  | sub i j => exact hs.signedAdd_step not hne hrun
  | mul i j =>
    obtain ⟨x, y, z, h', hx, hy, hmul, -⟩ := onObjs_ok hrun
    obtain ⟨num, hnum, -⟩ := Run.bind_eq_ok_iff.mp hmul
    obtain ⟨z', h'', hrun', -, hexcl⟩ := hs.mul hx hy hnum
    rw [← Except.ok.inj (hrun'.symm.trans hrun)]
    exact hexcl
  | free i =>
    obtain ⟨o, ho, -⟩ := Run.bind_eq_ok_iff.mp hrun
    obtain ⟨h', hrun', hexcl⟩ := hs.free (Run.read_ok ho)
    rw [← Except.ok.inj (hrun'.symm.trans hrun)]
    exact hexcl

/-- **The run lemma.** -/
theorem trace_exclusive {history : List StoreCall} (htr : Trace StoreStep emptyStore history s) :
    Exclusive s :=
  Trace.invariant ⟨List.Perm.refl _, List.nodup_nil, nofun⟩
    (fun _ _ _ hs hstep => hstep.exclusive hs) htr

/-- **Every number has its own two blocks**, after every history of calls in which no operand of a
sum or a difference was empty: what is allocated are these blocks, each once.  So every number can
be freed, in any order; a product is computed without touching a block that is not allocated, and so
are sums and differences of numbers that are not empty, and what `natMul` allocates on the way is
freed. -/
theorem storage_exact {history : List StoreCall} (htr : Trace StoreStep emptyStore history s) :
    s.heap.live.Nodup ∧ s.heap.live.Perm (s.objs.flatMap Obj.blocks) ∧
    (∀ i < s.objs.length, ∃ h', runStore s (.free i) = .ok ⟨s.objs.eraseIdx i, h'⟩) ∧
    ∀ i j x y, s.objs[i]? = some x → s.objs[j]? = some y →
      (∀ num, bigIntMul x.num y.num = .ok num →
        ∃ z h', runStore s (.mul i j) = .ok ⟨z :: s.objs, h'⟩ ∧ z.num = num) ∧
      (x.len ≠ 0 ∧ y.len ≠ 0 → ∀ num, bigIntAdd x.num y.num = .ok num →
        ∃ z h', runStore s (.add i j) = .ok ⟨z :: s.objs, h'⟩ ∧ z.num = num) ∧
      (x.len ≠ 0 ∧ y.len ≠ 0 → ∀ num, bigIntSub x.num y.num = .ok num →
        ∃ z h', runStore s (.sub i j) = .ok ⟨z :: s.objs, h'⟩ ∧ z.num = num) := by
  have hs := trace_exclusive htr
  have hperm := hs.perm
  rw [List.append_nil] at hperm
  refine ⟨hs.nodup, hperm, ?_, ?_⟩
  · intro i hi
    obtain ⟨h', hrun, -⟩ := hs.free (List.getElem?_eq_getElem hi)
    exact ⟨h', hrun⟩
  · intro i j x y hx hy
    refine ⟨?_, ?_, ?_⟩
    · intro num hnum
      obtain ⟨z, h', hrun, hz, -⟩ := hs.mul hx hy hnum
      exact ⟨z, h', hrun, hz⟩
    · intro hne num hnum
      obtain ⟨z, h', hrun, hz, -⟩ := hs.signedAdd hx hy hne id hnum
      exact ⟨z, h', hrun, hz⟩
    · intro hne num hnum
      obtain ⟨z, h', hrun, hz, -⟩ := hs.signedAdd hx hy hne not hnum
      exact ⟨z, h', hrun, hz⟩

/-- A 5, and the difference of it with itself. -/
def fiveAndZero : Store :=
  ⟨[⟨2, 3, ⟨false, ⟨[0], 0, 1⟩⟩⟩, ⟨0, 1, bigIntNewU 5⟩], ⟨[3, 2, 1, 0], 4⟩⟩

theorem trace_fiveAndZero : Trace StoreStep emptyStore [.sub 0 0, .newU 5] fiveAndZero := by
  have hnew : StoreStep emptyStore (.newU 5) ⟨[⟨0, 1, bigIntNewU 5⟩], ⟨[1, 0], 2⟩⟩ := ⟨rfl, trivial⟩
  refine .call (.call .start hnew) ⟨by decide, ?_⟩
  intro x y hx hy
  rw [← Option.some.inj hx, ← Option.some.inj hy]
  decide

theorem storage_exact_fiveAndZero : fiveAndZero.heap.live.Nodup ∧
    ∃ h', runStore fiveAndZero (.free 0) = .ok ⟨[⟨0, 1, bigIntNewU 5⟩], h'⟩ := by
  obtain ⟨hnodup, -, hfree, -⟩ := storage_exact trace_fiveAndZero
  exact ⟨hnodup, hfree 0 (by decide)⟩

/-- Two numbers with the same words cannot both be freed. -/
theorem Exclusive.shared (hs : Exclusive s) {k : Nat} {o z : Obj} (ho : s.objs[k]? = some o)
    (hdata : z.data = o.data) (hblock : z.block = s.heap.next) :
    ∃ t, runStore ⟨z :: s.objs, s.heap.alloc.2⟩ (.free 0) = .ok t ∧
      runStore t (.free k) = .error .outOfBounds := by
  have hfirst : (s.heap.next :: s.objs.flatMap Obj.blocks).Perm
      (z.data :: z.block :: o.block :: (s.objs.eraseIdx k).flatMap Obj.blocks) := by
    rw [hdata, hblock]
    have hlast : ([s.heap.next, o.block] ++ o.data :: (s.objs.eraseIdx k).flatMap Obj.blocks).Perm
        (o.data :: ([s.heap.next, o.block] ++ (s.objs.eraseIdx k).flatMap Obj.blocks)) :=
      List.perm_middle
    exact ((blocks_eraseIdx ho).cons _).trans hlast
  have hown := hs.alloc.congr hfirst
  obtain ⟨h₁, hfree₁, hown₁⟩ := hown.free
  obtain ⟨h₂, hfree₂, -⟩ := hown₁.free
  have hfree : bigIntFree s.heap.alloc.2 z = .ok h₂ := Run.bind_of_eq hfree₁ hfree₂
  refine ⟨⟨s.objs, h₂⟩, Run.bind_of_eq rfl (Run.bind_of_eq hfree rfl), ?_⟩
  have hgone : o.data ∉ h₂.live := by
    rw [← hdata]
    exact fun hmem => hown.not_mem_of_free hfree₁ (Ledger.mem_of_free hfree₂ hmem)
  refine Run.bind_of_eq (Run.read_eq_ok ho) ?_
  rw [bigIntFree, Ledger.free_error hgone]
  rfl

/-- **When two numbers cannot both be freed.**  After such a history, a sum or a difference makes a
number that cannot be freed together with some number the program had before exactly if an operand
is empty. -/
theorem storage_shared_iff {history : List StoreCall} (htr : Trace StoreStep emptyStore history s)
    {i j : Nat} {x y : Obj} (hx : s.objs[i]? = some x) (hy : s.objs[j]? = some y) {c : StoreCall}
    (hc : c = .add i j ∨ c = .sub i j) (hrun : runStore s c = .ok s') :
    (∃ k t e, k < s.objs.length ∧ runStore s' (.free 0) = .ok t ∧
      runStore t (.free k) = .error e) ↔ x.len = 0 ∨ y.len = 0 := by
  have hs := trace_exclusive htr
  obtain ⟨sign, hrun⟩ : ∃ sign : Bool → Bool,
      onObjs s i j (fun h x y => signedAddHeap h x y (sign y.num.neg)) = .ok s' := by
    rcases hc with rfl | rfl
    · exact ⟨id, hrun⟩
    · exact ⟨not, hrun⟩
  obtain ⟨x', y', z, h', hx', hy', hadd, rfl⟩ := onObjs_ok hrun
  obtain rfl : x = x' := Option.some.inj (hx.symm.trans hx')
  obtain rfl : y = y' := Option.some.inj (hy.symm.trans hy')
  constructor
  · rintro ⟨k, t, e, hk, hfree, herr⟩
    by_contra hne
    have hexcl : Exclusive ⟨z :: s.objs, h'⟩ := by
      refine hs.signedAdd_step sign ?_ hrun
      intro x₁ y₁ hx₁ hy₁
      rw [← Option.some.inj (hx.symm.trans hx₁), ← Option.some.inj (hy.symm.trans hy₁)]
      exact not_or.mp hne
    obtain ⟨h₁, hfree₁, hexcl₁⟩ := hexcl.free (i := 0) rfl
    obtain rfl := Except.ok.inj (hfree₁.symm.trans hfree)
    obtain ⟨h₂, hfree₂, -⟩ := hexcl₁.free (List.getElem?_eq_getElem hk)
    exact absurd (hfree₂.symm.trans herr) nofun
  · intro hempty
    obtain ⟨hdata, hblock, rfl⟩ := signedAddHeap_empty hempty hadd
    rcases hdata with hdata | hdata
    · obtain ⟨t, hfree, herr⟩ := hs.shared hx hdata hblock
      exact ⟨i, t, _, (List.getElem?_eq_some_iff.mp hx).1, hfree, herr⟩
    · obtain ⟨t, hfree, herr⟩ := hs.shared hy hdata hblock
      exact ⟨j, t, _, (List.getElem?_eq_some_iff.mp hy).1, hfree, herr⟩

/-- `0 + 5`. -/
theorem storage_shared_iff_fiveAndZero : ∃ s', runStore fiveAndZero (.add 0 1) = .ok s' ∧
    ∃ k t e, k < 2 ∧ runStore s' (.free 0) = .ok t ∧ runStore t (.free k) = .error e := by
  have hrun : runStore fiveAndZero (.add 0 1) = .ok
      ⟨⟨4, 1, bigIntNewU 5⟩ :: fiveAndZero.objs, ⟨[4, 3, 2, 1, 0], 5⟩⟩ := by decide
  exact ⟨_, hrun, (storage_shared_iff trace_fiveAndZero (i := 0) (j := 1) rfl rfl (.inl rfl)
    hrun).mpr (.inl rfl)⟩

end Programs

end CDemo.BigInt
