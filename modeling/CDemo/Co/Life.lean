/-
# The blocks of an environment (`co.c`, `ctx.c`)

An environment has three blocks: itself, its table and the context of the main function.  Each
coroutine has up to three more: itself, its context and its private stack, which `_save_stack`
frees and allocates again when it is too small.  They are released in two places, one by one by
`co_resume` and all that are left by `co_close`.

The other files of this directory say what the functions do to the table.  This one says what they
do to the heap, and follows a thread through any number of environments, one after the other: it
calls `co_open` where none is open, and `co_close` in the main function (the stack of a coroutine
lies in the block that `co_close` frees).  `heap_exact` is the account: nothing is freed twice,
`co_close` returns, and what is then still allocated are the blocks of the coroutines that `co_new`
made before it gave up with `-1`.

`co_open` sets `env` before it knows that it succeeds, and frees the block again when it does not;
`co_close` after that works on a block that is freed (`close_faults_iff`).
-/
import CDemo.Co.Stack
import CDemo.Lib.Ledger

namespace CDemo.Co

variable {F A : Type}

/-! ## 1. The data -/

/-- The blocks of a coroutine: itself, its context, and its private stack with `cap` and `size`. -/
structure Blocks where
  co : Nat
  ctx : Option Nat
  cap : Nat
  size : Nat
  stack : Option Nat
  deriving DecidableEq, Repr

/-- The blocks of an environment; `cos` goes with the table. -/
structure Held where
  env : Nat
  table : Nat
  main : Nat
  cos : List (Option Blocks)
  deriving DecidableEq, Repr

/-- The pointer `env` of a thread: null, to a block that was freed, or to an environment. -/
inductive EnvPtr (F A : Type) where
  | null
  | freed
  | opened (env : Env F A) (held : Held)

structure Thread (F A : Type) where
  ptr : EnvPtr F A
  heap : Ledger

/-- The outcomes of the three allocations of `co_open`. -/
structure OpenAlloc where
  env : Bool
  table : Bool
  main : Bool
  deriving DecidableEq, Repr

/-! ## 2. The functions -/

/-- The blocks in the order in which `_co_delete` frees them. -/
def Blocks.all (b : Blocks) : List Nat := b.ctx.toList ++ (b.stack.toList ++ [b.co])

/-- `_co_delete`. -/
def coDelete (h : Ledger) (b : Blocks) : Run Ledger := h.freeAll b.all

/-- `co_open`. -/
def openHeap (t : Thread F A) (cap : UInt16) (alloc : OpenAlloc) : Run (Bool × Thread F A) := do
  if alloc.env = false then
    return (false, { t with ptr := .null })
  let (env, heap) := t.heap.alloc
  if alloc.table = false then
    let heap ← heap.free env
    return (false, ⟨.freed, heap⟩)
  let (table, heap) := heap.alloc
  if alloc.main = false then
    let heap ← heap.free table
    let heap ← heap.free env
    return (false, ⟨.freed, heap⟩)
  let (main, heap) := heap.alloc
  return (true, ⟨.opened (coOpen cap) ⟨env, table, main,
    List.replicate (coOpen cap : Env F A).cap none⟩, heap⟩)

/-- The loop of `co_close`. -/
def deleteAll (h : Ledger) : List (Option Blocks) → Run Ledger
  | [] => .ok h
  | none :: cos => deleteAll h cos
  | some b :: cos => do
    let h ← coDelete h b
    deleteAll h cos

/-- `co_close`. -/
def closeHeap (t : Thread F A) : Run (Thread F A) :=
  match t.ptr with
  | .null => .ok t
  | .freed => .error .outOfBounds
  | .opened _ held => do
    let heap ← deleteAll t.heap held.cos
    let heap ← heap.free held.table
    let heap ← heap.free held.main
    let heap ← heap.free held.env
    .ok ⟨.null, heap⟩

/-- The allocations of `_co_new`. -/
def newBlocks (h : Ledger) (alloc : Alloc) : Option Blocks × Ledger :=
  if alloc.co = false then (none, h)
  else
    let (co, h) := h.alloc
    if alloc.ctx = false then (some ⟨co, none, 0, 0, none⟩, h)
    else
      let (ctx, h) := h.alloc
      (some ⟨co, some ctx, 0, 0, none⟩, h)

/-- `co_new`; a table that is too small is moved to another block. -/
def newHeap (env : Env F A) (held : Held) (h : Ledger) (func : F) (arg : A) (alloc : Alloc) :
    Run (Int × Env F A × Held × Ledger) := do
  let (b, h) := newBlocks h alloc
  let (id, env') ← coNew env func arg alloc
  if id = -1 then return (id, env', held, h)
  if env.nco ≥ env.cap then
    let h ← h.free held.table
    let (table, h) := h.alloc
    let grown := held.cos ++ List.replicate (env'.cap - env.cap) none
    return (id, env', { held with table := table, cos := grown.set id.toNat b }, h)
  return (id, env', { held with cos := held.cos.set id.toNat b }, h)

/-- There are bytes to copy back, but the buffer could not be allocated. -/
def Blocks.missing (b : Blocks) : Bool := b.stack.isNone && b.size != 0

/-- `co_resume`, up to the context switch: a stopped coroutine is deleted, and a suspended one is
copied back from its private stack. -/
def resumeHeap (env : Env F A) (held : Held) (h : Ledger) (id : Int) :
    Run (Bool × Env F A × Held × Ledger) := do
  let (b, env') ← coResume env id
  match env.slot id.toNat, held.cos[id.toNat]?.join with
  | some co, some blocks =>
    match co.status with
    | .stoped =>
      let h ← coDelete h blocks
      return (b, env', { held with cos := held.cos.set id.toNat none }, h)
    | .suspend =>
      if blocks.missing then .error .nullPointer
      return (b, env', held, h)
    | _ => return (b, env', held, h)
  | _, _ => return (b, env', held, h)

/-- The allocation of `_save_stack`, for a stack of `depth` bytes. -/
def reserveHeap (h : Ledger) (b : Blocks) (depth : Nat) (ok : Bool) : Run (Blocks × Ledger) :=
  if b.cap < depth then do
    let h ← h.freeAll b.stack.toList
    if ok then
      let (stack, h) := h.alloc
      return ({ b with cap := depth, size := depth, stack := some stack }, h)
    return ({ b with cap := depth, size := depth, stack := none }, h)
  else .ok ({ b with size := depth }, h)

/-- `co_swap`, up to the context switch. -/
def swapHeap (env : Env F A) (held : Held) (h : Ledger) (depth : Nat) (ok : Bool) :
    Run (Env F A × Held × Ledger) := do
  let env' ← coSwap env
  match held.cos[env.runningId.toNat]?.join with
  | some b =>
    let (b, h) ← reserveHeap h b depth ok
    return (env', { held with cos := held.cos.set env.runningId.toNat (some b) }, h)
  | none => .error .nullPointer

/-! ## 3. The runs -/

/-- What a thread can do, with what `co_new` returns. -/
inductive LifeEvent (F A : Type) where
  | open (cap : UInt16) (alloc : OpenAlloc)
  | close
  | new (func : F) (arg : A) (alloc : Alloc) (id : Int)
  | resume (id : Int)
  | swap (depth : Nat) (ok : Bool)
  | ret

/-- An environment is opened where none is open, and closed by the main function. -/
inductive LifeStep : Thread F A → LifeEvent F A → Thread F A → Prop
  | open {t t' : Thread F A} {cap : UInt16} {alloc : OpenAlloc} {b : Bool} :
      (∀ env held, t.ptr ≠ .opened env held) → openHeap t cap alloc = .ok (b, t') →
      LifeStep t (.open cap alloc) t'
  | close {t t' : Thread F A} : (∀ env held, t.ptr = .opened env held → env.runningId = -1) →
      closeHeap t = .ok t' → LifeStep t .close t'
  | new {env env' : Env F A} {held held' : Held} {h h' : Ledger} {func : F} {arg : A}
      {alloc : Alloc} {id : Int} : newHeap env held h func arg alloc = .ok (id, env', held', h') →
      LifeStep ⟨.opened env held, h⟩ (.new func arg alloc id) ⟨.opened env' held', h'⟩
  | resume {env env' : Env F A} {held held' : Held} {h h' : Ledger} {id : Int} {b : Bool} :
      resumeHeap env held h id = .ok (b, env', held', h') →
      LifeStep ⟨.opened env held, h⟩ (.resume id) ⟨.opened env' held', h'⟩
  | swap {env env' : Env F A} {held held' : Held} {h h' : Ledger} {depth : Nat} {ok : Bool} :
      swapHeap env held h depth ok = .ok (env', held', h') →
      LifeStep ⟨.opened env held, h⟩ (.swap depth ok) ⟨.opened env' held', h'⟩
  | ret {env env' : Env F A} {held : Held} {h : Ledger} : coMainReturn env = .ok env' →
      LifeStep ⟨.opened env held, h⟩ .ret ⟨.opened env' held, h⟩

/-- A thread before its first call. -/
def bare : Thread F A := ⟨.null, ⟨[], 0⟩⟩

/-! ## 4. The account -/

/-- The blocks of a slot. -/
def cosBlocks : Option Blocks → List Nat
  | none => []
  | some b => b.all

/-- The blocks of an environment. -/
def Held.all (held : Held) : List Nat :=
  held.env :: held.table :: held.main :: held.cos.flatMap cosBlocks

/-- What `co_new` loses when it gives up. -/
def Alloc.lost (alloc : Alloc) : Nat :=
  if alloc.co = false then 0 else if alloc.ctx = false then 1 else 2

/-- The number of blocks that a history has lost. -/
def leaks : List (LifeEvent F A) → Nat
  | [] => 0
  | .new _ _ alloc id :: history => leaks history + if id = -1 then alloc.lost else 0
  | .open _ _ :: history | .close :: history | .resume _ :: history | .swap _ _ :: history
  | .ret :: history => leaks history

/-- A slot has blocks when it holds a coroutine. -/
structure Aligned (env : Env F A) (held : Held) : Prop where
  length_cos : held.cos.length = env.cap
  slot : ∀ j, held.cos[j]?.join = none ↔ env.slot j = none

/-- **The invariant**: the thread has lost `n` blocks, and owns those of its environment. -/
def LifeOk (t : Thread F A) (n : Nat) : Prop :=
  ∃ lost : List Nat, lost.length = n ∧
    match t.ptr with
    | .null => t.heap.Owns [] lost
    | .freed => t.heap.Owns [] lost
    | .opened env held => t.heap.Owns held.all lost ∧ Wf env ∧ Aligned env held

section Functions

variable {h : Ledger} {owned lost : List Nat}

theorem join_replicate {α : Type} (n j : Nat) :
    (List.replicate n (none : Option α))[j]?.join = none := by
  rw [List.getElem?_replicate]
  split
  · rfl
  · rfl

theorem flatMap_replicate (n : Nat) : (List.replicate n none).flatMap cosBlocks = [] := by
  refine List.flatMap_eq_nil_iff.mpr fun b hb => ?_
  rw [List.eq_of_mem_replicate hb]
  rfl

/-- `co_open` owns its three blocks, or has given back what it took. -/
theorem openHeap_ok {t : Thread F A} (hown : t.heap.Owns [] lost) (cap : UInt16)
    (alloc : OpenAlloc) : ∃ b t', openHeap t cap alloc = .ok (b, t') ∧ LifeOk t' lost.length := by
  obtain ⟨env, table, main⟩ := alloc
  unfold openHeap
  cases env with
  | false => exact ⟨_, _, rfl, lost, rfl, hown⟩
  | true =>
    have hown₁ := hown.alloc
    cases table with
    | false =>
      obtain ⟨h₁, hfree, hown₁⟩ := hown₁.free
      refine ⟨false, ⟨.freed, h₁⟩, ?_, lost, rfl, hown₁⟩
      exact Run.bind_of_eq hfree rfl
    | true =>
      have hown₂ := hown₁.alloc
      cases main with
      | false =>
        obtain ⟨h₂, hfree₂, hown₂⟩ := hown₂.free
        obtain ⟨h₁, hfree₁, hown₁⟩ := hown₂.free
        refine ⟨false, ⟨.freed, h₁⟩, ?_, lost, rfl, hown₁⟩
        exact Run.bind_of_eq hfree₂ (Run.bind_of_eq hfree₁ rfl)
      | true =>
        refine ⟨_, _, rfl, lost, rfl, hown₂.alloc.congr ?_, wf_coOpen cap,
          List.length_replicate, ?_⟩
        · rw [Held.all, flatMap_replicate]
          exact List.reverse_perm [_, _, _]
        · intro j
          exact iff_of_true (join_replicate ..) (join_replicate ..)

/-- The loop of `co_close` gives back the blocks of the coroutines. -/
theorem deleteAll_ok (cos : List (Option Blocks)) : ∀ {h : Ledger},
    h.Owns (cos.flatMap cosBlocks ++ owned) lost →
    ∃ h', deleteAll h cos = .ok h' ∧ h'.Owns owned lost := by
  induction cos with
  | nil =>
    intro h hown
    exact ⟨h, rfl, hown⟩
  | cons c cos ih =>
    intro h hown
    rw [List.flatMap_cons, List.append_assoc] at hown
    cases c with
    | none => exact ih hown
    | some b =>
      obtain ⟨h₁, hfree, hown₁⟩ := hown.freeAll
      obtain ⟨h₂, hrest, hown₂⟩ := ih hown₁
      exact ⟨h₂, Run.bind_of_eq hfree hrest, hown₂⟩

/-- **`co_close` gives back all that an environment has.** -/
theorem closeHeap_ok (env : Env F A) {held : Held} (hown : h.Owns held.all lost) :
    ∃ h', closeHeap ⟨.opened env held, h⟩ = .ok ⟨.null, h'⟩ ∧ h'.Owns [] lost := by
  have hperm : held.all.Perm
      (held.cos.flatMap cosBlocks ++ [held.table, held.main, held.env]) := by
    have hlast : ([held.env] ++ [held.table, held.main]).Perm
        ([held.table, held.main] ++ [held.env]) := List.perm_append_comm
    exact (hlast.append_right _).trans List.perm_append_comm
  obtain ⟨h₁, hcos, hown₁⟩ := deleteAll_ok held.cos (hown.congr hperm)
  obtain ⟨h₂, htable, hown₂⟩ := hown₁.free
  obtain ⟨h₃, hmain, hown₃⟩ := hown₂.free
  obtain ⟨h₄, henv, hown₄⟩ := hown₃.free
  refine ⟨h₄, ?_, hown₄⟩
  exact Run.bind_of_eq hcos (Run.bind_of_eq htable (Run.bind_of_eq hmain
    (Run.bind_of_eq henv rfl)))

/-- The blocks of a new coroutine are owned. -/
theorem newBlocks_ok (hown : h.Owns owned lost) (alloc : Alloc) :
    (newBlocks h alloc).2.Owns (cosBlocks (newBlocks h alloc).1 ++ owned) lost ∧
      (cosBlocks (newBlocks h alloc).1).length = alloc.lost ∧
      ((newBlocks h alloc).1 = none ↔ alloc.co = false) := by
  obtain ⟨co, ctx, table⟩ := alloc
  cases co with
  | false => exact ⟨hown, rfl, iff_of_true rfl rfl⟩
  | true =>
    cases ctx with
    | false => exact ⟨hown.alloc, rfl, iff_of_false (Option.some_ne_none _) nofun⟩
    | true =>
      exact ⟨hown.alloc.alloc, rfl, iff_of_false (Option.some_ne_none _) nofun⟩

end Functions

section Steps

variable {env env' : Env F A} {held held' : Held} {h h' : Ledger} {lost : List Nat}

/-- A slot that was empty gets a coroutine's blocks. -/
theorem all_set (held : Held) {j : Nat} (hj : held.cos[j]? = some none) (b : Option Blocks) :
    ({ held with cos := held.cos.set j b } : Held).all.Perm (cosBlocks b ++ held.all) := by
  have hperm := Ledger.flatMap_set_perm cosBlocks b hj
  rw [cosBlocks, List.append_nil] at hperm
  refine (hperm.append_left [held.env, held.table, held.main]).trans ?_
  exact List.perm_append_comm_assoc ..

/-- The blocks of a slot are taken out. -/
theorem all_clear (held : Held) {j : Nat} {b : Blocks} (hj : held.cos[j]? = some (some b)) :
    (b.all ++ ({ held with cos := held.cos.set j none } : Held).all).Perm held.all := by
  have hperm := Ledger.flatMap_set_perm cosBlocks none hj
  rw [cosBlocks, List.nil_append] at hperm
  refine (List.perm_append_comm_assoc b.all [held.env, held.table, held.main] _).trans ?_
  exact (List.perm_append_comm.trans hperm).append_left [held.env, held.table, held.main]

/-- One slot of the table and its blocks. -/
theorem Aligned.set (hal : Aligned env held) {j : Nat} (hj : j < env.co.length)
    (hw : env.co.length = env.cap) {nco : Nat} {id : Int} {c : Option (Coroutine F A)}
    {b : Option Blocks} (hiff : b = none ↔ c = none) :
    Aligned ⟨nco, env.cap, id, env.co.set j c⟩ { held with cos := held.cos.set j b } where
  length_cos := List.length_set.trans hal.length_cos
  slot := by
    intro k
    rw [slot_set hj]
    have hlen := hal.length_cos
    by_cases hk : k = j
    · subst hk
      rw [if_pos rfl, List.getElem?_set_self (by omega)]
      exact hiff
    · rw [if_neg hk, List.getElem?_set_ne (Ne.symm hk)]
      exact hal.slot k

/-- The blocks of a grown table: there are none behind the old one, but those that are put there. -/
theorem join_grown {α : Type} (l : List (Option α)) {n : Nat} (hn : 0 < n) (b : Option α)
    (j : Nat) : ((l ++ List.replicate n none).set l.length b)[j]?.join =
      if j = l.length then b else l[j]?.join := by
  have hlen : l.length < (l ++ List.replicate n none).length := by
    rw [List.length_append, List.length_replicate]
    omega
  by_cases hj : j = l.length
  · subst hj
    rw [if_pos rfl, List.getElem?_set_self hlen]
    rfl
  · rw [if_neg hj, List.getElem?_set_ne (Ne.symm hj)]
    rcases Nat.lt_or_ge j l.length with hlt | hge
    · rw [List.getElem?_append_left hlt]
    · rw [List.getElem?_append_right hge, join_replicate, List.getElem?_eq_none hge]
      rfl

theorem flatMap_grown (cos : List (Option Blocks)) {n : Nat} (hn : 0 < n) (b : Option Blocks) :
    (((cos ++ List.replicate n none).set cos.length b).flatMap cosBlocks).Perm
      (cosBlocks b ++ cos.flatMap cosBlocks) := by
  have hnull : (cos ++ List.replicate n none)[cos.length]? = some none := by
    rw [List.getElem?_append_right (Nat.le_refl _), Nat.sub_self, List.getElem?_replicate_of_lt hn]
  have hperm := Ledger.flatMap_set_perm cosBlocks b hnull
  rw [cosBlocks, List.append_nil, List.flatMap_append, flatMap_replicate, List.append_nil] at hperm
  exact hperm

/-- The table moves to another block and grows. -/
theorem Aligned.grow (hal : Aligned env held) (hw : Wf env) {n nco table : Nat} (hn : 0 < n)
    {c : Option (Coroutine F A)} {b : Option Blocks} (hiff : b = none ↔ c = none) :
    Aligned ⟨nco, env.cap + n, env.runningId, (env.co ++ List.replicate n none).set env.cap c⟩
      { held with table := table, cos := (held.cos ++ List.replicate n none).set env.cap b } where
  length_cos := by
    rw [List.length_set, List.length_append, List.length_replicate, hal.length_cos]
  slot := by
    intro j
    rw [slot_grown hw hn, ← hal.length_cos, join_grown held.cos hn]
    by_cases hj : j = held.cos.length
    · rw [if_pos hj, if_pos hj]
      exact hiff
    · rw [if_neg hj, if_neg hj]
      exact hal.slot j

/-- **`co_new`.** -/
theorem newHeap_ok (hw : Wf env) (hal : Aligned env held) (hown : h.Owns held.all lost)
    {func : F} {arg : A} {alloc : Alloc} {id : Int}
    (hnew : newHeap env held h func arg alloc = .ok (id, env', held', h')) :
    Wf env' ∧ Aligned env' held' ∧ ∃ more, more.length = (if id = -1 then alloc.lost else 0) ∧
      h'.Owns held'.all (more ++ lost) := by
  obtain ⟨hblocks, hlen, hnone⟩ := newBlocks_ok hown alloc
  rw [newHeap] at hnew
  cases hb : newBlocks h alloc with
  | mk b h₁ =>
  rw [hb] at hnew hblocks hlen hnone
  obtain ⟨⟨id₁, env₁⟩, hco, hnew⟩ := Run.bind_eq_ok_iff.mp hnew
  have hw₁ : Wf env₁ := (Step.new hco).wf hw
  have hiff : b = none ↔ coNewAlloc func arg alloc = none := by
    rw [hnone, coNewAlloc]
    cases alloc.co <;> simp
  dsimp only at hnew hblocks hlen
  rcases coNew_cases hco with ⟨-, -, rfl, rfl⟩ | ⟨hfull, -, rfl, rfl⟩ | ⟨hroom, k, rfl, hscan, rfl⟩
  · rw [if_pos rfl] at hnew
    cases hnew
    exact ⟨hw, hal, _, hlen, hblocks.lose _⟩
  · have hid : ¬ (env.cap : Int) = -1 := by omega
    rw [if_neg hid, if_pos hfull] at hnew
    obtain ⟨h₂, hfree, hnew⟩ := Run.bind_eq_ok_iff.mp hnew
    cases hnew
    have hn : env.cap * 2 + 1 - env.cap = env.cap + 1 := by omega
    have hcap : env.cap * 2 + 1 = env.cap + (env.cap + 1) := by omega
    refine ⟨hw₁, ?_, [], ?_, ?_⟩
    · rw [hn, hcap]
      exact hal.grow hw (Nat.succ_pos _) hiff
    · rw [if_neg hid]
      rfl
    · have hfirst : (cosBlocks b ++ held.all).Perm
          (held.table :: held.env :: held.main :: (cosBlocks b ++ held.cos.flatMap cosBlocks)) := by
        refine (List.perm_append_comm_assoc _ [held.env, held.table, held.main] _).trans ?_
        exact List.Perm.swap ..
      obtain ⟨h₃, hfree', hown₃⟩ := (hblocks.congr hfirst).free
      obtain rfl := Except.ok.inj (hfree'.symm.trans hfree)
      refine hown₃.alloc.congr ?_
      have hgrown := flatMap_grown held.cos (n := env.cap + 1) (Nat.succ_pos _) b
      rw [hal.length_cos] at hgrown
      rw [hn, Held.all]
      refine (List.Perm.swap ..).trans ?_
      exact (hgrown.symm.append_left [held.env, h₃.next, held.main])
  · have hid : ¬ (k : Int) = -1 := by omega
    rw [if_neg hid, if_neg (Nat.not_le.mpr hroom)] at hnew
    cases hnew
    have hnull : env.co[k]? = some none := scan_some hscan
    have hk : k < env.co.length := (List.getElem?_eq_some_iff.mp hnull).1
    have hcos : held.cos[k]? = some none := by
      have hjoin := (hal.slot k).mpr (slot_of_getElem? hnull)
      have hlt : k < held.cos.length := by
        rw [hal.length_cos, ← hw.length_co]
        exact hk
      rw [List.getElem?_eq_getElem hlt] at hjoin ⊢
      exact congrArg some hjoin
    refine ⟨hw₁, hal.set hk hw.length_co hiff, [], ?_, hblocks.congr (all_set held hcos b).symm⟩
    rw [if_neg hid]
    rfl

/-- **`co_new` stops only where its table does.** -/
theorem newHeap_returns (hown : h.Owns held.all lost) {func : F} {arg : A} {alloc : Alloc}
    {r : Int × Env F A} (hco : coNew env func arg alloc = .ok r) :
    ∃ r', newHeap env held h func arg alloc = .ok r' := by
  obtain ⟨hblocks, -, -⟩ := newBlocks_ok hown alloc
  rw [newHeap]
  cases hb : newBlocks h alloc with
  | mk b h₁ =>
  rw [hb] at hblocks
  dsimp only at hblocks ⊢
  rw [hco, Run.ok_bind]
  by_cases hid : r.1 = -1
  · rw [if_pos hid]
    exact ⟨_, rfl⟩
  rw [if_neg hid]
  by_cases hfull : env.nco ≥ env.cap
  · have hfirst : (cosBlocks b ++ held.all).Perm
        (held.table :: (cosBlocks b ++ held.env :: held.main :: held.cos.flatMap cosBlocks)) := by
      refine (List.Perm.append_left _ (List.Perm.swap held.table held.env _)).trans ?_
      exact List.perm_middle
    obtain ⟨h₂, hfree, -⟩ := (hblocks.congr hfirst).free
    rw [if_pos hfull, hfree, Run.ok_bind]
    exact ⟨_, rfl⟩
  · rw [if_neg hfull]
    exact ⟨_, rfl⟩

/-- What a slot with a coroutine has. -/
theorem Aligned.blocks (hal : Aligned env held) {j : Nat} {co : Coroutine F A}
    (hj : env.slot j = some co) : ∃ b, held.cos[j]? = some (some b) := by
  cases hb : held.cos[j]?.join with
  | none =>
    have hnull := (hal.slot j).mp hb
    rw [hj] at hnull
    exact absurd hnull (Option.some_ne_none co)
  | some b => exact ⟨b, Option.join_eq_some_iff.mp hb⟩

/-- **`co_resume` returns** where its table does, unless the bytes it has to copy back are
missing. -/
theorem resumeHeap_ok (hw : Wf env) (hal : Aligned env held) (hown : h.Owns held.all lost)
    {id : Int} {b : Bool} (hco : coResume env id = .ok (b, env')) :
    (∃ co blocks, env.slot id.toNat = some co ∧ co.status = .suspend ∧
      held.cos[id.toNat]? = some (some blocks) ∧ blocks.missing = true ∧
      resumeHeap env held h id = .error .nullPointer) ∨
    ∃ held' h', resumeHeap env held h id = .ok (b, env', held', h') ∧ Aligned env' held' ∧
      h'.Owns held'.all lost := by
  have hcap := hal.length_cos
  unfold resumeHeap
  rw [hco, Run.ok_bind]
  obtain ⟨-, j, rfl, -, ⟨hnull, rfl, rfl⟩ | ⟨co, hget, hst, -, rfl, rfl⟩ |
    ⟨co, hget, hst, rfl, rfl⟩⟩ := coResume_cases hco
  · right
    rw [Int.toNat_natCast, slot_of_getElem? hnull]
    exact ⟨held, h, rfl, hal, hown⟩
  · have hslot := slot_of_getElem? hget
    have hlt := (List.getElem?_eq_some_iff.mp hget).1
    obtain ⟨blocks, hblocks⟩ := hal.blocks hslot
    -- the coroutine runs and keeps its blocks
    have hal' : Aligned { env with
        runningId := j, co := env.co.set j (some { co with status := .running }) } held := by
      refine ⟨hcap, fun k => ?_⟩
      rw [slot_set hlt]
      by_cases hk : k = j
      · subst hk
        rw [if_pos rfl, hblocks]
        exact iff_of_false (Option.some_ne_none _) (Option.some_ne_none _)
      · rw [if_neg hk]
        exact hal.slot k
    rw [Int.toNat_natCast, hslot, hblocks, Option.join_some]
    dsimp only
    rcases hst with hst | hst
    · right
      rw [hst]
      exact ⟨held, h, rfl, hal', hown⟩
    · rw [hst]
      dsimp only
      cases hmiss : blocks.missing with
      | true => exact .inl ⟨co, blocks, rfl, hst, rfl, hmiss, rfl⟩
      | false => exact .inr ⟨held, h, rfl, hal', hown⟩
  · right
    have hslot := slot_of_getElem? hget
    have hlt := (List.getElem?_eq_some_iff.mp hget).1
    obtain ⟨blocks, hblocks⟩ := hal.blocks hslot
    obtain ⟨h', hfree, hown'⟩ := (hown.congr (all_clear held hblocks).symm).freeAll
    rw [Int.toNat_natCast, hslot, hblocks, Option.join_some]
    dsimp only
    rw [hst]
    refine ⟨_, h', Run.bind_of_eq hfree rfl, ?_, hown'⟩
    exact hal.set hlt hw.length_co (iff_of_true rfl rfl)

/-- What `co_resume` asks of a coroutine: it has finished, or it has a context and, if it is
suspended, the stack that was saved. -/
def Resumable (held : Held) (j : Nat) (co : Coroutine F A) : Prop :=
  co.status = .stoped ∨ (co.ctx = true ∧ (co.status = .ready ∨
    (co.status = .suspend ∧ ∀ b, held.cos[j]? = some (some b) → b.missing = false)))

/-- **When `co_resume` returns.** -/
theorem resumeHeap_returns_iff (hw : Wf env) (hal : Aligned env held) (hown : h.Owns held.all lost)
    (id : Int) : (∃ r, resumeHeap env held h id = .ok r) ↔
      env.runningId = -1 ∧ 0 ≤ id ∧ id < env.cap ∧
        ∀ co, env.slot id.toNat = some co → Resumable held id.toNat co := by
  constructor
  · rintro ⟨r, hres⟩
    obtain ⟨⟨b, env'⟩, hco, -⟩ := Run.bind_eq_ok_iff.mp hres
    have hmiss : ¬ ∃ co blocks, env.slot id.toNat = some co ∧ co.status = .suspend ∧
        held.cos[id.toNat]? = some (some blocks) ∧ blocks.missing = true := by
      rintro ⟨co, blocks, hslot, hst, hblocks, hmiss⟩
      rw [resumeHeap, hco, Run.ok_bind, hslot, hblocks, Option.join_some] at hres
      dsimp only at hres
      rw [hst, hmiss] at hres
      nomatch hres
    obtain ⟨hid, j, rfl, hlt, hcases⟩ := coResume_cases hco
    refine ⟨hid, Int.natCast_nonneg j, by omega, ?_⟩
    intro co hslot
    rw [Int.toNat_natCast] at hslot hmiss ⊢
    rcases hcases with ⟨hget, -⟩ | ⟨co', hget, hst, hctx, -⟩ | ⟨co', hget, hst, -⟩
    · exact nomatch hslot.symm.trans (slot_of_getElem? hget)
    · obtain rfl := Option.some.inj (hslot.symm.trans (slot_of_getElem? hget))
      refine .inr ⟨hctx, hst.imp_right fun hst => ⟨hst, fun b hb => ?_⟩⟩
      exact Bool.eq_false_iff.mpr fun hm => hmiss ⟨co, b, hslot, hst, hb, hm⟩
    · obtain rfl := Option.some.inj (hslot.symm.trans (slot_of_getElem? hget))
      exact .inl hst
  · rintro ⟨hid, hpos, hlt, hslots⟩
    obtain ⟨j, rfl⟩ := Int.eq_ofNat_of_zero_le hpos
    have hj : j < env.cap := by omega
    have hget := getElem?_co hw hj
    rw [Int.toNat_natCast] at hslots
    have hco : ∃ r, coResume env j = .ok r := by
      cases hslot : env.slot j with
      | none =>
        rw [hslot] at hget
        exact ⟨_, by simp [coResume, hid, hj, hget]; rfl⟩
      | some co =>
        rw [hslot] at hget
        rcases hslots co hslot with hst | ⟨hctx, hst | ⟨hst, -⟩⟩
        · exact ⟨_, by simp [coResume, hid, hj, hget, hst]; rfl⟩
        · exact ⟨_, by simp [coResume, hid, hj, hget, hst, hctx]; rfl⟩
        · exact ⟨_, by simp [coResume, hid, hj, hget, hst, hctx]; rfl⟩
    obtain ⟨⟨b, env'⟩, hco⟩ := hco
    rcases resumeHeap_ok hw hal hown hco with ⟨co, blocks, hslot, hst, hblocks, hmiss, -⟩ |
      ⟨held', h', hres, -, -⟩
    · rw [Int.toNat_natCast] at hslot hblocks
      rcases hslots co hslot with hst' | ⟨-, hst' | ⟨-, hsaved⟩⟩
      · exact absurd (hst.symm.trans hst') (by simp)
      · exact absurd (hst.symm.trans hst') (by simp)
      · exact absurd (hmiss.symm.trans (hsaved blocks hblocks)) (by simp)
    · exact ⟨_, hres⟩

/-- The private stack is one block or none, before and after. -/
theorem reserveHeap_ok {owned : List Nat} {b : Blocks} (hown : h.Owns (b.all ++ owned) lost)
    (depth : Nat) (ok : Bool) :
    ∃ b' h', reserveHeap h b depth ok = .ok (b', h') ∧ h'.Owns (b'.all ++ owned) lost := by
  unfold reserveHeap
  split
  · have hfirst : (b.all ++ owned).Perm
        (b.stack.toList ++ (b.ctx.toList ++ ([b.co] ++ owned))) := by
      rw [Blocks.all, List.append_assoc, List.append_assoc]
      exact List.perm_append_comm_assoc ..
    obtain ⟨h₁, hfree, hown₁⟩ := (hown.congr hfirst).freeAll
    rw [hfree, Run.ok_bind]
    cases ok with
    | true =>
      refine ⟨_, _, rfl, hown₁.alloc.congr ?_⟩
      rw [Blocks.all, List.append_assoc, List.append_assoc]
      exact List.perm_middle.symm
    | false =>
      refine ⟨_, _, rfl, ?_⟩
      rw [Blocks.all, List.append_assoc]
      exact hown₁
  · exact ⟨_, _, rfl, hown⟩

/-- **`co_swap` returns** where its table does. -/
theorem swapHeap_ok (hal : Aligned env held) (hown : h.Owns held.all lost)
    (hco : coSwap env = .ok env') (depth : Nat) (ok : Bool) :
    ∃ held' h', swapHeap env held h depth ok = .ok (env', held', h') ∧ Aligned env' held' ∧
      h'.Owns held'.all lost := by
  have hcap := hal.length_cos
  obtain ⟨j, co, hid, hget, rfl⟩ := leave_cases hco
  have hslot := slot_of_getElem? hget
  have hlt := (List.getElem?_eq_some_iff.mp hget).1
  obtain ⟨blocks, hblocks⟩ := hal.blocks hslot
  have hfirst : held.all.Perm (blocks.all ++
      ({ held with cos := held.cos.set j none } : Held).all) := (all_clear held hblocks).symm
  obtain ⟨b', h', hres, hown'⟩ := reserveHeap_ok (hown.congr hfirst) depth ok
  unfold swapHeap
  rw [hco, Run.ok_bind, hid, Int.toNat_natCast, hblocks, Option.join_some]
  dsimp only
  rw [hres, Run.ok_bind]
  refine ⟨_, _, rfl, ⟨List.length_set.trans hcap, fun k => ?_⟩, hown'.congr ?_⟩
  · have hltc : j < held.cos.length := (List.getElem?_eq_some_iff.mp hblocks).1
    rw [slot_set hlt]
    by_cases hk : k = j
    · subst hk
      rw [if_pos rfl, List.getElem?_set_self hltc]
      exact iff_of_false (Option.some_ne_none _) (Option.some_ne_none _)
    · rw [if_neg hk, List.getElem?_set_ne (Ne.symm hk)]
      exact hal.slot k
  · have hltc : j < held.cos.length := (List.getElem?_eq_some_iff.mp hblocks).1
    have hset := all_set { held with cos := held.cos.set j none } (j := j)
      (List.getElem?_set_self hltc) (some b')
    rw [List.set_set] at hset
    exact hset.symm

/-- The end of a coroutine touches no block. -/
theorem Aligned.ret (hal : Aligned env held) (hco : coMainReturn env = .ok env') :
    Aligned env' held := by
  obtain ⟨env₁, hleave, hret⟩ := Run.bind_eq_ok_iff.mp hco
  obtain rfl := Except.ok.inj hret
  obtain ⟨j, co, -, hget, rfl⟩ := leave_cases hleave
  have hlt := (List.getElem?_eq_some_iff.mp hget).1
  refine ⟨hal.length_cos, fun k => ?_⟩
  rw [slot_set hlt, hal.slot k]
  by_cases hk : k = j
  · subst hk
    rw [if_pos rfl, slot_of_getElem? hget]
    exact iff_of_false (Option.some_ne_none _) (Option.some_ne_none _)
  · rw [if_neg hk]

end Steps

/-! ## 5. Every run -/

/-- What an event loses. -/
def LifeEvent.leak : LifeEvent F A → Nat
  | .new _ _ alloc id => if id = -1 then alloc.lost else 0
  | _ => 0

theorem leaks_cons (e : LifeEvent F A) (history : List (LifeEvent F A)) :
    leaks (e :: history) = leaks history + e.leak := by
  cases e with
  | new func arg alloc id => rfl
  | «open» cap alloc => rfl
  | close => rfl
  | resume id => rfl
  | swap depth ok => rfl
  | ret => rfl

/-- **The step lemma.** -/
theorem LifeStep.ok {t t' : Thread F A} {e : LifeEvent F A} {n : Nat} (hs : LifeStep t e t')
    (hok : LifeOk t n) : LifeOk t' (n + e.leak) := by
  obtain ⟨lost, rfl, hok⟩ := hok
  cases hs with
  | @«open» _ _ cap alloc b hnone hopen =>
    have hown : t.heap.Owns [] lost := by
      cases hptr : t.ptr with
      | null => rw [hptr] at hok; exact hok
      | freed => rw [hptr] at hok; exact hok
      | opened env held => exact absurd hptr (hnone env held)
    obtain ⟨b', t'', hopen', hok'⟩ := openHeap_ok hown cap alloc
    obtain ⟨-, rfl⟩ := Prod.mk.inj (Except.ok.inj (hopen'.symm.trans hopen))
    exact hok'
  | close hmain hclose =>
    obtain ⟨ptr, heap⟩ := t
    cases ptr with
    | null =>
      obtain rfl := Except.ok.inj hclose
      exact ⟨lost, rfl, hok⟩
    | freed => exact absurd hclose (by simp [closeHeap])
    | opened env held =>
      obtain ⟨h', hclose', hown⟩ := closeHeap_ok env hok.1
      obtain rfl := Except.ok.inj (hclose'.symm.trans hclose)
      exact ⟨lost, rfl, hown⟩
  | @new env env' held held' h h' func arg alloc id hnew =>
    obtain ⟨hown, hw, hal⟩ := hok
    obtain ⟨hw', hal', more, hmore, hown'⟩ := newHeap_ok hw hal hown hnew
    refine ⟨more ++ lost, ?_, hown', hw', hal'⟩
    rw [List.length_append, hmore, Nat.add_comm]
    rfl
  | @resume env env' held held' h h' id b hres =>
    obtain ⟨hown, hw, hal⟩ := hok
    obtain ⟨⟨b₁, env₁⟩, hco, -⟩ := Run.bind_eq_ok_iff.mp hres
    rcases resumeHeap_ok hw hal hown hco with ⟨-, -, -, -, -, -, herr⟩ |
      ⟨held₁, h₁, hres', hal', hown'⟩
    · exact absurd (herr.symm.trans hres) nofun
    · obtain ⟨rfl, rfl, rfl, rfl⟩ := by simpa using hres'.symm.trans hres
      exact ⟨lost, rfl, hown', (Step.resume hco).wf hw, hal'⟩
  | @swap env env' held held' h h' depth ok hswap =>
    obtain ⟨hown, hw, hal⟩ := hok
    obtain ⟨env₁, hco, -⟩ := Run.bind_eq_ok_iff.mp hswap
    obtain ⟨held₁, h₁, hswap', hal', hown'⟩ := swapHeap_ok hal hown hco depth ok
    obtain ⟨rfl, rfl, rfl⟩ := by simpa using hswap'.symm.trans hswap
    exact ⟨lost, rfl, hown', (Step.swap hco).wf hw, hal'⟩
  | ret hret =>
    obtain ⟨hown, hw, hal⟩ := hok
    exact ⟨lost, rfl, hown, (Step.ret hret).wf hw, hal.ret hret⟩

/-- **The run lemma.** -/
theorem trace_life {t : Thread F A} : ∀ {history : List (LifeEvent F A)},
    Trace LifeStep bare history t → LifeOk t (leaks history)
  | [], .start => ⟨[], rfl, List.Perm.refl _, List.nodup_nil, nofun⟩
  | e :: history, .call htr hs => by
    rw [leaks_cons]
    exact hs.ok (trace_life htr)

/-- **The account of an environment.**  In every state of every run of a thread, over any number of
environments, the blocks that an open environment has are allocated and different, and besides them
exactly those are allocated that `co_new` lost when it gave up with `-1`: the coroutine it had
already made, and its context.  So `co_close`, called in the main function, returns, without a block
freed twice, and leaves these and nothing else; `co_new` and `co_swap` return where their table
does.  `co_resume` returns where its assertions hold and the slot is empty or its coroutine is one
that can be resumed: a context that could not be allocated stops it, and a private stack too. -/
theorem heap_exact {history : List (LifeEvent F A)} {t : Thread F A}
    (htr : Trace LifeStep bare history t) :
    t.heap.live.Nodup ∧
    ((∀ env held, t.ptr ≠ .opened env held) → t.heap.live.length = leaks history) ∧
    ∀ env held, t.ptr = .opened env held →
      (held.all.Nodup ∧ (∀ b ∈ held.all, b ∈ t.heap.live) ∧
        t.heap.live.length = held.all.length + leaks history) ∧
      (env.runningId = -1 →
        ∃ t', closeHeap t = .ok t' ∧ t'.ptr = .null ∧ t'.heap.live.length = leaks history) ∧
      (∀ func arg alloc r, coNew env func arg alloc = .ok r →
        ∃ r', newHeap env held t.heap func arg alloc = .ok r') ∧
      (∀ env' depth ok, coSwap env = .ok env' →
        ∃ held' h', swapHeap env held t.heap depth ok = .ok (env', held', h')) ∧
      ∀ id, (∃ r, resumeHeap env held t.heap id = .ok r) ↔
        env.runningId = -1 ∧ 0 ≤ id ∧ id < env.cap ∧
          ∀ co, env.slot id.toNat = some co → Resumable held id.toNat co := by
  obtain ⟨lost, hlost, hok⟩ := trace_life htr
  obtain ⟨ptr, heap⟩ := t
  have hnodup : heap.live.Nodup := by
    cases ptr with
    | null => exact Ledger.Owns.nodup hok
    | freed => exact Ledger.Owns.nodup hok
    | opened env held => exact hok.1.nodup
  refine ⟨hnodup, ?_, ?_⟩
  · intro hnone
    cases ptr with
    | null => exact (Ledger.Owns.length hok).trans ((Nat.zero_add _).trans hlost)
    | freed => exact (Ledger.Owns.length hok).trans ((Nat.zero_add _).trans hlost)
    | opened env held => exact absurd rfl (hnone env held)
  · rintro env held rfl
    obtain ⟨hown, hw, hal⟩ := hok
    refine ⟨⟨hown.nodup_owned, ?_, ?_⟩, ?_, ?_, ?_, ?_⟩
    · intro b hb
      exact hown.perm.mem_iff.mpr (List.mem_append_left lost hb)
    · rw [← hlost]
      exact hown.length
    · intro _
      obtain ⟨h', hclose, hown'⟩ := closeHeap_ok env hown
      exact ⟨_, hclose, rfl, hown'.length.trans ((Nat.zero_add _).trans hlost)⟩
    · intro func arg alloc r hco
      exact newHeap_returns hown hco
    · intro env' depth ok hco
      obtain ⟨held', h', hswap, -, -⟩ := swapHeap_ok hal hown hco depth ok
      exact ⟨held', h', hswap⟩
    · exact resumeHeap_returns_iff hw hal hown

/-- A coroutine that has switched once, and one that `co_new` lost. -/
def oneLost : Thread Unit Unit where
  ptr := .opened ⟨1, 1, -1, [some ⟨(), (), true, .suspend⟩]⟩
    ⟨0, 1, 2, [some ⟨3, some 4, 9, 9, some 7⟩]⟩
  heap := ⟨[7, 6, 5, 4, 3, 2, 1, 0], 8⟩

theorem trace_oneLost : Trace LifeStep bare [.swap 9 true, .resume 0,
    .new () () ⟨true, true, false⟩ (-1), .new () () Alloc.all 0, .open 1 ⟨true, true, true⟩]
    oneLost := by
  have hopen : Trace LifeStep bare [.open 1 ⟨true, true, true⟩]
      (⟨.opened ⟨0, 1, -1, [none]⟩ ⟨0, 1, 2, [none]⟩, ⟨[2, 1, 0], 3⟩⟩ : Thread Unit Unit) :=
    .call .start (.open (b := true) nofun rfl)
  have hnew : Trace LifeStep bare [.new () () Alloc.all 0, .open 1 ⟨true, true, true⟩]
      ⟨.opened ⟨1, 1, -1, [some ⟨(), (), true, .ready⟩]⟩
        ⟨0, 1, 2, [some ⟨3, some 4, 0, 0, none⟩]⟩, ⟨[4, 3, 2, 1, 0], 5⟩⟩ := .call hopen (.new rfl)
  have hrun : Trace LifeStep bare [.resume 0, .new () () ⟨true, true, false⟩ (-1),
      .new () () Alloc.all 0, .open 1 ⟨true, true, true⟩]
      ⟨.opened ⟨1, 1, 0, [some ⟨(), (), true, .running⟩]⟩
        ⟨0, 1, 2, [some ⟨3, some 4, 0, 0, none⟩]⟩, ⟨[6, 5, 4, 3, 2, 1, 0], 7⟩⟩ :=
    .call (.call hnew (.new rfl)) (.resume (b := true) rfl)
  exact .call hrun (.swap rfl)

theorem heap_exact_oneLost : oneLost.heap.live.length = 8 ∧
    ∃ t', closeHeap oneLost = .ok t' ∧ t'.heap.live.length = 2 := by
  obtain ⟨-, -, hopened⟩ := heap_exact trace_oneLost
  obtain ⟨-, hclose, -⟩ := hopened _ _ rfl
  obtain ⟨t', hclose, -, hlen⟩ := hclose rfl
  exact ⟨rfl, t', hclose, hlen⟩

/-- `co_open` sets `env` first. -/
theorem openHeap_freed {t t' : Thread F A} {cap : UInt16} {alloc : OpenAlloc} {b : Bool}
    (hopen : openHeap t cap alloc = .ok (b, t')) :
    t'.ptr = .freed ↔ alloc.env = true ∧ (alloc.table = false ∨ alloc.main = false) := by
  obtain ⟨env, table, main⟩ := alloc
  unfold openHeap at hopen
  cases env with
  | false =>
    obtain ⟨-, rfl⟩ := Prod.mk.inj (Except.ok.inj hopen)
    exact iff_of_false nofun nofun
  | true =>
    cases table with
    | false =>
      obtain ⟨h, -, hopen⟩ := Run.bind_eq_ok_iff.mp hopen
      obtain ⟨-, rfl⟩ := Prod.mk.inj (Except.ok.inj hopen)
      exact iff_of_true rfl ⟨rfl, .inl rfl⟩
    | true =>
      cases main with
      | false =>
        obtain ⟨h₂, -, hopen⟩ := Run.bind_eq_ok_iff.mp hopen
        obtain ⟨h₁, -, hopen⟩ := Run.bind_eq_ok_iff.mp hopen
        obtain ⟨-, rfl⟩ := Prod.mk.inj (Except.ok.inj hopen)
        exact iff_of_true rfl ⟨rfl, .inr rfl⟩
      | true =>
        obtain ⟨-, rfl⟩ := Prod.mk.inj (Except.ok.inj hopen)
        exact iff_of_false nofun (fun ⟨_, hfail⟩ => by simp at hfail)

/-- **When `co_close` goes wrong.**  After any run of a thread, called in the main function, it
works on a block that is freed exactly if the last call was a `co_open` that got the environment,
but not its table or the context of the main function. -/
theorem close_faults_iff {history : List (LifeEvent F A)} {t : Thread F A}
    (htr : Trace LifeStep bare history t) :
    (∃ e, closeHeap t = .error e) ↔ ∃ cap alloc earlier, history = .open cap alloc :: earlier ∧
      alloc.env = true ∧ (alloc.table = false ∨ alloc.main = false) := by
  have hfaults : (∃ e, closeHeap t = .error e) ↔ t.ptr = .freed := by
    obtain ⟨lost, -, hok⟩ := trace_life htr
    obtain ⟨ptr, heap⟩ := t
    cases ptr with
    | null => exact iff_of_false nofun nofun
    | freed => exact iff_of_true ⟨_, rfl⟩ rfl
    | opened env held =>
      obtain ⟨h', hclose, -⟩ := closeHeap_ok env hok.1
      refine iff_of_false ?_ nofun
      rintro ⟨e, herr⟩
      exact absurd (hclose.symm.trans herr) nofun
  rw [hfaults]
  cases htr with
  | start => exact iff_of_false nofun nofun
  | @call history s _ e htr hs =>
    cases hs with
    | @«open» _ _ cap alloc b _ hopen =>
      rw [openHeap_freed hopen]
      constructor
      · exact fun hfail => ⟨cap, alloc, history, rfl, hfail⟩
      · rintro ⟨cap', alloc', earlier, heq, hfail⟩
        obtain ⟨heq, -⟩ := List.cons.inj heq
        obtain ⟨-, rfl⟩ := LifeEvent.open.inj heq
        exact hfail
    | close _ hclose =>
      refine iff_of_false ?_ (fun ⟨_, _, _, heq, _⟩ => nomatch heq)
      obtain ⟨ptr, heap⟩ := s
      cases ptr with
      | null =>
        obtain rfl := Except.ok.inj hclose
        nofun
      | freed => exact absurd hclose nofun
      | opened env held =>
        obtain ⟨h₁, -, hclose⟩ := Run.bind_eq_ok_iff.mp hclose
        obtain ⟨h₂, -, hclose⟩ := Run.bind_eq_ok_iff.mp hclose
        obtain ⟨h₃, -, hclose⟩ := Run.bind_eq_ok_iff.mp hclose
        obtain ⟨h₄, -, hclose⟩ := Run.bind_eq_ok_iff.mp hclose
        obtain rfl := Except.ok.inj hclose
        nofun
    | new _ => exact iff_of_false nofun (fun ⟨_, _, _, heq, _⟩ => nomatch heq)
    | resume _ => exact iff_of_false nofun (fun ⟨_, _, _, heq, _⟩ => nomatch heq)
    | swap _ => exact iff_of_false nofun (fun ⟨_, _, _, heq, _⟩ => nomatch heq)
    | ret _ => exact iff_of_false nofun (fun ⟨_, _, _, heq, _⟩ => nomatch heq)

/-- No context for the main function. -/
theorem close_faults_iff_noMain :
    ∃ e, closeHeap (⟨.freed, ⟨[], 2⟩⟩ : Thread Unit Unit) = .error e :=
  have hopen : LifeStep (bare : Thread Unit Unit) (.open 3 ⟨true, true, false⟩) ⟨.freed, ⟨[], 2⟩⟩ :=
    .open (b := false) nofun rfl
  (close_faults_iff (.call .start hopen)).mpr ⟨3, ⟨true, true, false⟩, [], rfl, rfl, .inr rfl⟩

end CDemo.Co
