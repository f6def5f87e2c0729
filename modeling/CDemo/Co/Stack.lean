/-
# The shared stack (`co.c`)

All coroutines of an environment run on one stack.  `co_swap` copies the part that is in use to a
buffer of the coroutine's own (`_save_stack`), and `co_resume` copies it back; a coroutine that
runs for the first time starts on whatever the others have left.

The buffer is only ever replaced by a larger one, so its capacity and the number of bytes it
holds are two things, and both differ from coroutine to coroutine.

The stack is a block of bytes, and addresses on it are offsets from `env->stack`.  What the running
coroutine does to it is any change at all; the return address that `swap_ctx` pushes on the way
into a coroutine is one of these.  Every `memcpy` is checked: outside its block it stops the run.
Allocations succeed, and a copy of no bytes is no access.
-/
import CDemo.Co.Sched
import Mathlib.Logic.Function.Basic

namespace CDemo.Co

variable {F A : Type}

/-! ## 1. The data -/

/-- `memcpy` from the `n` bytes at offset `i` of a block. -/
def load (block : List UInt8) (i n : Nat) : Run (List UInt8) :=
  if i + n ≤ block.length then .ok ((block.drop i).take n) else .error .outOfBounds

/-- `memcpy` to offset `i` of a block. -/
def store (block : List UInt8) (i : Nat) (bytes : List UInt8) : Run (List UInt8) :=
  if i + bytes.length ≤ block.length then
    .ok (block.take i ++ (bytes ++ block.drop (i + bytes.length)))
  else .error .outOfBounds

/-- `cap`, `size` and `stack` of a `coroutine`. -/
structure Private where
  cap : Nat
  size : Nat
  stack : Option (List UInt8)
  deriving DecidableEq, Repr

/-- The environment with its shared stack, and what each slot's coroutine has of its own. -/
structure Machine (F A : Type) where
  env : Env F A
  stackSize : Nat
  stack : List UInt8
  priv : Nat → Private

/-- The size `co_open` gives the shared stack: a multiple of 8, one mebibyte for 0. -/
def shareStackSize (n : Nat) : Nat := ((if n = 0 then 1024 * 1024 else n) + 7) / 8 * 8

/-- `co_open`, when it returns `true`. -/
def openStack (cap : UInt16) (n : Nat) : Machine F A where
  env := coOpen cap
  stackSize := shareStackSize n
  stack := List.replicate (shareStackSize n) 0
  priv := fun _ => ⟨0, 0, none⟩

/-! ## 2. The functions -/

/-- The part of `_save_stack` before the copy: a buffer that is large enough, whose bytes nobody
set, and the new size. -/
def Private.reserve (p : Private) (depth : Nat) (junk : Nat → UInt8) : Private :=
  if p.cap < depth then ⟨depth, depth, some ((List.range depth).map junk)⟩
  else { p with size := depth }

/-- The copy of `_save_stack`, from offset `i` of the shared stack. -/
def Private.fill (p : Private) (stack : List UInt8) (i : Nat) : Run Private :=
  match p.stack with
  | none => .ok p
  | some block => do
    let bytes ← load stack i p.size
    let block ← store block 0 bytes
    .ok { p with stack := some block }

/-- `_save_stack`, with its locals `co` and `dummy` at these offsets.  The second `assert` compares
with an unsigned number, so `dummy` is not above the stack either. -/
def saveStack (m : Machine F A) (j : Nat) (co dummy : Int) (junk : Nat → UInt8) :
    Run Private := do
  Run.assert (decide (0 < co))
  let depth := m.stackSize - dummy
  Run.assert (decide (0 ≤ depth ∧ depth ≤ m.stackSize))
  ((m.priv j).reserve depth.toNat junk).fill m.stack dummy.toNat

/-- `co_swap`, up to the context switch. -/
def swapStack (m : Machine F A) (co dummy : Int) (junk : Nat → UInt8) : Run (Machine F A) := do
  let env ← coSwap m.env
  let j := m.env.runningId.toNat
  let p ← saveStack m j co dummy junk
  .ok { m with env := env, priv := Function.update m.priv j p }

/-- The first `size` bytes at `co->stack`. -/
def Private.bytes (p : Private) : Run (List UInt8) :=
  match p.stack with
  | none => if p.size = 0 then .ok [] else .error .nullPointer
  | some block => load block 0 p.size

/-- The `memcpy` of `co_resume`. -/
def restore (m : Machine F A) (p : Private) : Run (List UInt8) := do
  let bytes ← p.bytes
  store m.stack (m.stackSize - p.size) bytes

/-- `co_resume`, up to the context switch. -/
def resumeStack (m : Machine F A) (id : Int) : Run (Bool × Machine F A) := do
  let (b, env) ← coResume m.env id
  if isSuspended m.env id.toNat then
    let stack ← restore m (m.priv id.toNat)
    .ok (b, { m with env := env, stack := stack })
  else .ok (b, { m with env := env })

/-! ## 3. The runs -/

/-- What can happen: the events of the environment, and the running coroutine changing the
stack. -/
inductive StackEvent (F A : Type) where
  | new (func : F) (arg : A)
  | write (bytes : List UInt8)
  | resume (id : Int)
  | swap (co dummy : Int) (junk : Nat → UInt8)
  | ret

inductive StackStep : Machine F A → StackEvent F A → Machine F A → Prop
  | new {m : Machine F A} {func : F} {arg : A} {id : Int} {env : Env F A} :
      coNew m.env func arg Alloc.all = .ok (id, env) → StackStep m (.new func arg)
        { m with env := env, priv := Function.update m.priv id.toNat ⟨0, 0, none⟩ }
  | write {m : Machine F A} {bytes : List UInt8} : 0 ≤ m.env.runningId →
      bytes.length = m.stack.length → StackStep m (.write bytes) { m with stack := bytes }
  | resume {m m' : Machine F A} {id : Int} {b : Bool} :
      resumeStack m id = .ok (b, m') → StackStep m (.resume id) m'
  | swap {m m' : Machine F A} {co dummy : Int} {junk : Nat → UInt8} :
      swapStack m co dummy junk = .ok m' → StackStep m (.swap co dummy junk) m'
  | ret {m : Machine F A} {env : Env F A} :
      coMainReturn m.env = .ok env → StackStep m .ret { m with env := env }

/-! ## 4. Saving and restoring -/

/-- The bytes a coroutine has put aside. -/
def Private.saved (p : Private) : List UInt8 := (p.stack.getD []).take p.size

/-- A buffer of `cap` bytes, of which `size` are in use, no more than the shared stack has. -/
structure Private.Fits (p : Private) (n : Nat) : Prop where
  size_le : p.size ≤ p.cap
  le : p.size ≤ n
  block : (p.stack.getD []).length = p.cap

theorem load_ok {block : List UInt8} {i n : Nat} (h : i + n ≤ block.length) :
    load block i n = .ok ((block.drop i).take n) := if_pos h

theorem store_ok {block bytes : List UInt8} {i : Nat} (h : i + bytes.length ≤ block.length) :
    store block i bytes = .ok (block.take i ++ (bytes ++ block.drop (i + bytes.length))) :=
  if_pos h

/-- **The buffer is large enough afterwards**, and holds what it must hold. -/
theorem reserve_fits {p : Private} {n depth : Nat} (h : p.Fits n) (hd : depth ≤ n)
    (junk : Nat → UInt8) : (p.reserve depth junk).Fits n ∧ (p.reserve depth junk).size = depth := by
  unfold Private.reserve
  split
  · exact ⟨⟨le_rfl, hd, by simp⟩, rfl⟩
  · next hcap => exact ⟨⟨Nat.not_lt.mp hcap, hd, h.block⟩, rfl⟩

/-- The copy puts the top of the stack aside. -/
theorem fill_spec {p : Private} {n : Nat} {stack : List UInt8} {i : Nat} (hp : p.Fits n)
    (hn : stack.length = n) (hsize : p.size = n - i) (hi : i ≤ n) :
    ∃ p', p.fill stack i = .ok p' ∧ p'.Fits n ∧ p'.size = p.size ∧ p'.saved = stack.drop i := by
  have hsize_le := hp.size_le
  unfold Private.fill
  cases hstack : p.stack with
  | none =>
    have hcap : 0 = p.cap := by simpa [hstack] using hp.block
    refine ⟨p, rfl, hp, rfl, ?_⟩
    rw [Private.saved, hstack, Option.getD_none, List.take_nil, List.drop_eq_nil_of_le (by omega)]
  | some block =>
    have hblock : block.length = p.cap := by simpa [hstack] using hp.block
    have hlen : (stack.drop i).length = p.size := by rw [List.length_drop, hsize, hn]
    have htop : (stack.drop i).take p.size = stack.drop i := List.take_of_length_le (by omega)
    dsimp only
    rw [load_ok (by omega), Run.ok_bind, htop, store_ok (by omega), Run.ok_bind]
    refine ⟨_, rfl, ⟨hp.size_le, hp.le, ?_⟩, rfl, ?_⟩
    · show (block.take 0 ++ (stack.drop i ++ block.drop (0 + (stack.drop i).length))).length = p.cap
      rw [hlen, List.take_zero, List.nil_append, List.length_append, hlen, List.length_drop]
      omega
    · show (block.take 0 ++ (stack.drop i ++
        block.drop (0 + (stack.drop i).length))).take p.size = _
      rw [List.take_zero, List.nil_append, List.take_left' hlen]

/-- **What `_save_stack` does** when its assertions hold. -/
theorem saveStack_spec {m : Machine F A} {j : Nat} (hfit : (m.priv j).Fits m.stackSize)
    (hlen : m.stack.length = m.stackSize) {co dummy : Int} (hco : 0 < co) (h0 : 0 ≤ dummy)
    (hn : dummy ≤ m.stackSize) (junk : Nat → UInt8) :
    ∃ p, saveStack m j co dummy junk = .ok p ∧ p.Fits m.stackSize ∧
      p.size = m.stackSize - dummy.toNat ∧ p.saved = m.stack.drop dummy.toNat := by
  have hdepth : ((m.stackSize : Int) - dummy).toNat = m.stackSize - dummy.toNat := by omega
  have hassert : (0 : Int) ≤ m.stackSize - dummy ∧ (m.stackSize : Int) - dummy ≤ m.stackSize := by
    omega
  obtain ⟨hp, hsize⟩ := reserve_fits hfit (Nat.sub_le m.stackSize dummy.toNat) junk
  obtain ⟨p, hfill, hp', hsize', hsaved⟩ := fill_spec hp hlen hsize (by omega)
  refine ⟨p, ?_, hp', hsize'.trans hsize, hsaved⟩
  refine Run.bind_of_eq (by rw [decide_eq_true hco]; rfl) ?_
  refine Run.bind_of_eq (by rw [decide_eq_true hassert]; rfl) ?_
  rw [hdepth]
  exact hfill

/-- `_save_stack` stops only where an assertion stops it. -/
theorem saveStack_cases (m : Machine F A) (j : Nat) (co dummy : Int) (junk : Nat → UInt8) :
    saveStack m j co dummy junk = .error .assertFailed ∨
      (0 < co ∧ 0 ≤ dummy ∧ dummy ≤ m.stackSize) := by
  by_cases hco : 0 < co
  swap
  · left
    rw [saveStack, decide_eq_false hco]
    rfl
  by_cases hd : (0 : Int) ≤ m.stackSize - dummy ∧ (m.stackSize : Int) - dummy ≤ m.stackSize
  · exact .inr ⟨hco, by omega, by omega⟩
  · left
    refine Run.bind_of_eq (by rw [decide_eq_true hco]; rfl) ?_
    dsimp only
    rw [decide_eq_false hd]
    rfl

/-- **What the `memcpy` of `co_resume` does**: the saved bytes are the top of the stack again. -/
theorem restore_spec {m : Machine F A} {p : Private} (hfit : p.Fits m.stackSize)
    (hlen : m.stack.length = m.stackSize) :
    restore m p = .ok (m.stack.take (m.stackSize - p.size) ++ p.saved) ∧
      p.saved.length = p.size := by
  have hle := hfit.le
  have hsize := hfit.size_le
  have hsaved : p.saved.length = p.size := by
    rw [Private.saved, List.length_take, hfit.block]
    omega
  have hbytes : p.bytes = .ok p.saved := by
    unfold Private.bytes
    cases hstack : p.stack with
    | none =>
      have hcap : 0 = p.cap := by simpa [hstack] using hfit.block
      rw [Private.saved, hstack, Option.getD_none, List.take_nil]
      exact if_pos (by omega)
    | some block =>
      have hblock : block.length = p.cap := by simpa [hstack] using hfit.block
      dsimp only
      rw [load_ok (by omega), Private.saved, hstack]
      rfl
  refine ⟨?_, hsaved⟩
  rw [restore, hbytes, Run.ok_bind, store_ok (by omega), hsaved, List.drop_eq_nil_of_le (by omega),
    List.append_nil]

/-! ## 5. Slots over a step -/

/-- `co_new` fills a slot that held `NULL` and leaves the others. -/
theorem coNew_slot {env env' : Env F A} (hw : Wf env) {func : F} {arg : A} {id : Int}
    (h : coNew env func arg Alloc.all = .ok (id, env')) :
    env.slot id.toNat = none ∧ ∀ j, j ≠ id.toNat → env'.slot j = env.slot j := by
  rcases coNew_cases h with ⟨-, hfalse, -⟩ | ⟨-, -, rfl, rfl⟩ | ⟨-, k, rfl, hscan, rfl⟩
  · exact absurd hfalse (by decide)
  · refine ⟨slot_eq_none_of_le hw le_rfl, fun j hj => ?_⟩
    exact (slot_grown hw (by omega) j).trans (if_neg hj)
  · have hnull := scan_some hscan
    refine ⟨slot_of_getElem? hnull, fun j hj => ?_⟩
    exact (slot_set (List.getElem?_eq_some_iff.mp hnull).1 j).trans (if_neg hj)

/-- `co_resume` changes no slot but its own, and fills none. -/
theorem coResume_slot {env env' : Env F A} {id : Int} {b : Bool}
    (h : coResume env id = .ok (b, env')) :
    (∀ j, j ≠ id.toNat → env'.slot j = env.slot j) ∧
      ∀ j co, env'.slot j = some co → ∃ co, env.slot j = some co := by
  obtain ⟨-, k, rfl, -, ⟨-, -, rfl⟩ | ⟨co, hk, -, -, -, rfl⟩ | ⟨co, hk, -, -, rfl⟩⟩ :=
    coResume_cases h
  · exact ⟨fun _ _ => rfl, fun j co hco => ⟨co, hco⟩⟩
  all_goals
    have hlt := (List.getElem?_eq_some_iff.mp hk).1
    refine ⟨fun j hj => (slot_set hlt j).trans (if_neg hj), fun j co' hco => ?_⟩
    rw [slot_set hlt] at hco
    split at hco
    · next hjk => exact ⟨co, by rw [hjk]; exact slot_of_getElem? hk⟩
    · exact ⟨co', hco⟩

/-- `co_swap` and the end of `_co_main` change the slot of the running coroutine. -/
theorem leave_slots {env env' : Env F A} {status : Status} (h : leave env status = .ok env') :
    ∃ (k : Nat) (co : Coroutine F A), env.runningId = k ∧ env.slot k = some co ∧
      env'.slot k = some { co with status := status } ∧
      ∀ nco j, j ≠ k → Env.slot { env' with nco := nco } j = env.slot j := by
  obtain ⟨k, co, hid, hk, rfl⟩ := leave_cases h
  have hlt := (List.getElem?_eq_some_iff.mp hk).1
  exact ⟨k, co, hid, slot_of_getElem? hk, by rw [slot_set hlt, if_pos rfl],
    fun nco j hj => by rw [slot_set hlt, if_neg hj]⟩

/-! ## 6. What every run keeps -/

/-- **The invariant**: the scheduler's, the stack has its size, and every buffer fits. -/
structure Stacks (m : Machine F A) : Prop where
  sched : Sched m.env
  length : m.stack.length = m.stackSize
  fits : ∀ j co, m.env.slot j = some co → (m.priv j).Fits m.stackSize

theorem stacks_open (cap : UInt16) (n : Nat) : Stacks (openStack cap n : Machine F A) :=
  ⟨sched_coOpen cap, List.length_replicate, fun _ _ _ =>
    ⟨le_rfl, Nat.zero_le _, rfl⟩⟩

/-- **What a returning `co_resume` does to the stacks.** -/
theorem resumeStack_cases {m m' : Machine F A} {id : Int} {b : Bool}
    (h : resumeStack m id = .ok (b, m')) :
    ∃ env, coResume m.env id = .ok (b, env) ∧
      ((isSuspended m.env id.toNat = true ∧ ∃ stack, restore m (m.priv id.toNat) = .ok stack ∧
        m' = { m with env := env, stack := stack }) ∨
      (isSuspended m.env id.toNat = false ∧ m' = { m with env := env })) := by
  obtain ⟨⟨b', env⟩, hres, h⟩ := Run.bind_eq_ok_iff.mp h
  dsimp only at h
  cases hs : isSuspended m.env id.toNat with
  | true =>
    rw [hs, if_pos rfl] at h
    obtain ⟨stack, hstack, h⟩ := Run.bind_eq_ok_iff.mp h
    obtain ⟨rfl, rfl⟩ := Prod.mk.inj (Except.ok.inj h)
    exact ⟨env, hres, .inl ⟨rfl, stack, hstack, rfl⟩⟩
  | false =>
    rw [hs, if_neg (by simp)] at h
    obtain ⟨rfl, rfl⟩ := Prod.mk.inj (Except.ok.inj h)
    exact ⟨env, hres, .inr ⟨rfl, rfl⟩⟩

/-- **What a returning `co_swap` does**: the top of the stack is saved for the coroutine that
ran. -/
theorem swapStack_cases {m m' : Machine F A} (hm : Stacks m) {co dummy : Int} {junk : Nat → UInt8}
    (h : swapStack m co dummy junk = .ok m') :
    ∃ (env : Env F A) (p : Private), coSwap m.env = .ok env ∧ p.Fits m.stackSize ∧
      p.size = m.stackSize - dummy.toNat ∧ p.saved = m.stack.drop dummy.toNat ∧
      m' = { m with env := env, priv := Function.update m.priv m.env.runningId.toNat p } := by
  obtain ⟨env, hswap, h⟩ := Run.bind_eq_ok_iff.mp h
  obtain ⟨p, hsave, h⟩ := Run.bind_eq_ok_iff.mp h
  obtain rfl := Except.ok.inj h
  obtain ⟨k, c, hid, hk, -, -⟩ := leave_slots hswap
  rw [hid, Int.toNat_natCast] at hsave ⊢
  rcases saveStack_cases m k co dummy junk with herr | ⟨hco, h0, hn⟩
  · exact absurd (hsave.symm.trans herr) (by simp)
  · obtain ⟨p', hsave', hfit, hsize, hsaved⟩ :=
      saveStack_spec (hm.fits k c hk) hm.length hco h0 hn junk
    obtain rfl := Except.ok.inj (hsave.symm.trans hsave')
    exact ⟨env, p, hswap, hfit, hsize, hsaved, rfl⟩

/-- **The step lemma.** -/
theorem StackStep.stacks {m m' : Machine F A} {e : StackEvent F A} (hs : StackStep m e m')
    (hm : Stacks m) : Stacks m' ∧ m'.stackSize = m.stackSize := by
  cases hs with
  | @new func arg id env hn =>
    obtain ⟨-, hslot⟩ := coNew_slot hm.sched.wf hn
    refine ⟨⟨sched_new hm.sched hn, hm.length, fun j co hj => ?_⟩, rfl⟩
    dsimp only at hj ⊢
    by_cases hji : j = id.toNat
    · rw [hji, Function.update_self]
      exact ⟨le_rfl, Nat.zero_le _, rfl⟩
    · rw [Function.update_of_ne hji]
      rw [hslot j hji] at hj
      exact hm.fits j co hj
  | write _ hlen => exact ⟨⟨hm.sched, hlen.trans hm.length, hm.fits⟩, rfl⟩
  | @resume _ id b hr =>
    obtain ⟨env, hres, hcases⟩ := resumeStack_cases hr
    have hfits : ∀ j co, env.slot j = some co → (m.priv j).Fits m.stackSize := by
      intro j co hj
      obtain ⟨co, hco⟩ := (coResume_slot hres).2 j co hj
      exact hm.fits j co hco
    rcases hcases with ⟨hsusp, stack, hstack, rfl⟩ | ⟨-, rfl⟩
    · obtain ⟨co, hco, -⟩ := isSuspended_iff.mp hsusp
      obtain ⟨hrestore, hsaved⟩ := restore_spec (hm.fits _ co hco) hm.length
      obtain rfl := Except.ok.inj (hstack.symm.trans hrestore)
      refine ⟨⟨sched_resume hm.sched hres, ?_, hfits⟩, rfl⟩
      have hle := (hm.fits _ co hco).le
      have hlen := hm.length
      rw [List.length_append, List.length_take, hsaved]
      dsimp only
      omega
    · exact ⟨⟨sched_resume hm.sched hres, hm.length, hfits⟩, rfl⟩
  | swap hsw =>
    obtain ⟨env, p, hswap, hfit, -, -, rfl⟩ := swapStack_cases hm hsw
    obtain ⟨k, c, hid, -, -, hothers⟩ := leave_slots hswap
    refine ⟨⟨EventStep.sched (.swap hswap) hm.sched, hm.length, fun j co hj => ?_⟩, rfl⟩
    dsimp only at hj ⊢
    rw [hid, Int.toNat_natCast]
    by_cases hjk : j = k
    · rw [hjk, Function.update_self]
      exact hfit
    · rw [Function.update_of_ne hjk]
      rw [hothers env.nco j hjk] at hj
      exact hm.fits j co hj
  | @ret env hr =>
    refine ⟨⟨EventStep.sched (.ret hr) hm.sched, hm.length, fun j co hj => ?_⟩, rfl⟩
    obtain ⟨env', hleave, hr⟩ := Run.bind_eq_ok_iff.mp hr
    obtain rfl := Except.ok.inj hr
    obtain ⟨k, c, -, hk, -, hothers⟩ := leave_slots hleave
    by_cases hjk : j = k
    · rw [hjk]
      exact hm.fits k c hk
    · rw [hothers _ j hjk] at hj
      exact hm.fits j co hj

/-- **The run lemma.** -/
theorem trace_stacks {m m' : Machine F A} {history : List (StackEvent F A)} (hm : Stacks m)
    (htr : Trace StackStep m history m') : Stacks m' ∧ m'.stackSize = m.stackSize := by
  refine Trace.invariant (I := fun m' => Stacks m' ∧ m'.stackSize = m.stackSize) ⟨hm, rfl⟩ ?_ htr
  rintro t e u ⟨ht, hsize⟩ hs
  obtain ⟨hu, hsize'⟩ := hs.stacks ht
  exact ⟨hu, hsize'.trans hsize⟩

/-! ## 7. Suspended coroutines -/

/-- Coroutine `j` is suspended, and `p` is what it has of its own. -/
def Asleep (m : Machine F A) (j : Nat) (p : Private) : Prop :=
  isSuspended m.env j = true ∧ m.priv j = p

theorem isSuspended_congr {env env' : Env F A} {j : Nat} (h : env'.slot j = env.slot j) :
    isSuspended env' j = isSuspended env j := by
  rw [isSuspended, isSuspended, h]

/-- **Nobody but `co_resume(j)` wakes a suspended coroutine or touches what it saved.** -/
theorem StackStep.asleep {m m' : Machine F A} {e : StackEvent F A} (hs : StackStep m e m')
    (hm : Stacks m) {j : Nat} {p : Private} (hne : e ≠ .resume j) (h : Asleep m j p) :
    Asleep m' j p := by
  obtain ⟨hsusp, hp⟩ := h
  obtain ⟨c, hc, hst⟩ := isSuspended_iff.mp hsusp
  -- the running coroutine is another one
  have hrun : ∀ (k : Nat) (c' : Coroutine F A), m.env.runningId = k → m.env.slot k = some c' →
      j ≠ k := by
    rintro k c' hid hk rfl
    have hstatus := (hm.sched.running j c hc).mpr hid
    rw [hst] at hstatus
    exact absurd hstatus (by simp)
  cases hs with
  | @new func arg id env hn =>
    obtain ⟨hnull, hslot⟩ := coNew_slot hm.sched.wf hn
    have hji : j ≠ id.toNat := by
      rintro rfl
      rw [hnull] at hc
      exact absurd hc (by simp)
    exact ⟨(isSuspended_congr (hslot j hji)).trans hsusp, (Function.update_of_ne hji _ _).trans hp⟩
  | write _ _ => exact ⟨hsusp, hp⟩
  | @resume _ id b hr =>
    obtain ⟨env, hres, hcases⟩ := resumeStack_cases hr
    have hji : j ≠ id.toNat := by
      obtain ⟨-, k, rfl, -, -⟩ := coResume_cases hres
      intro hjk
      rw [Int.toNat_natCast] at hjk
      exact hne (by rw [hjk])
    have hsame := (isSuspended_congr ((coResume_slot hres).1 j hji)).trans hsusp
    rcases hcases with ⟨-, stack, -, rfl⟩ | ⟨-, rfl⟩
    · exact ⟨hsame, hp⟩
    · exact ⟨hsame, hp⟩
  | swap hsw =>
    obtain ⟨env, p', hswap, -, -, -, rfl⟩ := swapStack_cases hm hsw
    obtain ⟨k, c', hid, hk, -, hothers⟩ := leave_slots hswap
    have hjk := hrun k c' hid hk
    refine ⟨(isSuspended_congr (hothers env.nco j hjk)).trans hsusp, ?_⟩
    dsimp only
    rw [hid, Int.toNat_natCast, Function.update_of_ne hjk, hp]
  | @ret env hr =>
    obtain ⟨env', hleave, hr⟩ := Run.bind_eq_ok_iff.mp hr
    obtain rfl := Except.ok.inj hr
    obtain ⟨k, c', hid, hk, -, hothers⟩ := leave_slots hleave
    exact ⟨(isSuspended_congr (hothers _ j (hrun k c' hid hk))).trans hsusp, hp⟩

/-- The same over a run in which `j` is not resumed. -/
theorem trace_asleep {m : Machine F A} (hm : Stacks m) {j : Nat} {p : Private} (h : Asleep m j p) :
    ∀ {later : List (StackEvent F A)} {m' : Machine F A}, Trace StackStep m later m' →
      StackEvent.resume j ∉ later → Asleep m' j p
  | [], _, .start, _ => h
  | e :: later, _, .call htr hs, hne => by
    have hlater := trace_asleep hm h htr fun hmem => hne (List.mem_cons_of_mem _ hmem)
    exact hs.asleep (trace_stacks hm htr).1 (fun he => hne (by rw [he]; exact List.mem_cons_self))
      hlater

/-- `co_swap` puts the coroutine that ran to sleep. -/
theorem swapStack_asleep {m m' : Machine F A} (hm : Stacks m) {co dummy : Int}
    {junk : Nat → UInt8} {j : Nat} (hid : m.env.runningId = j)
    (h : swapStack m co dummy junk = .ok m') :
    ∃ p, Asleep m' j p ∧ p.Fits m.stackSize ∧ p.size = m.stackSize - dummy.toNat ∧
      p.saved = m.stack.drop dummy.toNat := by
  obtain ⟨env, p, hswap, hfit, hsize, hsaved, rfl⟩ := swapStack_cases hm h
  obtain ⟨k, c, hid', -, hk, -⟩ := leave_slots hswap
  obtain rfl : j = k := Int.ofNat_inj.mp (hid.symm.trans hid')
  refine ⟨p, ⟨isSuspended_iff.mpr ⟨_, hk, rfl⟩, ?_⟩, hfit, hsize, hsaved⟩
  dsimp only
  rw [hid, Int.toNat_natCast, Function.update_self]

/-- **Waking up.** -/
theorem resumeStack_asleep {m : Machine F A} (hm : Stacks m) (hid : m.env.runningId = -1) {j : Nat}
    {p : Private} (h : Asleep m j p) (hfit : p.Fits m.stackSize) :
    ∃ m', resumeStack m j = .ok (true, m') ∧ m'.priv j = p ∧ m'.stackSize = m.stackSize ∧
      m'.stack = m.stack.take (m.stackSize - p.size) ++ p.saved := by
  obtain ⟨hsusp, hp⟩ := h
  obtain ⟨c, hc, hst⟩ := isSuspended_iff.mp hsusp
  have hget := getElem?_of_slot hc
  have hctx := (hm.sched.made j c hc).2
  have hj : j < m.env.cap := by
    rw [← hm.sched.wf.length_co]
    exact (List.getElem?_eq_some_iff.mp hget).1
  obtain ⟨env, hres⟩ : ∃ env, coResume m.env j = .ok (true, env) := by
    simp [coResume, hid, hj, hget, hst, hctx]
  refine ⟨{ m with env := env, stack := m.stack.take (m.stackSize - p.size) ++ p.saved },
    Run.bind_of_eq hres ?_, hp, rfl, rfl⟩
  dsimp only
  rw [Int.toNat_natCast, if_pos hsusp, hp]
  exact Run.bind_of_eq (restore_spec hfit hm.length).1 rfl

/-! ## 8. Nothing but an assertion stops a switch -/

theorem coResume_failsOnly {env : Env F A} (h : Sched env) (id : Int) :
    Run.FailsOnly (coResume env id) (· = .assertFailed) := by
  intro e he
  unfold coResume at he
  by_cases h1 : env.runningId = -1
  swap
  · rw [decide_eq_false h1] at he
    exact (Except.error.inj he).symm
  by_cases h2 : 0 ≤ id ∧ id < env.cap
  swap
  · rw [decide_eq_true h1, decide_eq_false h2] at he
    exact (Except.error.inj he).symm
  have hget := getElem?_co h.wf (show id.toNat < env.cap by omega)
  rw [decide_eq_true h1, decide_eq_true h2, Run.assert_true, Run.ok_bind, Run.ok_bind] at he
  dsimp only at he
  rw [hget] at he
  cases hslot : env.slot id.toNat with
  | none =>
    rw [hslot] at he
    exact absurd he (by simp)
  | some co =>
    rw [hslot] at he
    have hctx := (h.made _ co hslot).2
    cases hst : co.status <;> simp_all

theorem leave_failsOnly {env : Env F A} (h : Sched env) (status : Status) :
    Run.FailsOnly (leave env status) (· = .assertFailed) := by
  intro e he
  unfold leave at he
  rcases h.named with hid | ⟨j, c, hid, hj⟩
  · rw [hid] at he
    exact (Except.error.inj he).symm
  · have hget := getElem?_of_slot hj
    rw [hid, Int.toNat_natCast, hget] at he
    rw [decide_eq_true (Int.natCast_nonneg j)] at he
    exact absurd he (by simp)

/-- `co_resume` stops at an assertion or not at all. -/
theorem resumeStack_failsOnly {m : Machine F A} (hm : Stacks m) (id : Int) :
    Run.FailsOnly (resumeStack m id) (· = .assertFailed) := by
  refine Run.FailsOnly.bind (coResume_failsOnly hm.sched id) ?_
  rintro ⟨b, env⟩ -
  dsimp only
  split
  · next hsusp =>
    obtain ⟨co, hco, -⟩ := isSuspended_iff.mp hsusp
    rw [(restore_spec (hm.fits _ co hco) hm.length).1]
    exact .ok
  · exact .ok

/-- So does `co_swap`. -/
theorem swapStack_failsOnly {m : Machine F A} (hm : Stacks m) (co dummy : Int)
    (junk : Nat → UInt8) : Run.FailsOnly (swapStack m co dummy junk) (· = .assertFailed) := by
  refine Run.FailsOnly.bind (leave_failsOnly hm.sched _) ?_
  intro env hswap
  obtain ⟨k, c, hid, hk, -, -⟩ := leave_slots hswap
  dsimp only
  rw [hid, Int.toNat_natCast]
  rcases saveStack_cases m k co dummy junk with herr | ⟨hco, h0, hn⟩
  · rw [herr]
    exact .error rfl
  · obtain ⟨p, hsave, -⟩ := saveStack_spec (hm.fits k c hk) hm.length hco h0 hn junk
    rw [hsave]
    exact .ok

/-! ## 9. Isolation -/

/-- The top `n` bytes of the shared stack. -/
def Machine.top (m : Machine F A) (n : Nat) : List UInt8 := m.stack.drop (m.stackSize - n)

/-- **Every coroutine finds the stack it left.**  In every state of every run no `memcpy` of
`co_swap` or `co_resume` leaves the shared stack or a private buffer: only an assertion stops them.
And from every `co_swap` of coroutine `j` on, through whatever happens in which `j` is not resumed,
`co_resume(j)` from the main function runs it with the top of the stack, as many bytes as were in
use, exactly as it was. -/
theorem shared_stack {cap : UInt16} {n : Nat} {history : List (StackEvent F A)} {m : Machine F A}
    (htr : Trace StackStep (openStack cap n) history m) :
    (∀ id, Run.FailsOnly (resumeStack m id) (· = .assertFailed)) ∧
    (∀ co dummy junk, Run.FailsOnly (swapStack m co dummy junk) (· = .assertFailed)) ∧
    ∀ (j : Nat) (co dummy : Int) (junk : Nat → UInt8) (m₁ m₂ : Machine F A)
      (later : List (StackEvent F A)), m.env.runningId = j →
      swapStack m co dummy junk = .ok m₁ → Trace StackStep m₁ later m₂ →
      StackEvent.resume j ∉ later → m₂.env.runningId = -1 →
      ∃ m₃, resumeStack m₂ j = .ok (true, m₃) ∧
        (m₃.priv j).size = m.stackSize - dummy.toNat ∧
        m₃.top (m₃.priv j).size = m.top (m₃.priv j).size := by
  have hm := (trace_stacks (stacks_open cap n) htr).1
  refine ⟨resumeStack_failsOnly hm, swapStack_failsOnly hm, ?_⟩
  intro j co dummy junk m₁ m₂ later hid hswap htr₂ hne hid₂
  obtain ⟨p, hasleep, hfit, hsize, hsaved⟩ := swapStack_asleep hm hid hswap
  obtain ⟨hm₁, hsize₁⟩ := StackStep.stacks (.swap hswap) hm
  obtain ⟨hm₂, hsize₂⟩ := trace_stacks hm₁ htr₂
  have hn : m₂.stackSize = m.stackSize := hsize₂.trans hsize₁
  rw [← hn] at hfit
  obtain ⟨m₃, hres, hp, hsize₃, hstack⟩ :=
    resumeStack_asleep hm₂ hid₂ (trace_asleep hm₁ hasleep htr₂ hne) hfit
  refine ⟨m₃, hres, by rw [hp, hsize], ?_⟩
  have hlen : (m₂.stack.take (m₂.stackSize - p.size)).length = m₂.stackSize - p.size := by
    rw [List.length_take, hm₂.length]
    omega
  have hle := hfit.le
  have hd : m.stack.drop dummy.toNat = m.stack.drop (m.stackSize - p.size) := by
    rcases Nat.le_total dummy.toNat m.stackSize with hd | hd
    · congr 1
      omega
    · rw [List.drop_eq_nil_of_le (by rw [hm.length]; omega),
        List.drop_eq_nil_of_le (by rw [hm.length]; omega)]
  rw [Machine.top, Machine.top, hp, hstack, hsize₃, List.drop_left' hlen, hsaved, hd]

/-- Two coroutines on a stack of eight bytes: the first fills it and switches with three bytes in
use. -/
def firstFilled : Machine Unit Unit where
  env := ⟨2, 3, 0, [some ⟨(), (), true, .running⟩, some ⟨(), (), true, .ready⟩, none]⟩
  stackSize := 8
  stack := [1, 2, 3, 4, 5, 6, 7, 8]
  priv := Function.update (Function.update (fun _ => ⟨0, 0, none⟩) 0 ⟨0, 0, none⟩) 1 ⟨0, 0, none⟩

/-- The state after its `co_swap`. -/
def firstSaved : Machine Unit Unit :=
  { firstFilled with
    env := ⟨2, 3, -1, [some ⟨(), (), true, .suspend⟩, some ⟨(), (), true, .ready⟩, none]⟩
    priv := Function.update firstFilled.priv 0 ⟨3, 3, some [6, 7, 8]⟩ }

/-- The second has overwritten all of the stack and switched with all of it in use. -/
def secondSaved : Machine Unit Unit :=
  { firstSaved with
    env := ⟨2, 3, -1, [some ⟨(), (), true, .suspend⟩, some ⟨(), (), true, .suspend⟩, none]⟩
    stack := List.replicate 8 9
    priv := Function.update firstSaved.priv 1 ⟨8, 8, some (List.replicate 8 9)⟩ }

theorem trace_firstFilled : Trace StackStep (openStack 3 8)
    [.write [1, 2, 3, 4, 5, 6, 7, 8], .resume 0, .new () (), .new () ()] firstFilled := by
  refine .call (.call (.call (.call .start
    (.new (show coNew _ () () Alloc.all = .ok (0, _) from rfl)))
    (.new (show coNew _ () () Alloc.all = .ok (1, _) from rfl)))
    (.resume (b := true) rfl)) (.write (by decide) rfl)

/-- The second coroutine's turn. -/
theorem trace_secondSaved : Trace StackStep firstSaved
    [.swap 1 0 fun _ => 0, .write (List.replicate 8 9), .resume 1] secondSaved := by
  refine .call (.call (.call .start (.resume (b := true) rfl)) (.write (by decide) rfl)) (.swap rfl)

theorem shared_stack_twoCoroutines :
    Trace StackStep (openStack 3 8)
      [.write [1, 2, 3, 4, 5, 6, 7, 8], .resume 0, .new () (), .new () ()] firstFilled ∧
    ∃ m₃, resumeStack secondSaved 0 = .ok (true, m₃) ∧ (m₃.priv 0).size = 3 ∧
      m₃.top 3 = [6, 7, 8] := by
  obtain ⟨-, -, h⟩ := shared_stack trace_firstFilled
  obtain ⟨m₃, hres, hsize, htop⟩ := h 0 1 5 (fun _ => 0) firstSaved secondSaved _ rfl rfl
    trace_secondSaved (by simp) rfl
  have hsize' : (m₃.priv 0).size = 3 := hsize
  rw [hsize'] at htop
  exact ⟨trace_firstFilled, m₃, hres, hsize', htop⟩

end CDemo.Co
