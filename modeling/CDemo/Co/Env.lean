/-
# The coroutine environment (`co.c`)

One thread's coroutine environment is a table of slots, the number `nco` of coroutines that
have not finished, the capacity `cap` of the table and the id of the coroutine that runs.
This file embeds the functions that change it -- `co_open`, `co_new`, `co_resume`, `co_swap`
and the end of `_co_main` -- for the build without `USE_NATIVE_CO`, and the runs they give.

A context switch is where one function stops and another continues, so `co_resume` is cut
there: the step ends with the coroutine running, and the coroutine goes on with `co_swap` or
by returning from its function.  What a coroutine does in between is any sequence of calls of
`co_new`, and the run takes them in any order.

Two things of the source are visible here because they decide what a call does: which
allocations succeed (`Alloc`), and that `co[id]` outside the table is an access to memory the
environment does not own.  The private stacks are not part of this file.
-/
import CDemo.Lib.Run
import Mathlib.Data.Nat.Bitwise
import Mathlib.Tactic.Ring

namespace CDemo.Co

/-! ## 1. The data -/

/-- `state`. -/
inductive Status where
  | none
  | ready
  | running
  | suspend
  | stoped
  deriving DecidableEq, Repr

/-- `coroutine`: its function and argument, whether `new_ctx` gave it a context, and its
status. -/
structure Coroutine (F A : Type) where
  func : F
  arg : A
  ctx : Bool
  status : Status
  deriving DecidableEq, Repr

/-- `co_env`: a slot that holds `NULL` is `none`. -/
structure Env (F A : Type) where
  nco : Nat
  cap : Nat
  runningId : Int
  co : List (Option (Coroutine F A))
  deriving DecidableEq, Repr

/-- The outcomes of the three allocations `co_new` can make: the `calloc` of the coroutine,
the `calloc` of its context and the `realloc` of the table. -/
structure Alloc where
  co : Bool
  ctx : Bool
  table : Bool
  deriving DecidableEq, Repr

variable {F A : Type}

/-- What slot `j` holds; there is nothing outside the table. -/
def Env.slot (env : Env F A) (j : Nat) : Option (Coroutine F A) := env.co[j]?.join

/-! ## 2. The functions -/

/-- The loop of `_align`: double `n` until it exceeds `cap`. -/
def alignLoop (cap : Nat) : Nat → Nat → Nat
  | 0, n => n
  | rounds + 1, n => if n ≤ cap then alignLoop cap rounds (n <<< 1) else n

/-- `_align`: the least `2^k - 1` that is at least `cap`; sixteen rounds are enough for a
`uint16_t`. -/
def align (cap : UInt16) : Nat := alignLoop cap.toNat 16 1 - 1

/-- `co_open`, when it returns `true`. -/
def coOpen (cap : UInt16) : Env F A :=
  let cap := if cap = 0 then 15 else align cap
  { nco := 0, cap := cap, runningId := -1, co := List.replicate cap none }

/-- `_co_new`: `NULL` when the `calloc` fails; a failed `new_ctx` goes unnoticed. -/
def coNewAlloc (func : F) (arg : A) (alloc : Alloc) : Option (Coroutine F A) :=
  if alloc.co then some ⟨func, arg, alloc.ctx, .ready⟩ else none

/-- The scan of `co_new` from round `i` on, with `n` rounds left: the first slot
`(i + nco) & cap` that holds `NULL`, or nothing when the rounds are used up. -/
def scan (env : Env F A) : Nat → Nat → Run (Option Nat)
  | _, 0 => .ok none
  | i, n + 1 =>
    let id := (i + env.nco) &&& env.cap
    match env.co[id]? with
    | none => .error .outOfBounds
    | some none => .ok (some id)
    | some (some _) => scan env (i + 1) n

/-- `co_new`. -/
def coNew (env : Env F A) (func : F) (arg : A) (alloc : Alloc) : Run (Int × Env F A) := do
  let co := coNewAlloc func arg alloc
  if env.nco ≥ env.cap then
    let id := env.cap
    let cap := id * 2 + 1
    Run.assert (decide ((cap + 1) &&& cap = 0 ∧ cap > 0))
    if alloc.table = false then
      return (-1, env)
    let grown := env.co ++ List.replicate (cap - id) none
    return (id, { env with nco := env.nco + 1, cap := cap, co := grown.set id co })
  match ← scan env 0 env.cap with
  | some id => return (id, { env with nco := env.nco + 1, co := env.co.set id co })
  | none => .error .assertFailed

/-- `co_resume`, up to the context switch: `true` with the coroutine running, or `false`
with control still in the caller. -/
def coResume (env : Env F A) (id : Int) : Run (Bool × Env F A) := do
  Run.assert (decide (env.runningId = -1))
  Run.assert (decide (0 ≤ id ∧ id < env.cap))
  let run (co : Coroutine F A) : Run (Bool × Env F A) :=
    if co.ctx then
      .ok (true, { env with
        runningId := id, co := env.co.set id.toNat (some { co with status := .running }) })
    else .error .nullPointer
  match env.co[id.toNat]? with
  | none => .error .outOfBounds
  | some none => return (false, env)
  | some (some co) =>
    match co.status with
    | .ready => run co
    | .suspend => run co
    | .stoped => return (false, { env with co := env.co.set id.toNat none })
    | _ => .error .assertFailed

/-- Marks the running coroutine and leaves no coroutine running: what `co_swap` and the end
of `_co_main` share. -/
def leave (env : Env F A) (status : Status) : Run (Env F A) := do
  Run.assert (decide (0 ≤ env.runningId))
  match env.co[env.runningId.toNat]? with
  | none => .error .outOfBounds
  | some none => .error .nullPointer
  | some (some co) =>
    return { env with
      runningId := -1, co := env.co.set env.runningId.toNat (some { co with status := status }) }

/-- `co_swap`, up to the context switch. -/
def coSwap (env : Env F A) : Run (Env F A) := leave env .suspend

/-- The end of `_co_main`, after the coroutine's function has returned. -/
def coMainReturn (env : Env F A) : Run (Env F A) := do
  let env ← leave env .stoped
  return { env with nco := env.nco - 1 }

/-! ## 3. The runs -/

/-- One call that returns or hands control over. -/
inductive Step : Env F A → Env F A → Prop
  | new {env env' : Env F A} {func : F} {arg : A} {alloc : Alloc} {id : Int} :
      coNew env func arg alloc = .ok (id, env') → Step env env'
  | resume {env env' : Env F A} {id : Int} {b : Bool} :
      coResume env id = .ok (b, env') → Step env env'
  | swap {env env' : Env F A} : coSwap env = .ok env' → Step env env'
  | ret {env env' : Env F A} : coMainReturn env = .ok env' → Step env env'

/-- A state some run from `co_open` reaches. -/
inductive Reachable : Env F A → Prop
  | start (cap : UInt16) : Reachable (coOpen cap)
  | step {env env' : Env F A} : Reachable env → Step env env' → Reachable env'

/-! ## 4. What every run keeps -/

/-- The table has `cap` slots, `cap` is `2^k - 1`, and no more coroutines are counted than
there are slots. -/
structure Wf (env : Env F A) : Prop where
  length_co : env.co.length = env.cap
  cap_eq : ∃ k, 1 ≤ k ∧ env.cap = 2 ^ k - 1
  nco_le : env.nco ≤ env.cap

theorem alignLoop_pow (cap : Nat) : ∀ (rounds j : Nat), ∃ k, j ≤ k ∧
    alignLoop cap rounds (2 ^ j) = 2 ^ k
  | 0, j => ⟨j, Nat.le_refl j, rfl⟩
  | rounds + 1, j => by
    unfold alignLoop
    split
    · obtain ⟨k, hk, he⟩ := alignLoop_pow cap rounds (j + 1)
      refine ⟨k, by omega, ?_⟩
      rw [Nat.shiftLeft_eq, ← Nat.pow_add]
      exact he
    · exact ⟨j, Nat.le_refl j, rfl⟩

/-- The granted rounds are enough: the result of `_align` is not below `cap`. -/
theorem lt_alignLoop (cap : Nat) : ∀ (rounds j : Nat), cap < 2 ^ (j + rounds) →
    cap < alignLoop cap rounds (2 ^ j)
  | 0, j, h => by simpa [alignLoop] using h
  | rounds + 1, j, h => by
    unfold alignLoop
    split
    · rw [Nat.shiftLeft_eq, ← Nat.pow_add]
      exact lt_alignLoop cap rounds (j + 1) (by rwa [Nat.add_right_comm j 1 rounds])
    · omega

theorem le_align (cap : UInt16) : cap.toNat ≤ align cap := by
  have h := lt_alignLoop cap.toNat 16 0 (by simpa using cap.toNat_lt)
  simp only [Nat.pow_zero] at h
  unfold align
  omega

theorem align_eq {cap : UInt16} (h : cap ≠ 0) : ∃ k, 1 ≤ k ∧ align cap = 2 ^ k - 1 := by
  obtain ⟨k, -, hk⟩ := alignLoop_pow cap.toNat 16 0
  refine ⟨k, ?_, by rw [align, ← hk, Nat.pow_zero]⟩
  have hle := le_align cap
  have hpos : cap.toNat ≠ 0 := fun h0 => h (UInt16.toNat_inj.mp (by simpa using h0))
  rcases Nat.eq_zero_or_pos k with rfl | hk1
  · rw [Nat.pow_zero] at hk
    rw [align, hk] at hle
    omega
  · exact hk1

theorem wf_coOpen (cap : UInt16) : Wf (coOpen cap : Env F A) where
  length_co := by simp [coOpen]
  cap_eq := by
    by_cases h : cap = 0
    · exact ⟨4, by decide, by simp [coOpen, h]⟩
    · obtain ⟨k, hk, he⟩ := align_eq h
      exact ⟨k, hk, by simp [coOpen, h, he]⟩
  nco_le := by simp [coOpen]

/-- `&` with a `2^k - 1` capacity is the remainder modulo `cap + 1`. -/
theorem Wf.and_cap {env : Env F A} (h : Wf env) (x : Nat) :
    x &&& env.cap = x % (env.cap + 1) := by
  obtain ⟨k, -, hk⟩ := h.cap_eq
  rw [hk, Nat.and_two_pow_sub_one_eq_mod, Nat.sub_add_cancel Nat.one_le_two_pow]

/-- The grown capacity passes `_IsValidCap`. -/
theorem Wf.grown_valid {env : Env F A} (h : Wf env) :
    (env.cap * 2 + 1 + 1) &&& (env.cap * 2 + 1) = 0 ∧ env.cap * 2 + 1 > 0 := by
  obtain ⟨k, -, hk⟩ := h.cap_eq
  have h2 : env.cap * 2 + 1 = 2 ^ (k + 1) - 1 := by
    have h1 : 1 ≤ 2 ^ k := Nat.one_le_two_pow
    rw [hk, Nat.pow_succ]
    omega
  refine ⟨?_, Nat.succ_pos _⟩
  rw [h2, Nat.sub_add_cancel Nat.one_le_two_pow, Nat.and_two_pow_sub_one_eq_mod, Nat.mod_self]

/-- **What the scan can return.**  The id it finds is an index of the table whose slot holds
`NULL`. -/
theorem scan_some {env : Env F A} : ∀ {n i id : Nat}, scan env i n = .ok (some id) →
    env.co[id]? = some none
  | 0, i, id, h => by simp [scan] at h
  | n + 1, i, id, h => by
    unfold scan at h
    dsimp only at h
    split at h
    · exact absurd h (by simp)
    · rename_i hs
      simp only [Except.ok.injEq, Option.some.injEq] at h
      rw [← h]
      exact hs
    · exact scan_some h

/-- **What a returning `co_new` does**: it gives up with `-1`, it grows the table, or it fills
a slot of the table that held `NULL`. -/
theorem coNew_cases {env env' : Env F A} {func : F} {arg : A} {alloc : Alloc} {id : Int}
    (h : coNew env func arg alloc = .ok (id, env')) :
    (env.cap ≤ env.nco ∧ alloc.table = false ∧ id = -1 ∧ env' = env) ∨
    (env.cap ≤ env.nco ∧ alloc.table = true ∧ id = env.cap ∧ env' =
      { env with
        nco := env.nco + 1, cap := env.cap * 2 + 1,
        co := (env.co ++ List.replicate (env.cap * 2 + 1 - env.cap) none).set env.cap
          (coNewAlloc func arg alloc) }) ∨
    (env.nco < env.cap ∧ ∃ k : Nat, id = k ∧ scan env 0 env.cap = .ok (some k) ∧ env' =
      { env with nco := env.nco + 1, co := env.co.set k (coNewAlloc func arg alloc) }) := by
  unfold coNew at h
  by_cases hc : env.nco ≥ env.cap
  · simp only [hc, if_true] at h
    obtain ⟨u, -, h⟩ := Run.bind_eq_ok_iff.mp h
    by_cases ht : alloc.table = false
    · simp only [ht, if_true, Run.pure_eq_ok, Except.ok.injEq, Prod.mk.injEq] at h
      exact Or.inl ⟨hc, ht, h.1.symm, h.2.symm⟩
    · rw [if_neg ht] at h
      simp only [Run.pure_eq_ok, Except.ok.injEq, Prod.mk.injEq] at h
      exact Or.inr (Or.inl ⟨hc, by simpa using ht, h.1.symm, h.2.symm⟩)
  · simp only [hc, if_false] at h
    obtain ⟨r, hr, h⟩ := Run.bind_eq_ok_iff.mp h
    cases r with
    | none => exact absurd h (by simp)
    | some k =>
      simp only [Run.pure_eq_ok, Except.ok.injEq, Prod.mk.injEq] at h
      exact Or.inr (Or.inr ⟨by omega, k, h.1.symm, hr, h.2.symm⟩)

/-- A step of `co_resume` keeps the counter, the capacity and the number of slots. -/
theorem coResume_frame {env env' : Env F A} {id : Int} {b : Bool}
    (h : coResume env id = .ok (b, env')) :
    env'.nco = env.nco ∧ env'.cap = env.cap ∧ env'.co.length = env.co.length := by
  unfold coResume at h
  obtain ⟨-, -, h⟩ := Run.bind_eq_ok_iff.mp h
  obtain ⟨-, -, h⟩ := Run.bind_eq_ok_iff.mp h
  dsimp only at h
  split at h
  · exact absurd h (by simp)
  · simp only [Run.pure_eq_ok, Except.ok.injEq, Prod.mk.injEq] at h
    simp [← h.2]
  · split at h
    · split at h
      · simp only [Except.ok.injEq, Prod.mk.injEq] at h
        simp [← h.2]
      · exact absurd h (by simp)
    · split at h
      · simp only [Except.ok.injEq, Prod.mk.injEq] at h
        simp [← h.2]
      · exact absurd h (by simp)
    · simp only [Run.pure_eq_ok, Except.ok.injEq, Prod.mk.injEq] at h
      simp [← h.2]
    · exact absurd h (by simp)

theorem leave_frame {env env' : Env F A} {status : Status} (h : leave env status = .ok env') :
    env'.nco = env.nco ∧ env'.cap = env.cap ∧ env'.co.length = env.co.length := by
  unfold leave at h
  obtain ⟨-, -, h⟩ := Run.bind_eq_ok_iff.mp h
  split at h
  · exact absurd h (by simp)
  · exact absurd h (by simp)
  · simp only [Run.pure_eq_ok, Except.ok.injEq] at h
    simp [← h]

/-- **The step lemma.** -/
theorem Step.wf {env env' : Env F A} (hs : Step env env') (h : Wf env) : Wf env' := by
  obtain ⟨hlen, ⟨k, hk1, hk⟩, hnco⟩ := h
  cases hs with
  | new hn =>
    rcases coNew_cases hn with ⟨-, -, -, rfl⟩ | ⟨-, -, -, rfl⟩ | ⟨hlt, -, -, -, rfl⟩
    · exact ⟨hlen, ⟨k, hk1, hk⟩, hnco⟩
    · refine ⟨by simp [hlen]; omega, ⟨k + 1, by omega, ?_⟩, by dsimp only; omega⟩
      have h1 : 1 ≤ 2 ^ k := Nat.one_le_two_pow
      dsimp only
      rw [hk, Nat.pow_succ]
      omega
    · exact ⟨by simpa using hlen, ⟨k, hk1, hk⟩, hlt⟩
  | resume hr =>
    obtain ⟨h1, h2, h3⟩ := coResume_frame hr
    exact ⟨by rw [h3, h2, hlen], ⟨k, hk1, by rw [h2, hk]⟩, by rw [h1, h2]; exact hnco⟩
  | swap hw =>
    obtain ⟨h1, h2, h3⟩ := leave_frame hw
    exact ⟨by rw [h3, h2, hlen], ⟨k, hk1, by rw [h2, hk]⟩, by rw [h1, h2]; exact hnco⟩
  | ret hr =>
    obtain ⟨e, he, hr⟩ := Run.bind_eq_ok_iff.mp hr
    obtain ⟨h1, h2, h3⟩ := leave_frame he
    simp only [Run.pure_eq_ok, Except.ok.injEq] at hr
    subst hr
    exact ⟨by rw [h3, h2, hlen], ⟨k, hk1, by rw [h2, hk]⟩, by dsimp only; omega⟩

/-- **The run lemma.** -/
theorem Reachable.wf {env : Env F A} (h : Reachable env) : Wf env := by
  induction h with
  | start cap => exact wf_coOpen cap
  | step _ hs ih => exact hs.wf ih

end CDemo.Co
