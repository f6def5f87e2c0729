/-
# The invariant of the scheduler

Status, `running_id` and `nco` are written in four functions, on both sides of a context switch:
`co_resume` marks a coroutine as running and sets the id, `co_swap` and the end of `_co_main`
take both back, `_co_main` alone lowers the count, and the slot is released by a later
`co_resume`.  `Sched` is what holds between any two of these steps, whoever takes them: the main
function and the running coroutine may both call `co_new` in between.

A run is a history of events.  Here every allocation succeeds; an access outside the table is
no step.
-/
import CDemo.Co.New
import CDemo.Lib.Trace

namespace CDemo.Co

variable {F A : Type}

/-! ## 1. Events -/

/-- What can happen: `co_new`, `co_resume` up to the switch, `co_swap` up to the switch, and a
coroutine's function returning. -/
inductive Event (F A : Type) where
  | new (func : F) (arg : A)
  | resume (id : Int)
  | swap
  | ret

/-- The event, with every allocation succeeding. -/
inductive EventStep : Env F A → Event F A → Env F A → Prop
  | new {env env' : Env F A} {func : F} {arg : A} {id : Int} :
      coNew env func arg Alloc.all = .ok (id, env') → EventStep env (.new func arg) env'
  | resume {env env' : Env F A} {id : Int} {b : Bool} :
      coResume env id = .ok (b, env') → EventStep env (.resume id) env'
  | swap {env env' : Env F A} : coSwap env = .ok env' → EventStep env .swap env'
  | ret {env env' : Env F A} : coMainReturn env = .ok env' → EventStep env .ret env'

theorem EventStep.step {env env' : Env F A} {e : Event F A} (h : EventStep env e env') :
    Step env env' := by
  cases h with
  | new h => exact .new h
  | resume h => exact .resume h
  | swap h => exact .swap h
  | ret h => exact .ret h

/-- The slot holds a suspended coroutine. -/
def isSuspended (env : Env F A) (j : Nat) : Bool :=
  match env.slot j with
  | some co => co.status = .suspend
  | none => false

theorem isSuspended_iff {env : Env F A} {j : Nat} :
    isSuspended env j = true ↔ ∃ co, env.slot j = some co ∧ co.status = .suspend := by
  unfold isSuspended
  cases env.slot j with
  | none => simp
  | some co => simp

/-! ## 2. What each function does -/

/-- **What a returning `co_resume` does**: nothing when the slot holds `NULL`, the coroutine runs
when it is ready or suspended, and a stopped one is released. -/
theorem coResume_cases {env env' : Env F A} {id : Int} {b : Bool}
    (h : coResume env id = .ok (b, env')) :
    env.runningId = -1 ∧ ∃ j : Nat, id = j ∧ j < env.cap ∧
      ((env.co[j]? = some none ∧ b = false ∧ env' = env) ∨
      (∃ co, env.co[j]? = some (some co) ∧ (co.status = .ready ∨ co.status = .suspend) ∧
        co.ctx = true ∧ b = true ∧ env' = { env with
          runningId := j, co := env.co.set j (some { co with status := .running }) }) ∨
      (∃ co, env.co[j]? = some (some co) ∧ co.status = .stoped ∧ b = false ∧
        env' = { env with co := env.co.set j none })) := by
  unfold coResume at h
  obtain ⟨_, h1, h⟩ := Run.bind_eq_ok_iff.mp h
  obtain ⟨_, h2, h⟩ := Run.bind_eq_ok_iff.mp h
  obtain ⟨hid0, hid⟩ := of_decide_eq_true (Run.assert_ok h2)
  refine ⟨of_decide_eq_true (Run.assert_ok h1), id.toNat, by omega, by omega, ?_⟩
  have hrun : ∀ co : Coroutine F A, ((if co.ctx then
      .ok (true, { env with
        runningId := id, co := env.co.set id.toNat (some { co with status := .running }) })
      else .error .nullPointer : Run (Bool × Env F A)) = .ok (b, env')) → co.ctx = true ∧ b = true ∧
      env' = { env with
        runningId := id.toNat,
        co := env.co.set id.toNat (some { co with status := .running }) } := by
    intro co hco
    split at hco
    · next hctx =>
      simp only [Except.ok.injEq, Prod.mk.injEq] at hco
      refine ⟨hctx, hco.1.symm, ?_⟩
      rw [← hco.2, Int.toNat_of_nonneg hid0]
    · exact absurd hco (by simp)
  dsimp only at h
  split at h
  · exact absurd h (by simp)
  · next hs =>
    simp only [Run.pure_eq_ok, Except.ok.injEq, Prod.mk.injEq] at h
    exact .inl ⟨hs, h.1.symm, h.2.symm⟩
  · next co hs =>
    split at h
    · next hst => exact .inr (.inl ⟨co, hs, .inl hst, hrun co h⟩)
    · next hst => exact .inr (.inl ⟨co, hs, .inr hst, hrun co h⟩)
    · next hst =>
      simp only [Run.pure_eq_ok, Except.ok.injEq, Prod.mk.injEq] at h
      exact .inr (.inr ⟨co, hs, hst, h.1.symm, h.2.symm⟩)
    · exact absurd h (by simp)

/-- What `co_swap` and the end of `_co_main` do. -/
theorem leave_cases {env env' : Env F A} {status : Status} (h : leave env status = .ok env') :
    ∃ (j : Nat) (co : Coroutine F A), env.runningId = j ∧ env.co[j]? = some (some co) ∧
      env' = { env with
        runningId := -1, co := env.co.set j (some { co with status := status }) } := by
  unfold leave at h
  obtain ⟨_, h1, h⟩ := Run.bind_eq_ok_iff.mp h
  have hid := of_decide_eq_true (Run.assert_ok h1)
  split at h
  · exact absurd h (by simp)
  · exact absurd h (by simp)
  · next co hs =>
    simp only [Run.pure_eq_ok, Except.ok.injEq] at h
    exact ⟨_, co, by omega, hs, h.symm⟩

theorem getElem?_of_slot {env : Env F A} {j : Nat} {c : Coroutine F A}
    (h : env.slot j = some c) : env.co[j]? = some (some c) :=
  Option.join_eq_some_iff.mp h

/-! ## 3. The invariant -/

/-- Ready, running or suspended: not yet finished. -/
def Status.live : Status → Bool
  | .ready | .running | .suspend => true
  | _ => false

/-- The slot holds a coroutine that has not finished. -/
def isLive : Option (Coroutine F A) → Bool
  | some co => co.status.live
  | none => false

/-- **The invariant.**  `nco` counts the coroutines that have not finished; the running one is
the one `running_id` names, and it names none exactly when none runs; every coroutine has its
context and a status of its own. -/
structure Sched (env : Env F A) : Prop where
  wf : Wf env
  count : env.nco = env.co.countP isLive
  running : ∀ j c, env.slot j = some c → (c.status = .running ↔ env.runningId = j)
  named : env.runningId = -1 ∨ ∃ (j : Nat) (c : Coroutine F A), env.runningId = j ∧
    env.slot j = some c
  made : ∀ j c, env.slot j = some c → c.status ≠ .none ∧ c.ctx = true

theorem sched_coOpen (cap : UInt16) : Sched (coOpen cap : Env F A) := by
  have hslot : ∀ (j : Nat) (c : Coroutine F A), (coOpen cap : Env F A).slot j ≠ some c := by
    intro j c hc
    have hmem := List.mem_of_getElem? (getElem?_of_slot hc)
    exact absurd (List.eq_of_mem_replicate hmem) (by simp)
  refine ⟨wf_coOpen cap, ?_, fun j c hc => absurd hc (hslot j c), .inl rfl,
    fun j c hc => absurd hc (hslot j c)⟩
  refine (List.countP_eq_zero.mpr fun c hc => ?_).symm
  rw [List.eq_of_mem_replicate hc]
  simp [isLive]

/-- The count after one slot was written. -/
theorem countP_set_slot {co : List (Option (Coroutine F A))} {j : Nat}
    {old c : Option (Coroutine F A)} (hj : co[j]? = some old) :
    (co.set j c).countP isLive + (if isLive old then 1 else 0) =
      co.countP isLive + (if isLive c then 1 else 0) := by
  obtain ⟨hlt, hget⟩ := List.getElem?_eq_some_iff.mp hj
  have hle := List.boole_getElem_le_countP (p := isLive) hlt
  rw [List.countP_set hlt]
  rw [hget] at hle ⊢
  omega

/-- **Writing one slot.**  What has to be checked when slot `j` goes from `old` to `c`, the count
to `nco` and the id to `id`: the count moves with the slot, and the new id names the running
coroutine. -/
theorem Sched.write {env : Env F A} (h : Sched env) {nco j : Nat} {id : Int}
    {old c : Option (Coroutine F A)} (hj : env.co[j]? = some old)
    (hnco : nco + (if isLive old then 1 else 0) = env.nco + (if isLive c then 1 else 0))
    (hle : nco ≤ env.cap)
    (hself : ∀ co, c = some co → (co.status = .running ↔ id = j) ∧ co.status ≠ .none ∧
      co.ctx = true)
    (hother : ∀ k, k ≠ j → (env.runningId = (k : Nat) ↔ id = (k : Nat)))
    (hnamed : id = -1 ∨ ∃ k co, id = (k : Nat) ∧
      Env.slot ⟨nco, env.cap, id, env.co.set j c⟩ k = some co) :
    Sched ⟨nco, env.cap, id, env.co.set j c⟩ := by
  obtain ⟨hlt, -⟩ := List.getElem?_eq_some_iff.mp hj
  refine ⟨⟨by rw [List.length_set]; exact h.wf.length_co, h.wf.cap_eq, hle⟩, ?_, ?_, hnamed, ?_⟩
  · have hcount := countP_set_slot (c := c) hj
    have := h.count
    dsimp only
    omega
  · intro k co hk
    rw [slot_set hlt] at hk
    split at hk
    · next hkj =>
      subst hkj
      exact (hself co hk).1
    · next hkj =>
      rw [h.running k co hk]
      exact hother k hkj
  · intro k co hk
    rw [slot_set hlt] at hk
    split at hk
    · exact (hself co hk).2
    · exact h.made k co hk

/-- The table may grow behind its end. -/
theorem Sched.grow {env : Env F A} (h : Sched env) :
    Sched { env with
      cap := env.cap * 2 + 1
      co := env.co ++ List.replicate (env.cap * 2 + 1 - env.cap) none } := by
  obtain ⟨k, hk1, hk⟩ := h.wf.cap_eq
  have hslot : ∀ j, Env.slot { env with
      cap := env.cap * 2 + 1
      co := env.co ++ List.replicate (env.cap * 2 + 1 - env.cap) none } j = env.slot j := by
    intro j
    simp only [Env.slot]
    rcases Nat.lt_or_ge j env.co.length with hlt | hge
    · rw [List.getElem?_append_left hlt]
    · rw [List.getElem?_append_right hge, List.getElem?_eq_none hge, List.getElem?_replicate]
      split <;> rfl
  have hle := h.wf.nco_le
  refine ⟨⟨?_, ⟨k + 1, by omega, ?_⟩, show env.nco ≤ env.cap * 2 + 1 by omega⟩, ?_, ?_, ?_, ?_⟩
  · show (env.co ++ List.replicate (env.cap * 2 + 1 - env.cap) none).length = env.cap * 2 + 1
    rw [List.length_append, List.length_replicate, h.wf.length_co]
    omega
  · have h1 : 1 ≤ 2 ^ k := Nat.one_le_two_pow
    show env.cap * 2 + 1 = 2 ^ (k + 1) - 1
    rw [hk, pow_succ]
    omega
  · simp [List.countP_append, isLive, h.count]
  · intro j c hc
    rw [hslot] at hc
    exact h.running j c hc
  · simp only [hslot]
    exact h.named
  · intro j c hc
    rw [hslot] at hc
    exact h.made j c hc

/-! ## 4. Every step keeps it -/

/-- A free slot takes a new coroutine. -/
theorem Sched.fill {env : Env F A} (h : Sched env) {j : Nat} (hj : env.co[j]? = some none)
    (hlt : env.nco < env.cap) (func : F) (arg : A) :
    Sched ⟨env.nco + 1, env.cap, env.runningId,
      env.co.set j (coNewAlloc func arg Alloc.all)⟩ := by
  have hslot : env.slot j = none := slot_of_getElem? hj
  have hne : env.runningId ≠ j := by
    rcases h.named with hid | ⟨k, c, hid, hk⟩
    · omega
    · rw [hid]
      intro hkj
      rw [Int.ofNat_inj.mp hkj, hslot] at hk
      exact absurd hk (by simp)
  refine h.write hj (by simp [isLive, coNewAlloc, Alloc.all, Status.live]) hlt ?_
    (fun k _ => Iff.rfl) ?_
  · intro co hco
    have hco' : (⟨func, arg, true, .ready⟩ : Coroutine F A) = co := Option.some.inj hco
    subst hco'
    exact ⟨iff_of_false (by simp) hne, by simp, rfl⟩
  · rcases h.named with hid | ⟨k, c, hid, hk⟩
    · exact .inl hid
    · refine .inr ⟨k, c, hid, ?_⟩
      have hlt' := (List.getElem?_eq_some_iff.mp hj).1
      rw [slot_set hlt', if_neg]
      · exact hk
      · rintro rfl
        exact hne hid

theorem sched_new {env env' : Env F A} (h : Sched env) {func : F} {arg : A} {id : Int}
    (hn : coNew env func arg Alloc.all = .ok (id, env')) : Sched env' := by
  rcases coNew_cases hn with ⟨-, hfalse, -⟩ | ⟨hfull, -, -, rfl⟩ | ⟨hlt, k, -, hscan, rfl⟩
  · exact absurd hfalse (by decide)
  · have hg := h.grow
    have hlen := hg.wf.length_co
    dsimp only at hlen
    have hnone : (env.co ++ List.replicate (env.cap * 2 + 1 - env.cap) none)[env.cap]? =
        some none := by
      rw [List.getElem?_append_right (by rw [h.wf.length_co]), h.wf.length_co, Nat.sub_self,
        List.getElem?_replicate, if_pos (by omega)]
    have hle := h.wf.nco_le
    exact hg.fill hnone (by dsimp only; omega) func arg
  · exact h.fill (scan_some hscan) hlt func arg

theorem sched_resume {env env' : Env F A} (h : Sched env) {id : Int} {b : Bool}
    (hr : coResume env id = .ok (b, env')) : Sched env' := by
  obtain ⟨hid, j, -, -, ⟨-, -, rfl⟩ | ⟨co, hj, hst, -, -, rfl⟩ | ⟨co, hj, hst, -, rfl⟩⟩ :=
    coResume_cases hr
  · exact h
  · have hmade := h.made j co (slot_of_getElem? hj)
    have hlive : isLive (some co) = true := by
      rcases hst with hs | hs <;> simp [isLive, hs, Status.live]
    refine h.write hj ?_ h.wf.nco_le ?_ (fun k hk => ?_)
      (.inr ⟨j, { co with status := .running }, rfl, ?_⟩)
    · rw [if_pos hlive]
      rfl
    · intro co' hco'
      obtain rfl := Option.some.inj hco'
      exact ⟨iff_of_true rfl rfl, by simp, hmade.2⟩
    · rw [hid]
      constructor
      · intro hk'
        omega
      · intro hk'
        exact absurd (Int.ofNat_inj.mp hk').symm hk
    · have hlt := (List.getElem?_eq_some_iff.mp hj).1
      simp [Env.slot, hlt]
  · refine h.write hj ?_ h.wf.nco_le (fun co' hco' => absurd hco' (by simp)) (fun k _ => Iff.rfl)
      (.inl hid)
    simp [isLive, hst, Status.live]

theorem sched_leave {env env' : Env F A} (h : Sched env) {status : Status}
    (hstatus : status = .suspend ∨ status = .stoped) (hl : leave env status = .ok env') :
    Sched { env' with nco := if status = .stoped then env'.nco - 1 else env'.nco } := by
  obtain ⟨j, co, hid, hj, rfl⟩ := leave_cases hl
  have hslot : env.slot j = some co := slot_of_getElem? hj
  have hmade := h.made j co hslot
  have hrun : co.status = .running := (h.running j co hslot).mpr hid
  have hlive : isLive (some co) = true := by simp [isLive, hrun, Status.live]
  have hpos : 0 < env.nco := by
    rw [h.count]
    exact List.countP_pos_iff.mpr ⟨some co, List.mem_of_getElem? hj, hlive⟩
  have hle := h.wf.nco_le
  show Sched ⟨if status = .stoped then env.nco - 1 else env.nco, env.cap, -1,
    env.co.set j (some { co with status := status })⟩
  refine h.write hj ?_ ?_ ?_ (fun k hk => ?_) (.inl rfl)
  · rw [if_pos hlive]
    rcases hstatus with rfl | rfl
    · simp [isLive, Status.live]
    · simp [isLive, Status.live]
      omega
  · split <;> omega
  · intro co' hco'
    obtain rfl := Option.some.inj hco'
    rcases hstatus with rfl | rfl
    · exact ⟨iff_of_false (by simp) (by omega), by simp, hmade.2⟩
    · exact ⟨iff_of_false (by simp) (by omega), by simp, hmade.2⟩
  · rw [hid]
    constructor
    · intro hk'
      exact absurd (Int.ofNat_inj.mp hk').symm hk
    · intro hk'
      omega

/-- **The step lemma.** -/
theorem EventStep.sched {env env' : Env F A} {e : Event F A} (hs : EventStep env e env')
    (h : Sched env) : Sched env' := by
  cases hs with
  | new hn => exact sched_new h hn
  | resume hr => exact sched_resume h hr
  | swap hw => exact sched_leave h (.inl rfl) hw
  | ret hr =>
    obtain ⟨e, he, hr⟩ := Run.bind_eq_ok_iff.mp hr
    simp only [Run.pure_eq_ok, Except.ok.injEq] at hr
    subst hr
    exact sched_leave h (.inr rfl) he

/-- **The run lemma.** -/
theorem trace_sched {cap : UInt16} {history : List (Event F A)} {env : Env F A}
    (htr : Trace EventStep (coOpen cap) history env) : Sched env :=
  Trace.invariant (sched_coOpen cap) (fun _ _ _ h hs => hs.sched h) htr

/-! ## 5. Slots over a step -/

theorem leave_slot {env env' : Env F A} {status : Status} (h : leave env status = .ok env')
    {nco j : Nat} {c : Coroutine F A} (hget : env.co[j]? = some (some c)) :
    ((c.status = .stoped ∧ Env.slot { env' with nco := nco } j = none) ∨
      ∃ c', Env.slot { env' with nco := nco } j = some c' ∧ c'.func = c.func ∧ c'.arg = c.arg) ∧
    (env'.cap ≠ env.cap → Env.slot { env' with nco := nco } j = some c) := by
  obtain ⟨k, co, -, hk, rfl⟩ := leave_cases h
  have hlt := (List.getElem?_eq_some_iff.mp hk).1
  refine ⟨.inr ?_, fun hne => absurd rfl hne⟩
  by_cases hkj : k = j
  · subst hkj
    obtain rfl : co = c := by simpa using hk.symm.trans hget
    exact ⟨{ co with status := status }, by rw [slot_set hlt, if_pos rfl], rfl, rfl⟩
  · exact ⟨c, by rw [slot_set hlt, if_neg (Ne.symm hkj), slot_of_getElem? hget], rfl, rfl⟩

/-- **Where a coroutine can be found after a step**: in its slot, with its function and argument,
unless it had stopped and was released; and just as it was when the table grew. -/
theorem EventStep.slot {env env' : Env F A} {e : Event F A} (hs : EventStep env e env')
    (hw : Wf env) {j : Nat} {c : Coroutine F A} (hj : env.slot j = some c) :
    ((c.status = .stoped ∧ env'.slot j = none) ∨
      ∃ c', env'.slot j = some c' ∧ c'.func = c.func ∧ c'.arg = c.arg) ∧
    (env'.cap ≠ env.cap → env'.slot j = some c) := by
  have hget := getElem?_of_slot hj
  cases hs with
  | @new _ func arg id hn =>
    suffices hsame : env'.slot j = some c from ⟨.inr ⟨c, hsame, rfl, rfl⟩, fun _ => hsame⟩
    rcases coNew_cases hn with ⟨-, -, -, rfl⟩ | ⟨-, -, -, rfl⟩ | ⟨-, k, -, hscan, rfl⟩
    · exact hj
    · rw [slot_grown hw (by omega), if_neg]
      · exact hj
      · rintro rfl
        rw [slot_eq_none_of_le hw (Nat.le_refl _)] at hj
        exact absurd hj (by simp)
    · have hnull := scan_some hscan
      rw [slot_set (List.getElem?_eq_some_iff.mp hnull).1, if_neg]
      · exact hj
      · rintro rfl
        rw [hget] at hnull
        exact absurd hnull (by simp)
  | resume hr =>
    obtain ⟨-, k, -, -, ⟨-, -, rfl⟩ | ⟨co, hk, -, -, -, rfl⟩ | ⟨co, hk, hst, -, rfl⟩⟩ :=
      coResume_cases hr
    · exact ⟨.inr ⟨c, hj, rfl, rfl⟩, fun _ => hj⟩
    · have hlt := (List.getElem?_eq_some_iff.mp hk).1
      refine ⟨.inr ?_, fun hne => absurd rfl hne⟩
      by_cases hkj : k = j
      · subst hkj
        obtain rfl : co = c := by simpa using hk.symm.trans hget
        exact ⟨{ co with status := .running }, by rw [slot_set hlt, if_pos rfl], rfl, rfl⟩
      · exact ⟨c, by rw [slot_set hlt, if_neg (Ne.symm hkj), hj], rfl, rfl⟩
    · have hlt := (List.getElem?_eq_some_iff.mp hk).1
      refine ⟨?_, fun hne => absurd rfl hne⟩
      by_cases hkj : k = j
      · subst hkj
        obtain rfl : co = c := by simpa using hk.symm.trans hget
        exact .inl ⟨hst, by rw [slot_set hlt, if_pos rfl]⟩
      · exact .inr ⟨c, by rw [slot_set hlt, if_neg (Ne.symm hkj), hj], rfl, rfl⟩
  | swap hw' => exact leave_slot hw' hget
  | ret hr =>
    obtain ⟨e, he, hr⟩ := Run.bind_eq_ok_iff.mp hr
    simp only [Run.pure_eq_ok, Except.ok.injEq] at hr
    subst hr
    exact leave_slot he hget

/-- **The scheduler.**  In every state of every run: `nco` counts the coroutines that are ready,
running or suspended, and is at most the capacity, which is `2^k - 1`; at most one runs, and
`running_id` is its index, or `-1` exactly when none does; and whatever happens next, a slot
becomes `NULL` only from `CO_STOPED`, every other coroutine keeps its id, and a table that grows
leaves every slot as it was. -/
theorem scheduler_invariant {cap : UInt16} {history : List (Event F A)} {env : Env F A}
    (htr : Trace EventStep (coOpen cap) history env) :
    env.nco = env.co.countP isLive ∧ env.nco ≤ env.cap ∧ (∃ k, env.cap = 2 ^ k - 1) ∧
    (∀ i j c d, env.slot i = some c → env.slot j = some d → c.status = .running →
      d.status = .running → i = j) ∧
    (∀ j c, env.slot j = some c → (c.status = .running ↔ env.runningId = j)) ∧
    (env.runningId = -1 ↔ ∀ j c, env.slot j = some c → c.status ≠ .running) ∧
    ∀ e env', EventStep env e env' → ∀ j c, env.slot j = some c →
      ((c.status = .stoped ∧ env'.slot j = none) ∨
        ∃ c', env'.slot j = some c' ∧ c'.func = c.func ∧ c'.arg = c.arg) ∧
      (env'.cap ≠ env.cap → env'.slot j = some c) := by
  have h := trace_sched htr
  obtain ⟨k, -, hk⟩ := h.wf.cap_eq
  refine ⟨h.count, h.wf.nco_le, ⟨k, hk⟩, ?_, h.running, ?_,
    fun e env' hs j c hj => hs.slot h.wf hj⟩
  · intro i j c d hi hj hc hd
    have h1 := (h.running i c hi).mp hc
    have h2 := (h.running j d hj).mp hd
    omega
  · constructor
    · intro hid j c hj hc
      have := (h.running j c hj).mp hc
      omega
    · intro hnone
      rcases h.named with hid | ⟨j, c, hid, hj⟩
      · exact hid
      · exact absurd ((h.running j c hj).mpr hid) (hnone j c hj)

/-- Two coroutines; the first one runs and creates a third. -/
theorem scheduler_invariant_three :
    ∃ env : Env Unit Unit,
      Trace EventStep (coOpen 3) [.new () (), .resume 0, .new () (), .new () ()] env ∧
      env.nco = 3 ∧ env.nco = env.co.countP isLive := by
  have h1 : EventStep (coOpen 3) (.new () ()) (⟨1, 3, -1,
      [some ⟨(), (), true, .ready⟩, none, none]⟩ : Env Unit Unit) :=
    .new (show coNew _ () () Alloc.all = .ok (0, _) by decide)
  have h2 : EventStep (⟨1, 3, -1, [some ⟨(), (), true, .ready⟩, none, none]⟩ : Env Unit Unit)
      (.new () ()) ⟨2, 3, -1, [some ⟨(), (), true, .ready⟩, some ⟨(), (), true, .ready⟩, none]⟩ :=
    .new (show coNew _ () () Alloc.all = .ok (1, _) by decide)
  have h3 : EventStep
      (⟨2, 3, -1, [some ⟨(), (), true, .ready⟩, some ⟨(), (), true, .ready⟩, none]⟩ : Env Unit Unit)
      (.resume 0) ⟨2, 3, 0, [some ⟨(), (), true, .running⟩,
        some ⟨(), (), true, .ready⟩, none]⟩ :=
    .resume (show coResume _ 0 = .ok (true, _) by decide)
  have h4 : EventStep
      (⟨2, 3, 0, [some ⟨(), (), true, .running⟩, some ⟨(), (), true, .ready⟩, none]⟩ : Env Unit
      Unit) (.new () ()) ⟨3, 3, 0, [some ⟨(), (), true, .running⟩,
        some ⟨(), (), true, .ready⟩, some ⟨(), (), true, .ready⟩]⟩ :=
    .new (show coNew _ () () Alloc.all = .ok (2, _) by decide)
  have htr := Trace.call (Trace.call (Trace.call (Trace.call .start h1) h2) h3) h4
  exact ⟨_, htr, rfl, (scheduler_invariant htr).1⟩

end CDemo.Co
