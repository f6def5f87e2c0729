/-
# `co_wait` and `co_join`

`co_wait` goes over the table again and again until a pass resumed nobody.  `co_resume` returns
`true` even on the call in which the coroutine finishes and releases the slot only on the next
one, so the last passes clear up what the others left.

A coroutine is a tree of segments: it runs from one switch to the next, leaves the shared memory
in some state, and returns or calls `co_swap` with so many bytes on the stack; what it does next
depends on the memory it finds when it is resumed.  That such a tree has no infinite path is what
"finitely many `co_swap` calls" means.  Nothing bounds the number of passes beforehand, as the trees
branch over all states of the memory: `co_wait` ends because in every pass somebody finishes or
everybody moves down its tree (`coWait_ends`).

`co_swap` saves the stack in a buffer that `_save_stack` allocates when the last one is too small,
and does not say so when it gets none; the next `co_resume` of the coroutine copies from the null
pointer (`wait_missing`).  The bytes themselves are in `Stack.lean`, and the assertions of
`_save_stack` too: the coroutines stay on the shared stack.

The order of the turns is that of `Lib/Rounds.lean`.
-/
import CDemo.Co.Sched
import CDemo.Lib.Rounds
import Mathlib.Logic.Function.Basic
import Mathlib.Data.Finset.Card
import Mathlib.Data.Finset.Range
import Mathlib.Order.WellFounded

namespace CDemo.Co

variable {F A σ : Type}

/-! ## 1. Private stacks -/

/-- `cap` and `size` of a `coroutine`, and whether its `stack` is a block. -/
structure Saved where
  cap : Nat
  size : Nat
  stack : Bool
  deriving DecidableEq, Repr

/-- What `_co_new` sets. -/
def Saved.new : Saved := ⟨0, 0, false⟩

/-- `_save_stack`, for a stack of `depth` bytes; `ok` is the outcome of its `malloc`. -/
def Saved.save (p : Saved) (depth : Nat) (ok : Bool) : Saved :=
  if p.cap < depth then ⟨depth, depth, ok⟩ else { p with size := depth }

/-- There are bytes to copy back, and no block to copy them from. -/
def Saved.missing (p : Saved) : Bool := !p.stack && p.size != 0

/-- The private stacks by their slots, the outcome of each `malloc` of `_save_stack`, and how many
there were. -/
structure Saves where
  slot : Nat → Saved
  malloc : Nat → Bool
  made : Nat

/-- `_save_stack` in slot `j`. -/
def Saves.save (v : Saves) (j depth : Nat) : Saves where
  slot := Function.update v.slot j ((v.slot j).save depth (v.malloc v.made))
  malloc := v.malloc
  made := if (v.slot j).cap < depth then v.made + 1 else v.made

/-- The buffer holds what was saved. -/
structure Saved.Ok (p : Saved) : Prop where
  size_le : p.size ≤ p.cap
  stack : p.cap ≠ 0 → p.stack = true

/-- **No private stack is missing**, and none will be. -/
structure Saves.Ok (v : Saves) : Prop where
  slot : ∀ j, (v.slot j).Ok
  malloc : ∀ n, v.made ≤ n → v.malloc n = true

theorem Saved.ok_new : Saved.new.Ok := ⟨le_rfl, fun h => absurd rfl h⟩

theorem Saved.Ok.save {p : Saved} (h : p.Ok) (depth : Nat) : (p.save depth true).Ok := by
  unfold Saved.save
  split
  · exact ⟨le_rfl, fun _ => rfl⟩
  · next hcap => exact ⟨Nat.not_lt.mp hcap, h.stack⟩

theorem Saved.Ok.missing {p : Saved} (h : p.Ok) : p.missing = false := by
  have hsize := h.size_le
  unfold Saved.missing
  cases hstack : p.stack with
  | true => rfl
  | false =>
    have hcap : p.cap = 0 := by
      by_contra hne
      exact absurd (hstack.symm.trans (h.stack hne)) (by simp)
    have hzero : p.size = 0 := by omega
    simp [hzero]

theorem Saves.Ok.save {v : Saves} (h : v.Ok) (j depth : Nat) : (v.save j depth).Ok where
  slot := by
    intro k
    rw [Saves.save]
    dsimp only
    rw [h.malloc v.made le_rfl]
    by_cases hk : k = j
    · subst hk
      rw [Function.update_self]
      exact (h.slot k).save depth
    · rw [Function.update_of_ne hk]
      exact h.slot k
  malloc := by
    intro n hn
    refine h.malloc n (le_trans ?_ hn)
    rw [Saves.save]
    dsimp only
    split
    · exact Nat.le_succ _
    · exact le_rfl

/-! ## 2. Coroutines as trees -/

/-- One segment: the memory it leaves, and whether the function returns or calls `co_swap`, with
`depth` bytes on the stack. -/
inductive Prog (σ : Type) where
  | ret (s : σ)
  | swap (s : σ) (depth : Nat) (rest : σ → Prog σ)

/-- What a coroutine has still to do, from the memory it finds when it is resumed. -/
abbrev Body (σ : Type) := σ → Prog σ

/-- The table, the private stacks, what each slot's coroutine has still to do, the shared memory,
and who was resumed so far and found which memory, the oldest first. -/
structure World (F A σ : Type) where
  env : Env F A
  saves : Saves
  body : Nat → Body σ
  mem : σ
  log : List (Nat × σ)

/-- A coroutine from the switch in `co_resume` to the switch back: its next segment, and then
`co_swap` or the end of `_co_main`. -/
def runSegment (w : World F A σ) (j : Nat) : Run (World F A σ) :=
  match w.body j w.mem with
  | .ret s => do
    let env ← coMainReturn w.env
    .ok { w with env := env, mem := s, log := w.log ++ [(j, w.mem)] }
  | .swap s depth rest => do
    let env ← coSwap w.env
    .ok ⟨env, w.saves.save j depth, Function.update w.body j rest, s, w.log ++ [(j, w.mem)]⟩

/-- `co_resume`, from the call to its return; a suspended coroutine is copied back first. -/
def resume (w : World F A σ) (id : Int) : Run (Bool × World F A σ) := do
  let (b, env) ← coResume w.env id
  if b then
    if isSuspended w.env id.toNat && (w.saves.slot id.toNat).missing then .error .nullPointer
    let w ← runSegment { w with env := env } id.toNat
    .ok (true, w)
  else .ok (false, { w with env := env })

/-- `co_join`. -/
def coJoin : Nat → Int → World F A σ → Run (World F A σ)
  | 0, _, _ => .error .noReturn
  | rounds + 1, id, w => do
    let (b, w) ← resume w id
    if b then coJoin rounds id w else .ok w

/-- The `for` loop of `co_wait` from `i` on. -/
def waitPass : Nat → Nat → Bool → World F A σ → Run (Bool × World F A σ)
  | 0, i, flag, w => if i < w.env.cap then .error .noReturn else .ok (flag, w)
  | rounds + 1, i, flag, w =>
    if i < w.env.cap then do
      let (b, w) ← resume w i
      waitPass rounds (i + 1) (flag || b) w
    else .ok (flag, w)

/-- `co_wait`; the table has `cap` slots, so the `for` loop gets that many rounds. -/
def coWait : Nat → World F A σ → Run (World F A σ)
  | 0, _ => .error .noReturn
  | rounds + 1, w => do
    let (flag, w) ← waitPass w.env.cap 0 false w
    if flag then coWait rounds w else .ok w

/-! ## 3. One `co_resume` -/

/-- The slot holds a coroutine that has not finished. -/
def Live (w : World F A σ) (j : Nat) : Prop := isLive (w.env.slot j) = true

/-- No coroutine is running, and no private stack is missing. -/
structure Idle (w : World F A σ) : Prop where
  sched : Sched w.env
  id : w.env.runningId = -1
  saves : w.saves.Ok

/-- Coroutine `j` had its turn and found the memory `s`: it returned, or it went on to the next
node of its tree. -/
def Stepped (w w' : World F A σ) (j : Nat) (s : σ) : Prop :=
  (∃ t, w.body j s = .ret t ∧ ¬ Live w' j) ∨
  ∃ t depth rest, w.body j s = .swap t depth rest ∧ w'.body j = rest ∧ Live w' j

/-- **What `co_resume(j)` does.** -/
structure Resumed (w : World F A σ) (j : Nat) (b : Bool) (w' : World F A σ) : Prop where
  idle : Idle w'
  cap : w'.env.cap = w.env.cap
  others : ∀ k, k ≠ j → w'.env.slot k = w.env.slot k ∧ w'.body k = w.body k
  turn : Live w j → b = true ∧ w'.log = w.log ++ [(j, w.mem)] ∧ Stepped w w' j w.mem
  none : ¬ Live w j → b = false ∧ w'.log = w.log ∧ w'.env.slot j = none

section Resume

variable {w : World F A σ} {j : Nat}

/-- The slot of an idle table holds nothing, a stopped coroutine, or one that is ready or
suspended. -/
theorem Idle.slot_cases (h : Idle w) (j : Nat) :
    w.env.slot j = none ∨
    (∃ co, w.env.slot j = some co ∧ co.status = .stoped) ∨
    ∃ co, w.env.slot j = some co ∧ (co.status = .ready ∨ co.status = .suspend) ∧
      co.ctx = true := by
  cases hj : w.env.slot j with
  | none => exact .inl rfl
  | some co =>
    obtain ⟨hne, hctx⟩ := h.sched.made j co hj
    have hrun : co.status ≠ .running := fun hst => by
      have := (h.sched.running j co hj).mp hst
      have := h.id
      omega
    right
    cases hst : co.status with
    | none => exact absurd hst hne
    | running => exact absurd hst hrun
    | stoped => exact .inl ⟨co, rfl, hst⟩
    | ready => exact .inr ⟨co, rfl, .inl hst, hctx⟩
    | suspend => exact .inr ⟨co, rfl, .inr hst, hctx⟩

theorem coResume_unless_live (h : Idle w) (hj : j < w.env.cap) (hdead : ¬ Live w j) :
    ∃ env, coResume w.env j = .ok (false, env) ∧ env.cap = w.env.cap ∧ env.runningId = -1 ∧
      ∀ k, env.slot k = if k = j then none else w.env.slot k := by
  have hget := getElem?_co h.sched.wf hj
  have hlt : j < w.env.co.length := by rw [h.sched.wf.length_co]; exact hj
  rcases h.slot_cases j with hnull | ⟨co, hco, hst⟩ | ⟨co, hco, hst, -⟩
  · refine ⟨w.env, ?_, rfl, h.id, fun k => ?_⟩
    · rw [hnull] at hget
      simp [coResume, h.id, hj, hget]
    · split
      · next hk => rw [hk, hnull]
      · rfl
  · refine ⟨{ w.env with co := w.env.co.set j none }, ?_, rfl, h.id, fun k => ?_⟩
    · rw [hco] at hget
      simp [coResume, h.id, hj, hget, hst]
    · exact slot_set hlt k
  · refine absurd ?_ hdead
    rcases hst with hst | hst <;> simp [Live, hco, isLive, hst, Status.live]

theorem coResume_live (h : Idle w) (hj : j < w.env.cap) (hlive : Live w j) :
    ∃ co : Coroutine F A, coResume w.env j = .ok (true, { w.env with
      runningId := j, co := w.env.co.set j (some { co with status := .running }) }) := by
  have hget := getElem?_co h.sched.wf hj
  rcases h.slot_cases j with hnull | ⟨co, hco, hst⟩ | ⟨co, hco, hst, hctx⟩
  · exact absurd hlive (by simp [Live, hnull, isLive])
  · exact absurd hlive (by simp [Live, hco, isLive, hst, Status.live])
  · refine ⟨co, ?_⟩
    rw [hco] at hget
    rcases hst with hst | hst <;> simp [coResume, h.id, hj, hget, hst, hctx]

/-- Leaving the coroutine that `co_resume` started. -/
theorem leave_running {env : Env F A} {co : Coroutine F A} (hj : j < env.co.length)
    (status : Status) :
    leave { env with runningId := j, co := env.co.set j (some { co with status := .running }) }
      status = .ok { env with
        runningId := -1, co := env.co.set j (some { co with status := status }) } := by
  simp [leave, hj]

/-- **`co_resume` always returns**, and a coroutine that has not finished had one turn. -/
theorem resume_spec (h : Idle w) (hj : j < w.env.cap) :
    ∃ b w', resume w j = .ok (b, w') ∧ Resumed w j b w' := by
  have hlt : j < w.env.co.length := by rw [h.sched.wf.length_co]; exact hj
  by_cases hlive : Live w j
  · obtain ⟨co, hres⟩ := coResume_live h hj hlive
    have hsched := sched_resume h.sched hres
    have hsaved : (isSuspended w.env j && (w.saves.slot j).missing) = false := by
      rw [(h.saves.slot j).missing, Bool.and_false]
    cases hbody : w.body j w.mem with
    | ret s =>
      have hret : coMainReturn { w.env with
          runningId := j, co := w.env.co.set j (some { co with status := .running }) } =
          .ok { w.env with
            nco := w.env.nco - 1, runningId := -1,
            co := w.env.co.set j (some { co with status := .stoped }) } := by
        rw [coMainReturn, leave_running hlt]
        rfl
      refine ⟨true, { w with env := _, mem := s, log := w.log ++ [(j, w.mem)] }, ?_,
        ⟨⟨EventStep.sched (.ret hret) hsched, rfl, h.saves⟩, rfl, ?_, ?_,
          fun hno => absurd hlive hno⟩⟩
      · rw [resume, hres, Run.ok_bind]
        simp only [if_true, Int.toNat_natCast, hsaved, Bool.false_eq_true, if_false,
          runSegment, hbody, hret, Run.ok_bind]
      · exact fun k hk => ⟨by rw [slot_set hlt, if_neg hk], rfl⟩
      · refine fun _ => ⟨rfl, rfl, .inl ⟨s, hbody, ?_⟩⟩
        simp [Live, slot_set hlt, isLive, Status.live]
    | swap s depth rest =>
      have hswap : coSwap { w.env with
          runningId := j, co := w.env.co.set j (some { co with status := .running }) } =
          .ok { w.env with
            runningId := -1, co := w.env.co.set j (some { co with status := .suspend }) } :=
        leave_running hlt _
      refine ⟨true, ⟨_, w.saves.save j depth, Function.update w.body j rest, s,
        w.log ++ [(j, w.mem)]⟩, ?_,
        ⟨⟨EventStep.sched (.swap hswap) hsched, rfl, h.saves.save j depth⟩, rfl, ?_, ?_, fun
        hno => absurd hlive hno⟩⟩
      · rw [resume, hres, Run.ok_bind]
        simp only [if_true, Int.toNat_natCast, hsaved, Bool.false_eq_true, if_false,
          runSegment, hbody, hswap, Run.ok_bind]
      · exact fun k hk => ⟨by rw [slot_set hlt, if_neg hk], Function.update_of_ne hk _ _⟩
      · refine fun _ => ⟨rfl, rfl, .inr ⟨s, depth, rest, hbody, Function.update_self .., ?_⟩⟩
        simp [Live, slot_set hlt, isLive, Status.live]
  · obtain ⟨env, hres, hcap, hid, hslot⟩ := coResume_unless_live h hj hlive
    refine ⟨false, { w with env := env }, ?_, ⟨⟨sched_resume h.sched hres, hid, h.saves⟩, hcap, ?_,
      fun hl => absurd hl hlive, fun _ => ⟨rfl, rfl, ?_⟩⟩⟩
    · rw [resume, hres, Run.ok_bind]
      rfl
    · exact fun k hk => ⟨(hslot k).trans (if_neg hk), rfl⟩
    · exact (hslot j).trans (if_pos rfl)

end Resume

/-! ## 4. One pass -/

/-- **What the `for` loop of `co_wait` does from `i` on**: the entries `l` of the log are the turns
of the coroutines that had not finished, one each and in the order of their slots, and every
other slot is released. -/
structure Pass (w : World F A σ) (i : Nat) (l : List (Nat × σ)) (w' : World F A σ) : Prop where
  idle : Idle w'
  cap : w'.env.cap = w.env.cap
  log : w'.log = w.log ++ l
  before : ∀ k, k < i → w'.env.slot k = w.env.slot k ∧ w'.body k = w.body k
  turn : ∀ k s, (k, s) ∈ l → i ≤ k ∧ Live w k ∧ Stepped w w' k s
  all : ∀ k, i ≤ k → k < w.env.cap → Live w k → ∃ s, (k, s) ∈ l
  none : ∀ k, i ≤ k → k < w.env.cap → ¬ Live w k → w'.env.slot k = none
  sorted : (l.map Prod.fst).Pairwise (· < ·)

section Passes

variable {w w₁ w' : World F A σ}

/-- Who is untouched is as live as before. -/
theorem live_congr {k : Nat} (h : w'.env.slot k = w.env.slot k) : Live w' k ↔ Live w k := by
  rw [Live, Live, h]

theorem Stepped.congr_left {k : Nat} {s : σ} (hb : w₁.body k = w.body k)
    (h : Stepped w₁ w' k s) : Stepped w w' k s := by
  rw [Stepped, hb] at h
  exact h

theorem Stepped.congr_right {k : Nat} {s : σ}
    (hk : w'.env.slot k = w₁.env.slot k ∧ w'.body k = w₁.body k) (h : Stepped w w₁ k s) :
    Stepped w w' k s := by
  rw [Stepped, ← live_congr hk.1, ← hk.2] at h
  exact h

/-- The turn of slot `i` before the rest of a pass. -/
theorem Pass.cons_live {i : Nat} {l : List (Nat × σ)} {b : Bool} (hr : Resumed w i b w₁)
    (hlive : Live w i) (hp : Pass w₁ (i + 1) l w') : Pass w i ((i, w.mem) :: l) w' := by
  obtain ⟨-, hlog, hstep⟩ := hr.turn hlive
  have hothers : ∀ k, i + 1 ≤ k → w₁.env.slot k = w.env.slot k ∧ w₁.body k = w.body k :=
    fun k hk => hr.others k (by omega)
  refine ⟨hp.idle, hp.cap.trans hr.cap, ?_, ?_, ?_, ?_, ?_, ?_⟩
  · rw [hp.log, hlog, List.append_assoc, List.singleton_append]
  · intro k hk
    obtain ⟨h1, h2⟩ := hp.before k (by omega)
    obtain ⟨h3, h4⟩ := hr.others k (by omega)
    exact ⟨h1.trans h3, h2.trans h4⟩
  · intro k s hks
    rcases List.mem_cons.mp hks with heq | hks
    · obtain ⟨rfl, rfl⟩ := Prod.mk.inj heq
      exact ⟨le_rfl, hlive, hstep.congr_right (hp.before k (Nat.lt_succ_self k))⟩
    · obtain ⟨hk, hl, hs⟩ := hp.turn k s hks
      exact ⟨by omega, (live_congr (hothers k hk).1).mp hl, hs.congr_left (hothers k hk).2⟩
  · intro k hk hcap hl
    rcases Nat.eq_or_lt_of_le hk with rfl | hlt
    · exact ⟨w.mem, List.mem_cons_self⟩
    · obtain ⟨s, hs⟩ := hp.all k hlt (by rw [hr.cap]; exact hcap)
        ((live_congr (hothers k hlt).1).mpr hl)
      exact ⟨s, List.mem_cons_of_mem _ hs⟩
  · intro k hk hcap hl
    rcases Nat.eq_or_lt_of_le hk with rfl | hlt
    · exact absurd hlive hl
    · exact hp.none k hlt (by rw [hr.cap]; exact hcap)
        fun h => hl ((live_congr (hothers k hlt).1).mp h)
  · rw [List.map_cons, List.pairwise_cons]
    refine ⟨fun k hk => ?_, hp.sorted⟩
    obtain ⟨⟨k', s⟩, hks, rfl⟩ := List.mem_map.mp hk
    exact (hp.turn k' s hks).1

/-- A slot without a turn before the rest of a pass. -/
theorem Pass.cons_dead {i : Nat} {l : List (Nat × σ)} {b : Bool} (hr : Resumed w i b w₁)
    (hdead : ¬ Live w i) (hp : Pass w₁ (i + 1) l w') : Pass w i l w' := by
  obtain ⟨-, hlog, hnone⟩ := hr.none hdead
  have hothers : ∀ k, i + 1 ≤ k → w₁.env.slot k = w.env.slot k ∧ w₁.body k = w.body k :=
    fun k hk => hr.others k (by omega)
  refine ⟨hp.idle, hp.cap.trans hr.cap, ?_, ?_, ?_, ?_, ?_, hp.sorted⟩
  · rw [hp.log, hlog]
  · intro k hk
    obtain ⟨h1, h2⟩ := hp.before k (by omega)
    obtain ⟨h3, h4⟩ := hr.others k (by omega)
    exact ⟨h1.trans h3, h2.trans h4⟩
  · intro k s hks
    obtain ⟨hk, hl, hs⟩ := hp.turn k s hks
    exact ⟨by omega, (live_congr (hothers k hk).1).mp hl, hs.congr_left (hothers k hk).2⟩
  · intro k hk hcap hl
    rcases Nat.eq_or_lt_of_le hk with rfl | hlt
    · exact absurd hl hdead
    · exact hp.all k hlt (by rw [hr.cap]; exact hcap) ((live_congr (hothers k hlt).1).mpr hl)
  · intro k hk hcap hl
    rcases Nat.eq_or_lt_of_le hk with rfl | hlt
    · exact (hp.before i (Nat.lt_succ_self i)).1.trans hnone
    · exact hp.none k hlt (by rw [hr.cap]; exact hcap)
        fun h => hl ((live_congr (hothers k hlt).1).mp h)

/-- **A pass ends**, and its flag says whether somebody had a turn. -/
theorem waitPass_spec : ∀ (n i : Nat) (flag : Bool) (w : World F A σ), Idle w →
    w.env.cap ≤ i + n → ∃ l w', waitPass n i flag w = .ok (flag || !l.isEmpty, w') ∧ Pass w i l w'
  | 0, i, flag, w, h, hcap => by
    refine ⟨[], w, ?_, h, rfl, by simp, fun _ _ => ⟨rfl, rfl⟩, by simp, ?_, ?_, by simp⟩
    · rw [waitPass, if_neg (by omega)]
      simp
    · intro k hk hlt
      omega
    · intro k hk hlt
      omega
  | n + 1, i, flag, w, h, hcap => by
    by_cases hi : i < w.env.cap
    · obtain ⟨b, w₁, hres, hr⟩ := resume_spec h hi
      obtain ⟨l, w', hrun, hp⟩ := waitPass_spec n (i + 1) (flag || b) w₁ hr.idle
        (by rw [hr.cap]; omega)
      have hpass : waitPass (n + 1) i flag w = .ok (flag || b || !l.isEmpty, w') := by
        rw [waitPass, if_pos hi]
        exact Run.bind_of_eq hres hrun
      rw [hpass]
      by_cases hlive : Live w i
      · refine ⟨_, w', ?_, hp.cons_live hr hlive⟩
        simp [(hr.turn hlive).1]
      · refine ⟨l, w', ?_, hp.cons_dead hr hlive⟩
        rw [(hr.none hlive).1, Bool.or_false]
    · refine ⟨[], w, ?_, h, rfl, by simp, fun _ _ => ⟨rfl, rfl⟩, by simp, ?_, ?_, by simp⟩
      · rw [waitPass, if_neg hi]
        simp
      · intro k hk hlt
        omega
      · intro k hk hlt
        omega

/-- **What slot a live coroutine is in.** -/
theorem Idle.lt_cap (h : Idle w) {j : Nat} (hl : Live w j) : j < w.env.cap := by
  by_contra hj
  rw [Live, slot_eq_none_of_le h.sched.wf (Nat.not_lt.mp hj)] at hl
  exact absurd hl (by simp [isLive])

/-- Nobody comes to life in a pass. -/
theorem Pass.live_of {l : List (Nat × σ)} (hp : Pass w 0 l w') {k : Nat} (hl : Live w' k) :
    Live w k := by
  have hk := hp.idle.lt_cap hl
  rw [hp.cap] at hk
  by_contra hdead
  rw [Live, hp.none k (Nat.zero_le k) hk hdead] at hl
  exact absurd hl (by simp [isLive])

/-! ## 5. `co_wait` ends -/

/-- The passes of a `co_wait` that returns; the last one, in which nobody had a turn, is not in
the list. -/
inductive Waited : World F A σ → List (List (Nat × σ)) → World F A σ → Prop
  | last {w w' : World F A σ} : Pass w 0 [] w' → Waited w [] w'
  | pass {w w₁ w' : World F A σ} {l : List (Nat × σ)} {ls : List (List (Nat × σ))} :
      Pass w 0 l w₁ → Waited w₁ ls w' → Waited w (l :: ls) w'

/-- `rest` is what the coroutine has to do after a segment. -/
def Child (rest body : Body σ) : Prop := ∃ s t depth, body s = .swap t depth rest

theorem child_acc : ∀ (p : Prog σ) (t : σ) (depth : Nat) (rest : Body σ),
    p = .swap t depth rest → Acc Child rest
  | .ret _, _, _, _, h => nomatch h
  | .swap _ _ k, _, _, rest, h => by
    obtain ⟨-, -, rfl⟩ := Prog.swap.inj h
    exact ⟨_, fun rest' ⟨s, t', depth', h'⟩ => child_acc (k s) t' depth' rest' h'⟩

/-- **No coroutine switches for ever.** -/
theorem child_wf : WellFounded (fun rest body : Body σ => Child rest body) :=
  ⟨fun body => ⟨_, fun rest ⟨s, t, depth, h⟩ => child_acc (body s) t depth rest h⟩⟩

/-- The slots of the coroutines that have not finished. -/
def liveSet (w : World F A σ) : Finset Nat :=
  (Finset.range w.env.cap).filter fun j => isLive (w.env.slot j) = true

theorem mem_liveSet {j : Nat} : j ∈ liveSet w ↔ j < w.env.cap ∧ Live w j := by
  rw [liveSet, Finset.mem_filter, Finset.mem_range]
  rfl

/-- `co_wait` returns, given enough rounds. -/
def WaitEnds (w : World F A σ) : Prop :=
  ∃ n ls w', (∀ rounds, n < rounds → coWait rounds w = .ok w') ∧ Waited w ls w'

/-- A pass in which somebody had a turn, and then the rest. -/
theorem WaitEnds.pass {l : List (Nat × σ)} (hrun : waitPass w.env.cap 0 false w = .ok (true, w₁))
    (hp : Pass w 0 l w₁) (h : WaitEnds w₁) : WaitEnds w := by
  obtain ⟨n, ls, w', hw, hwaited⟩ := h
  refine ⟨n + 1, l :: ls, w', fun rounds hn => ?_, .pass hp hwaited⟩
  obtain ⟨rounds, rfl⟩ : ∃ k, rounds = k + 1 := ⟨rounds - 1, by omega⟩
  rw [coWait]
  exact Run.bind_of_eq hrun (hw rounds (by omega))

/-- A pass in which nobody had a turn. -/
theorem WaitEnds.last (hrun : waitPass w.env.cap 0 false w = .ok (false, w₁))
    (hp : Pass w 0 [] w₁) : WaitEnds w := by
  refine ⟨0, [], w₁, fun rounds hn => ?_, .last hp⟩
  obtain ⟨rounds, rfl⟩ : ∃ k, rounds = k + 1 := ⟨rounds - 1, by omega⟩
  rw [coWait]
  exact Run.bind_of_eq hrun rfl

/-- **`co_wait` returns.**  The outer induction is on the number of coroutines that have not
finished, the inner one on what one of them has still to do: if nobody finishes in a pass, that
one has gone on. -/
theorem coWait_ends : ∀ (n : Nat) (w : World F A σ), Idle w → (liveSet w).card = n →
    WaitEnds w := by
  intro n
  induction n using Nat.strong_induction_on with
  | _ n ih =>
  intro w h hn
  by_cases hlive : ∃ j, Live w j
  swap
  · obtain ⟨l, w', hrun, hp⟩ := waitPass_spec w.env.cap 0 false w h (by omega)
    have hnil : l = [] := List.eq_nil_iff_forall_not_mem.mpr fun ⟨k, s⟩ hks =>
      hlive ⟨k, (hp.turn k s hks).2.1⟩
    subst hnil
    exact .last hrun hp
  obtain ⟨j, hjl⟩ := hlive
  -- the body of slot `j` goes down its tree as long as nobody finishes
  generalize hb : w.body j = body
  induction body using child_wf.induction generalizing w with
  | _ body ihb =>
  obtain ⟨l, w₁, hrun, hp⟩ := waitPass_spec w.env.cap 0 false w h (by omega)
  obtain ⟨s, hjs⟩ := hp.all j (Nat.zero_le j) (h.lt_cap hjl) hjl
  have hne : l ≠ [] := List.ne_nil_of_mem hjs
  rw [Bool.false_or, List.isEmpty_eq_false_iff.mpr hne] at hrun
  refine .pass hrun hp ?_
  have hsub : liveSet w₁ ⊆ liveSet w := by
    intro k hk
    obtain ⟨hk, hl⟩ := mem_liveSet.mp hk
    rw [hp.cap] at hk
    exact mem_liveSet.mpr ⟨hk, hp.live_of hl⟩
  by_cases hall : liveSet w ⊆ liveSet w₁
  · have hjl₁ := (mem_liveSet.mp (hall (mem_liveSet.mpr ⟨h.lt_cap hjl, hjl⟩))).2
    rcases (hp.turn j s hjs).2.2 with ⟨t, -, hdead⟩ | ⟨t, depth, rest, hbody, hrest, -⟩
    · exact absurd hjl₁ hdead
    · refine ihb rest ⟨s, t, depth, by rw [← hb]; exact hbody⟩ w₁ hp.idle ?_ hjl₁ hrest
      rw [← hn, Finset.Subset.antisymm hsub hall]
  · have hlt : (liveSet w₁).card < n := by
      rw [← hn]
      exact Finset.card_lt_card ⟨hsub, hall⟩
    exact ih _ hlt w₁ hp.idle rfl

/-! ## 6. What a `co_wait` that returns has done -/

/-- The memories that coroutine `j` found in its turns. -/
def turns (j : Nat) : List (Nat × σ) → List σ
  | [] => []
  | (k, s) :: l => if k = j then s :: turns j l else turns j l

/-- **All of the tree was run, once and in order**, from the memories found in the turns. -/
inductive Ran : Body σ → List σ → Prop
  | ret {body : Body σ} {s t : σ} : body s = .ret t → Ran body [s]
  | swap {body rest : Body σ} {s t : σ} {depth : Nat} {l : List σ} :
      body s = .swap t depth rest → Ran rest l → Ran body (s :: l)

theorem turns_append (j : Nat) : ∀ l m : List (Nat × σ), turns j (l ++ m) = turns j l ++ turns j m
  | [], m => rfl
  | (k, s) :: l, m => by
    rw [List.cons_append, turns, turns, turns_append j l m]
    split <;> rfl

theorem turns_eq_nil {j : Nat} : ∀ {l : List (Nat × σ)}, (∀ s, (j, s) ∉ l) → turns j l = []
  | [], _ => rfl
  | (k, s) :: l, h => by
    rw [turns, if_neg]
    · exact turns_eq_nil fun s' hs' => h s' (List.mem_cons_of_mem _ hs')
    · rintro rfl
      exact h s List.mem_cons_self

/-- In a pass everybody has at most one turn. -/
theorem turns_of_sorted {j : Nat} {s : σ} : ∀ {l : List (Nat × σ)},
    (l.map Prod.fst).Pairwise (· < ·) → (j, s) ∈ l → turns j l = [s]
  | [], _, h => nomatch h
  | (k, s') :: l, hsorted, h => by
    obtain ⟨hhead, htail⟩ := List.pairwise_cons.mp hsorted
    rcases List.mem_cons.mp h with heq | hmem
    · obtain ⟨rfl, rfl⟩ := Prod.mk.inj heq
      rw [turns, if_pos rfl, turns_eq_nil]
      intro s' hs'
      exact absurd (hhead j (List.mem_map_of_mem hs')) (lt_irrefl j)
    · rw [turns, if_neg, turns_of_sorted htail hmem]
      rintro rfl
      exact absurd (hhead k (List.mem_map_of_mem hmem)) (lt_irrefl k)

namespace Waited

variable {ls : List (List (Nat × σ))}

theorem idle (h : Waited w ls w') : Idle w' := by
  induction h with
  | last hp => exact hp.idle
  | pass _ _ ih => exact ih

theorem log (h : Waited w ls w') : w'.log = w.log ++ ls.flatten := by
  induction h with
  | last hp => exact hp.log
  | pass hp _ ih => rw [ih, hp.log, List.flatten_cons, List.append_assoc]

/-- Only who has not finished has a turn. -/
theorem live (h : Waited w ls w') : ∀ {k : Nat} {s : σ}, (k, s) ∈ ls.flatten → Live w k := by
  induction h with
  | last _ => exact fun hks => absurd hks (by simp)
  | pass hp _ ih =>
    intro k s hks
    rw [List.flatten_cons] at hks
    rcases List.mem_append.mp hks with hks | hks
    · exact (hp.turn k s hks).2.1
    · exact hp.live_of (ih hks)

/-- The order of the turns. -/
theorem rounds (h : Waited w ls w') : Idle w → Rounds (ls.map (List.map Prod.fst)) := by
  induction h with
  | last _ => exact fun _ => .nil
  | @pass w w₁ w' l ls hp hrest ih =>
    intro hidle
    refine .cons hp.sorted ?_ (ih hp.idle)
    intro k hk
    rw [← List.map_flatten] at hk
    obtain ⟨⟨k, s⟩, hks, rfl⟩ := List.mem_map.mp hk
    have hlive := hp.live_of (hrest.live hks)
    obtain ⟨s', hs'⟩ := hp.all k (Nat.zero_le k) (hidle.lt_cap hlive) hlive
    exact List.mem_map.mpr ⟨(k, s'), hs', rfl⟩

/-- **Everybody runs to the end.** -/
theorem ran (h : Waited w ls w') : Idle w → ∀ {j : Nat}, Live w j →
    Ran (w.body j) (turns j ls.flatten) := by
  induction h with
  | @last w w' hp =>
    intro hidle j hl
    obtain ⟨s, hs⟩ := hp.all j (Nat.zero_le j) (hidle.lt_cap hl) hl
    exact absurd hs (by simp)
  | @pass w w₁ w' l ls hp hrest ih =>
    intro hidle j hl
    obtain ⟨s, hs⟩ := hp.all j (Nat.zero_le j) (hidle.lt_cap hl) hl
    rw [List.flatten_cons, turns_append, turns_of_sorted hp.sorted hs]
    rcases (hp.turn j s hs).2.2 with ⟨t, hbody, hdead⟩ | ⟨t, depth, rest, hbody, hbody₁, hlive₁⟩
    · rw [turns_eq_nil fun s' hs' => hdead (hrest.live hs')]
      exact .ret hbody
    · have hran := ih hp.idle hlive₁
      rw [hbody₁] at hran
      exact .swap hbody hran

/-- Every slot is released. -/
theorem slot_none (h : Waited w ls w') : ∀ j, w'.env.slot j = none := by
  induction h with
  | @last w w' hp =>
    intro j
    rcases Nat.lt_or_ge j w'.env.cap with hj | hj
    · rw [hp.cap] at hj
      refine hp.none j (Nat.zero_le j) hj fun hl => ?_
      obtain ⟨s, hs⟩ := hp.all j (Nat.zero_le j) hj hl
      exact absurd hs (by simp)
    · exact slot_eq_none_of_le hp.idle.sched.wf hj
  | pass _ _ ih => exact ih

end Waited

/-- A table with no coroutine in it counts none. -/
theorem Sched.nco_eq_zero {env : Env F A} (h : Sched env) (hnone : ∀ j, env.slot j = none) :
    env.nco = 0 := by
  rw [h.count, List.countP_eq_zero]
  intro c hc
  obtain ⟨j, hj⟩ := List.getElem?_of_mem hc
  have hslot := slot_of_getElem? hj
  rw [hnone] at hslot
  rw [← hslot]
  simp [isLive]

end Passes

/-! ## 7. `co_join` -/

/-- What `co_join(j)` has done when it returns: the turns were all of coroutine `j`, it has run to
the end, its slot is released, and every other slot is as it was. -/
structure Joined (w : World F A σ) (j : Nat) (l : List σ) (w' : World F A σ) : Prop where
  idle : Idle w'
  log : w'.log = w.log ++ l.map (j, ·)
  ran : Live w j → Ran (w.body j) l
  idled : ¬ Live w j → l = []
  slot : w'.env.slot j = none
  others : ∀ k, k ≠ j → w'.env.slot k = w.env.slot k ∧ w'.body k = w.body k

section Join

variable {w w₁ : World F A σ} {j : Nat}

/-- `co_join` returns, given enough rounds. -/
def JoinEnds (w : World F A σ) (j : Nat) : Prop :=
  ∃ n l w', (∀ rounds, n < rounds → coJoin rounds j w = .ok w') ∧ Joined w j l w'

/-- The coroutine has finished before the call. -/
theorem JoinEnds.last (h : Idle w) (hj : j < w.env.cap) (hdead : ¬ Live w j) : JoinEnds w j := by
  obtain ⟨b, w₁, hres, hr⟩ := resume_spec h hj
  obtain ⟨hb, hlog, hslot⟩ := hr.none hdead
  subst hb
  refine ⟨0, [], w₁, fun rounds hn => ?_, ⟨hr.idle, by simpa using hlog,
    fun hl => absurd hl hdead, fun _ => rfl, hslot, hr.others⟩⟩
  obtain ⟨rounds, rfl⟩ : ∃ k, rounds = k + 1 := ⟨rounds - 1, by omega⟩
  rw [coJoin]
  exact Run.bind_of_eq hres rfl

/-- One turn of the coroutine and the calls after it. -/
theorem JoinEnds.turn (hres : resume w j = .ok (true, w₁)) (hr : Resumed w j true w₁)
    (hlive : Live w j) (h : JoinEnds w₁ j) : JoinEnds w j := by
  obtain ⟨n, l, w', hrun, hjoined⟩ := h
  obtain ⟨-, hlog, hstep⟩ := hr.turn hlive
  refine ⟨n + 1, w.mem :: l, w', fun rounds hn => ?_, ⟨hjoined.idle, ?_, fun _ => ?_,
    fun hdead => absurd hlive hdead, hjoined.slot, fun k hk => ?_⟩⟩
  · obtain ⟨rounds, rfl⟩ : ∃ k, rounds = k + 1 := ⟨rounds - 1, by omega⟩
    rw [coJoin]
    exact Run.bind_of_eq hres (hrun rounds (by omega))
  · rw [hjoined.log, hlog, List.map_cons, List.append_assoc, List.singleton_append]
  · rcases hstep with ⟨t, hbody, hdead⟩ | ⟨t, depth, rest, hbody, hbody₁, hlive₁⟩
    · rw [hjoined.idled hdead]
      exact .ret hbody
    · have hran := hjoined.ran hlive₁
      rw [hbody₁] at hran
      exact .swap hbody hran
  · obtain ⟨h1, h2⟩ := hjoined.others k hk
    obtain ⟨h3, h4⟩ := hr.others k hk
    exact ⟨h1.trans h3, h2.trans h4⟩

/-- **`co_join` returns**, by induction on what the coroutine has still to do. -/
theorem coJoin_ends (h : Idle w) (hj : j < w.env.cap) : JoinEnds w j := by
  generalize hb : w.body j = body
  induction body using child_wf.induction generalizing w with
  | _ body ih =>
  by_cases hlive : Live w j
  swap
  · exact .last h hj hlive
  obtain ⟨b, w₁, hres, hr⟩ := resume_spec h hj
  obtain ⟨hbt, -, hstep⟩ := hr.turn hlive
  subst hbt
  refine .turn hres hr hlive ?_
  have hj₁ : j < w₁.env.cap := by rw [hr.cap]; exact hj
  rcases hstep with ⟨t, -, hdead⟩ | ⟨t, depth, rest, hbody, hbody₁, -⟩
  · exact .last hr.idle hj₁ hdead
  · exact ih rest ⟨w.mem, t, depth, by rw [← hb]; exact hbody⟩ hr.idle hj₁ hbody₁

end Join

/-! ## 8. Every reachable state -/

/-- A state some run from `co_open` reaches in which every coroutine that took a slot was
allocated, and its context too, and every stack that was switched away from was saved.  A `co_new`
that gives up because the table cannot be grown changes nothing, and may fail in any way. -/
inductive Served : Env F A → (Nat → Saved) → Prop
  | start (cap : UInt16) : Served (coOpen cap) fun _ => .new
  | new {env env' : Env F A} {saved : Nat → Saved} {func : F} {arg : A} {alloc : Alloc} {id : Int} :
      Served env saved →
      (alloc.co = true ∧ alloc.ctx = true) ∨ (env.cap ≤ env.nco ∧ alloc.table = false) →
      coNew env func arg alloc = .ok (id, env') →
      Served env' (if id = -1 then saved else Function.update saved id.toNat .new)
  | resume {env env' : Env F A} {saved : Nat → Saved} {id : Int} {b : Bool} : Served env saved →
      coResume env id = .ok (b, env') → Served env' saved
  | swap {env env' : Env F A} {saved : Nat → Saved} {depth : Nat} : Served env saved →
      coSwap env = .ok env' → Served env' (Function.update saved env.runningId.toNat
        ((saved env.runningId.toNat).save depth true))
  | ret {env env' : Env F A} {saved : Nat → Saved} : Served env saved →
      coMainReturn env = .ok env' → Served env' saved

/-- With the coroutine and its context allocated, `co_new` changes nothing or does what it does
when the table can be grown too. -/
theorem coNew_alloc {env env' : Env F A} {func : F} {arg : A} {alloc : Alloc} {id : Int}
    (halloc : (alloc.co = true ∧ alloc.ctx = true) ∨ (env.cap ≤ env.nco ∧ alloc.table = false))
    (h : coNew env func arg alloc = .ok (id, env')) :
    env' = env ∨ coNew env func arg Alloc.all = .ok (id, env') := by
  rcases coNew_cases h with ⟨-, -, -, rfl⟩ | ⟨-, htable, -, -⟩ | ⟨hlt, k, rfl, hscan, rfl⟩
  · exact .inl rfl
  · rcases halloc with ⟨hco, hctx⟩ | ⟨-, hfalse⟩
    · obtain ⟨co, ctx, table⟩ := alloc
      dsimp only at hco hctx htable
      subst hco hctx htable
      exact .inr h
    · exact absurd (htable.symm.trans hfalse) (by simp)
  · rcases halloc with ⟨hco, hctx⟩ | ⟨hfull, -⟩
    · right
      rw [coNew_room hlt, hscan, Run.ok_bind]
      simp [coNewAlloc, Alloc.all, hco, hctx]
    · omega

/-- **The run lemma.** -/
theorem Served.sched {env : Env F A} {saved : Nat → Saved} (h : Served env saved) :
    Sched env := by
  induction h with
  | start cap => exact sched_coOpen cap
  | new _ halloc hn ih =>
    rcases coNew_alloc halloc hn with rfl | hn
    · exact ih
    · exact sched_new ih hn
  | resume _ hr ih => exact sched_resume ih hr
  | swap _ hs ih => exact EventStep.sched (.swap hs) ih
  | ret _ hr ih => exact EventStep.sched (.ret hr) ih

/-- A slot that gets a private stack that is not missing. -/
theorem update_ok {saved : Nat → Saved} (h : ∀ j, (saved j).Ok) (i : Nat) {p : Saved} (hp : p.Ok) :
    ∀ j, (Function.update saved i p j).Ok := by
  intro j
  by_cases hj : j = i
  · subst hj
    rw [Function.update_self]
    exact hp
  · rw [Function.update_of_ne hj]
    exact h j

theorem Served.saved {env : Env F A} {saved : Nat → Saved} (h : Served env saved) :
    ∀ j, (saved j).Ok := by
  induction h with
  | start cap => exact fun _ => Saved.ok_new
  | new _ _ _ ih =>
    split
    · exact ih
    · exact update_ok ih _ Saved.ok_new
  | resume _ _ ih => exact ih
  | swap _ _ ih => exact update_ok ih _ ((ih _).save _)
  | ret _ _ ih => exact ih

/-- **What `co_wait` promises**: it returns; the turns it gave ran every coroutine that had not
finished to its end, once and in order, and nobody else; between two turns of one coroutine
everybody else who has a turn after the first of them has one; every slot is `NULL` and `nco`
is 0. -/
def WaitContract (w : World F A σ) : Prop :=
  ∃ n l w', (∀ rounds, n < rounds → coWait rounds w = .ok w') ∧ w'.log = w.log ++ l ∧
    (∀ j, Live w j → Ran (w.body j) (turns j l)) ∧ (∀ j s, (j, s) ∈ l → Live w j) ∧
    (∀ i j a b c, l.map Prod.fst = a ++ j :: (b ++ j :: c) → i ∈ b ++ c → i ≠ j → i ∈ b) ∧
    (∀ j, w'.env.slot j = none) ∧ w'.env.nco = 0

/-- **What `co_join(j)` promises**: it returns, the turns it gave were all of coroutine `j` and ran
it to its end, its slot is `NULL`, and nothing else has changed. -/
def JoinContract (w : World F A σ) (j : Nat) : Prop :=
  ∃ n l w', (∀ rounds, n < rounds → coJoin rounds j w = .ok w') ∧
    w'.log = w.log ++ l.map (j, ·) ∧ (Live w j → Ran (w.body j) l) ∧ (¬ Live w j → l = []) ∧
    w'.env.slot j = none ∧ ∀ k, k ≠ j → w'.env.slot k = w.env.slot k ∧ w'.body k = w.body k

/-- **`co_wait` and `co_join` keep their promises** in every state in which no coroutine runs, for
all coroutines and all states of the memory they share, as long as no slot was given to a
coroutine that could not be allocated, and every stack was saved and will be. -/
theorem wait_join {env : Env F A} {saved : Nat → Saved} (h : Served env saved)
    (hid : env.runningId = -1) {malloc : Nat → Bool} {made : Nat}
    (hmalloc : ∀ n, made ≤ n → malloc n = true) (body : Nat → Body σ) (mem : σ)
    (log : List (Nat × σ)) :
    WaitContract ⟨env, ⟨saved, malloc, made⟩, body, mem, log⟩ ∧
      ∀ j, j < env.cap → JoinContract ⟨env, ⟨saved, malloc, made⟩, body, mem, log⟩ j := by
  have hidle : Idle (⟨env, ⟨saved, malloc, made⟩, body, mem, log⟩ : World F A σ) :=
    ⟨h.sched, hid, h.saved, hmalloc⟩
  constructor
  · obtain ⟨n, ls, w', hrun, hw⟩ := coWait_ends _ _ hidle rfl
    refine ⟨n, ls.flatten, w', hrun, hw.log, fun j hl => hw.ran hidle hl,
      fun j s hs => hw.live hs, ?_, hw.slot_none, hw.idle.sched.nco_eq_zero hw.slot_none⟩
    intro i j a b c hsplit hi hne
    rcases List.mem_append.mp hi with hb | hc
    · exact hb
    · exact (hw.rounds hidle).fair (by rw [← List.map_flatten]; exact hsplit) hc hne
  · intro j hj
    obtain ⟨n, l, w', hrun, hjoined⟩ := coJoin_ends hidle hj
    exact ⟨n, l, w', hrun, hjoined.log, hjoined.ran, hjoined.idled, hjoined.slot, hjoined.others⟩

/-- One coroutine, which switches once and returns. -/
def oneReady : Env Unit Unit := ⟨1, 3, -1, [some ⟨(), (), true, .ready⟩, none, none]⟩

/-- What slot 0 was given, and the others. -/
def noneSaved : Saves := ⟨Function.update (fun _ => .new) 0 .new, fun _ => true, 0⟩

theorem served_oneReady : Served oneReady noneSaved.slot :=
  .new (.start 3) (.inl ⟨rfl, rfl⟩) (show coNew _ () () Alloc.all = .ok (0, _) by decide)

/-- A coroutine that adds one to the memory, switches, adds one again and returns. -/
def addTwice : Body Nat := fun s => .swap (s + 1) 96 fun s => .ret (s + 1)

theorem wait_join_oneReady :
    Served oneReady noneSaved.slot ∧ oneReady.runningId = -1 ∧
      WaitContract (⟨oneReady, noneSaved, fun _ => addTwice, 0, []⟩ : World Unit Unit Nat) ∧
      JoinContract (⟨oneReady, noneSaved, fun _ => addTwice, 0, []⟩ : World Unit Unit Nat) 0 :=
  have h := wait_join served_oneReady rfl (fun _ _ => rfl) (fun _ => addTwice) 0 []
  ⟨served_oneReady, rfl, h.1, h.2 0 (by decide)⟩

/-! ## 9. A private stack that is missing -/

section Missing

variable {w w' : World F A σ} {j : Nat}

/-- What slot `k` holds, its private stack and the size of the table. -/
structure SlotKept (w w' : World F A σ) (k : Nat) : Prop where
  slot : w'.env.slot k = w.env.slot k
  saved : w'.saves.slot k = w.saves.slot k
  cap : w'.env.cap = w.env.cap

/-- The running coroutine changes its own slot. -/
theorem runSegment_kept (hid : w.env.runningId = j) (h : runSegment w j = .ok w') {k : Nat}
    (hk : k ≠ j) : SlotKept w w' k := by
  have hleave : ∀ {env : Env F A} {status : Status}, leave w.env status = .ok env →
      ∀ nco, Env.slot { env with nco := nco } k = w.env.slot k := by
    intro env status hl nco
    obtain ⟨i, co, hi, hget, rfl⟩ := leave_cases hl
    obtain rfl : i = j := by omega
    have hlt := (List.getElem?_eq_some_iff.mp hget).1
    exact (slot_set hlt k).trans (if_neg hk)
  rw [runSegment] at h
  split at h
  · obtain ⟨env, hret, h⟩ := Run.bind_eq_ok_iff.mp h
    obtain ⟨env₁, hl, hret⟩ := Run.bind_eq_ok_iff.mp hret
    obtain rfl := Except.ok.inj hret
    obtain rfl := Except.ok.inj h
    exact ⟨hleave hl _, rfl, (leave_frame hl).2.1⟩
  · obtain ⟨env, hswap, h⟩ := Run.bind_eq_ok_iff.mp h
    obtain rfl := Except.ok.inj h
    exact ⟨hleave hswap env.nco, Function.update_of_ne hk _ _, (leave_frame hswap).2.1⟩

/-- **`co_resume(i)` leaves the other slots alone.** -/
theorem resume_kept {i : Nat} {b : Bool} (h : resume w i = .ok (b, w')) {k : Nat} (hk : k ≠ i) :
    SlotKept w w' k := by
  obtain ⟨⟨b₁, env⟩, hres, h⟩ := Run.bind_eq_ok_iff.mp h
  have hslot : env.slot k = w.env.slot k := by
    obtain ⟨-, i', hi, -, ⟨-, -, rfl⟩ | ⟨co, hget, -, -, -, rfl⟩ | ⟨co, hget, -, -, rfl⟩⟩ :=
      coResume_cases hres
    · rfl
    all_goals
      obtain rfl : i = i' := by omega
      exact (slot_set (List.getElem?_eq_some_iff.mp hget).1 k).trans (if_neg hk)
  have hcap := (coResume_frame hres).2.1
  cases b₁ with
  | false =>
    obtain ⟨-, rfl⟩ := Prod.mk.inj (Except.ok.inj h)
    exact ⟨hslot, rfl, hcap⟩
  | true =>
    have hid : env.runningId = i := by
      obtain ⟨-, i', hi, -, ⟨-, hb, -⟩ | ⟨co, -, -, -, -, rfl⟩ | ⟨co, -, -, hb, -⟩⟩ :=
        coResume_cases hres
      · nomatch hb
      · exact hi.symm
      · nomatch hb
    dsimp only at h
    rw [if_pos rfl] at h
    split at h
    · nomatch h
    obtain ⟨w₁, hseg, h⟩ := Run.bind_eq_ok_iff.mp h
    obtain ⟨-, rfl⟩ := Prod.mk.inj (Except.ok.inj h)
    have hkept := runSegment_kept hid hseg hk
    exact ⟨hkept.slot.trans hslot, hkept.saved, hkept.cap.trans hcap⟩

/-- A suspended coroutine whose private stack is missing. -/
def Stuck (w : World F A σ) (j : Nat) : Prop :=
  isSuspended w.env j = true ∧ (w.saves.slot j).missing = true

theorem SlotKept.stuck (h : SlotKept w w' j) (hs : Stuck w j) : Stuck w' j := by
  obtain ⟨hsusp, hmiss⟩ := hs
  refine ⟨?_, h.saved.symm ▸ hmiss⟩
  rw [isSuspended, h.slot]
  exact hsusp

/-- It is not resumed. -/
theorem Stuck.resume (hs : Stuck w j) (r : Bool × World F A σ) : resume w j ≠ .ok r := by
  obtain ⟨hsusp, hmiss⟩ := hs
  intro h
  obtain ⟨⟨b, env⟩, hres, h⟩ := Run.bind_eq_ok_iff.mp h
  obtain ⟨co, hslot, hst⟩ := isSuspended_iff.mp hsusp
  obtain ⟨-, i, hi, -, ⟨hget, -⟩ | ⟨co', -, -, -, rfl, -⟩ | ⟨co', hget, hst', -⟩⟩ :=
    coResume_cases hres
  · obtain rfl : j = i := by omega
    exact absurd (hslot.symm.trans (slot_of_getElem? hget)) (Option.some_ne_none co)
  · dsimp only at h
    rw [if_pos rfl, if_pos (by rw [Int.toNat_natCast, hsusp, hmiss]; rfl)] at h
    nomatch h
  · obtain rfl : j = i := by omega
    obtain rfl := Option.some.inj (hslot.symm.trans (slot_of_getElem? hget))
    exact absurd (hst.symm.trans hst') (by simp)

/-- Nor does a pass get by it; the induction is on the slots to come. -/
theorem Stuck.waitPass (n : Nat) : ∀ {i : Nat} {flag : Bool} {w : World F A σ}, Stuck w j →
    i ≤ j → j < w.env.cap → ∀ r, waitPass n i flag w ≠ .ok r := by
  induction n with
  | zero =>
    intro i flag w _ hij hj r h
    rw [CDemo.Co.waitPass, if_pos (by omega)] at h
    nomatch h
  | succ n ih =>
    intro i flag w hs hij hj r h
    rw [CDemo.Co.waitPass, if_pos (by omega)] at h
    obtain ⟨⟨b, w₁⟩, hres, h⟩ := Run.bind_eq_ok_iff.mp h
    rcases Nat.eq_or_lt_of_le hij with rfl | hlt
    · exact hs.resume _ hres
    · have hkept := resume_kept hres hlt.ne'
      exact ih (hkept.stuck hs) hlt (hkept.cap ▸ hj) r h

end Missing

/-- **A stack that was not saved.**  When `_save_stack` got no buffer for a coroutine that is
suspended, then neither `co_wait` nor `co_join` of that coroutine returns. -/
theorem wait_missing {env : Env F A} (h : Reachable env) {saves : Saves} {j : Nat}
    (hsusp : isSuspended env j = true) (hmiss : (saves.slot j).missing = true)
    (body : Nat → Body σ) (mem : σ) (log : List (Nat × σ)) :
    (∀ rounds w', coWait rounds (⟨env, saves, body, mem, log⟩ : World F A σ) ≠ .ok w') ∧
      ∀ rounds w', coJoin rounds j (⟨env, saves, body, mem, log⟩ : World F A σ) ≠ .ok w' := by
  have hs : Stuck (⟨env, saves, body, mem, log⟩ : World F A σ) j := ⟨hsusp, hmiss⟩
  have hj : j < env.cap := by
    by_contra hge
    obtain ⟨co, hco, -⟩ := isSuspended_iff.mp hsusp
    exact absurd ((slot_eq_none_of_le h.wf (Nat.not_lt.mp hge)).symm.trans hco)
      (Option.some_ne_none co).symm
  constructor
  · intro rounds w' hret
    cases rounds with
    | zero => nomatch hret
    | succ rounds =>
      obtain ⟨r, hpass, -⟩ := Run.bind_eq_ok_iff.mp hret
      exact hs.waitPass _ (Nat.zero_le j) hj _ hpass
  · intro rounds w' hret
    cases rounds with
    | zero => nomatch hret
    | succ rounds =>
      obtain ⟨r, hres, -⟩ := Run.bind_eq_ok_iff.mp hret
      exact hs.resume _ hres

/-- A `co_new` whose `calloc` failed: the slot holds `NULL` and is counted. -/
def noCoroutine : Env Unit Unit := ⟨1, 3, -1, [none, none, none]⟩

theorem reachable_noCoroutine : Reachable noCoroutine :=
  .step (.start 3) (.new (show coNew _ () () ⟨false, true, true⟩ = .ok (0, _) by decide))

/-- **`co_wait` returns with `nco = 1`** after a `co_new` whose `calloc` failed. -/
theorem wait_noCoroutine :
    Reachable noCoroutine ∧ noCoroutine.runningId = -1 ∧
      ¬ WaitContract
        (⟨noCoroutine, noneSaved, fun _ => addTwice, 0, []⟩ : World Unit Unit Nat) := by
  refine ⟨reachable_noCoroutine, rfl, ?_⟩
  rintro ⟨n, l, w', hrun, -, -, -, -, -, hnco⟩
  have hret := hrun (n + 1) (Nat.lt_succ_self n)
  rw [coWait] at hret
  have hpass : waitPass 3 0 false
      (⟨noCoroutine, noneSaved, fun _ => addTwice, 0, []⟩ : World Unit Unit Nat) =
      .ok (false, ⟨noCoroutine, noneSaved, fun _ => addTwice, 0, []⟩) := rfl
  have hw : (⟨noCoroutine, noneSaved, fun _ => addTwice, 0, []⟩ : World Unit Unit Nat) = w' :=
    Except.ok.inj ((Run.bind_of_eq hpass rfl).symm.trans hret)
  rw [← hw] at hnco
  exact absurd hnco (by decide)

end CDemo.Co
