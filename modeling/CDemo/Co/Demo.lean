/-
# The program of `main.c`

A thread makes coroutines that print a line and switch, a few times each, and then waits for them.
The number of coroutines and of lines is a macro of the source, here any number; the value of a
line, `i * 100 + r`, stays in an `int`, and all allocations succeed.

`co_new` gives the first coroutines of an environment the ids from 0 on, also where the table grows
on the way.  `co_wait` goes over them in this order, so the lines come round by round
(`worker_transcript`); one more pass runs every coroutine to its end, and one more releases them.

What the threads print is interleaved in any way, but each has its own environment.
-/
import CDemo.Co.Wait

namespace CDemo.Co

/-! ## 1. The program -/

/-- What is printed: `co_id()` and the value of each line. -/
abbrev Lines := List (Nat × Int)

/-- The loop of `foo` from `i` on, with `rounds` to go; `id` is what `co_id()` returns while it
runs, and `depth` how much of the stack is in use when it switches. -/
def fooLoop (depth id : Nat) (start : Int) : Nat → Nat → Body Lines
  | _, 0 => fun out => .ret out
  | i, rounds + 1 => fun out =>
    .swap (out ++ [(id, start + i)]) depth (fooLoop depth id start (i + 1) rounds)

/-- `foo`, with the value that its argument points to. -/
def foo (depth rounds id : Nat) (start : Int) : Body Lines := fooLoop depth id start 0 rounds

/-- What the coroutines of a table have to do. -/
def bodies (depth rounds : Nat) (env : Env Unit Int) (j : Nat) : Body Lines :=
  match env.slot j with
  | some co => foo depth rounds j co.arg
  | none => fun out => .ret out

/-- The loop of `test` from `i` on: the ids, and the table. -/
def newLoop : Nat → Nat → Env Unit Int → Run (List Int × Env Unit Int)
  | _, 0, env => .ok ([], env)
  | i, num + 1, env => do
    let (id, env) ← coNew env () (i * 100) Alloc.all
    let (ids, env) ← newLoop (i + 1) num env
    .ok (id :: ids, env)

/-- The private stacks of coroutines that have not run, where every allocation succeeds. -/
def Saves.fresh : Saves := ⟨fun _ => .new, fun _ => true, 0⟩

theorem Saves.ok_fresh : Saves.fresh.Ok := ⟨fun _ => Saved.ok_new, fun _ _ => rfl⟩

/-- `worker` up to `co_close`; `passes` bounds those of `co_wait`. -/
def worker (depth num rounds passes : Nat) : Run (List Int × World Unit Int Lines) := do
  let (ids, env) ← newLoop 0 num (coOpen 0)
  let w ← coWait passes ⟨env, .fresh, bodies depth rounds env, [], []⟩
  .ok (ids, w)

/-- The line that coroutine `j` prints in round `r`. -/
def line (r j : Nat) : Nat × Int := (j, (j : Int) * 100 + r)

/-- The lines of the first `n` coroutines in round `r`. -/
def roundLines (r n : Nat) : Lines := (List.range n).map (line r)

/-- The lines of the first `r` rounds. -/
def allLines (num r : Nat) : Lines := (List.range r).flatMap fun i => roundLines i num

theorem roundLines_succ (r n : Nat) : roundLines r (n + 1) = roundLines r n ++ [line r n] := by
  rw [roundLines, List.range_succ, List.map_append]
  rfl

theorem allLines_succ (num r : Nat) :
    allLines num (r + 1) = allLines num r ++ roundLines r num := by
  rw [allLines, List.range_succ, List.flatMap_append, List.flatMap_singleton]
  rfl

/-! ## 2. The ids -/

/-- The table holds the first `n` coroutines of `test`, in order. -/
structure Filled (n : Nat) (env : Env Unit Int) : Prop where
  sched : Sched env
  idle : env.runningId = -1
  nco : env.nco = n
  slot : ∀ j, env.slot j = if j < n then some ⟨(), (j : Int) * 100, true, .ready⟩ else none

theorem filled_coOpen : Filled 0 (coOpen 0) where
  sched := sched_coOpen 0
  idle := rfl
  nco := rfl
  slot := by
    intro j
    have hco : (coOpen 0 : Env Unit Int).co = List.replicate 15 none := rfl
    rw [if_neg (Nat.not_lt_zero j), Env.slot, hco, List.getElem?_replicate]
    split
    · rfl
    · rfl

/-- One more slot. -/
theorem slot_filled {n j : Nat} {c : Option (Coroutine Unit Int)}
    (hc : c = some ⟨(), (n : Int) * 100, true, .ready⟩) :
    (if j = n then c else if j < n then some ⟨(), (j : Int) * 100, true, .ready⟩ else none) =
      if j < n + 1 then some ⟨(), (j : Int) * 100, true, .ready⟩ else none := by
  rcases Nat.lt_trichotomy j n with hlt | heq | hgt
  · rw [if_neg hlt.ne, if_pos hlt, if_pos (Nat.lt_succ_of_lt hlt)]
  · rw [if_pos heq, if_pos (heq ▸ Nat.lt_succ_self n), hc, heq]
  · rw [if_neg hgt.ne', if_neg hgt.not_gt, if_neg (Nat.not_lt.mpr hgt)]

/-- **The next coroutine gets the next id.** -/
theorem coNew_filled {n : Nat} {env : Env Unit Int} (h : Filled n env) :
    ∃ env', coNew env () ((n : Int) * 100) Alloc.all = .ok ((n : Int), env') ∧
      Filled (n + 1) env' := by
  have hw := h.sched.wf
  have hle := hw.nco_le
  rw [h.nco] at hle
  rcases hle.lt_or_eq with hlt | heq
  · have hfree : env.slot n = none := by
      rw [h.slot, if_neg (Nat.lt_irrefl n)]
    have hroom : env.nco < env.cap := by rw [h.nco]; exact hlt
    have hscan : scan env 0 env.cap = .ok (some n) := by
      obtain ⟨c, hc⟩ := Nat.exists_eq_succ_of_ne_zero (Nat.ne_of_gt (Nat.zero_lt_of_lt hlt))
      have hstart : 0 + env.nco = n := by rw [Nat.zero_add, h.nco]
      conv_lhs => rw [hc]
      rw [scan_succ hw (by rw [hstart]; exact hlt), hstart, if_pos hfree]
    have hnew := coNew_room hroom () ((n : Int) * 100) Alloc.all
    rw [hscan, Run.ok_bind] at hnew
    refine ⟨_, hnew, sched_new h.sched hnew, h.idle, congrArg (· + 1) h.nco, fun j => ?_⟩
    rw [slot_set (by rw [hw.length_co]; exact hlt), h.slot]
    exact slot_filled rfl
  · have hfull : env.cap ≤ env.nco := by rw [h.nco]; exact heq.ge
    have hnew := coNew_full hw hfull () ((n : Int) * 100) Alloc.all
    rw [if_neg (by decide)] at hnew
    refine ⟨_, hnew.trans (by rw [heq]), sched_new h.sched hnew, h.idle,
      congrArg (· + 1) h.nco, fun j => ?_⟩
    rw [slot_grown hw (by omega), h.slot, ← heq]
    exact slot_filled rfl

/-- **The ids of `test`**, and the table it waits for. -/
theorem newLoop_filled (num : Nat) : ∀ {n : Nat} {env : Env Unit Int}, Filled n env →
    ∃ env', newLoop n num env = .ok ((List.range' n num).map Nat.cast, env') ∧
      Filled (n + num) env' := by
  induction num with
  | zero =>
    intro n env h
    exact ⟨env, rfl, h⟩
  | succ num ih =>
    intro n env h
    obtain ⟨env₁, hnew, h₁⟩ := coNew_filled h
    obtain ⟨env', hloop, h'⟩ := ih h₁
    refine ⟨env', ?_, ?_⟩
    · rw [newLoop]
      exact Run.bind_of_eq hnew (Run.bind_of_eq hloop rfl)
    · rw [Nat.add_assoc, Nat.add_comm 1 num] at h'
      exact h'

/-! ## 3. One pass -/

section Pass

variable {w w' : World Unit Int Lines} {out : Lines} {depth num rounds r i : Nat}

/-- A pass after `r` rounds, before it comes to slot `i`: who comes before has had one more turn,
and has finished if there were no rounds left. -/
structure Stage (depth : Nat) (out : Lines) (num rounds r i : Nat) (w : World Unit Int Lines) :
    Prop where
  idle : Idle w
  live : ∀ j, Live w j ↔ j < num ∧ (i ≤ j ∨ r < rounds)
  ahead : ∀ j, j < num → i ≤ j → w.body j = fooLoop depth j ((j : Int) * 100) r (rounds - r)
  done : r < rounds → ∀ j, j < num → j < i →
    w.body j = fooLoop depth j ((j : Int) * 100) (r + 1) (rounds - (r + 1))
  mem : w.mem = out ++ (allLines num r ++ if r < rounds then roundLines r (min i num) else [])

/-- What a turn leaves in the memory. -/
def Prog.left : Prog Lines → Lines
  | .ret s => s
  | .swap s _ _ => s

theorem resume_mem {b : Bool} {j : Nat} (hres : resume w j = .ok (b, w')) :
    w'.mem = if b then (w.body j w.mem).left else w.mem := by
  obtain ⟨⟨b₁, env⟩, -, hres⟩ := Run.bind_eq_ok_iff.mp hres
  cases b₁ with
  | false =>
    obtain ⟨rfl, rfl⟩ := Prod.mk.inj (Except.ok.inj hres)
    rfl
  | true =>
    dsimp only at hres
    rw [if_pos rfl] at hres
    split at hres
    · nomatch hres
    obtain ⟨w₁, hseg, hres⟩ := Run.bind_eq_ok_iff.mp hres
    obtain ⟨rfl, rfl⟩ := Prod.mk.inj (Except.ok.inj hres)
    rw [Int.toNat_natCast, runSegment] at hseg
    dsimp only at hseg
    cases hbody : w.body j w.mem with
    | ret s =>
      rw [hbody] at hseg
      obtain ⟨env', -, hseg⟩ := Run.bind_eq_ok_iff.mp hseg
      rw [← Except.ok.inj hseg]
      rfl
    | swap s depth rest =>
      rw [hbody] at hseg
      obtain ⟨env', -, hseg⟩ := Run.bind_eq_ok_iff.mp hseg
      rw [← Except.ok.inj hseg]
      rfl

/-- **One slot further.** -/
theorem Stage.resume (hr : r ≤ rounds) (h : Stage depth out num rounds r i w) (hi : i < w.env.cap) :
    ∃ w', CDemo.Co.resume w i = .ok (decide (i < num), w') ∧ w'.env.cap = w.env.cap ∧
      Stage depth out num rounds r (i + 1) w' := by
  obtain ⟨b, w', hres, hrs⟩ := resume_spec h.idle hi
  have hmem := resume_mem hres
  have hlive : ∀ j, j ≠ i → (Live w' j ↔ Live w j) := fun j hj => live_congr (hrs.others j hj).1
  have hbody : ∀ j, j ≠ i → w'.body j = w.body j := fun j hj => (hrs.others j hj).2
  have hahead : ∀ j, j < num → i + 1 ≤ j →
      w'.body j = fooLoop depth j ((j : Int) * 100) r (rounds - r) :=
    fun j hj hij => (hbody j (by omega)).trans (h.ahead j hj (Nat.le_of_succ_le hij))
  have hdone : r < rounds → ∀ j, j < num → j < i →
      w'.body j = fooLoop depth j ((j : Int) * 100) (r + 1) (rounds - (r + 1)) :=
    fun hlt j hj hji => (hbody j hji.ne).trans (h.done hlt j hj hji)
  have hothers : ∀ j, j ≠ i → (Live w' j ↔ j < num ∧ (i + 1 ≤ j ∨ r < rounds)) := by
    intro j hj
    rw [hlive j hj, h.live]
    omega
  by_cases hnum : i < num
  · have hli : Live w i := (h.live i).mpr ⟨hnum, .inl (le_refl i)⟩
    obtain ⟨rfl, -, hstep⟩ := hrs.turn hli
    have hwi := h.ahead i hnum (le_refl i)
    have hmin : min i num = i := Nat.min_eq_left hnum.le
    have hmin' : min (i + 1) num = i + 1 := Nat.min_eq_left hnum
    rw [if_pos rfl, hwi, h.mem, hmin] at hmem
    rw [decide_eq_true hnum]
    rcases hr.lt_or_eq with hlt | rfl
    · -- a line and a switch
      have hrest : rounds - r = rounds - (r + 1) + 1 := by omega
      rw [hrest, fooLoop] at hwi hmem
      rw [if_pos hlt] at hmem
      rw [Stepped, hwi] at hstep
      rcases hstep with ⟨t, hret, -⟩ | ⟨t, depth', rest, hswap, hrest', hl'⟩
      · exact absurd hret (by simp)
      obtain ⟨-, -, rfl⟩ := Prog.swap.inj hswap
      refine ⟨w', hres, hrs.cap, hrs.idle, ?_, hahead, ?_, ?_⟩
      · intro j
        by_cases hj : j = i
        · rw [hj]
          exact iff_of_true hl' ⟨hnum, .inr hlt⟩
        · exact hothers j hj
      · intro _ j hj hji
        rcases Nat.lt_succ_iff_lt_or_eq.mp hji with hji | rfl
        · exact hdone hlt j hj hji
        · exact hrest'
      · have hleft : w'.mem = out ++ (allLines num r ++ roundLines r i) ++ [line r i] := hmem
        rw [hleft, if_pos hlt, hmin', roundLines_succ, List.append_assoc, List.append_assoc]
    · -- nothing to print any more
      rw [Nat.sub_self, fooLoop] at hwi hmem
      rw [if_neg (Nat.lt_irrefl r)] at hmem
      rw [Stepped, hwi] at hstep
      rcases hstep with ⟨t, -, hdead⟩ | ⟨t, depth', rest, hswap, -⟩
      swap
      · exact absurd hswap (by simp)
      refine ⟨w', hres, hrs.cap, hrs.idle, ?_, hahead, ?_, ?_⟩
      · intro j
        by_cases hj : j = i
        · rw [hj]
          exact iff_of_false hdead (by omega)
        · exact hothers j hj
      · intro hlt
        exact absurd hlt (Nat.lt_irrefl r)
      · rw [hmem, if_neg (Nat.lt_irrefl r)]
        rfl
  · have hdead : ¬ Live w i := fun hl => hnum ((h.live i).mp hl).1
    obtain ⟨rfl, -, hnone⟩ := hrs.none hdead
    rw [decide_eq_false hnum]
    refine ⟨w', hres, hrs.cap, hrs.idle, ?_, hahead, ?_, ?_⟩
    · intro j
      by_cases hj : j = i
      · rw [hj, Live, hnone]
        exact iff_of_false (by simp [isLive]) (fun hn => hnum hn.1)
      · exact hothers j hj
    · intro hlt j hj hji
      exact hdone hlt j hj (by omega)
    · rw [hmem, if_neg (by simp), h.mem, Nat.min_eq_right (Nat.not_lt.mp hnum),
        Nat.min_eq_right (Nat.le_succ_of_le (Nat.not_lt.mp hnum))]

/-- **The rest of a pass.** -/
theorem Stage.pass (hr : r ≤ rounds) (n : Nat) : ∀ {i : Nat} (flag : Bool)
    {w : World Unit Int Lines}, Stage depth out num rounds r i w → w.env.cap = i + n →
    num ≤ w.env.cap → ∃ w', waitPass n i flag w = .ok (flag || decide (i < num), w') ∧
    w'.env.cap = w.env.cap ∧
      Stage depth out num rounds r w.env.cap w' := by
  induction n with
  | zero =>
    intro i flag w h hcap hnum
    refine ⟨w, ?_, rfl, hcap ▸ h⟩
    rw [waitPass, if_neg (by omega), decide_eq_false (by omega), Bool.or_false]
  | succ n ih =>
    intro i flag w h hcap hnum
    have hi : i < w.env.cap := by omega
    obtain ⟨w₁, hres, hcap₁, h₁⟩ := h.resume hr hi
    obtain ⟨w', hrun, hcap', h'⟩ := ih (flag || decide (i < num)) h₁ (by omega) (by omega)
    refine ⟨w', ?_, hcap'.trans hcap₁, hcap₁ ▸ h'⟩
    rw [waitPass, if_pos hi]
    refine (Run.bind_of_eq hres hrun).trans ?_
    congr 2
    by_cases hlt : i < num
    · rw [decide_eq_true hlt, Bool.or_true, Bool.true_or]
    · rw [decide_eq_false hlt, decide_eq_false (by omega), Bool.or_false]

/-- **On to the next round.** -/
theorem Stage.next (h : Stage depth out num rounds r i w) (hlt : r < rounds) (hi : num ≤ i) :
    Stage depth out num rounds (r + 1) 0 w where
  idle := h.idle
  live := by
    intro j
    rw [h.live]
    exact ⟨fun hl => ⟨hl.1, .inl (Nat.zero_le j)⟩, fun hl => ⟨hl.1, .inr hlt⟩⟩
  ahead := fun j hj _ => h.done hlt j hj (hj.trans_le hi)
  done := fun _ j _ hj => absurd hj (Nat.not_lt_zero j)
  mem := by
    rw [h.mem, if_pos hlt, Nat.min_eq_right hi, ← allLines_succ, Nat.zero_min]
    split
    · exact congrArg (out ++ ·) (List.append_nil _).symm
    · exact congrArg (out ++ ·) (List.append_nil _).symm

end Pass

/-! ## 4. The whole program -/

section Wait

variable {w : World Unit Int Lines} {out : Lines} {depth num rounds : Nat}

/-- When nobody is live, the next pass is the last and prints nothing. -/
theorem coWait_dead (h : Idle w) (hdead : ∀ j, ¬ Live w j) :
    ∃ w', (∀ passes, coWait (passes + 1) w = .ok w') ∧ w'.mem = w.mem := by
  have hstage : Stage 0 w.mem 0 0 0 0 w := by
    refine ⟨h, ?_, ?_, ?_, (List.append_nil _).symm⟩
    · intro j
      exact iff_of_false (hdead j) (fun hn => absurd hn.1 (Nat.not_lt_zero j))
    · intro j hj
      exact absurd hj (Nat.not_lt_zero j)
    · intro hlt
      exact absurd hlt (Nat.lt_irrefl 0)
  obtain ⟨w', hrun, -, h'⟩ := hstage.pass (le_refl 0) w.env.cap false
    (Nat.zero_add _).symm (Nat.zero_le _)
  refine ⟨w', fun passes => ?_, h'.mem.trans (List.append_nil _)⟩
  rw [coWait]
  exact Run.bind_of_eq hrun rfl

/-- **What `co_wait` prints**, and in which order.  The induction is on the rounds to come; after
them one pass ends the coroutines, and one finds nobody. -/
theorem Stage.wait (hpos : 0 < num) (d : Nat) : ∀ {r : Nat} {w : World Unit Int Lines},
    r + d = rounds → Stage depth out num rounds r 0 w → num ≤ w.env.cap →
    ∃ n w', (∀ passes, coWait (passes + n) w = .ok w') ∧ w'.mem = out ++ allLines num rounds := by
  induction d with
  | zero =>
    intro r w hr h hcap
    rw [Nat.add_zero] at hr
    subst hr
    obtain ⟨w₁, hrun, -, h₁⟩ := h.pass (le_refl r) w.env.cap false
      (Nat.zero_add _).symm hcap
    have hdead : ∀ j, ¬ Live w₁ j := by
      intro j hl
      have hj := (h₁.live j).mp hl
      omega
    obtain ⟨w', hrun', hmem⟩ := coWait_dead h₁.idle hdead
    refine ⟨2, w', fun passes => ?_, ?_⟩
    · rw [coWait]
      refine Run.bind_of_eq hrun ?_
      rw [decide_eq_true hpos]
      exact hrun' passes
    · rw [hmem, h₁.mem, if_neg (Nat.lt_irrefl r), List.append_nil]
  | succ d ih =>
    intro r w hr h hcap
    have hlt : r < rounds := by omega
    obtain ⟨w₁, hrun, hcap₁, h₁⟩ := h.pass hlt.le w.env.cap false
      (Nat.zero_add _).symm hcap
    obtain ⟨n, w', hrun', hmem⟩ := ih (by omega) (h₁.next hlt hcap) (hcap₁ ▸ hcap)
    refine ⟨n + 1, w', fun passes => ?_, hmem⟩
    rw [← Nat.add_assoc, coWait]
    refine Run.bind_of_eq hrun ?_
    rw [decide_eq_true hpos]
    exact hrun' passes

theorem allLines_zero (r : Nat) : allLines 0 r = [] :=
  List.flatMap_eq_nil_iff.mpr fun _ _ => rfl

/-- The same with no coroutine, too. -/
theorem Stage.coWait {w : World Unit Int Lines} (h : Stage depth out num rounds 0 0 w)
    (hcap : num ≤ w.env.cap) :
    ∃ n w', (∀ passes, CDemo.Co.coWait (passes + n) w = .ok w') ∧
      w'.mem = out ++ allLines num rounds := by
  rcases Nat.eq_zero_or_pos num with rfl | hpos
  · have hdead : ∀ j, ¬ Live w j := fun j hl => Nat.not_lt_zero j ((h.live j).mp hl).1
    obtain ⟨w', hrun, hmem⟩ := coWait_dead h.idle hdead
    refine ⟨1, w', hrun, ?_⟩
    rw [hmem, h.mem, allLines_zero, allLines_zero]
    split
    · rfl
    · rfl
  · exact h.wait hpos rounds (Nat.zero_add rounds) hcap

end Wait

/-- **What a thread prints**: round by round, and in each round one line of every coroutine in the
order in which they were made, whatever their number and that of the rounds; also where the table
grows while they are made.  Their ids are the numbers from 0 on, and in the end every slot is
released. -/
theorem worker_transcript (depth num rounds : Nat) : ∃ n w,
    (∀ passes, n ≤ passes →
      worker depth num rounds passes = .ok ((List.range num).map Nat.cast, w)) ∧
    w.mem = allLines num rounds ∧ (∀ j, w.env.slot j = none) ∧ w.env.nco = 0 := by
  obtain ⟨env, hnew, hfilled⟩ := newLoop_filled num filled_coOpen
  rw [Nat.zero_add] at hfilled
  have hidle : Idle (⟨env, .fresh, bodies depth rounds env, [], []⟩ : World Unit Int Lines) :=
    ⟨hfilled.sched, hfilled.idle, Saves.ok_fresh⟩
  have hstage : Stage depth [] num rounds 0 0 ⟨env, .fresh, bodies depth rounds env, [], []⟩ := by
    refine ⟨hidle, ?_, ?_, ?_, ?_⟩
    · intro j
      rw [Live, hfilled.slot]
      split
      · next hj => exact iff_of_true rfl ⟨hj, .inl (Nat.zero_le j)⟩
      · next hj => exact iff_of_false (by simp [isLive]) (fun hn => hj hn.1)
    · intro j hj _
      dsimp only
      rw [bodies, hfilled.slot, if_pos hj]
      rfl
    · intro _ j _ hj
      exact absurd hj (Nat.not_lt_zero j)
    · rw [Nat.zero_min]
      split
      · rfl
      · rfl
  have hcap : num ≤ env.cap := hfilled.nco ▸ hfilled.sched.wf.nco_le
  obtain ⟨n, w, hrun, hmem⟩ := hstage.coWait hcap
  obtain ⟨m, ls, w', hrun', hwaited⟩ := coWait_ends _ _ hidle rfl
  obtain rfl : w' = w := by
    have hsame := hrun' (m + 1 + n) (by omega)
    exact Except.ok.inj (hsame.symm.trans (hrun (m + 1)))
  refine ⟨n, w', ?_, hmem, hwaited.slot_none, hwaited.idle.sched.nco_eq_zero hwaited.slot_none⟩
  intro passes hpasses
  obtain ⟨k, rfl⟩ := Nat.exists_eq_add_of_le' hpasses
  rw [← List.range_eq_range'] at hnew
  exact Run.bind_of_eq hnew (Run.bind_of_eq (hrun k) rfl)

end CDemo.Co
