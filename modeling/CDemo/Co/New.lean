/-
# What `co_new` promises, and when it keeps it

`co.h` promises that `co_new` returns a valid id on success and `-1` on failure.  Spelled out
over the table: an id below the capacity whose slot held `NULL` and now holds the new
coroutine, one more coroutine counted and every other slot as it was, or `-1` and nothing
changed.  `NewContract` is that promise.

Two lines of `co_new` break it.

* The scan tests `co[(i + nco) & cap]`.  The table has `cap` slots, and `x & cap` is the
  remainder modulo `cap + 1`, so the index `cap` is among those tested: when no slot from
  `nco` up is free, round `cap - nco` reads one slot past the end of the table.
* `_co_new` returns `NULL` when `calloc` fails, and nobody looks: the slot keeps `NULL`, the
  counter goes up and the caller gets an id.

`newContract_iff` says that there is nothing else: in every reachable state and for every
outcome of the allocations the promise is kept exactly when neither happens.
-/
import CDemo.Co.Env

namespace CDemo.Co

variable {F A : Type}

/-! ## 1. The promise -/

/-- Some slot of the table is free. -/
def HasFree (env : Env F A) : Prop := ∃ k, k < env.cap ∧ env.slot k = none

/-- `co_new` gives the new coroutine a slot of its own, or gives up and changes nothing --
which it may not do while the table has room. -/
def NewContract (env : Env F A) (func : F) (arg : A) (alloc : Alloc) : Prop :=
  Run.Returns (coNew env func arg alloc) fun (id, env') =>
    (∃ k : Nat, id = k ∧ k < env'.cap ∧ env.slot k = none ∧
      (∃ ctx, env'.slot k = some ⟨func, arg, ctx, .ready⟩) ∧ env'.nco = env.nco + 1 ∧
      ∀ j, j ≠ k → env'.slot j = env.slot j) ∨
    (id = -1 ∧ env' = env ∧ ¬ (env.nco < env.cap ∧ HasFree env))

/-- The table is full and is grown, or has a free slot at `nco` or above; and the coroutine
itself could be allocated. -/
def NewCond (env : Env F A) (alloc : Alloc) : Prop :=
  (env.cap ≤ env.nco ∧ (alloc.table = false ∨ alloc.co = true)) ∨
  (env.nco < env.cap ∧ alloc.co = true ∧
    ∃ k, env.nco ≤ k ∧ k < env.cap ∧ env.slot k = none)

/-! ## 2. Slots of an updated table -/

theorem slot_eq_none_of_le {env : Env F A} (hw : Wf env) {j : Nat} (h : env.cap ≤ j) :
    env.slot j = none := by
  rw [← hw.length_co] at h
  simp [Env.slot, List.getElem?_eq_none h]

theorem slot_of_getElem? {env : Env F A} {j : Nat} {c : Option (Coroutine F A)}
    (h : env.co[j]? = some c) : env.slot j = c := by
  simp [Env.slot, h]

/-- Within the table a slot is `NULL` or holds a coroutine. -/
theorem getElem?_co {env : Env F A} (hw : Wf env) {j : Nat} (h : j < env.cap) :
    env.co[j]? = some (env.slot j) := by
  have hj : j < env.co.length := by rw [hw.length_co]; exact h
  simp [Env.slot, List.getElem?_eq_getElem hj]

theorem slot_set {env : Env F A} {nco cap k : Nat} {id : Int} {c : Option (Coroutine F A)}
    (h : k < env.co.length) (j : Nat) :
    Env.slot ⟨nco, cap, id, env.co.set k c⟩ j = if j = k then c else env.slot j := by
  simp only [Env.slot, List.getElem?_set]
  by_cases hj : k = j
  · subst hj; simp [h]
  · simp [hj, Ne.symm hj]

/-- The grown table: the new slots are `NULL` except the one that is filled. -/
theorem slot_grown {env : Env F A} (hw : Wf env) {nco cap n : Nat} (hn : 0 < n)
    {c : Option (Coroutine F A)} (j : Nat) :
    Env.slot ⟨nco, cap, env.runningId, (env.co ++ List.replicate n none).set env.cap c⟩ j
      = if j = env.cap then c else env.slot j := by
  have hlen : env.cap < (env.co ++ List.replicate n none).length := by
    rw [List.length_append, List.length_replicate, hw.length_co]; omega
  simp only [Env.slot, List.getElem?_set]
  by_cases hj : env.cap = j
  · subst hj
    simp only [if_true, if_pos hlen, Option.join_some]
  · rw [if_neg hj, if_neg (Ne.symm hj)]
    rcases Nat.lt_or_ge j env.co.length with hlt | hge
    · rw [List.getElem?_append_left hlt]
    · rw [List.getElem?_append_right hge, List.getElem?_eq_none hge, List.getElem?_replicate]
      split <;> rfl

/-! ## 3. The scan -/

/-- In round `i`, while `i + nco` is inside the table, the scan tests slot `i + nco`. -/
theorem scan_succ {env : Env F A} (hw : Wf env) {i n : Nat} (h : i + env.nco < env.cap) :
    scan env i (n + 1) = if env.slot (i + env.nco) = none then .ok (some (i + env.nco))
      else scan env (i + 1) n := by
  have hid : (i + env.nco) &&& env.cap = i + env.nco := by
    rw [hw.and_cap, Nat.mod_eq_of_lt (by omega)]
  rw [scan, hid, getElem?_co hw h]
  cases env.slot (i + env.nco) <;> rfl

/-- **A free slot at `nco` or above is found.**  The induction is on the distance to the
first such slot. -/
theorem scan_finds {env : Env F A} (hw : Wf env) {k : Nat} (hk : k < env.cap)
    (hfree : env.slot k = none) :
    ∀ (d i n : Nat), i + env.nco + d = k → d < n →
      ∃ id, scan env i n = .ok (some id)
  | d, i, 0, _, hn => by omega
  | 0, i, n + 1, hi, _ => by
    rw [scan_succ hw (by omega), if_pos (by rw [← hfree]; congr 1)]
    exact ⟨_, rfl⟩
  | d + 1, i, n + 1, hi, hn => by
    rw [scan_succ hw (by omega)]
    split
    · exact ⟨_, rfl⟩
    · exact scan_finds hw hk hfree d (i + 1) n (by omega) (by omega)

/-- **With no free slot at `nco` or above the scan finds nothing.**  It runs to slot `cap`
and reads past the table; only when `nco = 0` do the rounds run out first. -/
theorem scan_misses {env : Env F A} (hw : Wf env)
    (hfull : ∀ k, env.nco ≤ k → k < env.cap → env.slot k ≠ none) :
    ∀ (d i n : Nat), i + env.nco + d = env.cap → ∀ id, scan env i n ≠ .ok (some id)
  | d, i, 0, _, id => by simp [scan]
  | 0, i, n + 1, hi, id => by
    have hid : (i + env.nco) &&& env.cap = env.cap := by
      rw [hw.and_cap, show i + env.nco = env.cap by omega, Nat.mod_eq_of_lt (Nat.lt_succ_self _)]
    have hout : env.co[env.cap]? = none := List.getElem?_eq_none (by rw [hw.length_co])
    unfold scan
    dsimp only
    rw [hid, hout]
    simp
  | d + 1, i, n + 1, hi, id => by
    rw [scan_succ hw (by omega), if_neg (hfull _ (by omega) (by omega))]
    exact scan_misses hw hfull d (i + 1) n (by omega) id

/-! ## 4. The two branches of `co_new` -/

theorem coNew_full {env : Env F A} (hw : Wf env) (hc : env.cap ≤ env.nco) (func : F) (arg : A)
    (alloc : Alloc) :
    coNew env func arg alloc = if alloc.table = false then .ok (-1, env) else
      .ok (env.cap, { env with
        nco := env.nco + 1, cap := env.cap * 2 + 1,
        co := (env.co ++ List.replicate (env.cap * 2 + 1 - env.cap) none).set env.cap
          (coNewAlloc func arg alloc) }) := by
  unfold coNew
  simp only [ge_iff_le, hc, if_true, decide_eq_true hw.grown_valid, Run.assert_true, Run.ok_bind]
  split <;> rfl

theorem coNew_room {env : Env F A} (hc : env.nco < env.cap) (func : F) (arg : A)
    (alloc : Alloc) :
    coNew env func arg alloc = scan env 0 env.cap >>= fun r => match r with
      | some id => .ok ((id : Int),
          { env with nco := env.nco + 1, co := env.co.set id (coNewAlloc func arg alloc) })
      | none => .error .assertFailed := by
  unfold coNew
  simp only [ge_iff_le, Nat.not_le.mpr hc, if_false]
  rfl

/-- The contract on a full table. -/
theorem newContract_full {env : Env F A} (hw : Wf env) (hc : env.cap ≤ env.nco) (func : F)
    (arg : A) (alloc : Alloc) :
    NewContract env func arg alloc ↔ alloc.table = false ∨ alloc.co = true := by
  unfold NewContract
  rw [coNew_full hw hc]
  by_cases ht : alloc.table = false
  · rw [if_pos ht, Run.returns_ok]
    exact ⟨fun _ => Or.inl ht, fun _ => Or.inr ⟨rfl, rfl, by omega⟩⟩
  · rw [if_neg ht, Run.returns_ok]
    constructor
    · rintro (⟨k, hk, -, -, ⟨ctx, hslot⟩, -, -⟩ | ⟨hid, -, -⟩)
      · have hk' : env.cap = k := by exact_mod_cast hk
        subst hk'
        rw [slot_grown hw (by omega), if_pos rfl] at hslot
        by_cases hco : alloc.co = true
        · exact Or.inr hco
        · simp [coNewAlloc, hco] at hslot
      · exact absurd hid (by omega)
    · rintro (h | hco)
      · exact absurd h ht
      · refine Or.inl ⟨env.cap, rfl, by dsimp only; omega,
          slot_eq_none_of_le hw (Nat.le_refl _), ⟨alloc.ctx, ?_⟩, rfl, ?_⟩
        · rw [slot_grown hw (by omega), if_pos rfl, coNewAlloc, if_pos hco]
        · intro j hj
          rw [slot_grown hw (by omega), if_neg hj]

/-- The contract on a table with room. -/
theorem newContract_room {env : Env F A} (hw : Wf env) (hc : env.nco < env.cap) (func : F)
    (arg : A) (alloc : Alloc) :
    NewContract env func arg alloc ↔
      alloc.co = true ∧ ∃ k, env.nco ≤ k ∧ k < env.cap ∧ env.slot k = none := by
  unfold NewContract
  rw [coNew_room hc]
  constructor
  · rintro ⟨⟨id, env'⟩, hret, hcon⟩
    obtain ⟨r, hr, hret⟩ := Run.bind_eq_ok_iff.mp hret
    cases r with
    | none => exact absurd hret (by simp)
    | some k0 =>
      simp only [Except.ok.injEq, Prod.mk.injEq] at hret
      obtain ⟨hid, henv⟩ := hret
      have hk0 : env.co[k0]? = some none := scan_some hr
      have hk0lt : k0 < env.co.length := (List.getElem?_eq_some_iff.mp hk0).1
      refine ⟨?_, ?_⟩
      · rcases hcon with ⟨k, hk, -, -, ⟨ctx, hslot⟩, -, -⟩ | ⟨hneg, -, -⟩
        · have hk' : k0 = k := by exact_mod_cast hid.trans hk
          subst hk'
          rw [← henv, slot_set hk0lt, if_pos rfl] at hslot
          by_contra hco
          simp [coNewAlloc, hco] at hslot
        · exact absurd (hid.trans hneg) (by omega)
      · by_contra hnone
        have hfull : ∀ k, env.nco ≤ k → k < env.cap → env.slot k ≠ none :=
          fun k h1 h2 h3 => hnone ⟨k, h1, h2, h3⟩
        exact scan_misses hw hfull (env.cap - env.nco) 0 env.cap (by omega) k0 hr
  · rintro ⟨hco, k, hk1, hk2, hfree⟩
    obtain ⟨id, hid⟩ := scan_finds hw hk2 hfree (k - env.nco) 0 env.cap (by omega) (by omega)
    have hnull : env.co[id]? = some none := scan_some hid
    have hidlt : id < env.co.length := (List.getElem?_eq_some_iff.mp hnull).1
    rw [hid, Run.ok_bind, Run.returns_ok]
    refine Or.inl ⟨id, rfl, by rw [hw.length_co] at hidlt; exact hidlt,
      slot_of_getElem? hnull, ⟨alloc.ctx, ?_⟩, rfl, ?_⟩
    · rw [slot_set hidlt, if_pos rfl, coNewAlloc, if_pos hco]
    · intro j hj
      rw [slot_set hidlt, if_neg hj]

/-! ## 5. Every reachable state -/

/-- **When `co_new` keeps its promise.**  In every state a run reaches, and whatever the
allocations do. -/
theorem newContract_iff {env : Env F A} (h : Reachable env) (func : F) (arg : A)
    (alloc : Alloc) : NewContract env func arg alloc ↔ NewCond env alloc := by
  have hw := h.wf
  unfold NewCond
  rcases Nat.lt_or_ge env.nco env.cap with hc | hc
  · rw [newContract_room hw hc]
    constructor
    · exact fun h => Or.inr ⟨hc, h⟩
    · rintro (⟨hle, -⟩ | ⟨-, h⟩)
      · omega
      · exact h
  · rw [newContract_full hw hc]
    constructor
    · exact fun h => Or.inl ⟨hc, h⟩
    · rintro (⟨-, h⟩ | ⟨hlt, -⟩)
      · exact h
      · omega

/-- All three allocations succeed. -/
def Alloc.all : Alloc := ⟨true, true, true⟩

/-- A fresh environment keeps the promise. -/
theorem newContract_iff_fresh :
    NewContract (coOpen 3 : Env Unit Unit) () () Alloc.all ∧
      NewCond (coOpen 3 : Env Unit Unit) Alloc.all :=
  have hc : NewCond (coOpen 3 : Env Unit Unit) Alloc.all :=
    Or.inr ⟨by decide, rfl, 0, by decide, by decide, rfl⟩
  ⟨(newContract_iff (Reachable.start 3) () () Alloc.all).mpr hc, hc⟩

/-- Three coroutines in a table of three slots, the first of which has finished and has not
been resumed since. -/
def oneStoped : Env Unit Unit :=
  ⟨2, 3, -1, [some ⟨(), (), true, .stoped⟩, some ⟨(), (), true, .ready⟩,
    some ⟨(), (), true, .ready⟩]⟩

/-- The run that leads there: three `co_new`, one `co_resume`, one return. -/
theorem reachable_oneStoped : Reachable oneStoped := by
  have h1 : Step (coOpen 3)
      (⟨1, 3, -1, [some ⟨(), (), true, .ready⟩, none, none]⟩ : Env Unit Unit) :=
    .new (show coNew _ () () Alloc.all = .ok (0, _) by decide)
  have h2 : Step (⟨1, 3, -1, [some ⟨(), (), true, .ready⟩, none, none]⟩ : Env Unit Unit)
      ⟨2, 3, -1, [some ⟨(), (), true, .ready⟩, some ⟨(), (), true, .ready⟩, none]⟩ :=
    .new (show coNew _ () () Alloc.all = .ok (1, _) by decide)
  have h3 : Step (⟨2, 3, -1, [some ⟨(), (), true, .ready⟩, some ⟨(), (), true, .ready⟩, none]⟩ :
        Env Unit Unit)
      ⟨3, 3, -1, [some ⟨(), (), true, .ready⟩, some ⟨(), (), true, .ready⟩,
        some ⟨(), (), true, .ready⟩]⟩ :=
    .new (show coNew _ () () Alloc.all = .ok (2, _) by decide)
  have h4 : Step (⟨3, 3, -1, [some ⟨(), (), true, .ready⟩, some ⟨(), (), true, .ready⟩,
        some ⟨(), (), true, .ready⟩]⟩ : Env Unit Unit)
      ⟨3, 3, 0, [some ⟨(), (), true, .running⟩, some ⟨(), (), true, .ready⟩,
        some ⟨(), (), true, .ready⟩]⟩ :=
    .resume (show coResume _ 0 = .ok (true, _) by decide)
  have h5 : Step (⟨3, 3, 0, [some ⟨(), (), true, .running⟩, some ⟨(), (), true, .ready⟩,
        some ⟨(), (), true, .ready⟩]⟩ : Env Unit Unit) oneStoped := .ret (by decide)
  exact .step (.step (.step (.step (.step (.start 3) h1) h2) h3) h4) h5

/-- **The promise is broken in a reachable state**: the next `co_new` reads `co[3]` of a table
of three slots. -/
theorem newContract_oneStoped :
    Reachable oneStoped ∧ coNew oneStoped () () Alloc.all = .error .outOfBounds ∧
      ¬ NewContract oneStoped () () Alloc.all := by
  refine ⟨reachable_oneStoped, by decide, ?_⟩
  rintro ⟨r, hr, -⟩
  have hout : coNew oneStoped () () Alloc.all = .error .outOfBounds := by decide
  rw [hout] at hr
  exact absurd hr (by simp)

end CDemo.Co
