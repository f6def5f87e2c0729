/-
# The growth counter

`m_growthInfo` is, by its comment, the number of entries the table takes before the next
`rehash`; `init` sets it to `m_cap - m_cap/8` less the entries there are, and every store and
every erase moves it with `m_num`.  That would make `m_growthInfo + m_num` the constant
`m_cap - m_cap/8`.

`rehash` breaks it.  It calls `init` while `m_num` still counts the entries of the old table,
resets `m_num`, and then stores the entries again, so that they are subtracted twice.  The sum is
`budget` in place of `maxLoad`, and the two differ from the second `rehash` on
(`budget_eq_maxLoad`).  No entry has to be moved only when the table has no slot yet, so the
counter is right exactly as long as no `rehash` finds an entry to move (`growth_iff`).

No update wraps, in the calls `rehash` makes of `find` either: `FindUpdates` follows the run of
`find` from update to update.
-/
import CDemo.SwissMap.Refine

namespace CDemo.SwissMap

variable {K V : Type} [DecidableEq K] {h : Host K} {m : CSwissMap K V} {f : K → Option V}

/-! ## 1. Every update of a counter -/

/-- Every run of `find` from the loop of `rehash` satisfies `all`. -/
def ReinsertUpdates (find : K → CSwissMap K V → Run (Nat × CSwissMap K V))
    (all : K → CSwissMap K V → Prop) : List (Ctrl × Slot K V) → CSwissMap K V → Prop
  | [], _ => True
  | (c, s) :: rest, m =>
    if 0 ≤ c then
      ∀ k v, s = ⟨some k, some v⟩ → all k m ∧ ∀ x m₁ m₂, find k m = .ok (x, m₁) →
        constructValue m₁ x v = .ok m₂ → ReinsertUpdates find all rest m₂
    else ReinsertUpdates find all rest m

/-- The subtractions and additions of `find(key, true)` on its way: `m_growthInfo--` and `m_num++`
where it stores, `(n - n / 8) - m_num` where it grows the table, and so on in the calls that
`rehash` makes and in the second attempt.  Which of the two it does depends on `m_growthInfo` alone:
the group where the search gave up has a free byte (`movemask_ne_nil`). -/
def FindUpdates (h : Host K) : Nat → K → CSwissMap K V → Prop
  | 0, _, _ => True
  | rounds + 1, key, m => ∀ index h2, findIndex h (rounds + 1) m key = .ok (false, index, h2) →
    if 0 < m.growthInfo then 1 ≤ m.growthInfo ∧ m.num + 1 < 2 ^ 64
    else
      m.num ≤ maxLoad (m.cap * 2 + 1) ∧
      (∀ m', init h (m.cap * 2 + 1) m = .ok m' →
        ReinsertUpdates (findAdd h rounds) (FindUpdates h rounds)
          ((m.ctrl.zip m.slot).take intRounds) { m' with num := 0 }) ∧
      ∀ m', rehash h (findAdd h rounds) (m.cap * 2 + 1) m = .ok m' → FindUpdates h rounds key m'

/-- No counter wraps in a call from this state: not in `find`, and not in `erase`, which takes
one from `m_num` and adds one to `m_growthInfo` when it finds the key. -/
def NoWrap (h : Host K) (m : CSwissMap K V) : Prop :=
  (∀ rounds key, FindUpdates h rounds key m) ∧
  ∀ rounds key index h2, findIndex h rounds m key = .ok (true, index, h2) →
    1 ≤ m.num ∧ m.growthInfo + 1 < 2 ^ 64

theorem reinsert_updates {find : K → CSwissMap K V → Run (Nat × CSwissMap K V)}
    {all : K → CSwissMap K V → Prop} (hfind : FindsSlot h find)
    (hall : ∀ m f key, Holds h m f → all key m) :
    ∀ {l : List (Ctrl × Slot K V)} {m : CSwissMap K V} {f : K → Option V}, Holds h m f →
      ReinsertUpdates find all l m
  | [], _, _, _ => trivial
  | (c, s) :: l, m, f, hf => by
    rw [ReinsertUpdates]
    split
    · intro k v _
      refine ⟨hall m f k hf, fun x m₁ m₂ hx hval => ?_⟩
      obtain ⟨m', hm', hadd⟩ := hfind m f k x m₁ hf hx v
      obtain rfl : m' = m₂ := Except.ok.inj (hm'.symm.trans hval)
      exact reinsert_updates hfind hall hadd.holds
    · exact reinsert_updates hfind hall hf

theorem find_updates : ∀ (rounds : Nat) (m : CSwissMap K V) (f : K → Option V) (key : K),
    Holds h m f → FindUpdates h rounds key m
  | 0, _, _, _, _ => trivial
  | rounds + 1, m, f, key, hf => by
    intro index h2 _
    split
    · next hg =>
      have := hf.inv.load_lt
      exact ⟨hg, by omega⟩
    · next hg =>
      have h0 : m.growthInfo = 0 := Nat.eq_zero_of_not_pos hg
      refine ⟨num_le_grown hf.inv, fun m' hinit => ?_, fun m' hre => ?_⟩
      · exact reinsert_updates (findAdd_ok rounds)
          (fun m f key hf => find_updates rounds m f key hf) (init_grown hf h0 hinit).1
      · exact find_updates rounds m' _ key (rehash_ok (findAdd_ok rounds) hf h0 hre).1

/-- **No update wraps.** -/
theorem Holds.noWrap (hf : Holds h m f) : NoWrap h m := by
  refine ⟨fun rounds key => find_updates rounds m f key hf, fun rounds key index h2 hfi => ?_⟩
  rcases (findIndex_ok hf.inv hfi).2 with ⟨-, v, hl⟩ | ⟨hfalse, -⟩
  · have := hf.inv.load_lt
    exact ⟨hf.inv.num_pos hl, by omega⟩
  · exact absurd hfalse (by simp)

/-! ## 2. The budget -/

theorem budget_pos : ∀ {e : Nat}, 1 ≤ e → 1 ≤ budget e
  | 1, _ => by decide
  | e + 2, _ => by
    have hle := budget_le (e + 1)
    have hpow : 2 ≤ 2 ^ (e + 1) := by
      rw [pow_succ]
      have := Nat.one_le_two_pow (n := e)
      omega
    have hb : budget (e + 2) = maxLoad (2 ^ (e + 2) - 1) - budget (e + 1) := rfl
    rw [hb, pow_succ 2 (e + 1)]
    simp only [maxLoad] at hle ⊢
    omega

/-- **The budget is the load it is meant to be for tables of at most one slot only.** -/
theorem budget_eq_maxLoad : ∀ {e : Nat}, budget e = maxLoad (2 ^ e - 1) ↔ e ≤ 1
  | 0 => by decide
  | 1 => by decide
  | e + 2 => by
    have hb : budget (e + 2) = maxLoad (2 ^ (e + 2) - 1) - budget (e + 1) := rfl
    have hpos := budget_pos (e := e + 1) (by omega)
    have hle := (budget_le (e + 1)).trans (maxLoad_mono (show 2 ^ (e + 1) - 1 ≤ 2 ^ (e + 2) - 1 by
      rw [pow_succ 2 (e + 1)]
      omega))
    omega

/-- The counter is right. -/
def GrowthExact (m : CSwissMap K V) : Prop := m.growthInfo + m.num = m.cap - m.cap / 8

omit [DecidableEq K] in
theorem Inv.growthExact_iff (hm : Inv h m) : GrowthExact m ↔ m.cap ≤ 1 := by
  obtain ⟨e, he, hb⟩ := hm.budget_eq
  have hexact : GrowthExact m ↔ budget e = maxLoad (2 ^ e - 1) := by
    rw [GrowthExact, hb, ← he]
    rfl
  rw [hexact, budget_eq_maxLoad, he]
  constructor
  · intro h1
    have : 2 ^ e ≤ 2 ^ 1 := Nat.pow_le_pow_right (by decide) h1
    omega
  · intro h1
    by_contra h2
    have : 2 ^ 2 ≤ 2 ^ e := Nat.pow_le_pow_right (by decide) (by omega)
    omega

omit [DecidableEq K] in
/-- A table that has to grow without an entry has no slot. -/
theorem Inv.cap_eq_zero_iff (hm : Inv h m) (hg : m.growthInfo = 0) : m.num = 0 ↔ m.cap = 0 := by
  obtain ⟨e, he, hb⟩ := hm.budget_eq
  rw [hg, Nat.zero_add] at hb
  constructor
  · intro h0
    by_contra hcap
    have := budget_pos (e := e) (by
      by_contra he0
      have he0' : e = 0 := by omega
      rw [he0'] at he
      omega)
    omega
  · intro hcap
    have := countBytes_le (fun c => decide (0 ≤ c)) m.ctrl m.cap
    have := hm.num_eq
    omega

/-! ## 3. The capacity -/

/-- `find` and the value it is called for never make the table smaller; a new key in a table that
may take no more makes it larger. -/
def FindGrows (h : Host K) (find : K → CSwissMap K V → Run (Nat × CSwissMap K V)) : Prop :=
  ∀ m f key x m₁ v m', Holds h m f → find key m = .ok (x, m₁) → constructValue m₁ x v = .ok m' →
    m.cap ≤ m'.cap ∧ (¬ Present m key → m.growthInfo = 0 → m.cap * 2 + 1 ≤ m'.cap)

theorem reinsert_cap {find : K → CSwissMap K V → Run (Nat × CSwissMap K V)}
    (hfind : FindsSlot h find) (hgrows : FindGrows h find) :
    ∀ {l : List (Ctrl × Slot K V)} {m m' : CSwissMap K V} {f : K → Option V},
      (∀ cs ∈ l, 0 ≤ cs.1 → ∃ k v, cs.2 = ⟨some k, some v⟩) → Holds h m f →
      reinsert find l m = .ok m' → m.cap ≤ m'.cap
  | [], m, m', f, _, _, hok => by
    rw [reinsert, Except.ok.injEq] at hok
    rw [hok]
  | (c, s) :: l, m, m', f, hl, hf, hok => by
    have hrest : ∀ cs ∈ l, 0 ≤ cs.1 → ∃ k v, cs.2 = ⟨some k, some v⟩ :=
      fun cs hcs => hl cs (List.mem_cons_of_mem _ hcs)
    rw [reinsert] at hok
    split at hok
    · next hnn =>
      obtain ⟨k, v, hs⟩ := hl (c, s) List.mem_cons_self hnn
      have hs' : s = ⟨some k, some v⟩ := hs
      subst hs'
      rw [Run.object_some, Run.ok_bind, Run.bind_eq_ok_iff] at hok
      obtain ⟨⟨x, m₁⟩, hx, hok⟩ := hok
      obtain ⟨m₂, hm₂, hadd⟩ := hfind m f k x m₁ hf hx v
      simp only [Run.object_some, Run.ok_bind, hm₂] at hok
      exact (hgrows m f k x m₁ v m₂ hf hx hm₂).1.trans
        (reinsert_cap hfind hgrows hrest hadd.holds hok)
    · exact reinsert_cap hfind hgrows hrest hf hok

theorem findAdd_grows : ∀ rounds : Nat, FindGrows (V := V) h (findAdd h rounds)
  | 0 => by
    intro m f key x m₁ v m' _ hok
    exact absurd hok (by simp [findAdd])
  | rounds + 1 => by
    intro m f key x m₁ v m' hf hok hval
    obtain ⟨m'', hm'', hadd⟩ := findAdd_ok (rounds + 1) m f key x m₁ hf hok v
    obtain rfl : m'' = m' := Except.ok.inj (hm''.symm.trans hval)
    obtain ⟨⟨found, r, h2⟩, hfi, -⟩ := Run.bind_eq_ok_iff.mp (findAdd.eq_2 h _ _ _ ▸ hok)
    rcases findAdd_cases hf.inv hfi with ⟨old, hl, -⟩ | ⟨habs, hg, -⟩ | ⟨-, h0, heq⟩
    · exact ⟨(hadd.kept ⟨_, old, hl⟩).1.ge, fun habs => absurd ⟨_, old, hl⟩ habs⟩
    · exact ⟨(hadd.stored habs hg).1.ge, fun _ h0 => absurd h0 (Nat.ne_of_gt hg)⟩
    · obtain ⟨m₂, hre, hok⟩ := Run.bind_eq_ok_iff.mp (heq.symm.trans hok)
      have hf₂ := (rehash_ok (findAdd_ok rounds) hf h0 hre).1
      have h1 := (findAdd_grows rounds m₂ _ key x m₁ v m'' hf₂ hok hval).1
      obtain ⟨m₀, hinit, hre⟩ := Run.bind_eq_ok_iff.mp hre
      have h2 := reinsert_cap (findAdd_ok rounds) (findAdd_grows rounds)
        (fun cs hcs hnn => entry_of_live hf.inv (List.mem_of_mem_take hcs) hnn)
        (init_grown hf h0 hinit).1 hre
      have h3 : m.cap * 2 + 1 ≤ m''.cap := by
        rw [← init_cap hinit]
        exact h2.trans h1
      exact ⟨by omega, fun _ _ => h3⟩

/-- The first key makes a table of one slot. -/
theorem insert_first (hf : Holds h m f) (hcap : m.cap = 0) {rounds : Nat} {key : K} {v : V}
    {x : Nat} {m₁ m' : CSwissMap K V} (hfind : findAdd h rounds key m = .ok (x, m₁))
    (hval : constructValue m₁ x v = .ok m') : m'.cap = 1 := by
  have habs : ¬ Present m key := fun ⟨i, v, hl⟩ => by
    have := hl.1
    omega
  cases rounds with
  | zero => exact absurd hfind (by simp [findAdd])
  | succ rounds =>
    obtain ⟨⟨found, r, h2⟩, hfi, -⟩ := Run.bind_eq_ok_iff.mp (findAdd.eq_2 h _ _ _ ▸ hfind)
    rcases findAdd_cases hf.inv hfi with ⟨old, hl, -⟩ | ⟨-, hg, i, -, hi, -⟩ | ⟨-, h0, heq⟩
    · exact absurd ⟨_, old, hl⟩ habs
    · omega
    · obtain ⟨m₂, hre, hfind⟩ := Run.bind_eq_ok_iff.mp (heq.symm.trans hfind)
      obtain ⟨hf₂, -, hg₂⟩ := rehash_ok (findAdd_ok rounds) hf h0 hre
      obtain ⟨m₀, hinit, hre⟩ := Run.bind_eq_ok_iff.mp hre
      -- there is nothing to move
      have hnil : m.ctrl.zip m.slot = [] := by
        rw [List.eq_nil_of_length_eq_zero (hf.inv.length_slot.trans hcap), List.zip_nil_right]
      rw [hnil, List.take_nil, reinsert, Except.ok.injEq] at hre
      have hcap₂ : m₂.cap = 1 := by
        rw [← hre]
        show m₀.cap = 1
        rw [init_cap hinit, hcap]
      have habs₂ : ¬ Present m₂ key := by
        rintro ⟨i, w, hl⟩
        obtain ⟨j, -, hl'⟩ := (movedMap_eq_some hf.inv key w).mp (hf₂.of_live hl)
        exact habs ⟨j, w, hl'⟩
      obtain ⟨m'', hm'', hadd⟩ := findAdd_ok rounds m₂ _ key x m₁ hf₂ hfind v
      obtain rfl : m'' = m' := Except.ok.inj (hm''.symm.trans hval)
      rw [(hadd.stored habs₂ hg₂).1, hcap₂]

/-! ## 4. When the counter is right -/

/-- The call does not make the table grow while it has an entry to move. -/
def MovesNone (m : CSwissMap K V) : Call K V → Prop
  | .insert key _ => Present m key ∨ 0 < m.growthInfo ∨ m.num = 0
  | .erase _ => True
  | .index _ => True

/-- A call that returns and moves no entry. -/
def StillStep (h : Host K) (m : CSwissMap K V) (c : Call K V) (m' : CSwissMap K V) : Prop :=
  MovesNone m c ∧ CallStep h m c m'

/-- **One call**: a table of at most one slot stays one exactly if no entry is moved, and a larger
one stays large. -/
theorem callStep_cap {m' : CSwissMap K V} {c : Call K V} (hf : Holds h m f)
    (hstep : CallStep h m c m') : m'.cap ≤ 1 ↔ m.cap ≤ 1 ∧ MovesNone m c := by
  cases hstep with
  | index hok => simp [MovesNone]
  | erase hok =>
    rcases erase_cases hf hok with ⟨i, v, -, -, rfl⟩ | ⟨-, -, rfl⟩
    · simp [MovesNone, edit]
    · simp [MovesNone]
  | @insert m' rounds key a r stale href hok =>
    rw [insert, Run.bind_eq_ok_iff] at hok
    obtain ⟨⟨x, m₁⟩, hfind, hok⟩ := hok
    obtain ⟨v, -, hval⟩ := Run.bind_eq_ok_iff.mp hok
    obtain ⟨m'', hval', hadd⟩ := findAdd_ok rounds m f key x m₁ hf hfind v
    obtain rfl : m'' = m' := Except.ok.inj (hval'.symm.trans hval)
    rw [MovesNone]
    by_cases hp : Present m key
    · rw [(hadd.kept hp).1]
      simp [hp]
    rcases Nat.eq_zero_or_pos m.growthInfo with h0 | hpos
    · have hnum := hf.inv.cap_eq_zero_iff h0
      have hgrown := (findAdd_grows rounds m f key x m₁ v m'' hf hfind hval).2 hp h0
      by_cases hcap : m.cap = 0
      · have hone := insert_first hf hcap hfind hval
        simp [hone, hcap, hnum.mpr hcap]
      · have hne : m.num ≠ 0 := fun h => hcap (hnum.mp h)
        simp only [hp, h0, lt_irrefl, hne, or_self, and_false, iff_false]
        omega
    · rw [(hadd.stored hp hpos).1]
      simp [hpos]

section Runs

variable {salt : BitVec 64} {m₀ m : CSwissMap K V} {history : List (Call K V)}

/-- A run that ends with a table of at most one slot never moved an entry. -/
theorem still_of_cap (hnew : new h salt = .ok m₀) (htr : Trace (CallStep h) m₀ history m) :
    m.cap ≤ 1 → Trace (StillStep h) m₀ history m := by
  induction htr with
  | start => exact fun _ => .start
  | call htr hst ih =>
    intro hcap
    obtain ⟨f, hf⟩ := trace_inv hnew htr
    obtain ⟨hcap', hmoves⟩ := (callStep_cap hf hst).mp hcap
    exact .call (ih hcap') ⟨hmoves, hst⟩

/-- A run that moves no entry ends with a table of at most one slot. -/
theorem cap_of_still (hnew : new h salt = .ok m₀) (htr : Trace (StillStep h) m₀ history m) :
    m.cap ≤ 1 := by
  have hinv := Trace.invariant (I := fun t => (∃ f, Holds h t f) ∧ t.cap ≤ 1) (s := m₀)
    ⟨⟨_, (new_ok hnew).1⟩, by rw [init_cap hnew]; decide⟩ ?_ htr
  · exact hinv.2
  · rintro t c u ⟨⟨f, hf⟩, hcap⟩ ⟨hmoves, hst⟩
    exact ⟨callStep_inv hf hst, (callStep_cap hf hst).mpr ⟨hcap, hmoves⟩⟩

/-- **When the counter is right.**  After every history of calls that returned no update of the
two counters can wrap, and `m_growthInfo` is `(m_cap - m_cap/8) - m_num` exactly if no call of the
history made the table grow while it had an entry to move. -/
theorem growth_iff (hnew : new h salt = .ok m₀) (htr : Trace (CallStep h) m₀ history m) :
    (m.growthInfo + m.num = m.cap - m.cap / 8 ∧ NoWrap h m) ↔
      Trace (StillStep h) m₀ history m := by
  obtain ⟨f, hf⟩ := trace_inv hnew htr
  rw [and_iff_left hf.noWrap, ← GrowthExact, hf.inv.growthExact_iff]
  exact ⟨still_of_cap hnew htr, cap_of_still hnew⟩

end Runs

/-- The first key: the table of one slot is full, and the counter says so. -/
theorem growth_iff_oneKey :
    ∃ m₀ m : CSwissMap Nat Nat, new natHost 5 = .ok m₀ ∧
      Trace (CallStep natHost) m₀ [.insert 1 (.obj 10)] m ∧
      m.growthInfo + m.num = m.cap - m.cap / 8 := by
  have hrun : (new natHost 5 >>= fun m₀ => insert natHost 9 m₀ 1 (.caller 10) 0 >>= fun m =>
      .ok (m₀.num, m.num)) = (.ok (0, 1) : Run (Nat × Nat)) := by decide
  obtain ⟨m₀, hnew, hrun⟩ := Run.bind_eq_ok_iff.mp hrun
  obtain ⟨m, hins, hnum⟩ := Run.bind_eq_ok_iff.mp hrun
  have hnum₀ : m₀.num = 0 := (Prod.mk.inj (Except.ok.inj hnum)).1
  have htr : Trace (CallStep natHost) m₀ [.insert 1 (.obj 10)] m :=
    .call .start (.insert .obj hins)
  exact ⟨m₀, m, hnew, htr, ((growth_iff hnew htr).mpr
    (.call .start ⟨.inr (.inr hnum₀), .insert .obj hins⟩)).1⟩

/-- **Two keys.**  The table has three slots and two entries, and `m_growthInfo` is 0 where one
more entry should fit. -/
theorem growth_twoKeys :
    ∃ m₀ m : CSwissMap Nat Nat, new natHost 5 = .ok m₀ ∧
      Trace (CallStep natHost) m₀ [.insert 2 (.obj 20), .insert 1 (.obj 10)] m ∧
      m.cap = 3 ∧ m.num = 2 ∧ m.growthInfo = 0 := by
  have hrun : (new natHost 5 >>= fun m₀ => runCalls natHost 9 0
      [.insert 1 (.obj 10), .insert 2 (.obj 20)] m₀ >>= fun m => .ok (m.cap, m.num, m.growthInfo)) =
      (.ok (3, 2, 0) : Run (Nat × Nat × Nat)) := by decide
  obtain ⟨m₀, hnew, hrun⟩ := Run.bind_eq_ok_iff.mp hrun
  obtain ⟨m, hcalls, hres⟩ := Run.bind_eq_ok_iff.mp hrun
  obtain ⟨hcap, hnum, hgrowth⟩ : m.cap = 3 ∧ m.num = 2 ∧ m.growthInfo = 0 := by
    simpa using Except.ok.inj hres
  exact ⟨m₀, m, hnew, trace_of_runCalls .start hcalls, hcap, hnum, hgrowth⟩

end CDemo.SwissMap
