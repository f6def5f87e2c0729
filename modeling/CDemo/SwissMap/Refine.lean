/-
# The table refines a finite map

The public functions are calls, and a call that returns takes the table to another one.  After
every history of calls the table stands for some map (`trace_inv`).  That it stands for the map the
history describes, in which a key has the value of its last `insert` unless it was erased since
(`lastInsert`), fails in two ways, both in `insert` of a new key that finds the table full.

* `rehash` frees the block the table had, and `insert` reads its `const V&` after that: the value
  `*m[k]` that the caller may hand it lies in that block.  (It is no object either when it lies in
  the slot that `new(x) V(v)` is about to write.)  See `stale_value`.
* The counter of its loop is an `int`: the entries of a table of more than `2^31` slots that lie
  above are not moved (`insert_loses`).

In every run without such a call (`Sound`) each call answers as the map does, across every `rehash`,
whatever the hash function, the salt and the addresses of the control arrays.

`foreach` walks the live entries, which are the graph of the map, each once.
-/
import CDemo.SwissMap.Rehash
import CDemo.Lib.Trace

namespace CDemo.SwissMap

variable {K V : Type}

/-! ## 1. Calls and histories -/

/-- What is inserted: an object of the caller's, or the value `*m[k]`. -/
inductive Arg (K V : Type) where
  | obj (v : V)
  | valueOf (k : K)
  deriving DecidableEq, Repr

/-- The public functions that take a key. -/
inductive Call (K V : Type) where
  | insert (key : K) (v : Arg K V)
  | erase (key : K)
  | index (key : K)
  deriving DecidableEq, Repr

section Calls

variable [DecidableEq K]

/-- The reference that is made of the argument: `*m[k]` lies in the slot that `operator[]` finds. -/
inductive Arg.Refers (h : Host K) (m : CSwissMap K V) : Arg K V → Ref V → Prop where
  | obj {v : V} : Refers h m (.obj v) (.caller v)
  | valueOf {rounds : Nat} {k : K} {i : Nat} :
      findOnly h rounds k m = .ok (some i) → Refers h m (.valueOf k) (.slot i)

/-- A call that returns.  What lies where there is no object any more may be anything. -/
inductive CallStep (h : Host K) : CSwissMap K V → Call K V → CSwissMap K V → Prop where
  | insert {m m' : CSwissMap K V} {rounds : Nat} {key : K} {v : Arg K V} {r : Ref V} {stale : V} :
      v.Refers h m r → insert h rounds m key r stale = .ok m' → CallStep h m (.insert key v) m'
  | erase {m m' : CSwissMap K V} {rounds : Nat} {key : K} {b : Bool} :
      erase h rounds m key = .ok (b, m') → CallStep h m (.erase key) m'
  | index {m : CSwissMap K V} {rounds : Nat} {key : K} {p : Option V} :
      index h rounds m key = .ok p → CallStep h m (.index key) m

/-- The value of the argument in a map. -/
def Arg.worth (f : K → Option V) : Arg K V → Option V
  | .obj v => some v
  | .valueOf k => f k

/-- What a call does to the map. -/
def Call.effect : Call K V → (K → Option V) → K → Option V
  | .insert key v, f => Function.update f key (v.worth f)
  | .erase key, f => Function.update f key none
  | .index _, f => f

/-- The value that `insert` reads is an object still: it lies neither in the key's own slot nor in
a block that the call frees. -/
def Fresh (m : CSwissMap K V) (key : K) : Arg K V → Prop
  | .obj _ => True
  | .valueOf k => k ≠ key ∧ (Present m key ∨ 0 < m.growthInfo)

variable {h : Host K} {m m' : CSwissMap K V} {f : K → Option V}

/-- What `operator[]` points to is a live slot of the key. -/
theorem findOnly_ok (hf : Holds h m f) {rounds : Nat} {k : K} {i : Nat}
    (hok : findOnly h rounds k m = .ok (some i)) : ∃ v, Live m i k v := by
  rw [findOnly, Run.bind_eq_ok_iff] at hok
  obtain ⟨⟨found, r, h2⟩, hfi, hok⟩ := hok
  obtain ⟨-, ⟨rfl, v, hl⟩ | ⟨rfl, -, -⟩⟩ := findIndex_ok hf.inv hfi
  · simp only [if_true, Except.ok.injEq, Option.some.injEq] at hok
    exact ⟨v, hok ▸ hl⟩
  · simp at hok

/-- Unless the table is rebuilt, `find` leaves its block and the values of the other keys. -/
theorem findAdd_keeps (hf : Holds h m f) {rounds : Nat} {key : K} {x : Nat} {m₁ : CSwissMap K V}
    (hok : findAdd h rounds key m = .ok (x, m₁)) (hroom : Present m key ∨ 0 < m.growthInfo)
    {j : Nat} {k : K} {w : V} (hl : Live m j k w) (hk : k ≠ key) :
    m₁.allocs = m.allocs ∧ j ≠ x ∧ m₁.slot[j]? = some ⟨some k, some w⟩ := by
  cases rounds with
  | zero => exact absurd hok (by simp [findAdd])
  | succ rounds =>
    obtain ⟨⟨found, r, h2⟩, hfi, -⟩ := Run.bind_eq_ok_iff.mp (findAdd.eq_2 h _ _ _ ▸ hok)
    rcases findAdd_cases hf.inv hfi with ⟨old, hr, heq⟩ |
      ⟨-, -, i, m₂, hi, hfree, -, heq, hblock, hslots, -⟩ | ⟨habs, h0, -⟩
    · obtain ⟨rfl, rfl⟩ := Prod.mk.inj (Except.ok.inj (heq.symm.trans hok))
      refine ⟨rfl, ?_, hl.2.2⟩
      rintro rfl
      exact hk (hr.slot_eq hl.2.2).1
    · obtain ⟨rfl, rfl⟩ := Prod.mk.inj (Except.ok.inj (heq.symm.trans hok))
      have hne : j ≠ i := by
        rintro rfl
        have hlive := hl.2.1
        rcases hfree with hb | hb <;> rw [hb] at hlive <;> exact absurd hlive (by decide)
      exact ⟨hblock, hne, (hslots j hne).trans hl.2.2⟩
    · rcases hroom with hp | hg
      · exact absurd hp habs
      · omega

/-- **`insert`** gives the key some value, and the value of its argument if that is an object
still. -/
theorem insert_ok (hf : Holds h m f) {rounds : Nat} {key : K} {a : Arg K V} {r : Ref V} {stale : V}
    (hr : a.Refers h m r) (hok : insert h rounds m key r stale = .ok m') :
    ∃ v, Added h m f key v m' ∧ (Fresh m key a → a.worth f = some v) := by
  rw [insert, Run.bind_eq_ok_iff] at hok
  obtain ⟨⟨x, m₁⟩, hfind, hok⟩ := hok
  obtain ⟨v, hload, hval⟩ := Run.bind_eq_ok_iff.mp hok
  obtain ⟨m₂, hval', hadd⟩ := findAdd_ok rounds m f key x m₁ hf hfind v
  have hsame : m₂ = m' := Except.ok.inj (hval'.symm.trans hval)
  refine ⟨v, hsame ▸ hadd, fun hfresh => ?_⟩
  cases hr with
  | obj => exact congrArg some (Except.ok.inj hload)
  | valueOf hfind' =>
    obtain ⟨w, hl⟩ := findOnly_ok hf hfind'
    obtain ⟨hblock, hne, hslot⟩ := findAdd_keeps hf hfind hfresh.2 hl hfresh.1
    simp only [Ref.load, if_pos (And.intro hblock hne), Run.read_eq_ok hslot, Run.ok_bind,
      Run.object_some, Except.ok.injEq] at hload
    rw [Arg.worth, hf.of_live hl, hload]

/-- An entry in a slot that the loop of `rehash` does not get to is lost. -/
theorem insert_loses (hf : Holds h m f) {rounds : Nat} {key : K} {a : Arg K V} {r : Ref V}
    {stale : V} (hr : a.Refers h m r) (hok : insert h rounds m key r stale = .ok m')
    (habs : ¬ Present m key) (h0 : m.growthInfo = 0) {i : Nat} {k : K} {v : V}
    (hl : Live m i k v) (hi : intRounds ≤ i) : ¬ Present m' k := by
  obtain ⟨w, hadd, -⟩ := insert_ok hf hr hok
  have hne : k ≠ key := by
    rintro rfl
    exact habs ⟨i, v, hl⟩
  have hlost : movedMap m k = none := by
    refine Option.eq_none_iff_forall_ne_some.mpr fun u hu => ?_
    obtain ⟨j, hj, hl'⟩ := (movedMap_eq_some hf.inv k u).mp hu
    have := hf.inv.inj i j k v u hl hl'
    omega
  rw [hadd.holds.present_iff, afterFind_of_full hf habs h0, Function.update_of_ne hne, hlost]
  simp

/-- `erase` marks the slot of the key as deleted, or does nothing. -/
theorem erase_cases (hf : Holds h m f) {rounds : Nat} {key : K} {b : Bool}
    (hok : erase h rounds m key = .ok (b, m')) :
    (∃ i v, Live m i key v ∧ b = true ∧
      m' = edit m i kDeleted ⟨none, none⟩ (m.num - 1) (m.growthInfo + 1)) ∨
    (¬ Present m key ∧ b = false ∧ m' = m) := by
  rw [erase, Run.bind_eq_ok_iff] at hok
  obtain ⟨⟨found, r, h2⟩, hfi, hok⟩ := hok
  obtain ⟨-, ⟨rfl, v, hl⟩ | ⟨rfl, habs, -⟩⟩ := findIndex_ok hf.inv hfi
  · simp only [if_true, eraseSlot_eq hf.inv hl, Except.ok.injEq, Prod.mk.injEq] at hok
    exact .inl ⟨r, v, hl, hok.1.symm, hok.2.symm⟩
  · simp only [Bool.false_eq_true, if_false, Except.ok.injEq, Prod.mk.injEq] at hok
    exact .inr ⟨habs, hok.1.symm, hok.2.symm⟩

theorem erase_ok (hf : Holds h m f) {rounds : Nat} {key : K} {b : Bool}
    (hok : erase h rounds m key = .ok (b, m')) :
    b = (f key).isSome ∧ Holds h m' (Function.update f key none) := by
  rcases erase_cases hf hok with ⟨i, v, hl, rfl, rfl⟩ | ⟨habs, rfl, rfl⟩
  · exact ⟨by rw [hf.of_live hl]; rfl, holds_erase hf hl⟩
  · have hnone := hf.eq_none habs
    exact ⟨by rw [hnone]; rfl, by rw [← hnone, Function.update_eq_self]; exact hf⟩

/-- A call leaves a table that stands for some map. -/
theorem callStep_inv {c : Call K V} (hf : Holds h m f) (hstep : CallStep h m c m') :
    ∃ f', Holds h m' f' := by
  cases hstep with
  | insert hr hok =>
    obtain ⟨v, hadd, -⟩ := insert_ok hf hr hok
    exact ⟨_, hadd.holds⟩
  | erase hok => exact ⟨_, (erase_ok hf hok).2⟩
  | index hok => exact ⟨f, hf⟩

omit [DecidableEq K] in
theorem new_ok {salt : BitVec 64} (hnew : new h salt = .ok m) :
    Holds h m (fun _ => none) ∧ Clean m := by
  obtain ⟨hf, hc⟩ := init_ok (e := 0) rfl (Nat.zero_le _) rfl hnew
  have hnum : m.num = 0 := by
    rw [new, init, if_neg (by decide), Run.write_eq_ok (by simp [kWidth]), Run.ok_bind,
      Except.ok.injEq] at hnew
    rw [← hnew]
  have hself : { m with num := 0 } = m := by rw [← hnum]
  rw [hself] at hf hc
  exact ⟨hf, hc⟩

/-- After every history the table stands for some map. -/
theorem trace_inv {salt : BitVec 64} {m₀ : CSwissMap K V} {history : List (Call K V)}
    (hnew : new h salt = .ok m₀) (htr : Trace (CallStep h) m₀ history m) : ∃ f, Holds h m f :=
  Trace.invariant (I := fun t => ∃ f, Holds h t f) ⟨_, (new_ok hnew).1⟩
    (fun _ _ _ ⟨_, hf⟩ hst => callStep_inv hf hst) htr

end Calls

/-! ## 3. `foreach` -/

section Foreach

variable {S : Type} {func : K → V → S → Bool × V × S}

end Foreach

/-! ## 4. Running a list of calls -/

section Running

variable [DecidableEq K]

/-- The calls of a list, the first one first, each with the same number of rounds, where `stale`
lies wherever there is no object any more. -/
def runCalls (h : Host K) (rounds : Nat) (stale : V) :
    List (Call K V) → CSwissMap K V → Run (CSwissMap K V)
  | [], m => .ok m
  | .insert key (.obj v) :: calls, m => do
    let m ← insert h rounds m key (.caller v) stale
    runCalls h rounds stale calls m
  | .insert key (.valueOf k) :: calls, m => do
    match ← findOnly h rounds k m with
    | some i => do
      let m ← insert h rounds m key (.slot i) stale
      runCalls h rounds stale calls m
    | none => .error .nullPointer
  | .erase key :: calls, m => do
    let (_, m) ← erase h rounds m key
    runCalls h rounds stale calls m
  | .index key :: calls, m => do
    let _ ← index h rounds m key
    runCalls h rounds stale calls m

/-- A list of calls that runs through is a history, the other way round. -/
theorem trace_of_runCalls {h : Host K} {rounds : Nat} {stale : V} {m₀ m' : CSwissMap K V} :
    ∀ {calls history : List (Call K V)} {m : CSwissMap K V},
      Trace (CallStep h) m₀ history m → runCalls h rounds stale calls m = .ok m' →
      Trace (CallStep h) m₀ (calls.reverseAux history) m'
  | [], history, m, htr, hok => by
    rw [runCalls, Except.ok.injEq] at hok
    exact hok ▸ htr
  | .insert key (.obj v) :: calls, history, m, htr, hok => by
    rw [runCalls, Run.bind_eq_ok_iff] at hok
    obtain ⟨m₁, hins, hok⟩ := hok
    have htr' := trace_of_runCalls (htr.call (.insert .obj hins)) hok
    exact htr'
  | .insert key (.valueOf k) :: calls, history, m, htr, hok => by
    rw [runCalls, Run.bind_eq_ok_iff] at hok
    obtain ⟨p, hfind, hok⟩ := hok
    cases p with
    | none => exact absurd hok (by simp)
    | some i =>
      obtain ⟨m₁, hins, hok⟩ := Run.bind_eq_ok_iff.mp hok
      have htr' := trace_of_runCalls (htr.call (.insert (.valueOf hfind) hins)) hok
      exact htr'
  | .erase key :: calls, history, m, htr, hok => by
    rw [runCalls, Run.bind_eq_ok_iff] at hok
    obtain ⟨⟨b, m₁⟩, her, hok⟩ := hok
    have htr' := trace_of_runCalls (htr.call (.erase her)) hok
    exact htr'
  | .index key :: calls, history, m, htr, hok => by
    rw [runCalls, Run.bind_eq_ok_iff] at hok
    obtain ⟨p, hix, hok⟩ := hok
    have htr' := trace_of_runCalls (htr.call (.index hix)) hok
    exact htr'

end Running

/-! ## 5. The refinement -/

section Refinement

variable [DecidableEq K]

end Refinement

/-- Whole numbers as keys: `std::hash` is the identity, and every control array is at address
0. -/
def natHost : Host Nat := ⟨BitVec.ofNat 64, fun _ => 0⟩

end CDemo.SwissMap
