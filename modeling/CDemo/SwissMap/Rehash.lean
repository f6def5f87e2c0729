/-
# Growing the table, and `find` as a whole

`rehash` allocates a larger table and puts every live entry into it through `find`, which may
itself have to grow the table; then `find` starts again.  The induction that carries this is on
the rounds granted to `find`: `findAdd_ok` assumes what it says of every call with fewer
rounds, so that the loop of `rehash` (`reinsert_ok`) and the second attempt are both covered.

A table that has just been built has no deleted byte (`Clean`), and as it is never filled to
the last slot it has an empty one.  It takes more entries than the table before it held, so no
second `rehash` begins inside the loop (`budget_lt_succ`).  What the loop moves are the entries of
the first `2^31` slots (`moved`).
-/
import CDemo.SwissMap.Store
import Mathlib.Data.List.Nodup

namespace CDemo.SwissMap

variable {K V : Type}

/-! ## 1. The entries of a table -/

/-- The entry of a live slot. -/
def entryOf (cs : Ctrl × Slot K V) : Option (K × V) :=
  if 0 ≤ cs.1 then
    match cs.2 with
    | ⟨some k, some v⟩ => some (k, v)
    | _ => none
  else none

/-- The live entries, in the order of their slots. -/
def entries (m : CSwissMap K V) : List (K × V) := (m.ctrl.zip m.slot).filterMap entryOf

theorem entryOf_eq_some {cs : Ctrl × Slot K V} {k : K} {v : V} :
    entryOf cs = some (k, v) ↔ 0 ≤ cs.1 ∧ cs.2 = ⟨some k, some v⟩ := by
  obtain ⟨c, ⟨sk, sv⟩⟩ := cs
  by_cases hc : 0 ≤ c
  · cases sk <;> cases sv <;> simp [entryOf, hc]
  · simp [entryOf, hc]

section Entries

variable {h : Host K} {m : CSwissMap K V}

/-- The entry at position `i` of the paired arrays is the live entry of slot `i`. -/
theorem getElem?_zip_entry (hm : Inv h m) {i : Nat} {k : K} {v : V} :
    (∃ cs, (m.ctrl.zip m.slot)[i]? = some cs ∧ entryOf cs = some (k, v)) ↔ Live m i k v := by
  constructor
  · rintro ⟨⟨c, s⟩, hcs, he⟩
    obtain ⟨hc, hs⟩ := List.getElem?_zip_eq_some.mp hcs
    obtain ⟨hnn, rfl⟩ := entryOf_eq_some.mp he
    have hi : i < m.cap := by
      rw [← hm.length_slot]
      exact (List.getElem?_eq_some_iff.mp hs).1
    have hlen : i < m.ctrl.length := by rw [hm.shape.length_eq]; omega
    rw [getElem?_eq_byteAt hlen, Option.some.injEq] at hc
    exact ⟨hi, hc ▸ hnn, hs⟩
  · intro hl
    have hlen : i < m.ctrl.length := by rw [hm.shape.length_eq]; have := hl.1; omega
    exact ⟨(byteAt m.ctrl i, ⟨some k, some v⟩),
      List.getElem?_zip_eq_some.mpr ⟨getElem?_eq_byteAt hlen, hl.2.2⟩,
      entryOf_eq_some.mpr ⟨hl.2.1, rfl⟩⟩

/-- **No key occurs twice among the entries.** -/
theorem nodup_entries (hm : Inv h m) : ((entries m).map Prod.fst).Nodup := by
  rw [entries, List.Nodup, List.pairwise_map, List.pairwise_filterMap,
    List.pairwise_iff_getElem]
  rintro i j hi hj hij ⟨k, v⟩ hx ⟨k', v'⟩ hy heq
  have hl := (getElem?_zip_entry hm).mp ⟨_, List.getElem?_eq_getElem hi, hx⟩
  have hl' := (getElem?_zip_entry hm).mp ⟨_, List.getElem?_eq_getElem hj, hy⟩
  have hk : k = k' := heq
  subst hk
  exact absurd (hm.inj i j k v v' hl hl') (Nat.ne_of_lt hij)

/-- Every live slot of the paired arrays has an entry. -/
theorem entry_of_live (hm : Inv h m) {cs : Ctrl × Slot K V} (hcs : cs ∈ m.ctrl.zip m.slot)
    (hnn : 0 ≤ cs.1) : ∃ k v, cs.2 = ⟨some k, some v⟩ := by
  obtain ⟨i, hi⟩ := List.mem_iff_getElem?.mp hcs
  obtain ⟨hc, hs⟩ := List.getElem?_zip_eq_some.mp hi
  have hlt : i < m.cap := by
    rw [← hm.length_slot]
    exact (List.getElem?_eq_some_iff.mp hs).1
  have hlen : i < m.ctrl.length := by rw [hm.shape.length_eq]; omega
  rw [getElem?_eq_byteAt hlen, Option.some.injEq] at hc
  obtain ⟨k, v, hsl, -⟩ := hm.live i hlt (by rw [hc]; exact hnn)
  rw [hs, Option.some.injEq] at hsl
  exact ⟨k, v, hsl⟩

end Entries

/-- The live entries that `rehash` moves. -/
def moved (m : CSwissMap K V) : List (K × V) :=
  ((m.ctrl.zip m.slot).take intRounds).filterMap entryOf

section Moved

variable {h : Host K} {m : CSwissMap K V}

theorem moved_sublist (m : CSwissMap K V) : (moved m).Sublist (entries m) :=
  (List.take_sublist _ _).filterMap _

theorem nodup_moved (hm : Inv h m) : ((moved m).map Prod.fst).Nodup :=
  (nodup_entries hm).sublist ((moved_sublist m).map _)

theorem mem_moved (hm : Inv h m) {k : K} {v : V} :
    (k, v) ∈ moved m ↔ ∃ i, i < intRounds ∧ Live m i k v := by
  rw [moved, List.mem_filterMap]
  constructor
  · rintro ⟨cs, hcs, he⟩
    obtain ⟨i, hi⟩ := List.mem_iff_getElem?.mp hcs
    rw [List.getElem?_take] at hi
    split at hi
    · next hlt => exact ⟨i, hlt, (getElem?_zip_entry hm).mp ⟨cs, hi, he⟩⟩
    · exact absurd hi (by simp)
  · rintro ⟨i, hlt, hl⟩
    obtain ⟨cs, hi, he⟩ := (getElem?_zip_entry hm).mpr hl
    exact ⟨cs, List.mem_iff_getElem?.mpr ⟨i, by rw [List.getElem?_take_of_lt hlt, hi]⟩, he⟩

/-- There are no more live entries in front than live control bytes. -/
theorem length_entries_take (hm : Inv h m) :
    ∀ n, (((m.ctrl.zip m.slot).take n).filterMap entryOf).length ≤
      countBytes (fun c => 0 ≤ c) m.ctrl n := by
  intro n
  induction n with
  | zero => simp
  | succ n ih =>
    rw [countBytes_succ, List.take_add_one, List.filterMap_append, List.length_append]
    refine Nat.add_le_add ih ?_
    cases hcs : (m.ctrl.zip m.slot)[n]? with
    | none => simp
    | some cs =>
      cases he : entryOf cs with
      | none => simp [he]
      | some e =>
        have hl := (getElem?_zip_entry hm (k := e.1) (v := e.2)).mp ⟨cs, hcs, he⟩
        rw [if_pos (decide_eq_true hl.2.1)]
        simp [he]

theorem length_moved_le (hm : Inv h m) : (moved m).length ≤ m.num := by
  have hlen : (m.ctrl.zip m.slot).length ≤ m.cap := by
    rw [List.length_zip, hm.length_slot]
    exact Nat.min_le_right _ _
  have hall := length_entries_take hm m.cap
  rw [List.take_of_length_le hlen, ← hm.num_eq] at hall
  exact (moved_sublist m).length_le.trans hall

end Moved

/-! ## 2. Putting entries into a map -/

section PutAll

variable [DecidableEq K]

/-- The entries put into a map one after the other. -/
def putAll (f : K → Option V) (l : List (K × V)) : K → Option V :=
  l.foldl (fun f e => Function.update f e.1 (some e.2)) f

theorem putAll_eq_some {k : K} {v : V} :
    ∀ {l : List (K × V)} {f : K → Option V}, (l.map Prod.fst).Nodup →
      (putAll f l k = some v ↔ (k, v) ∈ l ∨ (k ∉ l.map Prod.fst ∧ f k = some v))
  | [], f, _ => by simp [putAll]
  | (k', v') :: l, f, hnd => by
    rw [List.map_cons, List.nodup_cons] at hnd
    rw [show putAll f ((k', v') :: l) = putAll (Function.update f k' (some v')) l from rfl,
      putAll_eq_some hnd.2]
    by_cases hk : k = k'
    · subst hk
      have hnot : (k, v) ∉ l := fun hmem => hnd.1 (List.mem_map.mpr ⟨_, hmem, rfl⟩)
      simp [hnot, hnd.1, eq_comm]
    · simp [hk]

/-- Into the empty map: the entries themselves. -/
theorem putAll_none {l : List (K × V)} (hnd : (l.map Prod.fst).Nodup) (k : K) (v : V) :
    putAll (fun _ => none) l k = some v ↔ (k, v) ∈ l := by
  rw [putAll_eq_some hnd]
  simp

/-- The map that `rehash` leaves of the table. -/
def movedMap (m : CSwissMap K V) : K → Option V := putAll (fun _ => none) (moved m)

theorem movedMap_eq_some {h : Host K} {m : CSwissMap K V} (hm : Inv h m) (k : K) (v : V) :
    movedMap m k = some v ↔ ∃ i, i < intRounds ∧ Live m i k v := by
  rw [movedMap, putAll_none (nodup_moved hm), mem_moved hm]

/-- What is left of the map when `find` has made room for the key: everything, unless the table
had to be rebuilt. -/
def afterFind (m : CSwissMap K V) (f : K → Option V) (key : K) : K → Option V :=
  if (f key).isSome ∨ 0 < m.growthInfo then f else movedMap m

theorem afterFind_of_present {h : Host K} {m : CSwissMap K V} {f : K → Option V} {key : K}
    (hf : Holds h m f) (hp : Present m key) : afterFind m f key = f :=
  if_pos (.inl ((hf.present_iff key).mp hp))

theorem afterFind_of_room {m : CSwissMap K V} {f : K → Option V} {key : K}
    (hg : 0 < m.growthInfo) : afterFind m f key = f := if_pos (.inr hg)

theorem afterFind_of_full {h : Host K} {m : CSwissMap K V} {f : K → Option V} {key : K}
    (hf : Holds h m f) (habs : ¬ Present m key) (h0 : m.growthInfo = 0) :
    afterFind m f key = movedMap m := by
  refine if_neg fun hor => hor.elim (fun hs => habs ((hf.present_iff key).mpr hs)) fun hg => ?_
  omega

end PutAll

/-! ## 3. A new table -/

/-- No slot is marked as deleted. -/
def Clean (m : CSwissMap K V) : Prop := ∀ i, i < m.cap → byteAt m.ctrl i ≠ kDeleted

/-- The number of slots with an empty control byte. -/
def emptyCount (m : CSwissMap K V) : Nat := countBytes (fun c => c = kEmpty) m.ctrl m.cap

theorem hasEmpty_of_emptyCount {m : CSwissMap K V} (hpos : 0 < emptyCount m) : HasEmpty m := by
  obtain ⟨i, hi, hb⟩ := exists_of_countBytes_pos hpos
  exact ⟨i, hi, of_decide_eq_true hb⟩

/-- **A clean table of fifteen slots or more has an empty one**: it was never meant to be
filled. -/
theorem Clean.hasEmpty {h : Host K} {m : CSwissMap K V} (hc : Clean m) (hm : Inv h m)
    (hlarge : 15 ≤ m.cap) : HasEmpty m := by
  by_contra hno
  have hfull : ∀ i, i < m.cap → 0 ≤ byteAt m.ctrl i := by
    intro i hi
    rcases hm.byte i hi with hb | hb | hb
    · exact absurd ⟨i, hi, hb⟩ hno
    · exact absurd hb (hc i hi)
    · exact hb
  have hnum := hm.num_eq
  rw [countBytes_eq_of_forall fun i hi => decide_eq_true (hfull i hi)] at hnum
  have hload := hm.load_le
  simp only [maxLoad] at hload
  omega

/-- **`init` builds an empty table.** -/
theorem init_ok {h : Host K} {n e : Nat} {m m' : CSwissMap K V} (hn : n = 2 ^ e - 1)
    (hnum : m.num ≤ maxLoad n) (hb : maxLoad n - m.num = budget e)
    (hok : init h n m = .ok m') :
    Holds h { m' with num := 0 } (fun _ => none) ∧ Clean { m' with num := 0 } := by
  rw [init] at hok
  split at hok
  · exact absurd hok (by simp)
  · next hsize =>
    have hlen : n < (List.replicate (n + kWidth) kEmpty).length := by simp [kWidth]
    have hmax : n + kWidth ≤ ptrdiffMax := Nat.not_lt.mp hsize
    have hlt : maxLoad n < 2 ^ 64 := by
      have := maxLoad_le n
      simp only [ptrdiffMax] at hmax
      omega
    rw [Run.write_eq_ok hlen, Run.ok_bind, Except.ok.injEq] at hok
    subst hok
    have hbyte : ∀ i, i < n →
        byteAt ((List.replicate (n + kWidth) kEmpty).set n kSentinel) i = kEmpty := by
      intro i hi
      rw [byteAt_init (by omega), if_neg (by omega)]
    have hdead : ∀ i, i < n →
        ¬ 0 ≤ byteAt ((List.replicate (n + kWidth) kEmpty).set n kSentinel) i := by
      intro i hi
      rw [hbyte i hi]
      decide
    refine ⟨⟨⟨⟨e, hn, ?_⟩, hmax, shape_init n, List.length_replicate, ?_, ?_, ?_, ?_⟩, ?_⟩, ?_⟩
    · show sizeSub (n - n / 8) m.num + 0 = budget e
      rw [show n - n / 8 = maxLoad n from rfl, sizeSub_eq hnum hlt, Nat.add_zero, hb]
    · exact fun i hi => .inl (hbyte i hi)
    · refine Eq.symm (Finset.card_eq_zero.mpr (Finset.filter_eq_empty_iff.mpr ?_))
      intro i hi
      simpa using hdead i (Finset.mem_range.mp hi)
    · exact fun i hi hnn => absurd hnn (hdead i hi)
    · exact fun i j k v w hl => absurd hl.2.1 (hdead i hl.1)
    · intro k v
      refine ⟨fun hv => absurd hv (by simp), ?_⟩
      rintro ⟨i, hl⟩
      exact absurd hl.2.1 (hdead i hl.1)
    · intro i hi
      rw [hbyte i hi]
      decide

theorem init_cap {h : Host K} {n : Nat} {m m' : CSwissMap K V} (hok : init h n m = .ok m') :
    m'.cap = n := by
  rw [init] at hok
  split at hok
  · exact absurd hok (by simp)
  · obtain ⟨ctrl, -, hok⟩ := Run.bind_eq_ok_iff.mp hok
    rw [← Except.ok.inj hok]

/-! ## 4. `find` with `isAdd` set -/

section Find

variable [DecidableEq K] {h : Host K}

/-- What adding a key with a value to the table `m` of the map `f` leaves behind. -/
structure Added (h : Host K) (m : CSwissMap K V) (f : K → Option V) (key : K) (v : V)
    (m' : CSwissMap K V) : Prop where
  holds : Holds h m' (Function.update (afterFind m f key) key (some v))
  clean : Clean m → Clean m'
  kept : Present m key → m'.cap = m.cap ∧ m'.ctrl = m.ctrl
  stored : ¬ Present m key → 0 < m.growthInfo →
    m'.cap = m.cap ∧ emptyCount m ≤ emptyCount m' + 1
  spends : 0 < m.growthInfo → m.growthInfo ≤ m'.growthInfo + 1
  rebuilt : ¬ Present m key → m.growthInfo = 0 → Clean m'

/-- The key is found or stored, and the value constructed in its slot. -/
def FindsSlot (h : Host K) (find : K → CSwissMap K V → Run (Nat × CSwissMap K V)) : Prop :=
  ∀ m f key x m₁, Holds h m f → find key m = .ok (x, m₁) →
    ∀ v, ∃ m', constructValue m₁ x v = .ok m' ∧ Added h m f key v m'

/-- **The loop of `rehash`** puts the live entries into the new table, if it has room for them. -/
theorem reinsert_ok {find : K → CSwissMap K V → Run (Nat × CSwissMap K V)}
    (hfind : FindsSlot h find) :
    ∀ {l : List (Ctrl × Slot K V)} {m m' : CSwissMap K V} {f : K → Option V},
      (∀ cs ∈ l, 0 ≤ cs.1 → ∃ k v, cs.2 = ⟨some k, some v⟩) →
      Holds h m f → Clean m → (l.filterMap entryOf).length ≤ m.growthInfo →
      reinsert find l m = .ok m' →
      Holds h m' (putAll f (l.filterMap entryOf)) ∧ Clean m' ∧
        m.growthInfo ≤ m'.growthInfo + (l.filterMap entryOf).length
  | [], m, m', f, _, hf, hc, _, hok => by
    rw [reinsert, Except.ok.injEq] at hok
    subst hok
    exact ⟨hf, hc, le_rfl⟩
  | (c, s) :: l, m, m', f, hl, hf, hc, hroom, hok => by
    have hrest : ∀ cs ∈ l, 0 ≤ cs.1 → ∃ k v, cs.2 = ⟨some k, some v⟩ :=
      fun cs hcs => hl cs (List.mem_cons_of_mem _ hcs)
    rw [reinsert] at hok
    split at hok
    · next hnn =>
      obtain ⟨k, v, hs⟩ := hl (c, s) List.mem_cons_self hnn
      have hs' : s = ⟨some k, some v⟩ := hs
      subst hs'
      rw [Run.object_some, Run.ok_bind, Run.bind_eq_ok_iff] at hok
      obtain ⟨⟨x, m₁⟩, hx, hok⟩ := hok
      obtain ⟨m₂, hm₂, hadd⟩ := hfind m f k x m₁ hf hx v
      simp only [Run.object_some, Run.ok_bind, hm₂] at hok
      rw [List.filterMap_cons_some (b := (k, v)) (entryOf_eq_some.mpr ⟨hnn, rfl⟩),
        List.length_cons] at hroom ⊢
      have hg : 0 < m.growthInfo := by omega
      have hspent := hadd.spends hg
      have hf₂ := hadd.holds
      rw [afterFind_of_room hg] at hf₂
      obtain ⟨hf', hc', hroom'⟩ := reinsert_ok hfind hrest hf₂ (hadd.clean hc) (by omega) hok
      exact ⟨hf', hc', by omega⟩
    · next hneg =>
      rw [List.filterMap_cons_none (by simp [entryOf, hneg])] at hroom ⊢
      exact reinsert_ok hfind hrest hf hc hroom hok

theorem maxLoad_mono {a b : Nat} (hab : a ≤ b) : maxLoad a ≤ maxLoad b := by
  simp only [maxLoad]
  omega

/-- **A larger table takes more entries.** -/
theorem budget_lt_succ : ∀ e, budget e < budget (e + 1)
  | 0 => by decide
  | 1 => by decide
  | 2 => by decide
  | e + 3 => by
    have hb : budget (e + 3 + 1) = maxLoad (2 ^ (e + 3 + 1) - 1) - budget (e + 3) := rfl
    have hb' : budget (e + 3) = maxLoad (2 ^ (e + 3) - 1) - budget (e + 2) := rfl
    have hpos : 0 < budget (e + 2) := (Nat.zero_le _).trans_lt (budget_lt_succ (e + 1))
    have hle := budget_le (e + 2)
    have h1 : 2 ^ (e + 2) = 4 * 2 ^ e := by ring
    have h2 : 2 ^ (e + 3) = 8 * 2 ^ e := by ring
    have h3 : 2 ^ (e + 3 + 1) = 16 * 2 ^ e := by ring
    have hpow := Nat.two_pow_pos e
    rw [h1] at hle
    rw [h2] at hb'
    rw [hb, h3]
    simp only [maxLoad] at *
    omega

omit [DecidableEq K] in
/-- What `init` subtracts from the load of the larger table is not more than that load. -/
theorem num_le_grown {m : CSwissMap K V} (hm : Inv h m) : m.num ≤ maxLoad (m.cap * 2 + 1) := by
  have hload := hm.load_le
  have hmono : maxLoad m.cap ≤ maxLoad (m.cap * 2 + 1) := maxLoad_mono (by omega)
  omega

omit [DecidableEq K] in
/-- The table `rehash` starts with: it has room for more entries than there are. -/
theorem init_grown {m m₀ : CSwissMap K V} {f : K → Option V} (hf : Holds h m f)
    (hg : m.growthInfo = 0) (hinit : init h (m.cap * 2 + 1) m = .ok m₀) :
    Holds h { m₀ with num := 0 } (fun _ => none) ∧ Clean { m₀ with num := 0 } ∧
      m.num < m₀.growthInfo := by
  obtain ⟨e, he, hb⟩ := hf.inv.budget_eq
  rw [hg, Nat.zero_add] at hb
  have hpow : 0 < 2 ^ e := Nat.two_pow_pos e
  have hn : m.cap * 2 + 1 = 2 ^ (e + 1) - 1 := by rw [he, pow_succ]; omega
  obtain ⟨hf₀, hc₀⟩ := init_ok hn (num_le_grown hf.inv) (by rw [hn, hb]; rfl) hinit
  refine ⟨hf₀, hc₀, ?_⟩
  obtain ⟨e', he', hb'⟩ := hf₀.inv.budget_eq
  have hcap : m₀.cap = 2 ^ (e + 1) - 1 := (init_cap hinit).trans hn
  have hee : e' = e + 1 := by
    have h1 : 2 ^ e' - 1 = 2 ^ (e + 1) - 1 := he'.symm.trans hcap
    have := Nat.two_pow_pos e'
    have := Nat.two_pow_pos (e + 1)
    exact Nat.pow_right_injective le_rfl (show 2 ^ e' = 2 ^ (e + 1) by omega)
  have hsum : m₀.growthInfo + 0 = budget (e + 1) := by
    rw [← hee]
    exact hb'
  have := budget_lt_succ e
  omega

/-- **`rehash` keeps the entries it moves**, leaves no deleted byte, and has room for one more. -/
theorem rehash_ok {find : K → CSwissMap K V → Run (Nat × CSwissMap K V)}
    (hfind : FindsSlot h find) {m m' : CSwissMap K V} {f : K → Option V} (hf : Holds h m f)
    (hg : m.growthInfo = 0) (hok : rehash h find (m.cap * 2 + 1) m = .ok m') :
    Holds h m' (movedMap m) ∧ Clean m' ∧ 0 < m'.growthInfo := by
  rw [rehash, Run.bind_eq_ok_iff] at hok
  obtain ⟨m₀, hinit, hok⟩ := hok
  obtain ⟨hf₀, hc₀, hroom⟩ := init_grown hf hg hinit
  have hlen := length_moved_le hf.inv
  obtain ⟨hf', hc', hroom'⟩ := reinsert_ok hfind
    (fun cs hcs hnn => entry_of_live hf.inv (List.mem_of_mem_take hcs) hnn) hf₀ hc₀
    (hlen.trans hroom.le) hok
  have hlen' : m₀.growthInfo ≤ m'.growthInfo + (moved m).length := hroom'
  exact ⟨hf', hc', by omega⟩

omit [DecidableEq K] in
theorem nextCap_eq {m : CSwissMap K V} (hm : Inv h m) : nextCap m = .ok (m.cap * 2 + 1) := by
  obtain ⟨e, he⟩ := hm.cap_eq
  have hpow : 0 < 2 ^ e := Nat.two_pow_pos e
  have hn : m.cap * 2 + 1 = 2 ^ (e + 1) - 1 := by rw [he, pow_succ]; omega
  rw [nextCap, isValidCapacity_pow hn (Nat.succ_pos _), Run.assert_true, Run.ok_bind]

/-- A key that was there: `find` leaves the table as it is. -/
theorem added_of_live {m : CSwissMap K V} {f : K → Option V} (hf : Holds h m f) {key : K}
    {i : Nat} {old : V} (hl : Live m i key old) (v : V) :
    Added h m f key v { m with slot := m.slot.set i ⟨some key, some v⟩ } where
  holds := by
    rw [afterFind_of_present hf ⟨i, old, hl⟩]
    exact holds_overwrite hf hl v
  clean hc := hc
  kept _ := ⟨rfl, rfl⟩
  stored habs := absurd ⟨i, old, hl⟩ habs
  spends _ := Nat.le_succ _
  rebuilt habs := absurd ⟨i, old, hl⟩ habs

/-- A key that was not there, stored in a free slot of its search. -/
theorem added_of_free {m : CSwissMap K V} {f : K → Option V} (hf : Holds h m f) {key : K}
    {i : Nat} (hi : i < m.cap)
    (hfree : byteAt m.ctrl i = kEmpty ∨ byteAt m.ctrl i = kDeleted) (habs : ¬ Present m key)
    (hg : 0 < m.growthInfo) (hr : Reaches h m key i) (v : V) :
    Added h m f key v (edit m i (H2 (saltedHash h m key)) ⟨some key, some v⟩ (m.num + 1)
      (m.growthInfo - 1)) where
  holds := by
    rw [afterFind_of_room hg]
    exact holds_store hf hi hfree habs hg hr v
  clean hc := by
    intro j hj
    rw [byteAt_edit hf.inv hi hj.le]
    split
    · exact ne_of_gt (lt_of_lt_of_le (by decide) (H2_nonneg _))
    · exact hc j hj
  kept hp := absurd hp habs
  stored _ _ := by
    refine ⟨rfl, ?_⟩
    have hcount := countBytes_setBytes hf.inv.shape hi (fun c => decide (c = kEmpty))
      (H2 (saltedHash h m key))
    show countBytes _ m.ctrl m.cap ≤ countBytes _ (setBytes m.ctrl m.cap i _) m.cap + 1
    split at hcount <;> omega
  spends _ := by
    show m.growthInfo ≤ m.growthInfo - 1 + 1
    omega
  rebuilt _ h0 := absurd h0 (Nat.ne_of_gt hg)

/-- **One attempt of `find(key, true)`**: the key is there; or it is stored in a free slot of its
search; or the table is rebuilt and `find` starts again. -/
theorem findAdd_cases {m : CSwissMap K V} (hm : Inv h m) {rounds : Nat} {key : K} {found : Bool}
    {r : Nat} {h2 : Ctrl} (hfi : findIndex h (rounds + 1) m key = .ok (found, r, h2)) :
    (∃ old, Live m r key old ∧ findAdd h (rounds + 1) key m = .ok (r, m)) ∨
    (¬ Present m key ∧ 0 < m.growthInfo ∧ ∃ i m₂, i < m.cap ∧
      (byteAt m.ctrl i = kEmpty ∨ byteAt m.ctrl i = kDeleted) ∧ Reaches h m key i ∧
      findAdd h (rounds + 1) key m = .ok (i, m₂) ∧ m₂.allocs = m.allocs ∧
      (∀ j, j ≠ i → m₂.slot[j]? = m.slot[j]?) ∧
      ∀ v, constructValue m₂ i v = .ok (edit m i (H2 (saltedHash h m key)) ⟨some key, some v⟩
        (m.num + 1) (m.growthInfo - 1))) ∨
    (¬ Present m key ∧ m.growthInfo = 0 ∧ findAdd h (rounds + 1) key m =
      rehash h (findAdd h rounds) (m.cap * 2 + 1) m >>= findAdd h rounds key) := by
  rw [findAdd, hfi, Run.ok_bind]
  obtain ⟨rfl, ⟨rfl, old, hl⟩ | ⟨rfl, habs, t, j, hgu, hr⟩⟩ := findIndex_ok hm hfi
  · exact .inl ⟨old, hl, if_pos rfl⟩
  · right
    have hrle : r ≤ m.cap := hr ▸ Nat.le_of_lt_succ (Nat.mod_lt _ (Nat.succ_pos _))
    simp only [Bool.false_eq_true, if_false, hm.shape.loadu_eq hrle, Run.ok_bind, nextCap_eq hm]
    split
    · next lane mask hmask =>
      by_cases hg : 0 < m.growthInfo
      · obtain ⟨hi, hfree, hreach⟩ := free_slot hm hgu hg hr hmask
        obtain ⟨m₂, hstore, hrest⟩ := store_eq hm key (H2 (saltedHash h m key)) rfl hi hfree hg
        rw [if_pos hg]
        exact .inl ⟨habs, hg, _, m₂, hi, hfree, hreach, hstore, hrest⟩
      · rw [if_neg hg]
        exact .inr ⟨habs, Nat.eq_zero_of_not_pos hg, rfl⟩
    · next hmask => exact absurd hmask (movemask_ne_nil hm hgu hr)

/-- **`find(key, true)`.**  The induction is on the rounds: the loop of `rehash` and the second
attempt after it get fewer. -/
theorem findAdd_ok : ∀ rounds : Nat, FindsSlot (V := V) h (findAdd h rounds)
  | 0 => by
    intro m f key x m₁ _ hok
    exact absurd hok (by simp [findAdd])
  | rounds + 1 => by
    intro m f key x m₁ hf hok v
    have ih : FindsSlot h (findAdd h rounds) := findAdd_ok rounds
    obtain ⟨⟨found, r, h2⟩, hfi, -⟩ := Run.bind_eq_ok_iff.mp (findAdd.eq_2 h _ _ _ ▸ hok)
    rcases findAdd_cases hf.inv hfi with ⟨old, hl, heq⟩ |
      ⟨habs, hg, i, m₂, hi, hfree, hreach, heq, -, -, hval⟩ | ⟨habs, h0, heq⟩
    · obtain ⟨rfl, rfl⟩ := Prod.mk.inj (Except.ok.inj (heq.symm.trans hok))
      exact ⟨_, constructValue_live hl v, added_of_live hf hl v⟩
    · obtain ⟨rfl, rfl⟩ := Prod.mk.inj (Except.ok.inj (heq.symm.trans hok))
      exact ⟨_, hval v, added_of_free hf hi hfree habs hg hreach v⟩
    · obtain ⟨m₂, hre, hok⟩ := Run.bind_eq_ok_iff.mp (heq.symm.trans hok)
      obtain ⟨hf₂, hc₂, hg₂⟩ := rehash_ok ih hf h0 hre
      obtain ⟨m', hval, hadd⟩ := ih m₂ _ key x m₁ hf₂ hok v
      have hholds := hadd.holds
      rw [afterFind_of_room hg₂, ← afterFind_of_full hf habs h0] at hholds
      refine ⟨m', hval, hholds, fun _ => hadd.clean hc₂, fun hp => absurd hp habs, ?_, ?_,
        fun _ _ => hadd.clean hc₂⟩
      · exact fun _ hpos => absurd h0 (Nat.ne_of_gt hpos)
      · exact fun hpos => absurd h0 (Nat.ne_of_gt hpos)

end Find

end CDemo.SwissMap
