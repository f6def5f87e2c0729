/-
# Storing, overwriting and erasing one slot

Every change a call makes to a table outside `rehash` is one edit: a control byte and its copy,
the slot under it, and the two counters.  `Inv.edit` says once which edits keep the invariant;
none of them makes a byte `kEmpty`, so no search that got through before gives up now.  What
is left is to see that the slot `find` chooses is free and lies on the key's search
(`free_slot`), which in a small table that looks full takes the sentinel's index and the bytes
behind the copies.

`Holds m f` relates a table to the finite map it stands for.
-/
import CDemo.SwissMap.Probe
import Mathlib.Logic.Function.Basic

namespace CDemo.SwissMap

variable {K V : Type}

/-! ## 1. The map a table stands for -/

/-- The table is well formed and its live slots are the graph of `f`. -/
structure Holds (h : Host K) (m : CSwissMap K V) (f : K → Option V) : Prop where
  inv : Inv h m
  graph : ∀ k v, f k = some v ↔ ∃ i, Live m i k v

namespace Holds

variable {h : Host K} {m : CSwissMap K V} {f : K → Option V}

theorem of_live (hf : Holds h m f) {i : Nat} {k : K} {v : V} (hl : Live m i k v) :
    f k = some v := (hf.graph k v).mpr ⟨i, hl⟩

theorem present_iff (hf : Holds h m f) (k : K) : Present m k ↔ (f k).isSome = true := by
  rw [Option.isSome_iff_exists]
  constructor
  · rintro ⟨i, v, hl⟩
    exact ⟨v, hf.of_live hl⟩
  · rintro ⟨v, hv⟩
    obtain ⟨i, hl⟩ := (hf.graph k v).mp hv
    exact ⟨i, v, hl⟩

theorem eq_none (hf : Holds h m f) {k : K} (hk : ¬ Present m k) : f k = none := by
  rw [hf.present_iff] at hk
  simpa using hk

end Holds

/-! ## 2. One edit -/

/-- Slot `i` gets the control byte `c` and the contents `s`, the counters the values given. -/
def edit (m : CSwissMap K V) (i : Nat) (c : Ctrl) (s : Slot K V) (num growthInfo : Nat) :
    CSwissMap K V :=
  { m with
    ctrl := setBytes m.ctrl m.cap i c
    slot := m.slot.set i s
    num := num
    growthInfo := growthInfo }

section Edit

variable {h : Host K} {m : CSwissMap K V} {i : Nat} {c : Ctrl} {s : Slot K V} {num growth : Nat}

/-- Up to the sentinel an edit changes one control byte. -/
theorem byteAt_edit (hm : Inv h m) (hi : i < m.cap) {j : Nat} (hj : j ≤ m.cap) :
    byteAt (edit m i c s num growth).ctrl j = if j = i then c else byteAt m.ctrl j :=
  byteAt_setBytes_slot hm.shape hi c hj

theorem live_edit (hm : Inv h m) (hi : i < m.cap) (j : Nat) (k : K) (v : V) :
    Live (edit m i c s num growth) j k v ↔
      if j = i then 0 ≤ c ∧ s = ⟨some k, some v⟩ else Live m j k v := by
  have hlen : i < m.slot.length := by rw [hm.length_slot]; exact hi
  by_cases hj : j = i
  · subst hj
    simp only [Live, edit, hi, true_and, if_true, byteAt_setBytes_slot hm.shape hi c hi.le,
      List.getElem?_set_self hlen, Option.some.injEq]
  · rw [if_neg hj]
    simp only [Live, edit]
    constructor
    · rintro ⟨hjc, hb, hs⟩
      rw [byteAt_setBytes_slot hm.shape hi c hjc.le, if_neg hj] at hb
      rw [List.getElem?_set_ne (Ne.symm hj)] at hs
      exact ⟨hjc, hb, hs⟩
    · rintro ⟨hjc, hb, hs⟩
      refine ⟨hjc, ?_, ?_⟩
      · rw [byteAt_setBytes_slot hm.shape hi c hjc.le, if_neg hj]
        exact hb
      · rw [List.getElem?_set_ne (Ne.symm hj)]
        exact hs

/-- An edit that leaves no empty byte behind keeps every slot within reach. -/
theorem reaches_edit (hm : Inv h m) (hi : i < m.cap) (hc : c ≠ kEmpty) {k : K} {j : Nat}
    (hr : Reaches h m k j) : Reaches h (edit m i c s num growth) k j := by
  obtain ⟨t, hcov, hbefore⟩ := hr
  refine ⟨t, hcov, ?_⟩
  intro u hu l hl
  have hne := hbefore u hu l hl
  have hset := byteAt_setBytes hm.shape hi c (probeGroup h m k u + l)
  intro hempty
  rw [show byteAt (edit m i c s num growth).ctrl (probeGroup h (edit m i c s num growth) k u + l)
    = byteAt (setBytes m.ctrl m.cap i c) (probeGroup h m k u + l) from rfl, hset] at hempty
  split at hempty
  · exact hc hempty
  · exact hne hempty

/-- **Which edits keep the invariant.** -/
theorem Inv.edit (hm : Inv h m) (hi : i < m.cap) (hc : c = kDeleted ∨ 0 ≤ c)
    (hload : growth + num = m.growthInfo + m.num)
    (hnum : num + (if 0 ≤ byteAt m.ctrl i then 1 else 0) = m.num + (if 0 ≤ c then 1 else 0))
    (hlive : 0 ≤ c → ∃ k v, s = ⟨some k, some v⟩ ∧ c = H2 (saltedHash h m k) ∧
      Reaches h m k i ∧ ∀ j w, j ≠ i → ¬ Live m j k w) :
    Inv h (edit m i c s num growth) := by
  have hce : c ≠ kEmpty := by
    rintro rfl
    rcases hc with hc | hc
    · exact absurd hc (by decide)
    · exact absurd hc (by decide)
  refine ⟨?_, hm.cap_le, hm.shape.setBytes hi c, ?_, ?_, ?_, ?_, ?_⟩
  · obtain ⟨e, he, hb⟩ := hm.budget_eq
    exact ⟨e, he, hload.trans hb⟩
  · exact (List.length_set).trans hm.length_slot
  · intro j hj
    rw [byteAt_edit hm hi hj.le]
    split
    · exact .inr hc
    · exact hm.byte j hj
  · have hcount := countBytes_setBytes hm.shape hi (fun c => decide (0 ≤ c)) c
    have hold := hm.num_eq
    simp only [decide_eq_true_eq] at hcount
    show num = countBytes (fun c => decide (0 ≤ c)) (setBytes m.ctrl m.cap i c) m.cap
    omega
  · intro j hj hb
    by_cases hji : j = i
    · subst hji
      have hb' : 0 ≤ c := by
        rw [byteAt_edit hm hi hi.le, if_pos rfl] at hb
        exact hb
      obtain ⟨k, v, hs, hh2, hr, -⟩ := hlive hb'
      have hl : Live (SwissMap.edit m j c s num growth) j k v :=
        (live_edit hm hi j k v).mpr (by rw [if_pos rfl]; exact ⟨hb', hs⟩)
      refine ⟨k, v, hl.2.2, ?_, reaches_edit hm hi hce hr⟩
      rw [byteAt_edit hm hi hi.le, if_pos rfl]
      exact hh2
    · rw [byteAt_edit hm hi hj.le, if_neg hji] at hb ⊢
      obtain ⟨k, v, hs, hh2, hr⟩ := hm.live j hj hb
      refine ⟨k, v, ?_, hh2, reaches_edit hm hi hce hr⟩
      exact (List.getElem?_set_ne (Ne.symm hji)).trans hs
  · intro a b k v w ha hb
    rw [live_edit hm hi] at ha hb
    by_cases hai : a = i
    · by_cases hbi : b = i
      · rw [hai, hbi]
      · rw [if_pos hai] at ha
        rw [if_neg hbi] at hb
        obtain ⟨k', v', hs, -, -, hno⟩ := hlive ha.1
        have hk : k' = k := by
          have := hs.symm.trans ha.2
          simp only [Slot.mk.injEq, Option.some.injEq] at this
          exact this.1
        exact absurd hb (hk ▸ hno b w hbi)
    · rw [if_neg hai] at ha
      by_cases hbi : b = i
      · rw [if_pos hbi] at hb
        obtain ⟨k', v', hs, -, -, hno⟩ := hlive hb.1
        have hk : k' = k := by
          have := hs.symm.trans hb.2
          simp only [Slot.mk.injEq, Option.some.injEq] at this
          exact this.1
        exact absurd ha (hk ▸ hno a v hai)
      · rw [if_neg hbi] at hb
        exact hm.inj a b k v w ha hb

end Edit

/-! ## 3. The three edits of the calls -/

section Calls

variable [DecidableEq K] {h : Host K} {m : CSwissMap K V} {f : K → Option V} {key : K} {i : Nat}

/-- If the live slots of `m'` are those of `m`, but for slot `i` which has the key with `v`, then
`m'` stands for the map with the key set to `v`. -/
theorem graph_update (hf : Holds h m f) {m' : CSwissMap K V} {v : V}
    (hlive : ∀ j k w, Live m' j k w ↔ if j = i then k = key ∧ w = v else Live m j k w)
    (hkey : ∀ j w, Live m j key w → j = i) (hi : ∀ k w, Live m i k w → k = key) :
    ∀ k w, Function.update f key (some v) k = some w ↔ ∃ j, Live m' j k w := by
  intro k w
  by_cases hk : k = key
  · subst hk
    rw [Function.update_self]
    constructor
    · intro hw
      exact ⟨i, (hlive i k w).mpr (by rw [if_pos rfl]; exact ⟨rfl, by simpa using hw.symm⟩)⟩
    · rintro ⟨j, hj⟩
      rw [hlive] at hj
      split at hj
      · rw [hj.2]
      · next hne => exact absurd (hkey j w hj) hne
  · rw [Function.update_of_ne hk, hf.graph]
    constructor
    · rintro ⟨j, hj⟩
      refine ⟨j, (hlive j k w).mpr ?_⟩
      rw [if_neg]
      · exact hj
      · rintro rfl
        exact hk (hi k w hj)
    · rintro ⟨j, hj⟩
      rw [hlive] at hj
      split at hj
      · exact absurd hj.1 hk
      · exact ⟨j, hj⟩

/-- **A new key is stored.** -/
theorem holds_store (hf : Holds h m f) (hi : i < m.cap)
    (hfree : byteAt m.ctrl i = kEmpty ∨ byteAt m.ctrl i = kDeleted) (habs : ¬ Present m key)
    (hg : 0 < m.growthInfo) (hr : Reaches h m key i) (v : V) :
    Holds h (edit m i (H2 (saltedHash h m key)) ⟨some key, some v⟩ (m.num + 1)
      (m.growthInfo - 1)) (Function.update f key (some v)) := by
  have hneg : ¬ 0 ≤ byteAt m.ctrl i := by
    rcases hfree with hb | hb <;> rw [hb] <;> decide
  have hnn : 0 ≤ H2 (saltedHash h m key) := H2_nonneg _
  refine ⟨?_, ?_⟩
  · refine hf.inv.edit hi (.inr hnn) (by omega) (by rw [if_neg hneg, if_pos hnn]) fun _ => ?_
    exact ⟨key, v, rfl, rfl, hr, fun j w _ hl => habs ⟨j, w, hl⟩⟩
  · refine graph_update (i := i) hf ?_ (fun j w hl => absurd ⟨j, w, hl⟩ habs)
      (fun k w hl => absurd hl.2.1 hneg)
    intro j k w
    rw [live_edit hf.inv hi]
    split
    · simp only [hnn, true_and, Slot.mk.injEq, Option.some.injEq]
      exact and_congr eq_comm eq_comm
    · rfl

theorem setBytes_self {ctrl : List Ctrl} {n : Nat} (hs : Shape ctrl n) (hi : i < n) :
    setBytes ctrl n i (byteAt ctrl i) = ctrl := by
  have hset : ∀ p, p < ctrl.length → ∀ c, c = byteAt ctrl p → ctrl.set p c = ctrl := by
    intro p hp c hc
    rw [hc, byteAt, List.getD_eq_getElem _ _ hp, List.set_getElem_self]
  have hlen : i < ctrl.length := by rw [hs.length_eq]; omega
  rw [setBytes, hset i hlen _ rfl]
  split
  · next hlt =>
    refine hset _ (by rw [hs.length_eq]; simp only [kWidth] at hlt ⊢; omega) _ ?_
    rw [show i + n + 1 = n + 1 + i by omega, hs.clone i hlt, if_pos hi]
  · rfl

/-- **The value of a key that is there is overwritten.** -/
theorem holds_overwrite (hf : Holds h m f) {old : V} (hl : Live m i key old) (v : V) :
    Holds h { m with slot := m.slot.set i ⟨some key, some v⟩ }
      (Function.update f key (some v)) := by
  have hself : { m with slot := m.slot.set i ⟨some key, some v⟩ } =
      edit m i (byteAt m.ctrl i) ⟨some key, some v⟩ m.num m.growthInfo := by
    rw [edit, setBytes_self hf.inv.shape hl.1]
  obtain ⟨k, w, hs, hh2, hr⟩ := hf.inv.live i hl.1 hl.2.1
  obtain ⟨rfl, rfl⟩ := hl.slot_eq hs
  rw [hself]
  refine ⟨?_, ?_⟩
  · refine hf.inv.edit hl.1 (.inr hl.2.1) rfl rfl fun _ => ?_
    exact ⟨k, v, rfl, hh2, hr, fun j u hne hl' => hne (hf.inv.inj j i k u w hl' hl)⟩
  · refine graph_update (i := i) hf ?_ (fun j u hl' => hf.inv.inj j i k u w hl' hl)
      (fun k' u hl' => (hl'.slot_eq hs).1.symm)
    intro j k' u
    rw [live_edit hf.inv hl.1]
    split
    · simp only [hl.2.1, true_and, Slot.mk.injEq, Option.some.injEq]
      exact and_congr eq_comm eq_comm
    · rfl

omit [DecidableEq K] in
/-- A table with a live slot counts it. -/
theorem Inv.num_pos (hm : Inv h m) {v : V} (hl : Live m i key v) : 0 < m.num := by
  have hcount := countBytes_setBytes hm.shape hl.1 (fun c => decide (0 ≤ c)) kDeleted
  have hdel : ¬ (0 : Int) ≤ kDeleted := by decide
  have hnum := hm.num_eq
  simp only [decide_eq_true_eq, if_pos hl.2.1, if_neg hdel] at hcount
  omega

/-- **A key is erased.** -/
theorem holds_erase (hf : Holds h m f) {v : V} (hl : Live m i key v) :
    Holds h (edit m i kDeleted ⟨none, none⟩ (m.num - 1) (m.growthInfo + 1))
      (Function.update f key none) := by
  have hdel : ¬ (0 : Int) ≤ kDeleted := by decide
  have hpos : 0 < m.num := hf.inv.num_pos hl
  refine ⟨?_, ?_⟩
  · refine hf.inv.edit hl.1 (.inl rfl) (by omega) ?_ fun hn => absurd hn hdel
    rw [if_pos hl.2.1, if_neg hdel]
    omega
  · intro k w
    have hlive : ∀ j, Live (edit m i kDeleted ⟨none, none⟩ (m.num - 1) (m.growthInfo + 1)) j k w ↔
        j ≠ i ∧ Live m j k w := by
      intro j
      rw [live_edit hf.inv hl.1]
      by_cases hj : j = i
      · simp [hj, hdel]
      · simp [hj]
    simp only [hlive]
    by_cases hk : k = key
    · subst hk
      rw [Function.update_self]
      constructor
      · intro hw
        exact absurd hw (by simp)
      · rintro ⟨j, hne, hl'⟩
        exact absurd (hf.inv.inj j i k w v hl' hl) hne
    · rw [Function.update_of_ne hk, hf.graph]
      constructor
      · rintro ⟨j, hl'⟩
        refine ⟨j, ?_, hl'⟩
        rintro rfl
        exact hk (hl.slot_eq hl'.2.2).1
      · rintro ⟨j, -, hl'⟩
        exact ⟨j, hl'⟩

end Calls

/-! ## 4. The slot that `find` chooses -/

section Choice

variable {h : Host K} {m : CSwissMap K V} {key : K} {t j : Nat}

/-- In a large table the search gives up at a slot that is empty. -/
theorem GaveUp.empty_slot (hm : Inv h m) (hg : GaveUp h m key t j) (hlarge : 15 ≤ m.cap) :
    (probeGroup h m key t + j) % (m.cap + 1) < m.cap ∧
      byteAt m.ctrl ((probeGroup h m key t + j) % (m.cap + 1)) = kEmpty := by
  have hle := Inv.probeGroup_le (h := h) m key t
  have hp : probeGroup h m key t + j < m.cap + kWidth := by
    have := hg.lane_lt
    omega
  rcases hm.shape.byteAt_mod hp with ⟨heq, -⟩ | ⟨-, -, hlt⟩
  · have hbyte := heq.symm.trans hg.empty
    refine ⟨?_, hbyte⟩
    have hlt := Nat.mod_lt (probeGroup h m key t + j) (Nat.succ_pos m.cap)
    rcases Nat.lt_or_eq_of_le (Nat.le_of_lt_succ hlt) with hlt | hn
    · exact hlt
    · rw [hn, hm.shape.sentinel] at hbyte
      exact absurd hbyte (by decide)
  · omega

/-- A byte below the sentinel is free. -/
theorem free_of_lt (hm : Inv h m) {i : Nat} (hi : i < m.cap) (hb : byteAt m.ctrl i < kSentinel) :
    byteAt m.ctrl i = kEmpty ∨ byteAt m.ctrl i = kDeleted := by
  rcases hm.byte i hi with hb' | hb' | hb'
  · exact .inl hb'
  · exact .inr hb'
  · have hs : kSentinel < 0 := by decide
    exact absurd (lt_of_lt_of_le (hb.trans hs) hb') (lt_irrefl _)

/-- A full table has used up its budget. -/
theorem growthInfo_of_full (hm : Inv h m) (hfull : ∀ i, i < m.cap → 0 ≤ byteAt m.ctrl i) :
    m.growthInfo = 0 := by
  have hnum := hm.num_eq
  rw [countBytes_eq_of_forall fun i hi => decide_eq_true (hfull i hi)] at hnum
  have hload := hm.load_le
  have := maxLoad_le m.cap
  omega

/-- In a small table that may still store a key, the first free lane of a group belongs to a
slot: the lanes of all slots come before the bytes behind the copies, and they are not all
taken. -/
theorem byteAt_of_first_free (hm : Inv h m) (hsmall : m.cap < 15) (hgrow : 0 < m.growthInfo)
    {r lane : Nat} (hr : r ≤ m.cap) (hlane : lane < kWidth)
    (hmin : ∀ l, l < lane → ¬ byteAt m.ctrl (r + l) < kSentinel) :
    byteAt m.ctrl (r + lane) = byteAt m.ctrl ((r + lane) % (m.cap + 1)) := by
  rcases hm.shape.byteAt_mod (p := r + lane) (by omega) with ⟨heq, -⟩ | ⟨-, hbehind, -⟩
  · exact heq
  · refine absurd (growthInfo_of_full hm fun i hi => ?_) (Nat.ne_of_gt hgrow)
    have hcov := covers_small hsmall hr hi
    obtain ⟨l, hl, hmod, hpos⟩ := hcov
    have hb := hmin l (by omega)
    rcases hm.shape.byteAt_mod (p := r + l) (by omega) with ⟨heq, -⟩ | ⟨-, hlt, -⟩
    · rw [heq, hmod] at hb
      rcases hm.byte i hi with hb' | hb' | hb'
      · exact absurd (by rw [hb']; decide) hb
      · exact absurd (by rw [hb']; decide) hb
      · exact hb'
    · omega

/-- **The slot that `find` chooses is free and within reach of the search.**  In a large table it
is the empty slot at which the search gave up.  In a small one it is any free slot, and every
slot is within reach. -/
theorem free_slot (hm : Inv h m) (hg : GaveUp h m key t j) (hgrow : 0 < m.growthInfo)
    {r lane : Nat} {mask : List Nat} (hr : r = (probeGroup h m key t + j) % (m.cap + 1))
    (hmask : movemask (fun c => c < kSentinel) ((m.ctrl.drop r).take kWidth) = lane :: mask) :
    (r + lane) % (m.cap + 1) < m.cap ∧
      (byteAt m.ctrl ((r + lane) % (m.cap + 1)) = kEmpty ∨
        byteAt m.ctrl ((r + lane) % (m.cap + 1)) = kDeleted) ∧
      Reaches h m key ((r + lane) % (m.cap + 1)) := by
  have hrle : r ≤ m.cap := hr ▸ Nat.le_of_lt_succ (Nat.mod_lt _ (Nat.succ_pos _))
  obtain ⟨hlane, hspecial, hmin⟩ := movemask_head hmask
  rw [hm.shape.lane_eq hrle hlane, decide_eq_true_eq] at hspecial
  have hmin' : ∀ l, l < lane → ¬ byteAt m.ctrl (r + l) < kSentinel := by
    intro l hl
    have hb := hmin l hl
    rw [hm.shape.lane_eq hrle (hl.trans hlane)] at hb
    exact of_decide_eq_false hb
  rcases Nat.lt_or_ge m.cap 15 with hsmall | hlarge
  · rw [byteAt_of_first_free hm hsmall hgrow hrle hlane hmin'] at hspecial
    have hslot : (r + lane) % (m.cap + 1) < m.cap := by
      refine lt_of_le_of_ne (Nat.le_of_lt_succ (Nat.mod_lt _ (Nat.succ_pos _))) fun hn => ?_
      rw [hn, hm.shape.sentinel] at hspecial
      exact absurd hspecial (lt_irrefl _)
    refine ⟨hslot, free_of_lt hm hslot hspecial, 0, ?_, fun u hu => absurd hu (Nat.not_lt_zero u)⟩
    exact covers_small hsmall (Inv.probeGroup_le m key 0) hslot
  · obtain ⟨hslot, hempty⟩ := hg.empty_slot hm hlarge
    rw [← hr] at hslot hempty
    have hl0 : lane = 0 := by
      rcases Nat.eq_zero_or_pos lane with h0 | hpos
      · exact h0
      · have hb := hmin' 0 hpos
        rw [Nat.add_zero, hempty] at hb
        exact absurd (by decide) hb
    have hi : (r + lane) % (m.cap + 1) = r := by
      rw [hl0, Nat.add_zero, Nat.mod_eq_of_lt (Nat.lt_succ_of_le hrle)]
    rw [hi]
    exact ⟨hslot, .inl hempty, t, ⟨j, hg.lane_lt, hr.symm, .inr hlarge⟩, hg.before⟩

/-- The group at which `find` looks for a free byte has one. -/
theorem movemask_ne_nil (hm : Inv h m) (hg : GaveUp h m key t j) {r : Nat}
    (hr : r = (probeGroup h m key t + j) % (m.cap + 1)) :
    movemask (fun c => c < kSentinel) ((m.ctrl.drop r).take kWidth) ≠ [] := by
  have hrle : r ≤ m.cap := hr ▸ Nat.le_of_lt_succ (Nat.mod_lt _ (Nat.succ_pos _))
  intro hnil
  have hno : ∀ l, l < kWidth → byteAt m.ctrl (r + l) ≠ kEmpty := by
    intro l hl hb
    have hfalse := movemask_eq_nil hnil l hl
    rw [hm.shape.lane_eq hrle hl, hb] at hfalse
    exact absurd hfalse (by decide)
  rcases Nat.lt_or_ge m.cap 15 with hsmall | hlarge
  · have h7 := hm.cap_small hsmall
    refine hno (2 * m.cap + 1 - r) (by simp only [kWidth]; omega) ?_
    rw [Nat.add_sub_cancel' (by omega)]
    exact hm.shape.empty_of_small hsmall
  · exact hno 0 (by decide) (by rw [Nat.add_zero, hr]; exact (hg.empty_slot hm hlarge).2)

end Choice

/-! ## 5. The functions that edit -/

theorem sizeAdd_eq {a b : Nat} (h : a + b < 2 ^ 64) : sizeAdd a b = a + b :=
  Nat.mod_eq_of_lt h

theorem sizeSub_eq {a b : Nat} (hb : b ≤ a) (ha : a < 2 ^ 64) : sizeSub a b = a - b := by
  rw [sizeSub, show a + (2 ^ 64 - b) = a - b + 2 ^ 64 by omega, Nat.add_mod_right,
    Nat.mod_eq_of_lt (by omega)]

section Functions

variable {h : Host K} {m : CSwissMap K V}

/-- The slot under a control byte can be read. -/
theorem getElem?_slot (hm : Inv h m) {i : Nat} (hi : i < m.cap) : ∃ s, m.slot[i]? = some s := by
  have hlen : i < m.slot.length := by rw [hm.length_slot]; exact hi
  exact ⟨m.slot[i], List.getElem?_eq_getElem hlen⟩

/-- `store` and the construction of the value after it are one edit, and until then the other slots
are as they were. -/
theorem store_eq (hm : Inv h m) (key : K) (h2 : Ctrl) {r lane i : Nat}
    (hslot : (r + lane) % (m.cap + 1) = i) (hi : i < m.cap)
    (hfree : byteAt m.ctrl i = kEmpty ∨ byteAt m.ctrl i = kDeleted) (hg : 0 < m.growthInfo) :
    ∃ m', store m key h2 r lane = .ok (i, m') ∧ m'.allocs = m.allocs ∧
      (∀ j, j ≠ i → m'.slot[j]? = m.slot[j]?) ∧
      ∀ v, constructValue m' i v =
        .ok (edit m i h2 ⟨some key, some v⟩ (m.num + 1) (m.growthInfo - 1)) := by
  obtain ⟨s, hs⟩ := getElem?_slot hm hi
  have hlen : i < m.slot.length := by rw [hm.length_slot]; exact hi
  have hread : i < m.ctrl.length := by rw [hm.shape.length_eq]; omega
  have hassert : (byteAt m.ctrl i = kEmpty || byteAt m.ctrl i = kDeleted) = true := by
    simpa using hfree
  have hload := hm.load_lt
  have hnum : sizeAdd m.num 1 = m.num + 1 := sizeAdd_eq (by omega)
  have hgrow : sizeSub m.growthInfo 1 = m.growthInfo - 1 := sizeSub_eq hg (by omega)
  refine ⟨{ m with
    ctrl := setBytes m.ctrl m.cap i h2
    slot := m.slot.set i ⟨some key, s.v⟩
    num := m.num + 1
    growthInfo := m.growthInfo - 1 }, ?_, rfl, fun j hj => List.getElem?_set_ne (Ne.symm hj), ?_⟩
  · rw [store, hm.getSlotIndex_eq, Run.ok_bind, hslot,
      Run.read_eq_ok (getElem?_eq_byteAt hread), Run.ok_bind, hassert, Run.assert_true,
      Run.ok_bind, setCtrl_eq hm.shape hi, Run.ok_bind, constructKey, Run.read_eq_ok hs]
    simp only [Run.ok_bind, hnum, hgrow]
  · intro v
    rw [constructValue, Run.read_eq_ok (List.getElem?_set_self hlen), Run.ok_bind]
    simp only [List.set_set, edit]

/-- Overwriting a value is what `constructValue` does to a live slot. -/
theorem constructValue_live {i : Nat} {key : K} {old : V} (hl : Live m i key old) (v : V) :
    constructValue m i v = .ok { m with slot := m.slot.set i ⟨some key, some v⟩ } := by
  rw [constructValue, Run.read_eq_ok hl.2.2, Run.ok_bind]

/-- The branch of `erase` that has found the key is one edit. -/
theorem eraseSlot_eq (hm : Inv h m) {i : Nat} {key : K} {v : V} (hl : Live m i key v) :
    (do
      let m ← setCtrl m i kDeleted
      let m ← destorySlot m i
      .ok (true, { m with num := sizeSub m.num 1, growthInfo := sizeAdd m.growthInfo 1 }) :
      Run (Bool × CSwissMap K V)) =
    .ok (true, edit m i kDeleted ⟨none, none⟩ (m.num - 1) (m.growthInfo + 1)) := by
  have hlen : i < m.slot.length := by rw [hm.length_slot]; exact hl.1
  have hpos : 0 < m.num := hm.num_pos hl
  have hload := hm.load_lt
  have hnum : sizeSub m.num 1 = m.num - 1 := sizeSub_eq hpos (by omega)
  have hgrow : sizeAdd m.growthInfo 1 = m.growthInfo + 1 := sizeAdd_eq (by omega)
  rw [setCtrl_eq hm.shape hl.1, Run.ok_bind, destorySlot, Run.write_eq_ok hlen]
  simp only [Run.ok_bind, hnum, hgrow, edit]

end Functions

end CDemo.SwissMap
