/-
# The invariant of a table, and what a search finds

`Inv` ties the control bytes to the slots.  Its heart is `Reaches`: a live slot is shown by some
group of its key's search, and no group before that one has an empty byte, so that the search
cannot give up before it gets there.

One round of the loop of `findIndex` is described once (`probe_round`): the key is in the
group, or the group has an empty byte and the search gives up, or the next group is tried.
From it follow, by induction on the rounds, what the search returns when it returns
(`findIndex_ok`) and when it returns at all (`probeEnds_iff`).
-/
import CDemo.SwissMap.Layout
import Mathlib.Algebra.BigOperators.Group.Finset.Piecewise
import Mathlib.Algebra.Order.BigOperators.Group.Finset

namespace CDemo.SwissMap

variable {K V : Type}

/-! ## 1. Counting control bytes -/

/-- How many of the `n` slots have a control byte that `p` selects. -/
def countBytes (p : Ctrl → Bool) (ctrl : List Ctrl) (n : Nat) : Nat :=
  ((Finset.range n).filter fun i => p (byteAt ctrl i) = true).card

/-- A write moves the count by what it takes away and what it adds. -/
theorem countBytes_setBytes {ctrl : List Ctrl} {n i : Nat} (hs : Shape ctrl n) (hi : i < n)
    (p : Ctrl → Bool) (c : Ctrl) :
    countBytes p (setBytes ctrl n i c) n + (if p (byteAt ctrl i) = true then 1 else 0) =
      countBytes p ctrl n + (if p c = true then 1 else 0) := by
  have hmem : i ∈ Finset.range n := Finset.mem_range.mpr hi
  simp only [countBytes, Finset.card_filter]
  rw [← Finset.add_sum_erase _ _ hmem, ← Finset.add_sum_erase (Finset.range n)
    (fun j => if p (byteAt ctrl j) = true then 1 else 0) hmem,
    byteAt_setBytes_slot hs hi c hi.le, if_pos rfl]
  have hrest : ∑ j ∈ (Finset.range n).erase i,
        (if p (byteAt (setBytes ctrl n i c) j) = true then 1 else 0) =
      ∑ j ∈ (Finset.range n).erase i, (if p (byteAt ctrl j) = true then 1 else 0) := by
    refine Finset.sum_congr rfl fun j hj => ?_
    obtain ⟨hne, hjn⟩ := Finset.mem_erase.mp hj
    rw [byteAt_setBytes_slot hs hi c (Finset.mem_range.mp hjn).le, if_neg hne]
  rw [hrest]
  omega

theorem countBytes_le (p : Ctrl → Bool) (ctrl : List Ctrl) (n : Nat) :
    countBytes p ctrl n ≤ n :=
  (Finset.card_filter_le _ _).trans_eq (Finset.card_range n)

theorem countBytes_succ (p : Ctrl → Bool) (ctrl : List Ctrl) (n : Nat) :
    countBytes p ctrl (n + 1) =
      countBytes p ctrl n + if p (byteAt ctrl n) = true then 1 else 0 := by
  rw [countBytes, countBytes, Finset.range_add_one, Finset.filter_insert]
  split
  · rw [Finset.card_insert_of_notMem (by simp)]
  · rw [Nat.add_zero]

theorem countBytes_eq_of_forall {p : Ctrl → Bool} {ctrl : List Ctrl} {n : Nat}
    (h : ∀ i, i < n → p (byteAt ctrl i) = true) : countBytes p ctrl n = n := by
  rw [countBytes, Finset.filter_true_of_mem fun i hi => h i (Finset.mem_range.mp hi),
    Finset.card_range]

theorem exists_of_countBytes_pos {p : Ctrl → Bool} {ctrl : List Ctrl} {n : Nat}
    (h : 0 < countBytes p ctrl n) : ∃ i, i < n ∧ p (byteAt ctrl i) = true := by
  obtain ⟨i, hi⟩ := Finset.card_pos.mp h
  exact ⟨i, Finset.mem_range.mp (Finset.mem_filter.mp hi).1, (Finset.mem_filter.mp hi).2⟩

/-! ## 2. The invariant -/

/-- Slot `i` is live and holds the key with the value. -/
def Live (m : CSwissMap K V) (i : Nat) (k : K) (v : V) : Prop :=
  i < m.cap ∧ 0 ≤ byteAt m.ctrl i ∧ m.slot[i]? = some ⟨some k, some v⟩

/-- The `t`-th group of the search for the key. -/
def probeGroup (h : Host K) (m : CSwissMap K V) (key : K) (t : Nat) : Nat :=
  groupIndex m.cap (startIndex h m key) t

/-- The group at `index` has no empty byte. -/
def NoEmpty (m : CSwissMap K V) (index : Nat) : Prop :=
  ∀ j, j < kWidth → byteAt m.ctrl (index + j) ≠ kEmpty

/-- The search for the key gets to slot `i`. -/
def Reaches (h : Host K) (m : CSwissMap K V) (key : K) (i : Nat) : Prop :=
  ∃ t, Covers m.cap (probeGroup h m key t) i ∧ ∀ u, u < t → NoEmpty m (probeGroup h m key u)

/-- A slot holds one key and one value. -/
theorem Live.slot_eq {m : CSwissMap K V} {i : Nat} {k k' : K} {v v' : V} (hl : Live m i k v)
    (hs : m.slot[i]? = some ⟨some k', some v'⟩) : k' = k ∧ v' = v := by
  have hsame := hl.2.2
  rw [hs] at hsame
  simpa using hsame

/-- How many keys a table of `n` slots is meant to take. -/
def maxLoad (n : Nat) : Nat := n - n / 8

/-- How many keys a table of `2^e - 1` slots takes.  `rehash` subtracts the keys it moves twice,
once in `init` and once more when they are stored again, and it moves as many as the smaller
table took. -/
def budget : Nat → Nat
  | 0 => 0
  | e + 1 => maxLoad (2 ^ (e + 1) - 1) - budget e

/-- The invariant of a table between two calls. -/
structure Inv (h : Host K) (m : CSwissMap K V) : Prop where
  budget_eq : ∃ e, m.cap = 2 ^ e - 1 ∧ m.growthInfo + m.num = budget e
  cap_le : m.cap + kWidth ≤ ptrdiffMax
  shape : Shape m.ctrl m.cap
  length_slot : m.slot.length = m.cap
  byte : ∀ i, i < m.cap →
    byteAt m.ctrl i = kEmpty ∨ byteAt m.ctrl i = kDeleted ∨ 0 ≤ byteAt m.ctrl i
  num_eq : m.num = countBytes (fun c => 0 ≤ c) m.ctrl m.cap
  live : ∀ i, i < m.cap → 0 ≤ byteAt m.ctrl i → ∃ k v, m.slot[i]? = some ⟨some k, some v⟩ ∧
    byteAt m.ctrl i = H2 (saltedHash h m k) ∧ Reaches h m k i
  inj : ∀ i j k v w, Live m i k v → Live m j k w → i = j

theorem maxLoad_le (n : Nat) : maxLoad n ≤ n := Nat.sub_le _ _

theorem budget_le : ∀ e, budget e ≤ maxLoad (2 ^ e - 1)
  | 0 => Nat.zero_le _
  | _ + 1 => Nat.sub_le _ _

theorem H2_nonneg (hash : BitVec 64) : 0 ≤ H2 hash := Int.natCast_nonneg _

namespace Inv

variable {h : Host K} {m : CSwissMap K V}

theorem cap_eq (hm : Inv h m) : ∃ e, m.cap = 2 ^ e - 1 := by
  obtain ⟨e, he, -⟩ := hm.budget_eq
  exact ⟨e, he⟩

theorem load_le (hm : Inv h m) : m.growthInfo + m.num ≤ maxLoad m.cap := by
  obtain ⟨e, he, hb⟩ := hm.budget_eq
  rw [hb, he]
  exact budget_le e

theorem load_lt (hm : Inv h m) : m.growthInfo + m.num < 2 ^ 63 := by
  have h1 := hm.load_le
  have h2 := maxLoad_le m.cap
  have h3 := hm.cap_le
  simp only [ptrdiffMax] at h3
  omega

theorem land (hm : Inv h m) (x : Nat) : x &&& m.cap = x % (m.cap + 1) := by
  obtain ⟨e, he⟩ := hm.cap_eq
  exact land_cap he x

theorem start_le (hm : Inv h m) (key : K) : startIndex h m key ≤ m.cap := by
  rw [startIndex, hm.land]
  exact Nat.le_of_lt_succ (Nat.mod_lt _ (Nat.succ_pos _))

theorem probeGroup_zero (hm : Inv h m) (key : K) : probeGroup h m key 0 = startIndex h m key := by
  rw [probeGroup, groupIndex, Nat.mul_zero, Nat.add_zero,
    Nat.mod_eq_of_lt (Nat.lt_succ_of_le (hm.start_le key))]

theorem probeGroup_le (m : CSwissMap K V) (key : K) (t : Nat) : probeGroup h m key t ≤ m.cap :=
  groupIndex_le _ _ _

/-- A capacity below fifteen is at most seven. -/
theorem cap_small (hm : Inv h m) (hlt : m.cap < 15) : m.cap ≤ 7 := by
  obtain ⟨e, he⟩ := hm.cap_eq
  rcases Nat.lt_or_ge e 4 with h4 | h4
  · have : 2 ^ e ≤ 2 ^ 3 := Nat.pow_le_pow_right (by decide) (by omega)
    omega
  · have : 2 ^ 4 ≤ 2 ^ e := Nat.pow_le_pow_right (by decide) h4
    omega

theorem getSlotIndex_eq (hm : Inv h m) (index lane : Nat) :
    getSlotIndex m index lane = .ok ((index + lane) % (m.cap + 1)) := by
  obtain ⟨e, he⟩ := hm.cap_eq
  have hvalid : (m.cap = 0 || isValidCapacity m.cap) = true := by
    rcases Nat.eq_zero_or_pos m.cap with h0 | hpos
    · simp [h0]
    · rw [isValidCapacity_pow he hpos, Bool.or_true]
  rw [getSlotIndex, hvalid, Run.assert_true, Run.ok_bind, hm.land]

end Inv

/-! ## 3. One round of the search -/

section Search

variable [DecidableEq K] {h : Host K} {m : CSwissMap K V} {key : K}

/-- The slots whose byte matches are compared with the key one by one; no `assert` fails. -/
theorem matchSlots_cases (hm : Inv h m) (key : K) {index : Nat} (hindex : index ≤ m.cap) {h2 : Ctrl}
    (hh2 : 0 ≤ h2) :
    ∀ mask : List Nat, (∀ lane ∈ mask, lane < kWidth ∧ byteAt m.ctrl (index + lane) = h2) →
      (∃ i v, Live m i key v ∧ matchSlots m key h2 index mask = .ok (some i)) ∨
      (matchSlots m key h2 index mask = .ok none ∧
        ∀ lane ∈ mask, ∀ v, ¬ Live m ((index + lane) % (m.cap + 1)) key v)
  | [], _ => .inr ⟨rfl, by simp⟩
  | lane :: mask, hmask => by
    obtain ⟨hlane, hbyte⟩ := hmask lane List.mem_cons_self
    have hp : index + lane < m.cap + kWidth := by omega
    obtain ⟨hslot, heq, -⟩ := hm.shape.slot_of_nonneg hp (by rw [hbyte]; exact hh2)
    have hlen : (index + lane) % (m.cap + 1) < m.ctrl.length := by
      rw [hm.shape.length_eq]; omega
    have hnn : 0 ≤ byteAt m.ctrl ((index + lane) % (m.cap + 1)) := by
      rw [heq, hbyte]; exact hh2
    obtain ⟨k, v, hsl, -, -⟩ := hm.live _ hslot hnn
    have hstep : matchSlots m key h2 index (lane :: mask) =
        if k = key then .ok (some ((index + lane) % (m.cap + 1)))
        else matchSlots m key h2 index mask := by
      rw [matchSlots, hm.getSlotIndex_eq, Run.ok_bind,
        Run.read_eq_ok (getElem?_eq_byteAt hlen), Run.ok_bind, heq, hbyte]
      simp only [decide_true, Run.assert_true, Run.ok_bind, Run.read_eq_ok hsl, Run.object_some]
    by_cases hk : k = key
    · subst hk
      exact .inl ⟨_, v, ⟨hslot, hnn, hsl⟩, by rw [hstep, if_pos rfl]⟩
    · rw [hstep, if_neg hk]
      rcases matchSlots_cases hm key hindex hh2 mask
        (fun l hl => hmask l (List.mem_cons_of_mem _ hl)) with hfound | ⟨hnone, hrest⟩
      · exact .inl hfound
      · refine .inr ⟨hnone, ?_⟩
        intro l hl w hw
        rcases List.mem_cons.mp hl with rfl | hl
        · exact hk (hw.slot_eq hsl).1
        · exact hrest l hl w hw

/-- **One round of the loop of `findIndex`.** -/
theorem probe_round (hm : Inv h m) (key : K) {index : Nat} (hindex : index ≤ m.cap) (rounds : Nat) :
    (∃ i v, Live m i key v ∧
      probe m key (H2 (saltedHash h m key)) (rounds + 1) index = .ok (true, i)) ∨
    ((∀ i v, Live m i key v → ¬ Covers m.cap index i) ∧
      ((∃ j, j < kWidth ∧ byteAt m.ctrl (index + j) = kEmpty ∧
          (∀ j', j' < j → byteAt m.ctrl (index + j') ≠ kEmpty) ∧
          probe m key (H2 (saltedHash h m key)) (rounds + 1) index =
            .ok (false, (index + j) % (m.cap + 1))) ∨
        (NoEmpty m index ∧
          probe m key (H2 (saltedHash h m key)) (rounds + 1) index =
            probe m key (H2 (saltedHash h m key)) rounds ((index + kWidth) % (m.cap + 1))))) := by
  have hlane : ∀ j, j < kWidth →
      ((m.ctrl.drop index).take kWidth).getD j 0 = byteAt m.ctrl (index + j) :=
    fun j hj => hm.shape.lane_eq hindex hj
  have hmask : ∀ lane ∈ movemask (fun c => c = H2 (saltedHash h m key))
      ((m.ctrl.drop index).take kWidth),
      lane < kWidth ∧ byteAt m.ctrl (index + lane) = H2 (saltedHash h m key) := by
    intro lane hl
    obtain ⟨hlt, hc⟩ := mem_movemask.mp hl
    rw [hlane lane hlt] at hc
    exact ⟨hlt, by simpa using hc⟩
  rcases matchSlots_cases hm key hindex (H2_nonneg _) _ hmask with
    ⟨i, v, hlive, heq⟩ | ⟨heq, hno⟩
  · left
    refine ⟨i, v, hlive, ?_⟩
    rw [probe, hm.shape.loadu_eq hindex, Run.ok_bind, heq, Run.ok_bind]
  · right
    refine ⟨?_, ?_⟩
    · -- a slot of the key in this group would have matched in its lane
      intro i v hlive hcov
      obtain ⟨j, hj, hmod, hbyte⟩ := hcov.byteAt_eq hm.shape hindex
      obtain ⟨k, w, hsl, hc, -⟩ := hm.live i hlive.1 hlive.2.1
      have hk : k = key := (hlive.slot_eq hsl).1
      have hin : j ∈ movemask (fun c => c = H2 (saltedHash h m key))
          ((m.ctrl.drop index).take kWidth) :=
        mem_movemask.mpr ⟨hj, by rw [hlane j hj, hbyte, hc, hk]; simp⟩
      exact hno j hin v (hmod.symm ▸ hlive)
    · rw [probe, hm.shape.loadu_eq hindex, Run.ok_bind, heq, Run.ok_bind]
      cases hempty : movemask (fun c => c = kEmpty) ((m.ctrl.drop index).take kWidth) with
      | nil =>
        right
        refine ⟨?_, by simp only [hm.land]⟩
        intro j hj hc
        have hn := movemask_eq_nil hempty j hj
        rw [hlane j hj, hc] at hn
        simp at hn
      | cons lane mask =>
        left
        obtain ⟨hlt, hc, hmin⟩ := movemask_head hempty
        rw [hlane lane hlt] at hc
        refine ⟨lane, hlt, by simpa using hc, ?_, by simp only [hm.getSlotIndex_eq, Run.ok_bind]⟩
        intro j hj hcj
        have hn := hmin j hj
        rw [hlane j (hj.trans hlt), hcj] at hn
        simp at hn

/-! ## 4. The whole search -/

/-- The key is in the table. -/
def Present (m : CSwissMap K V) (key : K) : Prop := ∃ i v, Live m i key v

/-- The search gave up in group `t`, at lane `j`: no group up to that one shows the key, none
before it has an empty byte, and its first empty byte is in lane `j`. -/
structure GaveUp (h : Host K) (m : CSwissMap K V) (key : K) (t j : Nat) : Prop where
  lane_lt : j < kWidth
  empty : byteAt m.ctrl (probeGroup h m key t + j) = kEmpty
  first : ∀ j', j' < j → byteAt m.ctrl (probeGroup h m key t + j') ≠ kEmpty
  before : ∀ u, u < t → NoEmpty m (probeGroup h m key u)
  absent : ∀ u, u ≤ t → ∀ i v, Live m i key v → ¬ Covers m.cap (probeGroup h m key u) i

/-- **What the loop of `findIndex` leaves behind**, from its `u`-th group on. -/
theorem probe_ok (hm : Inv h m) {found : Bool} {r : Nat} :
    ∀ rounds u : Nat, (∀ w, w < u → NoEmpty m (probeGroup h m key w) ∧
        ∀ i v, Live m i key v → ¬ Covers m.cap (probeGroup h m key w) i) →
      probe m key (H2 (saltedHash h m key)) rounds (probeGroup h m key u) = .ok (found, r) →
      (found = true ∧ ∃ v, Live m r key v) ∨
      (found = false ∧ ∃ t j, GaveUp h m key t j ∧
        r = (probeGroup h m key t + j) % (m.cap + 1))
  | 0, u, _, heq => by simp [probe] at heq
  | rounds + 1, u, hu, heq => by
    rcases probe_round hm key (Inv.probeGroup_le (h := h) m key u) rounds with
      ⟨i, v, hlive, hr⟩ | ⟨hno, ⟨j, hj, hc, hmin, hr⟩ | ⟨hne, hr⟩⟩
    · rw [hr] at heq
      obtain ⟨rfl, rfl⟩ : true = found ∧ i = r := by simpa using heq
      exact .inl ⟨rfl, v, hlive⟩
    · rw [hr] at heq
      obtain ⟨rfl, rfl⟩ : false = found ∧ (probeGroup h m key u + j) % (m.cap + 1) = r := by
        simpa using heq
      refine .inr ⟨rfl, u, j, ⟨hj, hc, hmin, fun w hw => (hu w hw).1, ?_⟩, rfl⟩
      intro w hw
      rcases Nat.lt_or_eq_of_le hw with hlt | rfl
      · exact (hu w hlt).2
      · exact hno
    · rw [hr, probeGroup, groupIndex_succ] at heq
      refine probe_ok hm rounds (u + 1) ?_ heq
      intro w hw
      rcases Nat.lt_or_eq_of_le (Nat.le_of_lt_succ hw) with hlt | rfl
      · exact hu w hlt
      · exact ⟨hne, hno⟩

omit [DecidableEq K] in
/-- A search that gave up was for a key that is not in the table. -/
theorem GaveUp.not_present {t j : Nat} (hm : Inv h m) (hg : GaveUp h m key t j) :
    ¬ Present m key := by
  rintro ⟨i, v, hlive⟩
  obtain ⟨k, w, hsl, -, s, hcov, hbefore⟩ := hm.live i hlive.1 hlive.2.1
  obtain ⟨rfl, rfl⟩ := hlive.slot_eq hsl
  rcases Nat.lt_or_ge t s with hlt | hge
  · exact hbefore t hlt j hg.lane_lt hg.empty
  · exact hg.absent s hge i _ hlive hcov

/-- **What `findIndex` returns when it returns.** -/
theorem findIndex_ok (hm : Inv h m) {rounds : Nat} {found : Bool} {r : Nat} {h2 : Ctrl}
    (heq : findIndex h rounds m key = .ok (found, r, h2)) :
    h2 = H2 (saltedHash h m key) ∧
    ((found = true ∧ ∃ v, Live m r key v) ∨
      (found = false ∧ ¬ Present m key ∧ ∃ t j, GaveUp h m key t j ∧
        r = (probeGroup h m key t + j) % (m.cap + 1))) := by
  rw [findIndex, Run.bind_eq_ok_iff] at heq
  obtain ⟨⟨f, i⟩, hp, hres⟩ := heq
  obtain ⟨rfl, rfl, rfl⟩ : f = found ∧ i = r ∧ H2 (saltedHash h m key) = h2 := by
    simpa using hres
  rw [← hm.probeGroup_zero] at hp
  refine ⟨rfl, ?_⟩
  rcases probe_ok hm rounds 0 (fun w hw => absurd hw (Nat.not_lt_zero w)) hp with
    hfound | ⟨hf, t, j, hg, hr⟩
  · exact .inl hfound
  · exact .inr ⟨hf, hg.not_present hm, t, j, hg, hr⟩

/-! ## 5. When a search ends -/

/-- The loop of `findIndex` ends. -/
def ProbeEnds (h : Host K) (m : CSwissMap K V) (key : K) : Prop :=
  ∃ rounds r, findIndex h rounds m key = .ok r

/-- Some slot has an empty control byte. -/
def HasEmpty (m : CSwissMap K V) : Prop := ∃ i, i < m.cap ∧ byteAt m.ctrl i = kEmpty

/-- From group `t - d` on, `d + 1` rounds are enough if group `t` shows the key or has an
empty byte. -/
theorem probe_ends (hm : Inv h m) {t : Nat}
    (ht : (∃ i v, Live m i key v ∧ Covers m.cap (probeGroup h m key t) i) ∨
      ¬ NoEmpty m (probeGroup h m key t)) :
    ∀ d u : Nat, u + d = t →
      ∃ r, probe m key (H2 (saltedHash h m key)) (d + 1) (probeGroup h m key u) = .ok r
  | d, u, hd => by
    rcases probe_round hm key (Inv.probeGroup_le (h := h) m key u) d with
      ⟨i, v, -, hr⟩ | ⟨hno, ⟨j, -, -, -, hr⟩ | ⟨hne, hr⟩⟩
    · exact ⟨_, hr⟩
    · exact ⟨_, hr⟩
    · cases d with
      | zero =>
        subst hd
        rcases ht with ⟨i, v, hlive, hcov⟩ | hempty
        · exact absurd hcov (hno i v hlive)
        · exact absurd hne hempty
      | succ d =>
        rw [hr, probeGroup, groupIndex_succ]
        exact probe_ends hm ht d (u + 1) (by omega)

/-- A search ends when one of its groups shows the key or has an empty byte. -/
theorem probeEnds_of_group (hm : Inv h m) {t : Nat}
    (ht : (∃ i v, Live m i key v ∧ Covers m.cap (probeGroup h m key t) i) ∨
      ¬ NoEmpty m (probeGroup h m key t)) : ProbeEnds h m key := by
  obtain ⟨⟨found, r⟩, hr⟩ := probe_ends hm ht t 0 (Nat.zero_add t)
  rw [hm.probeGroup_zero] at hr
  exact ⟨t + 1, (found, r, H2 (saltedHash h m key)), by rw [findIndex, hr, Run.ok_bind]⟩

/-- Every search of a small table ends: its first group reaches the byte behind the copies. -/
theorem probeEnds_of_small (hm : Inv h m) (hsmall : m.cap < 15) : ProbeEnds h m key := by
  refine probeEnds_of_group (t := 0) hm (.inr fun hne => ?_)
  have hle := Inv.probeGroup_le (h := h) m key 0
  have h7 := hm.cap_small hsmall
  refine hne (2 * m.cap + 1 - probeGroup h m key 0) (by simp only [kWidth]; omega) ?_
  rw [Nat.add_sub_cancel' (by omega)]
  exact hm.shape.empty_of_small hsmall

omit [DecidableEq K] in
/-- The empty byte that a search met belongs to a slot, unless the table is small. -/
theorem GaveUp.hasEmpty {t j : Nat} (hm : Inv h m) (hg : GaveUp h m key t j) :
    m.cap < 15 ∨ HasEmpty m := by
  have hp : probeGroup h m key t + j < m.cap + kWidth := by
    have := hg.lane_lt
    have := Inv.probeGroup_le (h := h) m key t
    omega
  rcases hm.shape.byteAt_mod hp with ⟨heq, -⟩ | ⟨-, -, hlt⟩
  · refine .inr ⟨_, ?_, heq ▸ hg.empty⟩
    have hle := Nat.mod_lt (probeGroup h m key t + j) (Nat.succ_pos m.cap)
    rcases Nat.lt_or_eq_of_le (Nat.le_of_lt_succ hle) with hlt | hn
    · exact hlt
    · rw [hg.empty, hn, hm.shape.sentinel] at heq
      exact absurd heq (by decide)
  · exact .inl hlt

/-- **When a search ends**: the key is there, or the table is small, or some slot is empty.
A search for an absent key in a table of fifteen slots or more without an empty byte goes
round for ever. -/
theorem probeEnds_iff (hm : Inv h m) :
    ProbeEnds h m key ↔ Present m key ∨ m.cap < 15 ∨ HasEmpty m := by
  constructor
  · rintro ⟨rounds, ⟨found, r, h2⟩, heq⟩
    rcases (findIndex_ok hm heq).2 with ⟨-, v, hlive⟩ | ⟨-, -, t, j, hg, -⟩
    · exact .inl ⟨r, v, hlive⟩
    · exact .inr (hg.hasEmpty hm)
  · rintro (⟨i, v, hlive⟩ | hsmall | ⟨i, hi, hempty⟩)
    · obtain ⟨k, w, hsl, -, t, hcov, -⟩ := hm.live i hlive.1 hlive.2.1
      obtain ⟨rfl, rfl⟩ := hlive.slot_eq hsl
      exact probeEnds_of_group hm (.inl ⟨i, _, hlive, hcov⟩)
    · exact probeEnds_of_small hm hsmall
    · rcases Nat.lt_or_ge m.cap 15 with hsmall | hlarge
      · exact probeEnds_of_small hm hsmall
      · obtain ⟨t, hcov⟩ := exists_covers hlarge (hm.start_le key) hi
        refine probeEnds_of_group (t := t) hm (.inr fun hne => ?_)
        obtain ⟨j, hj, -, hbyte⟩ := Covers.byteAt_eq hm.shape (groupIndex_le _ _ _) hcov
        exact hne j hj (hbyte.trans hempty)

end Search

end CDemo.SwissMap
