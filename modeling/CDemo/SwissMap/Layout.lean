/-
# The control bytes as a ring

The control array of a table with `n` slots has `n + 16` bytes: one for each slot, the
sentinel, copies of the first fifteen slots' bytes, and `kEmpty` in what is left when there are
fewer than fifteen slots.  `Shape` says so.  Read from an index up to `n`, the sixteen bytes of
a group are those of the ring of `n + 1` positions, with one exception: in a table of fewer
than fifteen slots a group runs past the copies and ends in bytes that are `kEmpty` for good
(`Shape.byteAt_mod`).

The exception is what ends every search of a small table, and the ring is what makes a search
of a large one see every slot (`exists_covers`).
-/
import CDemo.SwissMap.Table
import Mathlib.Data.Nat.Bitwise
import Mathlib.Tactic.Ring
import Mathlib.Data.List.GetD

namespace CDemo.SwissMap

variable {K V : Type}

/-! ## 1. Bytes and lanes -/

/-- The byte at a position of the control array. -/
def byteAt (ctrl : List Ctrl) (p : Nat) : Ctrl := ctrl.getD p kSentinel

theorem getElem?_eq_byteAt {ctrl : List Ctrl} {p : Nat} (h : p < ctrl.length) :
    ctrl[p]? = some (byteAt ctrl p) := by
  rw [byteAt, List.getD_eq_getElem _ _ h, List.getElem?_eq_getElem h]

theorem byteAt_set {ctrl : List Ctrl} {i : Nat} (h : i < ctrl.length) (c : Ctrl) (p : Nat) :
    byteAt (ctrl.set i c) p = if p = i then c else byteAt ctrl p := by
  simp only [byteAt, List.getD_eq_getElem?_getD, List.getElem?_set]
  by_cases hp : i = p
  · subst hp; simp [h]
  · simp [hp, Ne.symm hp]

/-- `x & m_cap` for a capacity `2^e - 1`. -/
theorem land_cap {cap e : Nat} (h : cap = 2 ^ e - 1) (x : Nat) : x &&& cap = x % (cap + 1) := by
  have hpos : 0 < 2 ^ e := Nat.two_pow_pos e
  rw [h, Nat.and_two_pow_sub_one_eq_mod, Nat.sub_add_cancel hpos]

theorem isValidCapacity_pow {cap e : Nat} (h : cap = 2 ^ e - 1) (hpos : 0 < cap) :
    isValidCapacity cap = true := by
  have hz : (cap + 1) &&& cap = 0 := by rw [land_cap h, Nat.mod_self]
  simp [isValidCapacity, hz, hpos]

theorem mem_movemask {p : Ctrl → Bool} {group : List Ctrl} {j : Nat} :
    j ∈ movemask p group ↔ j < kWidth ∧ p (group.getD j 0) = true := by
  simp [movemask]

/-- The head of the lanes is the lowest lane selected. -/
theorem movemask_head {p : Ctrl → Bool} {group : List Ctrl} {lane : Nat} {mask : List Nat}
    (h : movemask p group = lane :: mask) :
    lane < kWidth ∧ p (group.getD lane 0) = true ∧ ∀ j, j < lane → p (group.getD j 0) = false := by
  have hmem : lane ∈ movemask p group := by rw [h]; exact List.mem_cons_self
  refine ⟨(mem_movemask.mp hmem).1, (mem_movemask.mp hmem).2, ?_⟩
  intro j hj
  by_contra hp
  have hjm : j ∈ movemask p group :=
    mem_movemask.mpr ⟨hj.trans (mem_movemask.mp hmem).1, by simpa using hp⟩
  have hsorted : (movemask p group).Pairwise (· < ·) := List.pairwise_lt_range.filter _
  rw [h] at hjm hsorted
  rcases List.mem_cons.mp hjm with rfl | hmask
  · exact absurd hj (lt_irrefl _)
  · exact absurd hj (Nat.not_lt.mpr (le_of_lt (List.rel_of_pairwise_cons hsorted hmask)))

theorem movemask_eq_nil {p : Ctrl → Bool} {group : List Ctrl} (h : movemask p group = []) :
    ∀ j, j < kWidth → p (group.getD j 0) = false := by
  intro j hj
  by_contra hp
  have hjm : j ∈ movemask p group := mem_movemask.mpr ⟨hj, by simpa using hp⟩
  rw [h] at hjm
  exact absurd hjm List.not_mem_nil

/-! ## 2. The shape of the control array -/

/-- The control array of a table with `n` slots. -/
structure Shape (ctrl : List Ctrl) (n : Nat) : Prop where
  length_eq : ctrl.length = n + kWidth
  sentinel : byteAt ctrl n = kSentinel
  clone : ∀ i, i < kWidth - 1 → byteAt ctrl (n + 1 + i) = if i < n then byteAt ctrl i else kEmpty

/-- The bytes of a new array. -/
theorem byteAt_init {n p : Nat} (hp : p < n + kWidth) :
    byteAt ((List.replicate (n + kWidth) kEmpty).set n kSentinel) p =
      if p = n then kSentinel else kEmpty := by
  have hlen : n < (List.replicate (n + kWidth) kEmpty).length := by simp [kWidth]
  rw [byteAt_set hlen, byteAt, List.getD_eq_getElem _ _ (by simpa using hp),
    List.getElem_replicate]

theorem shape_init (n : Nat) :
    Shape ((List.replicate (n + kWidth) kEmpty).set n kSentinel) n := by
  refine ⟨by simp, by rw [byteAt_init (by simp [kWidth]), if_pos rfl], ?_⟩
  intro i hi
  rw [byteAt_init (by simp only [kWidth] at hi ⊢; omega), if_neg (by omega)]
  split
  · next hlt => rw [byteAt_init (by omega), if_neg (by omega)]
  · rfl

namespace Shape

variable {ctrl : List Ctrl} {n : Nat}

theorem loadu_eq (hs : Shape ctrl n) {index : Nat} (hi : index ≤ n) :
    loadu ctrl index = .ok ((ctrl.drop index).take kWidth) := by
  rw [loadu, if_pos (by rw [hs.length_eq]; omega)]

/-- Lane `j` of the group at `index`. -/
theorem lane_eq (hs : Shape ctrl n) {index j : Nat} (hi : index ≤ n) (hj : j < kWidth) :
    ((ctrl.drop index).take kWidth).getD j 0 = byteAt ctrl (index + j) := by
  have hlt : index + j < ctrl.length := by rw [hs.length_eq]; omega
  rw [List.getD_eq_getElem?_getD, List.getElem?_take_of_lt hj, List.getElem?_drop,
    getElem?_eq_byteAt hlt, Option.getD_some]

/-- **The bytes form a ring**, but for the `kEmpty` bytes behind the copies of a small table. -/
theorem byteAt_mod (hs : Shape ctrl n) {p : Nat} (hp : p < n + kWidth) :
    (byteAt ctrl p = byteAt ctrl (p % (n + 1)) ∧ (p ≤ 2 * n ∨ 15 ≤ n)) ∨
      (byteAt ctrl p = kEmpty ∧ 2 * n < p ∧ n < 15) := by
  simp only [kWidth] at hp
  rcases Nat.lt_or_ge n p with hlt | hge
  · obtain ⟨i, rfl⟩ : ∃ i, p = n + 1 + i := ⟨p - (n + 1), by omega⟩
    have hc := hs.clone i (by simp only [kWidth]; omega)
    split at hc
    · next hin =>
      left
      rw [Nat.add_mod_left, Nat.mod_eq_of_lt (by omega)]
      exact ⟨hc, by omega⟩
    · next hin => exact .inr ⟨hc, by omega, by omega⟩
  · left
    rw [Nat.mod_eq_of_lt (by omega)]
    exact ⟨rfl, by omega⟩

/-- A byte that belongs to a slot or to a copy of one. -/
theorem byteAt_of_ne_empty (hs : Shape ctrl n) {p : Nat} (hp : p < n + kWidth)
    (hne : byteAt ctrl p ≠ kEmpty) :
    byteAt ctrl p = byteAt ctrl (p % (n + 1)) ∧ (p ≤ 2 * n ∨ 15 ≤ n) :=
  (hs.byteAt_mod hp).resolve_right fun h => hne h.1

/-- A live byte stands for a slot. -/
theorem slot_of_nonneg (hs : Shape ctrl n) {p : Nat} (hp : p < n + kWidth)
    (hc : 0 ≤ byteAt ctrl p) :
    p % (n + 1) < n ∧ byteAt ctrl (p % (n + 1)) = byteAt ctrl p ∧ (p ≤ 2 * n ∨ 15 ≤ n) := by
  have hne : byteAt ctrl p ≠ kEmpty := by
    intro h; rw [h] at hc; exact absurd hc (by decide)
  obtain ⟨heq, hcov⟩ := hs.byteAt_of_ne_empty hp hne
  refine ⟨?_, heq.symm, hcov⟩
  have hle : p % (n + 1) < n + 1 := Nat.mod_lt _ (Nat.succ_pos n)
  rcases Nat.lt_or_ge (p % (n + 1)) n with hlt | hge
  · exact hlt
  · have hn : p % (n + 1) = n := by omega
    rw [heq, hn, hs.sentinel] at hc
    exact absurd hc (by decide)

/-- Behind the copies of a small table, and in every group of it, there is an empty byte. -/
theorem empty_of_small (hs : Shape ctrl n) (hn : n < 15) : byteAt ctrl (2 * n + 1) = kEmpty := by
  have hc := hs.clone n (by simp only [kWidth]; omega)
  rw [if_neg (lt_irrefl n)] at hc
  rw [← hc]
  congr 1
  ring

end Shape

/-! ## 3. Writing a control byte -/

/-- What `setCtrl` makes of the control array. -/
def setBytes (ctrl : List Ctrl) (n index : Nat) (c : Ctrl) : List Ctrl :=
  if index < kWidth - 1 then (ctrl.set index c).set (index + n + 1) c else ctrl.set index c

theorem setCtrl_eq {m : CSwissMap K V} (hs : Shape m.ctrl m.cap) {i : Nat} (hi : i < m.cap)
    (c : Ctrl) : setCtrl m i c = .ok { m with ctrl := setBytes m.ctrl m.cap i c } := by
  have hlen : i < m.ctrl.length := by rw [hs.length_eq]; omega
  rw [setCtrl, Run.write_eq_ok hlen, Run.ok_bind, setBytes]
  split
  · next hlt =>
    have hlen' : i + m.cap + 1 < (m.ctrl.set i c).length := by
      rw [List.length_set, hs.length_eq]
      simp only [kWidth] at hlt ⊢
      omega
    rw [Run.write_eq_ok hlen', Run.ok_bind]
  · rfl

theorem byteAt_setBytes {ctrl : List Ctrl} {n : Nat} (hs : Shape ctrl n) {i : Nat} (hi : i < n)
    (c : Ctrl) (p : Nat) :
    byteAt (setBytes ctrl n i c) p =
      if p = i ∨ (i < kWidth - 1 ∧ p = n + 1 + i) then c else byteAt ctrl p := by
  have hlen : i < ctrl.length := by rw [hs.length_eq]; omega
  rw [setBytes]
  by_cases hlt : i < kWidth - 1
  · have hlen' : i + n + 1 < (ctrl.set i c).length := by
      rw [List.length_set, hs.length_eq]
      simp only [kWidth] at hlt ⊢
      omega
    rw [if_pos hlt, byteAt_set hlen', byteAt_set hlen]
    by_cases hp : p = i + n + 1
    · rw [if_pos hp, if_pos (.inr ⟨hlt, by omega⟩)]
    · rw [if_neg hp]
      by_cases hpi : p = i
      · rw [if_pos hpi, if_pos (.inl hpi)]
      · rw [if_neg hpi, if_neg (by omega)]
  · rw [if_neg hlt, byteAt_set hlen]
    by_cases hpi : p = i
    · rw [if_pos hpi, if_pos (.inl hpi)]
    · rw [if_neg hpi, if_neg (by rintro (h | ⟨h, -⟩) <;> contradiction)]

/-- Below the capacity a write changes one byte. -/
theorem byteAt_setBytes_slot {ctrl : List Ctrl} {n : Nat} (hs : Shape ctrl n) {i : Nat}
    (hi : i < n) (c : Ctrl) {p : Nat} (hp : p ≤ n) :
    byteAt (setBytes ctrl n i c) p = if p = i then c else byteAt ctrl p := by
  rw [byteAt_setBytes hs hi]
  by_cases hpi : p = i
  · rw [if_pos (.inl hpi), if_pos hpi]
  · rw [if_neg hpi, if_neg (by rintro (h | ⟨-, h⟩) <;> omega)]

/-- **A write keeps the shape**: the copy is written with the byte. -/
theorem Shape.setBytes {ctrl : List Ctrl} {n : Nat} (hs : Shape ctrl n) {i : Nat} (hi : i < n)
    (c : Ctrl) : Shape (setBytes ctrl n i c) n := by
  refine ⟨?_, ?_, ?_⟩
  · rw [SwissMap.setBytes]
    split <;> simp [hs.length_eq]
  · rw [byteAt_setBytes_slot hs hi c le_rfl, if_neg (by omega), hs.sentinel]
  · intro j hj
    rw [byteAt_setBytes hs hi]
    by_cases hji : j = i
    · subst hji
      rw [if_pos (.inr ⟨hj, rfl⟩), if_pos hi, byteAt_setBytes_slot hs hi c hi.le, if_pos rfl]
    · rw [if_neg (by rintro (h | ⟨-, h⟩) <;> omega), hs.clone j hj]
      split
      · next hlt => rw [byteAt_setBytes_slot hs hi c hlt.le, if_neg hji]
      · rfl

/-! ## 4. The groups of a search -/

/-- The index of the `t`-th group of a search that starts at `start`. -/
def groupIndex (n start t : Nat) : Nat := (start + 16 * t) % (n + 1)

theorem groupIndex_le (n start t : Nat) : groupIndex n start t ≤ n :=
  Nat.le_of_lt_succ (Nat.mod_lt _ (Nat.succ_pos n))

theorem groupIndex_succ (n start t : Nat) :
    (groupIndex n start t + kWidth) % (n + 1) = groupIndex n start (t + 1) := by
  simp only [groupIndex, kWidth, Nat.mod_add_mod]
  rfl

/-- A lane of the group at `index` shows the byte of slot `i`. -/
def Covers (n index i : Nat) : Prop :=
  ∃ j, j < kWidth ∧ (index + j) % (n + 1) = i ∧ (index + j ≤ 2 * n ∨ 15 ≤ n)

/-- The lane that shows slot `i` shows its byte. -/
theorem Covers.byteAt_eq {ctrl : List Ctrl} {n index i : Nat} (hs : Shape ctrl n)
    (hi : index ≤ n) (h : Covers n index i) :
    ∃ j, j < kWidth ∧ (index + j) % (n + 1) = i ∧ byteAt ctrl (index + j) = byteAt ctrl i := by
  obtain ⟨j, hj, hmod, hcov⟩ := h
  refine ⟨j, hj, hmod, ?_⟩
  rcases hs.byteAt_mod (p := index + j) (by omega) with ⟨heq, -⟩ | ⟨-, hlt, hn⟩
  · rw [heq, hmod]
  · omega

theorem add_sub_mod {n index i : Nat} (hindex : index ≤ n) (hi : i ≤ n) :
    (index + (i + (n + 1) - index) % (n + 1)) % (n + 1) = i := by
  rw [Nat.add_mod_mod, show index + (i + (n + 1) - index) = i + (n + 1) by omega,
    Nat.add_mod_right, Nat.mod_eq_of_lt (by omega)]

/-- **In a small table one group shows every slot.** -/
theorem covers_small {n index i : Nat} (hn : n < 15) (hindex : index ≤ n) (hi : i < n) :
    Covers n index i := by
  have hlt : (i + (n + 1) - index) % (n + 1) < n + 1 := Nat.mod_lt _ (Nat.succ_pos n)
  refine ⟨_, ?_, add_sub_mod hindex hi.le, ?_⟩
  · simp only [kWidth]; omega
  · rcases Nat.lt_or_ge i index with h | h
    · left
      rw [Nat.mod_eq_of_lt (by omega)]
      omega
    · left
      rw [show i + (n + 1) - index = (i - index) + (n + 1) by omega, Nat.add_mod_right,
        Nat.mod_eq_of_lt (by omega)]
      omega

/-- **In a large table the groups of a search show every slot**: slot `i` lies `d` positions
after the start, so in lane `d % 16` of group `d / 16`. -/
theorem exists_covers {n start i : Nat} (hn : 15 ≤ n) (hstart : start ≤ n) (hi : i < n) :
    ∃ t, Covers n (groupIndex n start t) i := by
  let d := (i + (n + 1) - start) % (n + 1)
  have hd : (start + d) % (n + 1) = i := add_sub_mod hstart hi.le
  refine ⟨d / 16, d % 16, Nat.mod_lt _ (by decide), ?_, .inr hn⟩
  rw [groupIndex, Nat.mod_add_mod, Nat.add_assoc, Nat.div_add_mod, hd]

end CDemo.SwissMap
