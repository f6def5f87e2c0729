/-
# The fast path for long vectors

`addVWlarge` and `subVWlarge` are the plain loops of `addVW` and `subVW` with one test more: once
the carry has died the rest is copied with `memcpy`.  Here they run on memory that records what is
touched.  `z` is a vector in a block of its own, or starts where `x` starts, as in `karatsubaAdd`.

* The result is that of the plain loop, always: the same word is returned, and the same words
  stand in `z` as far as both vectors reach (`vwLargeLoopAt_passed`, `vwLoopAt_passed`).
* But `memcpy` copies `x.len` words from where the loop stands, not the `x.len - i` that are left.
  From the second word on this reads behind the end of `x` (`inside_large_iff`).  So the path stays
  within the vectors only if it copies at the first word or never.
-/
import CDemo.BigInt.AddSub
import CDemo.Lib.Blocks

namespace CDemo.BigInt

/-! ## 1. The loops in memory -/

/-- `struct nat` with its pointer. -/
structure NatAt where
  data : Ptr
  len : Nat
  deriving DecidableEq, Repr

/-- The word at `p` is one of the vector's. -/
def NatAt.Has (v : NatAt) (p : Ptr) : Prop :=
  p.block = v.data.block ∧ v.data.index ≤ p.index ∧ p.index < v.data.index + v.len

instance (v : NatAt) (p : Ptr) : Decidable (v.Has p) := inferInstanceAs (Decidable (_ ∧ _))

/-- The loop of `addVW` and `subVW` from word `i` on. -/
def vwLoopAt (op : Word → Word → Word → Word × Word) (z x : NatAt) :
    Nat → Nat → Word → Word → Blocks Word → Word × Blocks Word
  | 0, _, c, _, s => (c, s)
  | n + 1, i, c, oc, s =>
    let (xi, s) := s.read (x.data.plus i)
    let (zi, oc) := op xi c oc
    let s := s.write (z.data.plus i) zi
    vwLoopAt op z x n (i + 1) oc oc s

/-- The loop of `addVWlarge` and `subVWlarge` from word `i` on. -/
def vwLargeLoopAt (op : Word → Word → Word → Word × Word) (z x : NatAt) :
    Nat → Nat → Word → Word → Blocks Word → Word × Blocks Word
  | 0, _, c, _, s => (c, s)
  | n + 1, i, c, oc, s =>
    if c = 0 then (c, s.copy (z.data.plus i) (x.data.plus i) x.len)
    else
      let (xi, s) := s.read (x.data.plus i)
      let (zi, oc) := op xi c oc
      let s := s.write (z.data.plus i) zi
      vwLargeLoopAt op z x n (i + 1) oc oc s

/-- How many words the loops go through. -/
def common (z x : NatAt) : Nat := min z.len x.len

/-- The plain loop of `addVW`. -/
def addVWLoop (z x : NatAt) (y : Word) (mem : Nat → Nat → Word) : Word × Blocks Word :=
  vwLoopAt u64Add z x (common z x) 0 y 0 (.start mem)

/-- The plain loop of `subVW`. -/
def subVWLoop (z x : NatAt) (y : Word) (mem : Nat → Nat → Word) : Word × Blocks Word :=
  vwLoopAt u64Sub z x (common z x) 0 y 0 (.start mem)

def addVWlarge (z x : NatAt) (y : Word) (mem : Nat → Nat → Word) : Word × Blocks Word :=
  vwLargeLoopAt u64Add z x (common z x) 0 y 0 (.start mem)

def subVWlarge (z x : NatAt) (y : Word) (mem : Nat → Nat → Word) : Word × Blocks Word :=
  vwLargeLoopAt u64Sub z x (common z x) 0 y 0 (.start mem)

/-- `z` lies in a block of its own, or is the front of `x`. -/
def Placed (z x : NatAt) : Prop :=
  z.data.block ≠ x.data.block ∨ z.data = x.data ∧ z.len ≤ x.len

instance (z x : NatAt) : Decidable (Placed z x) := inferInstanceAs (Decidable (_ ∨ _))

/-- Both runs returned the same word and left the same words in `z`. -/
def SameOutcome (z x : NatAt) (r r' : Word × Blocks Word) : Prop :=
  r.1 = r'.1 ∧ r.2.load z.data (common z x) = r'.2.load z.data (common z x)

/-- No word outside the two vectors was touched. -/
def Inside (z x : NatAt) (s : Blocks Word) : Prop := ∀ p ∈ s.touched, z.Has p ∨ x.Has p

instance (z x : NatAt) (s : Blocks Word) : Decidable (Inside z x s) :=
  inferInstanceAs (Decidable (∀ p ∈ s.touched, _))

/-! ## 2. What the loops leave behind -/

section Outcome

variable {op : Word → Word → Word → Word × Word} {z x : NatAt}

/-- The run `r` from word `i` of the state `s` computed the words of the plain loop, and wrote
nothing before word `i` of `z`. -/
structure Passed (op : Word → Word → Word → Word × Word) (z x : NatAt) (n i : Nat) (c oc : Word)
    (s : Blocks Word) (r : Word × Blocks Word) : Prop where
  word : r.1 = (vwWords op (s.load (x.data.plus i) n) c oc).1
  words : r.2.load (z.data.plus i) n = (vwWords op (s.load (x.data.plus i) n) c oc).2
  before : ∀ b j, b ≠ z.data.block ∨ j < z.data.index + i → r.2.mem b j = s.mem b j

/-- The state after a round at word `i`. -/
def roundAt (op : Word → Word → Word → Word × Word) (z x : NatAt) (i : Nat) (c oc : Word)
    (s : Blocks Word) : Word × Blocks Word :=
  let (xi, s) := s.read (x.data.plus i)
  let (zi, oc) := op xi c oc
  (oc, s.write (z.data.plus i) zi)

/-- The words of `x` that are still to come are not those that a round writes. -/
theorem load_roundAt (op : Word → Word → Word → Word × Word) (hplace : Placed z x) (i n : Nat)
    (c oc : Word) (s : Blocks Word) :
    (roundAt op z x i c oc s).2.load (x.data.plus (i + 1)) n = s.load (x.data.plus (i + 1)) n := by
  refine Blocks.load_congr fun j hj _ => ?_
  refine Blocks.write_elsewhere _ _ _ ?_
  rcases hplace with hb | ⟨heq, -⟩
  · exact .inl hb.symm
  · refine .inr ?_
    rw [heq]
    simp only [Ptr.plus] at hj ⊢
    omega

/-- **One round**, and then the rest. -/
theorem Passed.round (hplace : Placed z x) {n i : Nat} {c oc : Word} {s : Blocks Word}
    {r : Word × Blocks Word}
    (h : Passed op z x n (i + 1) (roundAt op z x i c oc s).1 (roundAt op z x i c oc s).1
      (roundAt op z x i c oc s).2 r) : Passed op z x (n + 1) i c oc s r := by
  have hload := load_roundAt op hplace i n c oc s
  have hx := s.load_succ (x.data.plus i) n
  rw [Ptr.plus_plus] at hx
  have hwords := h.words
  rw [hload] at hwords
  refine ⟨?_, ?_, fun b j hj => ?_⟩
  · rw [hx, h.word, hload]
    rfl
  · -- the word written in this round stays
    have hhead : r.2.mem z.data.block (z.data.index + i) =
        (op (s.mem x.data.block (x.data.index + i)) c oc).1 := by
      rw [h.before _ _ (.inr (by omega))]
      exact Blocks.mem_write _ (z.data.plus i) _
    rw [Blocks.load_succ, Ptr.plus_plus, hwords, hx]
    exact congrArg (· :: _) hhead
  · rw [h.before b j (hj.imp_right fun hj => by omega)]
    refine Blocks.write_elsewhere _ _ _ (hj.imp_right fun hj => ?_)
    simp only [Ptr.plus]
    omega

theorem vwLoopAt_passed (hplace : Placed z x) :
    ∀ (n i : Nat) (c oc : Word) (s : Blocks Word),
      Passed op z x n i c oc s (vwLoopAt op z x n i c oc s) := by
  intro n
  induction n with
  | zero => exact fun i c oc s => ⟨rfl, rfl, fun _ _ _ => rfl⟩
  | succ n ih => exact fun i c oc s => Passed.round hplace (ih (i + 1) _ _ _)

/-- **The fast path computes the words of the plain loop.** -/
theorem vwLargeLoopAt_passed (hop : ∀ w, op w 0 0 = (w, 0)) (hplace : Placed z x) :
    ∀ (n i : Nat) (c oc : Word) (s : Blocks Word), n ≤ x.len → (c = 0 → oc = 0) →
      Passed op z x n i c oc s (vwLargeLoopAt op z x n i c oc s) := by
  intro n
  induction n with
  | zero => exact fun i c oc s _ _ => ⟨rfl, rfl, fun _ _ _ => rfl⟩
  | succ n ih =>
    intro i c oc s hn hoc
    rw [vwLargeLoopAt]
    by_cases hc : c = 0
    · rw [if_pos hc, hoc hc, hc]
      refine ⟨?_, ?_, fun b j hj => ?_⟩
      · rw [vwWords_zero hop]
      · rw [vwWords_zero hop]
        exact Blocks.load_copy s _ _ hn
      · exact Blocks.put_outside s _ _ (hj.imp_right .inl)
    · rw [if_neg hc]
      exact Passed.round hplace (ih (i + 1) _ _ _ (Nat.le_of_succ_le hn) fun h => h)

theorem Passed.sameOutcome {y : Word} {mem : Nat → Nat → Word} {r r' : Word × Blocks Word}
    (h : Passed op z x (common z x) 0 y 0 (.start mem) r)
    (h' : Passed op z x (common z x) 0 y 0 (.start mem) r') : SameOutcome z x r r' :=
  ⟨h.word.trans h'.word.symm, h.words.trans h'.words.symm⟩

end Outcome

/-! ## 3. What the fast path touches -/

/-- The carry is there before every word: nothing is ever copied. -/
def Alive (op : Word → Word → Word → Word × Word) : List Word → Word → Word → Prop
  | [], _, _ => True
  | w :: ws, c, oc => c ≠ 0 ∧ Alive op ws (op w c oc).2 (op w c oc).2

section Touched

variable {op : Word → Word → Word → Word × Word} {z x : NatAt}

theorem NatAt.has_plus {v : NatAt} {i : Nat} (hi : i < v.len) : v.Has (v.data.plus i) :=
  ⟨rfl, Nat.le_add_right _ _, Nat.add_lt_add_left hi _⟩

/-- A round within the vectors touches only these. -/
theorem inside_roundAt {i : Nat} (hi : i < common z x) (c oc : Word) (s : Blocks Word) :
    Inside z x (roundAt op z x i c oc s).2 ↔ Inside z x s := by
  have hz : z.Has (z.data.plus i) := NatAt.has_plus (hi.trans_le (Nat.min_le_left _ _))
  have hx : x.Has (x.data.plus i) := NatAt.has_plus (hi.trans_le (Nat.min_le_right _ _))
  constructor
  · intro h p hp
    exact h p (List.mem_cons_of_mem _ (List.mem_cons_of_mem _ hp))
  · intro h p hp
    rcases List.mem_cons.mp hp with rfl | hp
    · exact .inl hz
    · rcases List.mem_cons.mp hp with rfl | hp
      · exact .inr hx
      · exact h p hp

/-- What `memcpy` touches. -/
theorem inside_copy_iff (s : Blocks Word) (dst src : Ptr) (n : Nat) :
    Inside z x (s.copy dst src n) ↔ (∀ k < n, z.Has (src.plus k) ∨ x.Has (src.plus k)) ∧
      (∀ k < n, z.Has (dst.plus k) ∨ x.Has (dst.plus k)) ∧ Inside z x s := by
  simp only [Inside, Blocks.copy, List.mem_append, List.mem_map, List.mem_range]
  constructor
  · intro h
    exact ⟨fun k hk => h _ (.inl (.inl ⟨k, hk, rfl⟩)), fun k hk => h _ (.inl (.inr ⟨k, hk, rfl⟩)),
      fun p hp => h p (.inr hp)⟩
  · rintro ⟨hsrc, hdst, hs⟩ p ((⟨k, hk, rfl⟩ | ⟨k, hk, rfl⟩) | hp)
    · exact hsrc k hk
    · exact hdst k hk
    · exact hs p hp

/-- Behind the end of `x` there is no word of either vector. -/
theorem not_has_behind (hplace : Placed z x) {i : Nat} (hi : x.len ≤ i) :
    ¬ (z.Has (x.data.plus i) ∨ x.Has (x.data.plus i)) := by
  rintro (⟨hb, -, hlt⟩ | ⟨-, -, hlt⟩)
  · rcases hplace with hne | ⟨heq, hle⟩
    · exact hne hb.symm
    · rw [heq] at hlt
      simp only [Ptr.plus] at hlt
      omega
  · simp only [Ptr.plus] at hlt
    omega

/-- **After the first word a copy leaves `x`**, so the path has to go without. -/
theorem inside_large_iff (op : Word → Word → Word → Word × Word) (hplace : Placed z x) :
    ∀ (n i : Nat) (c oc : Word) (s : Blocks Word), 1 ≤ i → i + n = common z x →
      (Inside z x (vwLargeLoopAt op z x n i c oc s).2 ↔
        Inside z x s ∧ Alive op (s.load (x.data.plus i) n) c oc) := by
  intro n
  induction n with
  | zero => exact fun i c oc s _ _ => ⟨fun h => ⟨h, trivial⟩, fun h => h.1⟩
  | succ n ih =>
    intro i c oc s hi hn
    have hic : i < common z x := by omega
    have hix : i < x.len := hic.trans_le (Nat.min_le_right _ _)
    rw [vwLargeLoopAt, Blocks.load_succ, Ptr.plus_plus]
    by_cases hc : c = 0
    · rw [if_pos hc]
      refine iff_of_false ?_ fun h => h.2.1 hc
      rw [inside_copy_iff]
      rintro ⟨hsrc, -, -⟩
      have hlast := hsrc (x.len - 1) (by omega)
      rw [Ptr.plus_plus] at hlast
      exact not_has_behind hplace (by omega) hlast
    · rw [if_neg hc]
      have hrest := ih (i + 1) (roundAt op z x i c oc s).1 (roundAt op z x i c oc s).1
        (roundAt op z x i c oc s).2 (by omega) (by omega)
      rw [inside_roundAt hic, load_roundAt op hplace] at hrest
      exact hrest.trans (and_congr_right fun _ => (and_iff_right hc).symm)

/-- **The whole path**: it may copy at the first word, where the copy has the right length, if
there is room for it. -/
theorem inside_large_start (hplace : Placed z x) (y : Word) (mem : Nat → Nat → Word) :
    Inside z x (vwLargeLoopAt op z x (common z x) 0 y 0 (.start mem)).2 ↔
      common z x = 0 ∨ y = 0 ∧ (z.data = x.data ∨ x.len ≤ z.len) ∨
        y ≠ 0 ∧ Alive op ((Blocks.start mem).load x.data (common z x)) y 0 := by
  have hnil : Inside z x (.start mem) := fun p hp => absurd hp List.not_mem_nil
  rcases hn : common z x with _ | n
  · exact iff_of_true hnil (.inl rfl)
  rw [vwLargeLoopAt, Blocks.load_succ, or_iff_right (Nat.succ_ne_zero n)]
  have h0 : 0 < common z x := by omega
  have hx : 0 < x.len := h0.trans_le (Nat.min_le_right _ _)
  by_cases hy : y = 0
  · rw [if_pos hy, or_iff_left fun h => h.1 hy, and_iff_right hy, inside_copy_iff, Ptr.plus_zero,
      Ptr.plus_zero]
    constructor
    · rintro ⟨-, hdst, -⟩
      rcases hplace with hne | ⟨heq, -⟩
      · refine .inr ?_
        obtain ⟨-, -, hlt⟩ := (hdst (x.len - 1) (by omega)).resolve_right fun h => hne h.1
        simp only [Ptr.plus] at hlt
        omega
      · exact .inl heq
    · intro h
      refine ⟨fun k hk => .inr (NatAt.has_plus hk), fun k hk => ?_, hnil⟩
      rcases h with heq | hle
      · rw [heq]
        exact .inr (NatAt.has_plus hk)
      · exact .inl (NatAt.has_plus (hk.trans_le hle))
  · rw [if_neg hy, or_iff_right fun h => hy h.1, and_iff_right hy]
    have hrest := inside_large_iff op hplace n 1 (roundAt op z x 0 y 0 (.start mem)).1
      (roundAt op z x 0 y 0 (.start mem)).1 (roundAt op z x 0 y 0 (.start mem)).2 le_rfl (by omega)
    rw [inside_roundAt h0, load_roundAt op hplace, and_iff_right hnil] at hrest
    exact hrest.trans (and_iff_right hy).symm

end Touched

/-! ## 4. Which words pass the carry on -/

/-- Every word of the list passes the carry on, the first one as the caller hands it over. -/
def Passes (first later : Word → Prop) : List Word → Prop
  | [] => True
  | w :: ws => first w ∧ ∀ v ∈ ws, later v

instance {first later : Word → Prop} [DecidablePred first] [DecidablePred later] :
    ∀ ws, Decidable (Passes first later ws)
  | [] => .isTrue trivial
  -- named, for a search would decide `∀ v` over all words
  | w :: ws => @instDecidableAnd (first w) (∀ v ∈ ws, later v) _ (List.decidableBAll later ws)

section Carries

variable {op : Word → Word → Word → Word × Word} {first later : Word → Prop}

/-- From the second word on the carry is 1 and comes in twice. -/
theorem alive_one_iff (hle : ∀ w c oc : Word, oc.toNat ≤ 1 → (op w c oc).2.toNat ≤ 1)
    (hlater : ∀ w, (op w 1 1).2 ≠ 0 ↔ later w) (ws : List Word) :
    Alive op ws 1 1 ↔ ∀ v ∈ ws.dropLast, later v := by
  induction ws with
  | nil => exact iff_of_true trivial fun v hv => absurd hv List.not_mem_nil
  | cons w ws ih =>
    cases ws with
    | nil => exact iff_of_true ⟨by decide, trivial⟩ fun v hv => absurd hv List.not_mem_nil
    | cons w' ws =>
      rw [List.dropLast_cons_cons, List.forall_mem_cons, ← hlater w, ← ih]
      rcases eq_zero_or_one (hle w 1 1 le_rfl) with h0 | h1
      · exact iff_of_false (fun h => h.2.1 h0) fun h => h.1 h0
      · rw [Alive, h1, and_iff_right (by decide)]

theorem alive_iff {y : Word} (hy : y ≠ 0)
    (hle : ∀ w c oc : Word, oc.toNat ≤ 1 → (op w c oc).2.toNat ≤ 1)
    (hfirst : ∀ w, (op w y 0).2 ≠ 0 ↔ first w) (hlater : ∀ w, (op w 1 1).2 ≠ 0 ↔ later w)
    (ws : List Word) : Alive op ws y 0 ↔ Passes first later ws.dropLast := by
  rcases ws with _ | ⟨w, _ | ⟨w', ws⟩⟩
  · exact iff_of_true trivial trivial
  · exact iff_of_true ⟨hy, trivial⟩ trivial
  · rw [List.dropLast_cons_cons, Passes, ← hfirst w]
    rcases eq_zero_or_one (hle w y 0 (by decide)) with h0 | h1
    · exact iff_of_false (fun h => h.2.1 h0) fun h => h.1 h0
    · rw [Alive, h1, alive_one_iff hle hlater, and_iff_right hy, and_iff_right (by decide)]

end Carries

/-- When the fast path stays within the vectors: it goes through no word; or it copies at once and
there is room for `x`; or every word but the last passes the carry on. -/
def Stays (first later : Word → Prop) (z x : NatAt) (y : Word) (mem : Nat → Nat → Word) : Prop :=
  common z x = 0 ∨ y = 0 ∧ (z.data = x.data ∨ x.len ≤ z.len) ∨
    y ≠ 0 ∧ Passes first later ((Blocks.start mem).load x.data (common z x - 1))

instance {first later : Word → Prop} [DecidablePred first] [DecidablePred later] (z x : NatAt)
    (y : Word) (mem : Nat → Nat → Word) : Decidable (Stays first later z x y mem) :=
  inferInstanceAs (Decidable (_ ∨ _))

/-- For `addVWlarge`: a later word passes a carry on if it has no room for two. -/
def AddStays (z x : NatAt) (y : Word) (mem : Nat → Nat → Word) : Prop :=
  Stays (fun w => radix ≤ w.toNat + y.toNat) (fun w => radix ≤ w.toNat + 2) z x y mem

/-- For `subVWlarge`. -/
def SubStays (z x : NatAt) (y : Word) (mem : Nat → Nat → Word) : Prop :=
  Stays (fun w => w.toNat < y.toNat) (fun w => w.toNat < 2) z x y mem

instance (z x : NatAt) (y : Word) (mem : Nat → Nat → Word) : Decidable (AddStays z x y mem) :=
  inferInstanceAs (Decidable (Stays _ _ z x y mem))

/-- **When the fast path stays within the vectors**, in terms of the words. -/
theorem inside_large_stays {op : Word → Word → Word → Word × Word} {first later : Word → Prop}
    {z x : NatAt} {y : Word} {mem : Nat → Nat → Word} (hplace : Placed z x)
    (hle : ∀ w c oc : Word, oc.toNat ≤ 1 → (op w c oc).2.toNat ≤ 1)
    (hfirst : ∀ w, (op w y 0).2 ≠ 0 ↔ first w) (hlater : ∀ w, (op w 1 1).2 ≠ 0 ↔ later w) :
    Inside z x (vwLargeLoopAt op z x (common z x) 0 y 0 (.start mem)).2 ↔
      Stays first later z x y mem := by
  rw [inside_large_start hplace, Stays, ← Blocks.dropLast_load]
  refine or_congr_right (or_congr_right (and_congr_right fun hy => ?_))
  exact alive_iff hy hle hfirst hlater _

section Agreement

variable {z x : NatAt} (y : Word) (mem : Nat → Nat → Word)

theorem addVWlarge_same (hplace : Placed z x) :
    SameOutcome z x (addVWlarge z x y mem) (addVWLoop z x y mem) :=
  (vwLargeLoopAt_passed u64Add_zero hplace _ 0 y 0 _ (Nat.min_le_right _ _)
    fun _ => rfl).sameOutcome (vwLoopAt_passed hplace _ 0 y 0 _)

theorem subVWlarge_same (hplace : Placed z x) :
    SameOutcome z x (subVWlarge z x y mem) (subVWLoop z x y mem) :=
  (vwLargeLoopAt_passed u64Sub_zero hplace _ 0 y 0 _ (Nat.min_le_right _ _)
    fun _ => rfl).sameOutcome (vwLoopAt_passed hplace _ 0 y 0 _)

theorem addVWlarge_inside_iff (hplace : Placed z x) :
    Inside z x (addVWlarge z x y mem).2 ↔ AddStays z x y mem :=
  inside_large_stays hplace u64Add_carry_le (fun w => u64Add_carry_iff w y 0 (by decide))
    fun w => u64Add_carry_iff w 1 1 (by decide)

theorem subVWlarge_inside_iff (hplace : Placed z x) :
    Inside z x (subVWlarge z x y mem).2 ↔ SubStays z x y mem :=
  inside_large_stays hplace u64Sub_borrow_le (fun w => u64Sub_borrow_iff w y 0 (by decide))
    fun w => u64Sub_borrow_iff w 1 1 (by decide)

/-- **When the fast paths agree with the plain loops and stay within the vectors.**  What they
compute is always right. -/
theorem vwLarge_agrees_iff (hplace : Placed z x) :
    (SameOutcome z x (addVWlarge z x y mem) (addVWLoop z x y mem) ∧
        Inside z x (addVWlarge z x y mem).2 ↔ AddStays z x y mem) ∧
    (SameOutcome z x (subVWlarge z x y mem) (subVWLoop z x y mem) ∧
        Inside z x (subVWlarge z x y mem).2 ↔ SubStays z x y mem) ∧
    SameOutcome z x (addVWlarge z x y mem) (addVWLoop z x y mem) ∧
    SameOutcome z x (subVWlarge z x y mem) (subVWLoop z x y mem) := by
  have hadd := addVWlarge_same y mem hplace
  have hsub := subVWlarge_same y mem hplace
  refine ⟨?_, ?_, hadd, hsub⟩
  · rw [and_iff_right hadd]
    exact addVWlarge_inside_iff y mem hplace
  · rw [and_iff_right hsub]
    exact subVWlarge_inside_iff y mem hplace

end Agreement

/-- 33 words, one more than the plain loop is used for. -/
def longAt (b : Nat) : NatAt := ⟨⟨b, 0⟩, 33⟩

/-- A carry that runs through all words is never copied away. -/
theorem vwLarge_agrees_iff_allOnes :
    AddStays (longAt 0) (longAt 1) 1 (fun _ _ => -1) ∧
      SameOutcome (longAt 0) (longAt 1) (addVWlarge (longAt 0) (longAt 1) 1 fun _ _ => -1)
        (addVWLoop (longAt 0) (longAt 1) 1 fun _ _ => -1) ∧
      Inside (longAt 0) (longAt 1) (addVWlarge (longAt 0) (longAt 1) 1 fun _ _ => -1).2 := by
  have hstays : AddStays (longAt 0) (longAt 1) 1 (fun _ _ => -1) := by decide
  exact ⟨hstays, (vwLarge_agrees_iff 1 (fun _ _ => -1) (by decide)).1.mpr hstays⟩

/-- The carry dies in the first of 33 words, and the copy goes one word behind the ends: from a
vector in another block, and in place. -/
theorem copy_behind_the_end :
    (Placed (longAt 0) (longAt 1) ∧
      ¬ Inside (longAt 0) (longAt 1) (addVWlarge (longAt 0) (longAt 1) 1 fun _ _ => 0).2 ∧
      ¬ Inside (longAt 0) (longAt 1) (subVWlarge (longAt 0) (longAt 1) 1 fun _ _ => 5).2) ∧
    Placed (longAt 0) ⟨⟨0, 0⟩, 40⟩ ∧
      ¬ Inside (longAt 0) ⟨⟨0, 0⟩, 40⟩ (addVWlarge (longAt 0) ⟨⟨0, 0⟩, 40⟩ 1 fun _ _ => 0).2 := by
  decide

/-! ## 5. The vectors of the other modules -/

/-- `addVW` and `subVW` in memory. -/
def vwAt (op : Word → Word → Word → Word × Word) (z x : NatAt) (y : Word)
    (mem : Nat → Nat → Word) : Word × Blocks Word :=
  if 32 < z.len then vwLargeLoopAt op z x (common z x) 0 y 0 (.start mem)
  else vwLoopAt op z x (common z x) 0 y 0 (.start mem)

/-- Two vectors with their room: `zr` and `xr` words are there from the pointers to the ends of the
blocks. -/
structure InBlocks (z x : NatAt) (zr xr : Nat) : Prop where
  placed : Placed z x
  zLen : z.len ≤ zr
  xLen : x.len ≤ xr
  room : z.data = x.data → zr = xr

section Vectors

variable {op : Word → Word → Word → Word × Word} {z x : NatAt} {zr xr : Nat}

/-- The run `l` on the words to the ends of the blocks is the run `r` in memory: it returns if the
latter stays in the blocks, with its word and its words at `z`. -/
def SameRun (z x : NatAt) (zr xr i : Nat) (l : Run (Word × List Word)) (r : Word × Blocks Word) :
    Prop :=
  ∀ a, l = .ok a ↔
    Inside ⟨z.data, zr⟩ ⟨x.data, xr⟩ r.2 ∧ a = (r.1, r.2.load (z.data.plus i) (zr - i))

/-- Nothing more to do. -/
theorem sameRun_ok {i : Nat} {s : Blocks Word} (hs : Inside ⟨z.data, zr⟩ ⟨x.data, xr⟩ s)
    (c : Word) : SameRun z x zr xr i (.ok (c, s.load (z.data.plus i) (zr - i))) (c, s) := by
  intro a
  constructor
  · intro h
    exact ⟨hs, (Except.ok.inj h).symm⟩
  · rintro ⟨-, rfl⟩
    rfl

/-- A vector, to the end of its block, has the words before that end. -/
theorem has_upTo {p : Ptr} {l i : Nat} : (⟨p, l⟩ : NatAt).Has (p.plus i) ↔ i < l := by
  constructor
  · rintro ⟨-, -, hlt⟩
    exact Nat.lt_of_add_lt_add_left hlt
  · intro h
    exact ⟨rfl, Nat.le_add_right _ _, Nat.add_lt_add_left h _⟩

/-- What the words at `z` and at `x` are. -/
theorem InBlocks.has_iff (h : InBlocks z x zr xr) (i : Nat) :
    ((⟨z.data, zr⟩ : NatAt).Has (z.data.plus i) ∨ (⟨x.data, xr⟩ : NatAt).Has (z.data.plus i) ↔
        i < zr) ∧
      ((⟨z.data, zr⟩ : NatAt).Has (x.data.plus i) ∨ (⟨x.data, xr⟩ : NatAt).Has (x.data.plus i) ↔
        i < xr) := by
  rcases h.placed with hne | ⟨heq, -⟩
  · exact ⟨(or_iff_left fun hx => hne hx.1).trans has_upTo,
      (or_iff_right fun hz => hne hz.1.symm).trans has_upTo⟩
  · rw [heq, h.room heq, or_self, has_upTo]
    exact ⟨.rfl, .rfl⟩

/-- **The copy.** -/
theorem InBlocks.copy_sameRun (h : InBlocks z x zr xr) {i : Nat} {s : Blocks Word}
    (hs : Inside ⟨z.data, zr⟩ ⟨x.data, xr⟩ s) (hx : 0 < x.len) :
    SameRun z x zr xr i
      (do
        let z ← memcpy (s.load (z.data.plus i) (zr - i)) (s.load (x.data.plus i) (xr - i)) x.len
        .ok (0, z))
      (0, s.copy (z.data.plus i) (x.data.plus i) x.len) := by
  have hinside : Inside ⟨z.data, zr⟩ ⟨x.data, xr⟩
      (s.copy (z.data.plus i) (x.data.plus i) x.len) ↔ x.len ≤ zr - i ∧ x.len ≤ xr - i := by
    rw [inside_copy_iff, and_iff_left hs, and_comm]
    simp only [Ptr.plus_plus, h.has_iff]
    constructor
    · rintro ⟨hz, hx'⟩
      have := hz (x.len - 1) (by omega)
      have := hx' (x.len - 1) (by omega)
      omega
    · rintro ⟨hz, hx'⟩
      exact ⟨fun k hk => by omega, fun k hk => by omega⟩
  intro a
  rw [memcpy, Blocks.length_load, Blocks.length_load, hinside]
  split
  · next hfit =>
    rw [Run.ok_bind, and_iff_right hfit, Blocks.take_load s _ hfit.2,
      Blocks.load_copy_all s _ _ hfit.1, Except.ok.injEq]
    exact eq_comm
  · next hfit =>
    rw [Run.error_bind]
    exact iff_of_false (by simp) fun hand => hfit hand.1

/-- What a round writes at `z` does not come up again. -/
theorem load_behind_round (i k : Nat) (c oc : Word) (s : Blocks Word) :
    (roundAt op z x i c oc s).2.load (z.data.plus (i + 1)) k = s.load (z.data.plus (i + 1)) k := by
  refine Blocks.load_congr fun j hj _ => Blocks.write_elsewhere _ _ _ (.inr ?_)
  simp only [Ptr.plus] at hj ⊢
  omega

/-- **A round**, and then the rest, `loop`. -/
theorem InBlocks.round_sameRun (h : InBlocks z x zr xr) {i n : Nat} {c oc : Word}
    {s : Blocks Word} (hs : Inside ⟨z.data, zr⟩ ⟨x.data, xr⟩ s) (hi : i < common z x)
    (loop : List Word → List Word → Word → Run (Word × List Word)) {r : Word × Blocks Word}
    (hpassed : Passed op z x n (i + 1) (roundAt op z x i c oc s).1 (roundAt op z x i c oc s).1
      (roundAt op z x i c oc s).2 r)
    (hrest : Inside ⟨z.data, zr⟩ ⟨x.data, xr⟩ (roundAt op z x i c oc s).2 →
      SameRun z x zr xr (i + 1)
        (loop ((roundAt op z x i c oc s).2.load (z.data.plus (i + 1)) (zr - (i + 1)))
          ((roundAt op z x i c oc s).2.load (x.data.plus (i + 1)) (xr - (i + 1)))
          (roundAt op z x i c oc s).1) r) :
    ∃ zi zs xi xs, s.load (z.data.plus i) (zr - i) = zi :: zs ∧
      s.load (x.data.plus i) (xr - i) = xi :: xs ∧
      SameRun z x zr xr i
        (do
          let (c', z) ← loop zs xs (op xi c oc).2
          .ok (c', (op xi c oc).1 :: z)) r := by
  have hiz : i < zr := (hi.trans_le (Nat.min_le_left _ _)).trans_le h.zLen
  have hix : i < xr := (hi.trans_le (Nat.min_le_right _ _)).trans_le h.xLen
  have hround : Inside ⟨z.data, zr⟩ ⟨x.data, xr⟩ (roundAt op z x i c oc s).2 ↔ _ :=
    inside_roundAt (z := ⟨z.data, zr⟩) (x := ⟨x.data, xr⟩) (lt_min hiz hix) c oc s
  have hz := s.load_succ (z.data.plus i) (zr - (i + 1))
  have hx := s.load_succ (x.data.plus i) (xr - (i + 1))
  rw [Ptr.plus_plus, show zr - (i + 1) + 1 = zr - i by omega] at hz
  rw [Ptr.plus_plus, show xr - (i + 1) + 1 = xr - i by omega] at hx
  refine ⟨_, _, _, _, hz, hx, fun a => ?_⟩
  have hrun := hrest (hround.mpr hs)
  rw [load_behind_round, load_roundAt op h.placed] at hrun
  -- the word that this round wrote stays
  have hhead := hpassed.before z.data.block (z.data.index + i) (.inr (by omega))
  have hmem : (roundAt op z x i c oc s).2.mem z.data.block (z.data.index + i) =
      (op (s.mem x.data.block (x.data.index + i)) c oc).1 := Blocks.mem_write _ (z.data.plus i) _
  have hload := r.2.load_succ (z.data.plus i) (zr - (i + 1))
  rw [Ptr.plus_plus, show zr - (i + 1) + 1 = zr - i by omega,
    show r.2.mem (z.data.plus i).block (z.data.plus i).index = _ from hhead.trans hmem] at hload
  rw [hload]
  constructor
  · intro hok
    obtain ⟨b, hb, hok⟩ := Run.bind_eq_ok_iff.mp hok
    obtain ⟨hin, rfl⟩ := (hrun b).mp hb
    exact ⟨hin, (Except.ok.inj hok).symm⟩
  · rintro ⟨hin, rfl⟩
    exact Run.bind_of_eq ((hrun _).mpr ⟨hin, rfl⟩) rfl

/-- The plain loop. -/
theorem vwLoop_sameRun (h : InBlocks z x zr xr) :
    ∀ (n i : Nat) (c oc : Word) (s : Blocks Word), i + n = common z x →
      Inside ⟨z.data, zr⟩ ⟨x.data, xr⟩ s →
      SameRun z x zr xr i
        (vwLoop op n (s.load (z.data.plus i) (zr - i)) (s.load (x.data.plus i) (xr - i)) c oc)
        (vwLoopAt op z x n i c oc s) := by
  intro n
  induction n with
  | zero => exact fun i c oc s _ hs => sameRun_ok hs c
  | succ n ih =>
    intro i c oc s hn hs
    obtain ⟨zi, zs, xi, xs, hz, hx, hrun⟩ := h.round_sameRun hs (by omega)
      (fun zs xs c => vwLoop op n zs xs c c) (vwLoopAt_passed h.placed n (i + 1) _ _ _)
      (ih (i + 1) _ _ _ (by omega))
    rw [hz, hx]
    exact hrun

/-- The loop with the copy. -/
theorem vwLargeLoop_sameRun (hop : ∀ w, op w 0 0 = (w, 0)) (h : InBlocks z x zr xr) :
    ∀ (n i : Nat) (c oc : Word) (s : Blocks Word), i + n = common z x →
      Inside ⟨z.data, zr⟩ ⟨x.data, xr⟩ s →
      SameRun z x zr xr i
        (vwLargeLoop op x.len n (s.load (z.data.plus i) (zr - i)) (s.load (x.data.plus i) (xr - i))
          c oc)
        (vwLargeLoopAt op z x n i c oc s) := by
  intro n
  induction n with
  | zero => exact fun i c oc s _ hs => sameRun_ok hs c
  | succ n ih =>
    intro i c oc s hn hs
    have hnx : i + (n + 1) ≤ x.len := hn.le.trans (Nat.min_le_right _ _)
    by_cases hc : c = 0
    · subst hc
      rw [vwLargeLoop.eq_def, vwLargeLoopAt]
      exact h.copy_sameRun hs (by omega)
    · obtain ⟨zi, zs, xi, xs, hz, hx, hrun⟩ := h.round_sameRun hs (by omega)
        (fun zs xs c => vwLargeLoop op x.len n zs xs c c)
        (vwLargeLoopAt_passed hop h.placed n (i + 1) _ _ _ (by omega) fun h0 => h0)
        (ih (i + 1) _ _ _ (by omega))
      rw [hz, hx, vwLargeLoop, if_neg hc, vwLargeLoopAt, if_neg hc]
      exact hrun

/-- **The lists are the memory.**  On the words from the pointers to the ends of the blocks, `vw`
returns exactly if no word behind these ends is touched in memory, and returns the word and leaves
the words that memory has then. -/
theorem vw_sameRun (hop : ∀ w, op w 0 0 = (w, 0)) (h : InBlocks z x zr xr) (zc xc : Nat) (y : Word)
    (mem : Nat → Nat → Word) (a : Word × List Word) :
    vw op ⟨(Blocks.start mem).load z.data zr, z.len, zc⟩
        ⟨(Blocks.start mem).load x.data xr, x.len, xc⟩ y = .ok a ↔
      Inside ⟨z.data, zr⟩ ⟨x.data, xr⟩ (vwAt op z x y mem).2 ∧
        a = ((vwAt op z x y mem).1, (vwAt op z x y mem).2.load z.data zr) := by
  have hstart : Inside ⟨z.data, zr⟩ ⟨x.data, xr⟩ (.start mem) :=
    fun p hp => absurd hp List.not_mem_nil
  rw [vw, vwAt]
  split
  · exact vwLargeLoop_sameRun hop h _ 0 y 0 _ (Nat.zero_add _) hstart a
  · exact vwLoop_sameRun h _ 0 y 0 _ (Nat.zero_add _) hstart a

end Vectors

/-- In place on 33 words whose carry dies in the first: the copy needs 34, so with no more the run
stops. -/
theorem vw_sameRun_inPlace :
    (∃ a, vw u64Add ⟨List.replicate 34 0, 33, 34⟩ ⟨List.replicate 34 0, 33, 34⟩ 1 = .ok a) ∧
      ¬ ∃ a, vw u64Add ⟨List.replicate 33 0, 33, 33⟩ ⟨List.replicate 33 0, 33, 33⟩ 1 = .ok a := by
  have hplaced : Placed (longAt 0) (longAt 0) := by decide
  constructor
  · have h : InBlocks (longAt 0) (longAt 0) 34 34 := ⟨hplaced, by decide, by decide, fun _ => rfl⟩
    exact ⟨_, (vw_sameRun u64Add_zero h 34 34 1 (fun _ _ => 0) _).mpr ⟨by decide, rfl⟩⟩
  · have h : InBlocks (longAt 0) (longAt 0) 33 33 := ⟨hplaced, by decide, by decide, fun _ => rfl⟩
    rintro ⟨a, ha⟩
    have hinside := ((vw_sameRun u64Add_zero h 33 33 1 (fun _ _ => 0) a).mp ha).1
    exact absurd hinside (by decide)

end CDemo.BigInt
