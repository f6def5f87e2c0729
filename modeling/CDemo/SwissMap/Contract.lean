/-
# What every state of a table is like

`Inv` was made for the proofs.  This file spells out what it says of a table that a history of
calls has led to, in the terms of `swissmap.h`: the capacity, the sentinel, the copies, the
counter, the keys and their searches.

It also says what can stop a call.  The `assert`s of `getSlotIndex`, of `findIndex` and of `find`
hold, and no index a search computes lies outside the arrays: a call that does not return has
asked for more memory than there can be, or its search does not end (`findAdd_fails`).  An
index `m_cap` in place of a slot would show as an access outside `m_slot`.
-/
import CDemo.SwissMap.Refine

namespace CDemo.SwissMap

variable {K V : Type} [DecidableEq K] {h : Host K} {m : CSwissMap K V} {f : K → Option V}

/-! ## 1. What can stop a call -/

/-- No memory, or a search that does not end. -/
def Stuck (e : Fault) : Prop := e = .noReturn ∨ e = .noMemory

/-- A search only stops by not ending. -/
theorem probe_fails (hm : Inv h m) {key : K} :
    ∀ rounds u : Nat,
      Run.FailsOnly (probe m key (H2 (saltedHash h m key)) rounds (probeGroup h m key u)) Stuck
  | 0, _ => .error (.inl rfl)
  | rounds + 1, u => by
    rcases probe_round hm key (Inv.probeGroup_le (h := h) m key u) rounds with
      ⟨i, v, -, hr⟩ | ⟨-, ⟨j, -, -, -, hr⟩ | ⟨-, hr⟩⟩
    · rw [hr]
      exact .ok
    · rw [hr]
      exact .ok
    · rw [hr, probeGroup, groupIndex_succ]
      exact probe_fails hm rounds (u + 1)

theorem findIndex_fails (hm : Inv h m) (rounds : Nat) (key : K) :
    Run.FailsOnly (findIndex h rounds m key) Stuck := by
  rw [findIndex, ← hm.probeGroup_zero]
  exact .bind (probe_fails hm rounds 0) fun _ _ => .ok

omit [DecidableEq K] in
theorem init_fails (n : Nat) (m : CSwissMap K V) : Run.FailsOnly (init h n m) Stuck := by
  rw [init]
  split
  · exact .error (.inr rfl)
  · rw [Run.write_eq_ok (by simp [kWidth]), Run.ok_bind]
    exact .ok

/-- What the loop of `rehash` needs of `find`. -/
def FindFails (h : Host K) (find : K → CSwissMap K V → Run (Nat × CSwissMap K V)) : Prop :=
  ∀ m f key, Holds h m f → Run.FailsOnly (find key m) Stuck

theorem reinsert_fails {find : K → CSwissMap K V → Run (Nat × CSwissMap K V)}
    (hfind : FindsSlot h find) (hfails : FindFails h find) :
    ∀ {l : List (Ctrl × Slot K V)} {m : CSwissMap K V} {f : K → Option V},
      (∀ cs ∈ l, 0 ≤ cs.1 → ∃ k v, cs.2 = ⟨some k, some v⟩) → Holds h m f →
      Run.FailsOnly (reinsert find l m) Stuck
  | [], _, _, _, _ => .ok
  | (c, s) :: l, m, f, hl, hf => by
    have hrest : ∀ cs ∈ l, 0 ≤ cs.1 → ∃ k v, cs.2 = ⟨some k, some v⟩ :=
      fun cs hcs => hl cs (List.mem_cons_of_mem _ hcs)
    rw [reinsert]
    split
    · next hnn =>
      obtain ⟨k, v, hs⟩ := hl (c, s) List.mem_cons_self hnn
      have hs' : s = ⟨some k, some v⟩ := hs
      subst hs'
      rw [Run.object_some, Run.ok_bind]
      refine .bind (hfails m f k hf) ?_
      rintro ⟨x, m₁⟩ hx
      obtain ⟨m₂, hm₂, hadd⟩ := hfind m f k x m₁ hf hx v
      simp only [Run.object_some, Run.ok_bind, hm₂]
      exact reinsert_fails hfind hfails hrest hadd.holds
    · exact reinsert_fails hfind hfails hrest hf

/-- **What can stop `find`**, in the calls that `rehash` makes of it too. -/
theorem findAdd_fails : ∀ rounds : Nat, FindFails (V := V) h (findAdd h rounds)
  | 0 => fun _ _ _ _ => .error (.inl rfl)
  | rounds + 1 => by
    intro m f key hf
    cases hfi : findIndex h (rounds + 1) m key with
    | error e =>
      rw [findAdd, hfi, Run.error_bind]
      exact .error (findIndex_fails hf.inv _ key e hfi)
    | ok r =>
      rcases findAdd_cases hf.inv hfi with ⟨-, -, heq⟩ | ⟨-, -, i, m₂, -, -, -, heq, -⟩ |
        ⟨-, h0, heq⟩
      · rw [heq]
        exact .ok
      · rw [heq]
        exact .ok
      · rw [heq, rehash]
        refine .bind (.bind (init_fails _ m) fun m' hinit => ?_) fun m₂ hre => ?_
        · exact reinsert_fails (findAdd_ok rounds) (findAdd_fails rounds)
            (fun cs hcs hnn => entry_of_live hf.inv (List.mem_of_mem_take hcs) hnn)
            (init_grown hf h0 hinit).1
        · exact findAdd_fails rounds m₂ _ key (rehash_ok (findAdd_ok rounds) hf h0 hre).1

/-! ## 2. Every state -/

/-- **The representation of a table.**  After every history of calls that returned: the capacity
is `2^k - 1`, the sentinel stands behind the control bytes of the slots, the copies of the first
fifteen behind that, and `kEmpty` bytes in the rest; `m_num` counts the live bytes; the live slots
have different keys, the byte of each is `H2` of its key's hash, and the search for the key gets
to it with no empty byte on the way; and no call of `find` stops at an `assert` or outside an
array. -/
theorem representation {salt : BitVec 64} {m₀ m : CSwissMap K V} {history : List (Call K V)}
    (hnew : new h salt = .ok m₀) (htr : Trace (CallStep h) m₀ history m) :
    (∃ k, m.cap = 2 ^ k - 1) ∧
    m.ctrl.length = m.cap + 16 ∧ m.slot.length = m.cap ∧
    m.ctrl[m.cap]? = some kSentinel ∧
    (∀ i, i < min 15 m.cap → m.ctrl[m.cap + 1 + i]? = m.ctrl[i]?) ∧
    (∀ p, m.cap + 1 + min 15 m.cap ≤ p → p < m.cap + 16 → m.ctrl[p]? = some kEmpty) ∧
    m.num = countBytes (fun c => 0 ≤ c) m.ctrl m.cap ∧
    (∀ i, i < m.cap → 0 ≤ byteAt m.ctrl i → ∃ k v, m.slot[i]? = some ⟨some k, some v⟩ ∧
      m.ctrl[i]? = some (H2 (saltedHash h m k)) ∧
      ∃ t, Covers m.cap (probeGroup h m k t) i ∧ ∀ u, u < t → NoEmpty m (probeGroup h m k u)) ∧
    (∀ i j k v w, Live m i k v → Live m j k w → i = j) ∧
    (∀ rounds key, Run.FailsOnly (findAdd h rounds key m) Stuck) := by
  obtain ⟨f, hf⟩ := trace_inv hnew htr
  have hm := hf.inv
  have hbyte : ∀ {p}, p < m.cap + 16 → m.ctrl[p]? = some (byteAt m.ctrl p) := fun hp =>
    getElem?_eq_byteAt (by rw [hm.shape.length_eq]; exact hp)
  refine ⟨hm.cap_eq, hm.shape.length_eq, hm.length_slot, ?_, ?_, ?_, hm.num_eq, ?_, hm.inj,
    fun rounds key => findAdd_fails rounds m f key hf⟩
  · rw [hbyte (by omega), hm.shape.sentinel]
  · intro i hi
    rw [hbyte (by omega), hbyte (by omega), hm.shape.clone i (by simp only [kWidth]; omega),
      if_pos (by omega)]
  · intro p hp hlt
    obtain ⟨i, rfl⟩ : ∃ i, p = m.cap + 1 + i := ⟨p - (m.cap + 1), by omega⟩
    rw [hbyte hlt, hm.shape.clone i (by simp only [kWidth]; omega), if_neg (by omega)]
  · intro i hi hnn
    obtain ⟨k, v, hs, hc, hr⟩ := hm.live i hi hnn
    exact ⟨k, v, hs, by rw [hbyte (by omega), hc], hr⟩

/-- Two keys across two `rehash`es: the second one has found its place in a table of three. -/
theorem representation_twoKeys :
    ∃ m₀ m : CSwissMap Nat Nat, new natHost 5 = .ok m₀ ∧
      Trace (CallStep natHost) m₀ [.insert 2 (.obj 20), .insert 1 (.obj 10)] m ∧ m.cap = 3 ∧
      m.num = countBytes (fun c => 0 ≤ c) m.ctrl m.cap ∧
      ∀ rounds key, Run.FailsOnly (findAdd natHost rounds key m) Stuck := by
  have hrun : (new natHost 5 >>= fun m₀ => runCalls natHost 9 0
      [.insert 1 (.obj 10), .insert 2 (.obj 20)] m₀ >>= fun m => .ok m.cap) =
      (.ok 3 : Run Nat) := by
    decide
  obtain ⟨m₀, hnew, hrun⟩ := Run.bind_eq_ok_iff.mp hrun
  obtain ⟨m, hcalls, hcap⟩ := Run.bind_eq_ok_iff.mp hrun
  have htr := trace_of_runCalls .start hcalls
  obtain ⟨-, -, -, -, -, -, hnum, -, -, hfails⟩ := representation hnew htr
  exact ⟨m₀, m, hnew, htr, Except.ok.inj hcap, hnum, hfails⟩

end CDemo.SwissMap
