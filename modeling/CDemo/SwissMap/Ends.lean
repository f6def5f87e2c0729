/-
# When every search ends

The loop of `findIndex` has no bound of its own: a search for a key that is not there ends at
the first empty byte.  A table of fewer than fifteen slots has empty bytes behind its copies for
good.  In a larger one they can run out.  `erase` marks its slot as deleted, never as empty, and
gives the slot back to `m_growthInfo`; `find` stores a new key in the empty slot at which the
search gave up, never in a deleted one it passed.  So an `insert` of a new key and an `erase` of
it leave the counters as they were and the table with one empty byte less, until there is none
and every search for an absent key goes round for ever (`endless_search`).

An insert is harmless when the key is there already, when the table is small, when it grows --
the new table has no deleted byte and is not full -- or when a second byte is empty.
`searches_end` says that in every run whose inserts are all of one of these kinds every search
of every state ends.
-/
import CDemo.SwissMap.Refine

namespace CDemo.SwissMap

variable {K V : Type} [DecidableEq K]

/-! ## 1. Calls that leave an empty byte -/

/-- The call does not use up the last empty byte of a large table. -/
def Spares (m : CSwissMap K V) : Call K V → Prop
  | .insert key _ => Present m key ∨ m.growthInfo = 0 ∨ m.cap < 15 ∨ 2 ≤ emptyCount m
  | .erase _ => True
  | .index _ => True

/-- A call that returns and leaves an empty byte. -/
def SparingStep (h : Host K) (m : CSwissMap K V) (c : Call K V) (m' : CSwissMap K V) : Prop :=
  Spares m c ∧ CallStep h m c m'

/-- What ends every search. -/
def Roomy (m : CSwissMap K V) : Prop := m.cap < 15 ∨ HasEmpty m

variable {h : Host K} {m m' : CSwissMap K V} {f : K → Option V}

omit [DecidableEq K] in
theorem Clean.roomy (hc : Clean m) (hm : Inv h m) : Roomy m := by
  rcases Nat.lt_or_ge m.cap 15 with hlt | hge
  · exact .inl hlt
  · exact .inr (hc.hasEmpty hm hge)

theorem Added.roomy {key : K} {v : V} {a : Arg K V} (hadd : Added h m f key v m') (hr : Roomy m)
    (hs : Spares m (.insert key a)) : Roomy m' := by
  by_cases hp : Present m key
  · obtain ⟨hcap, hctrl⟩ := hadd.kept hp
    rw [Roomy, HasEmpty, hcap, hctrl]
    exact hr
  · rcases Nat.eq_zero_or_pos m.growthInfo with h0 | hpos
    · exact (hadd.rebuilt hp h0).roomy hadd.holds.inv
    · obtain ⟨hcap, hcount⟩ := hadd.stored hp hpos
      rcases hs with hs | hs | hs | hs
      · exact absurd hs hp
      · omega
      · exact .inl (by rw [hcap]; exact hs)
      · exact .inr (hasEmpty_of_emptyCount (by omega))

/-- `erase` leaves the empty bytes alone: the byte it changes was not empty. -/
theorem erase_roomy (hf : Holds h m f) (hr : Roomy m) {rounds : Nat} {key : K} {b : Bool}
    (hok : erase h rounds m key = .ok (b, m')) : Roomy m' := by
  rcases erase_cases hf hok with ⟨i, v, hl, -, rfl⟩ | ⟨-, -, rfl⟩
  · rcases hr with hlt | ⟨j, hj, hempty⟩
    · exact .inl hlt
    · refine .inr ⟨j, hj, ?_⟩
      rw [byteAt_edit hf.inv hl.1 hj.le, if_neg]
      · exact hempty
      · rintro rfl
        exact absurd (hempty ▸ hl.2.1) (by decide)
  · exact hr

/-- **One call.** -/
theorem sparingStep_roomy {c : Call K V} (hf : Holds h m f) (hr : Roomy m)
    (hstep : SparingStep h m c m') : Roomy m' := by
  obtain ⟨hs, hstep⟩ := hstep
  cases hstep with
  | insert href hok =>
    obtain ⟨v, hadd, -⟩ := insert_ok hf href hok
    exact hadd.roomy hr hs
  | erase hok => exact erase_roomy hf hr hok
  | index hok => exact hr

/-- **Every search ends** in every state of a run whose calls leave an empty byte. -/
theorem searches_end {salt : BitVec 64} {m₀ m : CSwissMap K V} {history : List (Call K V)}
    (hnew : new h salt = .ok m₀) (htr : Trace (SparingStep h) m₀ history m) :
    ∀ key, ProbeEnds h m key := by
  obtain ⟨hf₀, hc₀⟩ := new_ok hnew
  have hstep : ∀ (t : CSwissMap K V) (c : Call K V) u, (∃ f, Holds h t f) ∧ Roomy t →
      SparingStep h t c u → (∃ f, Holds h u f) ∧ Roomy u :=
    fun _ _ _ ⟨⟨_, hf⟩, hr⟩ hst => ⟨callStep_inv hf hst.2, sparingStep_roomy hf hr hst⟩
  obtain ⟨⟨f, hf⟩, hroomy⟩ := Trace.invariant ⟨⟨_, hf₀⟩, hc₀.roomy hf₀.inv⟩ hstep htr
  intro key
  exact (probeEnds_iff hf.inv).mpr (.inr hroomy)

/-- An insert into a new table makes it grow, and the key is found again. -/
theorem searches_end_oneKey :
    ∃ m₀ m : CSwissMap Nat Nat, new natHost 5 = .ok m₀ ∧
      Trace (SparingStep natHost) m₀ [.insert 1 (.obj 10)] m ∧ ProbeEnds natHost m 2 := by
  have hrun : (new natHost 5 >>= fun m₀ => insert natHost 9 m₀ 1 (.caller 10) 0 >>= fun m =>
      .ok (m₀.growthInfo, m.num)) = (.ok (0, 1) : Run (Nat × Nat)) := by decide
  obtain ⟨m₀, hnew, hrun⟩ := Run.bind_eq_ok_iff.mp hrun
  obtain ⟨m, hins, hnum⟩ := Run.bind_eq_ok_iff.mp hrun
  have hgrow : m₀.growthInfo = 0 := by simpa using (Prod.mk.inj (Except.ok.inj hnum)).1
  have htr : Trace (SparingStep natHost) m₀ [.insert 1 (.obj 10)] m :=
    .call .start ⟨.inr (.inl hgrow), .insert .obj hins⟩
  exact ⟨m₀, m, hnew, htr, searches_end hnew htr 2⟩

/-! ## 2. A search that never ends -/

/-- The table after six keys were inserted and a seventh one inserted and erased `n` times. -/
def churned (n : Nat) : CSwissMap Nat Nat :=
  let bytes := [0, 1, 2, 3, 4, 5] ++ List.replicate n kDeleted ++ List.replicate (9 - n) kEmpty
  { ctrlAddr := 0
    ctrl := bytes ++ kSentinel :: bytes
    slot := (List.range 6).map (fun k => ⟨some k, some k⟩) ++ List.replicate 9 ⟨none, none⟩
    cap := 15
    num := 6
    growthInfo := 3
    salt := 0
    allocs := 5 }

/-- The history that leads there. -/
def churnHistory : Nat → List (Call Nat Nat)
  | 0 => ((List.range 6).map fun k => .insert k (.obj k)).reverse
  | n + 1 => .erase 6 :: .insert 6 (.obj 6) :: churnHistory n

/-- Six inserts lead to a table of fifteen slots. -/
theorem runCalls_six :
    (new natHost 0 >>= runCalls natHost 9 0 ((List.range 6).map fun k => .insert k (.obj k))) =
      .ok (churned 0) := by
  decide

/-- Inserting the seventh key and erasing it costs an empty byte. -/
theorem runCalls_churn (n : Fin 9) :
    runCalls natHost 1 0 [.insert 6 (.obj 6), .erase 6] (churned n) = .ok (churned (n + 1)) := by
  revert n
  decide

theorem trace_churned {m₀ : CSwissMap Nat Nat} (hnew : new natHost 0 = .ok m₀) :
    ∀ n, n ≤ 9 → Trace (CallStep natHost) m₀ (churnHistory n) (churned n)
  | 0, _ => by
    have hsix := runCalls_six
    rw [hnew, Run.ok_bind] at hsix
    exact trace_of_runCalls .start hsix
  | n + 1, hn => by
    have ih := trace_churned hnew n (by omega)
    exact trace_of_runCalls ih (runCalls_churn ⟨n, by omega⟩)

/-- **A search that never ends.**  After nine rounds of `insert(6, 6); erase(6)` the table of
fifteen slots holds six keys and nine deleted bytes, and looking up key 7 does not return. -/
theorem endless_search :
    ∃ m₀ m : CSwissMap Nat Nat, new natHost 0 = .ok m₀ ∧
      Trace (CallStep natHost) m₀ (churnHistory 9) m ∧ ¬ ProbeEnds natHost m 7 := by
  obtain ⟨m₀, hnew, -⟩ := Run.bind_eq_ok_iff.mp runCalls_six
  have htr := trace_churned hnew 9 le_rfl
  obtain ⟨f, hf⟩ := trace_inv hnew htr
  refine ⟨m₀, churned 9, hnew, htr, ?_⟩
  rw [probeEnds_iff hf.inv]
  rintro (⟨i, v, hl⟩ | hsmall | ⟨i, hi, hempty⟩)
  · have hother : ∀ s ∈ (churned 9).slot, s.k ≠ some 7 := by decide
    exact absurd rfl (hother _ (List.mem_of_getElem? hl.2.2))
  · exact absurd hsmall (by decide)
  · have hnone : ∀ j : Fin 15, byteAt (churned 9).ctrl j ≠ kEmpty := by decide
    exact hnone ⟨i, hi⟩ hempty

end CDemo.SwissMap
