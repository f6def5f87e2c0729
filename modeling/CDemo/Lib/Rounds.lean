/-
# Rounds

A loop that goes over its members again and again, in order, and drops members on the way makes a
list of passes: each pass increases, and whoever comes in a later pass was in the one before.
Read as one sequence such passes are fair: between two turns of one member everybody who has
another turn to come has had one.
-/
import Mathlib.Order.Defs.LinearOrder
import Mathlib.Order.Lattice
import Mathlib.Data.List.Basic

namespace CDemo

variable {α : Type}

/-- Passes in increasing order, each within the one before. -/
inductive Rounds [LinearOrder α] : List (List α) → Prop where
  | nil : Rounds []
  | cons {pass : List α} {later : List (List α)} : pass.Pairwise (· < ·) →
      (∀ x ∈ later.flatten, x ∈ pass) → Rounds later → Rounds (pass :: later)

namespace Rounds

variable [LinearOrder α] {passes : List (List α)} {i j : α}

/-- In an increasing list, who is greater than a member comes after it. -/
theorem mem_after {l m : List α} (h : (l ++ j :: m).Pairwise (· < ·)) (hi : i ∈ l ++ j :: m)
    (hlt : j < i) : i ∈ m := by
  rcases List.mem_append.mp hi with hl | hm
  · exact absurd ((List.pairwise_append.mp h).2.2 i hl j List.mem_cons_self) (lt_asymm hlt)
  · exact (List.mem_cons.mp hm).resolve_left (ne_of_gt hlt)

/-- Who is smaller comes before it. -/
theorem mem_before {l m : List α} (h : (l ++ j :: m).Pairwise (· < ·)) (hi : i ∈ l ++ j :: m)
    (hlt : i < j) : i ∈ l := by
  rcases List.mem_append.mp hi with hl | hm
  · exact hl
  · rcases List.mem_cons.mp hm with rfl | hm
    · exact absurd hlt (lt_irrefl _)
    · exact absurd (List.rel_of_pairwise_cons (List.pairwise_append.mp h).2.1 hm) (lt_asymm hlt)

/-- A smaller member with a turn to come has had one before. -/
theorem mem_of_lt (h : Rounds passes) :
    ∀ {l m : List α}, passes.flatten = l ++ j :: m → i ∈ m → i < j → i ∈ l := by
  induction h with
  | nil => intro l m hsplit; exact absurd hsplit (by simp)
  | @cons pass later hsorted hwithin _ ih =>
    intro l m hsplit hi hlt
    rw [List.flatten_cons] at hsplit
    rcases List.append_eq_append_iff.mp hsplit with ⟨b, rfl, hrest⟩ | ⟨c, rfl, hrest⟩
    · -- the turn of `j` is in a later pass
      refine List.mem_append_left _ (hwithin i ?_)
      rw [hrest]
      exact List.mem_append_right _ (List.mem_cons_of_mem _ hi)
    · cases c with
      | nil =>
        rw [List.append_nil] at hwithin
        refine hwithin i ?_
        rw [← List.nil_append later.flatten, ← hrest]
        exact List.mem_cons_of_mem _ hi
      | cons j' c =>
        obtain ⟨rfl, rfl⟩ := List.cons.inj hrest
        rcases List.mem_append.mp hi with hc | hlater
        · exact mem_before hsorted (List.mem_append_right _ (List.mem_cons_of_mem _ hc)) hlt
        · exact mem_before hsorted (hwithin i hlater) hlt

/-- **Rounds are fair.** -/
theorem fair (h : Rounds passes) :
    ∀ {l m n : List α}, passes.flatten = l ++ j :: (m ++ j :: n) → i ∈ n → i ≠ j → i ∈ m := by
  induction h with
  | nil => intro l m n hsplit; exact absurd hsplit (by simp)
  | @cons pass later hsorted hwithin hlater ih =>
    intro l m n hsplit hi hne
    rw [List.flatten_cons] at hsplit
    rcases List.append_eq_append_iff.mp hsplit with ⟨b, rfl, hrest⟩ | ⟨c, rfl, hrest⟩
    · exact ih hrest hi hne
    · cases c with
      | nil =>
        exact ih (l := []) hrest.symm hi hne
      | cons j' c =>
        obtain ⟨rfl, hturn⟩ := List.cons.inj hrest
        -- the second turn is in a later pass
        obtain ⟨b, rfl, hb⟩ : ∃ b, m = c ++ b ∧ later.flatten = b ++ j :: n := by
          rcases List.append_eq_append_iff.mp hturn with ⟨d, rfl, hd⟩ | ⟨b, hm, hb⟩
          · cases d with
            | nil => exact ⟨[], by simp, hd.symm⟩
            | cons j' d =>
              obtain ⟨rfl, -⟩ := List.cons.inj hd
              have hj : j ∈ m ++ j :: d := List.mem_append_right _ List.mem_cons_self
              exact absurd (List.rel_of_pairwise_cons (List.pairwise_append.mp hsorted).2.1 hj)
                (lt_irrefl j)
          · exact ⟨b, hm, hb⟩
        rcases lt_or_gt_of_ne hne with hlt | hgt
        · exact List.mem_append_right _ (hlater.mem_of_lt hb hi hlt)
        · refine List.mem_append_left _ (mem_after hsorted (hwithin i ?_) hgt)
          rw [hb]
          exact List.mem_append_right _ (List.mem_cons_of_mem _ hi)

end Rounds

end CDemo
