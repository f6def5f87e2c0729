/-
# The heap as a ledger

Blocks have numbers, and no number is given out twice.  A block that is freed while it is not
allocated stops the run.

`Owns h owned lost` is the account of a component that has its share of the heap: the allocated
blocks are the ones it still has pointers to and the ones it has lost, each of them once.  The rules
say what an allocation, a release and a pointer that is dropped do to the account; a release of an
owned block always returns.
-/
import CDemo.Lib.Run
import Mathlib.Data.List.Perm.Basic

namespace CDemo

/-- The blocks that are allocated, and the number of the next one. -/
structure Ledger where
  live : List Nat
  next : Nat
  deriving DecidableEq, Repr

namespace Ledger

/-- An allocation that succeeds. -/
def alloc (h : Ledger) : Nat × Ledger := (h.next, ⟨h.next :: h.live, h.next + 1⟩)

/-- `free`, of a pointer that is not null. -/
def free (h : Ledger) (b : Nat) : Run Ledger :=
  if b ∈ h.live then .ok { h with live := h.live.erase b } else .error .outOfBounds

/-- An access to a block. -/
def touch (h : Ledger) (b : Nat) : Run Unit := if b ∈ h.live then .ok () else .error .outOfBounds

def freeAll (h : Ledger) : List Nat → Run Ledger
  | [] => .ok h
  | b :: bs => do
    let h ← h.free b
    h.freeAll bs

/-- **The account**: what is allocated is owned or lost, and counted once. -/
structure Owns (h : Ledger) (owned lost : List Nat) : Prop where
  perm : h.live.Perm (owned ++ lost)
  nodup : h.live.Nodup
  fresh : ∀ b ∈ h.live, b < h.next

variable {h : Ledger} {owned owned' lost : List Nat} {b : Nat}

theorem Owns.congr (hown : h.Owns owned lost) (hperm : owned.Perm owned') : h.Owns owned' lost :=
  ⟨hown.perm.trans (hperm.append_right lost), hown.nodup, hown.fresh⟩

/-- A new block is owned. -/
theorem Owns.alloc (hown : h.Owns owned lost) : h.alloc.2.Owns (h.next :: owned) lost where
  perm := hown.perm.cons h.next
  nodup := List.nodup_cons.mpr ⟨fun hmem => Nat.lt_irrefl _ (hown.fresh _ hmem), hown.nodup⟩
  fresh := by
    intro b hmem
    rcases List.mem_cons.mp hmem with rfl | hmem
    · exact Nat.lt_succ_self _
    · exact Nat.lt_succ_of_lt (hown.fresh b hmem)

/-- **An owned block can be accessed.** -/
theorem Owns.touch (hown : h.Owns owned lost) (hb : b ∈ owned) : h.touch b = .ok () :=
  if_pos (hown.perm.mem_iff.mpr (List.mem_append_left lost hb))

/-- **An owned block can be released.** -/
theorem Owns.free (hown : h.Owns (b :: owned) lost) :
    ∃ h', h.free b = .ok h' ∧ h'.Owns owned lost := by
  have hmem : b ∈ h.live := hown.perm.mem_iff.mpr (List.mem_cons_self ..)
  refine ⟨_, if_pos hmem, ?_, hown.nodup.erase b, ?_⟩
  · have hperm := hown.perm.erase b
    rw [List.cons_append, List.erase_cons_head] at hperm
    exact hperm
  · intro c hc
    exact hown.fresh c (List.mem_of_mem_erase hc)

/-- A block that is not allocated cannot be released. -/
theorem free_error (hb : b ∉ h.live) : h.free b = .error .outOfBounds := if_neg hb

theorem mem_of_free {h' : Ledger} {c : Nat} (hfree : h.free c = .ok h') (hb : b ∈ h'.live) :
    b ∈ h.live := by
  rw [Ledger.free] at hfree
  split at hfree
  · rw [← Except.ok.inj hfree] at hb
    exact List.mem_of_mem_erase hb
  · exact absurd hfree nofun

/-- What was released is gone. -/
theorem Owns.not_mem_of_free (hown : h.Owns owned lost) {h' : Ledger} (hfree : h.free b = .ok h') :
    b ∉ h'.live := by
  rw [Ledger.free] at hfree
  split at hfree
  · rw [← Except.ok.inj hfree]
    exact hown.nodup.not_mem_erase
  · exact absurd hfree nofun

/-- Any number of owned blocks. -/
theorem Owns.freeAll (bs : List Nat) : ∀ {h : Ledger}, h.Owns (bs ++ owned) lost →
    ∃ h', h.freeAll bs = .ok h' ∧ h'.Owns owned lost := by
  induction bs with
  | nil =>
    intro h hown
    exact ⟨h, rfl, hown⟩
  | cons b bs ih =>
    intro h hown
    obtain ⟨h₁, hfree, hown₁⟩ := hown.free
    obtain ⟨h₂, hrest, hown₂⟩ := ih hown₁
    refine ⟨h₂, ?_, hown₂⟩
    rw [Ledger.freeAll, hfree]
    exact hrest

/-- A pointer is dropped. -/
theorem Owns.lose (bs : List Nat) (hown : h.Owns (bs ++ owned) lost) :
    h.Owns owned (bs ++ lost) := by
  refine ⟨hown.perm.trans ?_, hown.nodup, hown.fresh⟩
  rw [List.append_assoc]
  exact List.perm_append_comm_assoc bs owned lost

/-- The number of blocks that are allocated. -/
theorem Owns.length (hown : h.Owns owned lost) : h.live.length = owned.length + lost.length :=
  hown.perm.length_eq.trans List.length_append

theorem Owns.nodup_owned (hown : h.Owns owned lost) : owned.Nodup :=
  (List.nodup_append.mp (hown.perm.nodup_iff.mp hown.nodup)).1

/-- **Owners of several blocks each**: replacing what one of them has. -/
theorem flatMap_set_perm {α : Type} (f : α → List Nat) (y : α) : ∀ {l : List α} {j : Nat} {x : α},
    l[j]? = some x → ((l.set j y).flatMap f ++ f x).Perm (f y ++ l.flatMap f)
  | a :: l, 0, x, hx => by
    obtain rfl := Option.some.inj hx
    rw [List.set_cons_zero, List.flatMap_cons, List.flatMap_cons, List.append_assoc]
    exact List.Perm.append_left (f y) List.perm_append_comm
  | a :: l, j + 1, x, hx => by
    have ih := flatMap_set_perm f y (l := l) (j := j) hx
    rw [List.set_cons_succ, List.flatMap_cons, List.flatMap_cons, List.append_assoc]
    exact (ih.append_left (f a)).trans (List.perm_append_comm_assoc (f a) (f y) (l.flatMap f))

end Ledger

end CDemo
