/-
# A flat memory

Cells with addresses, read and written in runs of neighbouring cells.  What is stored is what is
loaded from the same place, and a run of cells that a store does not touch keeps its contents.
-/
import Mathlib.Data.List.Basic

namespace CDemo.Memory

variable {α : Type}

/-- The `n` cells from address `a` on. -/
def load (mem : Nat → α) (a n : Nat) : List α := (List.range n).map fun i => mem (a + i)

/-- The memory after `ws` was written from address `a` on. -/
def store (mem : Nat → α) (a : Nat) (ws : List α) : Nat → α :=
  fun i => if a ≤ i then (ws[i - a]?).getD (mem i) else mem i

@[simp] theorem length_load (mem : Nat → α) (a n : Nat) : (load mem a n).length = n := by
  simp [load]

theorem load_congr {mem mem' : Nat → α} {a n : Nat}
    (h : ∀ i, a ≤ i → i < a + n → mem' i = mem i) : load mem' a n = load mem a n := by
  refine List.map_congr_left fun i hi => h (a + i) (Nat.le_add_right a i) ?_
  exact Nat.add_lt_add_left (List.mem_range.mp hi) a

/-- **Frame**: outside the cells written nothing changes. -/
theorem store_outside {mem : Nat → α} {a i : Nat} {ws : List α}
    (h : i < a ∨ a + ws.length ≤ i) : store mem a ws i = mem i := by
  rw [store]
  split
  · next hle =>
    rw [List.getElem?_eq_none (by omega), Option.getD_none]
  · rfl

/-- **What is stored is loaded.** -/
theorem load_store_same (mem : Nat → α) (a : Nat) (ws : List α) :
    load (store mem a ws) a ws.length = ws := by
  refine List.ext_getElem (length_load _ _ _) fun i hi hi' => ?_
  simp [load, store, List.getElem?_eq_getElem hi']

/-- Apart from the cells written, a run of cells is loaded as before. -/
theorem load_store_apart {mem : Nat → α} {a n b : Nat} {ws : List α}
    (h : a + n ≤ b ∨ b + ws.length ≤ a) : load (store mem b ws) a n = load mem a n := by
  refine load_congr fun i hai hin => store_outside ?_
  omega

end CDemo.Memory
