/-
# Blocks of memory, with a record of what is touched

Memory as a C program may use it.  Storage comes in blocks that have nothing to do with each
other, a pointer is a block and an index in it, and moving a pointer never leads into another
block.  Nothing here stops a program from leaving the part of a block that it owns; instead every
cell that is read or written is recorded, so that one can say afterwards what was touched.
-/
import CDemo.Lib.Memory
import Mathlib.Logic.Function.Basic
import Mathlib.Tactic.Common

namespace CDemo

/-- A pointer. -/
structure Ptr where
  block : Nat
  index : Nat
  deriving DecidableEq, Repr

/-- `p + i`. -/
def Ptr.plus (p : Ptr) (i : Nat) : Ptr := ⟨p.block, p.index + i⟩

theorem Ptr.plus_zero (p : Ptr) : p.plus 0 = p := rfl

theorem Ptr.plus_plus (p : Ptr) (i j : Nat) : (p.plus i).plus j = p.plus (i + j) := by
  rw [plus, plus, plus, Nat.add_assoc]

/-- The blocks, and the cells touched so far. -/
structure Blocks (α : Type) where
  mem : Nat → Nat → α
  touched : List Ptr

namespace Blocks

variable {α : Type}

/-- Nothing has been touched yet. -/
def start (mem : Nat → Nat → α) : Blocks α := ⟨mem, []⟩

/-- The `n` cells from `p` on. -/
def load (s : Blocks α) (p : Ptr) (n : Nat) : List α := Memory.load (s.mem p.block) p.index n

/-- `*p`. -/
def read (s : Blocks α) (p : Ptr) : α × Blocks α :=
  (s.mem p.block p.index, { s with touched := p :: s.touched })

/-- The memory with `ws` from `p` on. -/
def put (s : Blocks α) (p : Ptr) (ws : List α) : Nat → Nat → α :=
  Function.update s.mem p.block (Memory.store (s.mem p.block) p.index ws)

/-- `*p = a`. -/
def write (s : Blocks α) (p : Ptr) (a : α) : Blocks α := ⟨s.put p [a], p :: s.touched⟩

/-- `memcpy(dst, src, n)`: all cells are read before one is written. -/
def copy (s : Blocks α) (dst src : Ptr) (n : Nat) : Blocks α :=
  ⟨s.put dst (s.load src n),
    (List.range n).map src.plus ++ (List.range n).map dst.plus ++ s.touched⟩

@[simp] theorem length_load (s : Blocks α) (p : Ptr) (n : Nat) : (s.load p n).length = n :=
  Memory.length_load _ _ _

theorem load_succ (s : Blocks α) (p : Ptr) (n : Nat) :
    s.load p (n + 1) = s.mem p.block p.index :: s.load (p.plus 1) n := by
  rw [load, load, Memory.load, Memory.load, List.range_succ_eq_map, List.map_cons, List.map_map]
  refine congrArg _ (List.map_congr_left fun i _ => ?_)
  rw [Function.comp_apply, Ptr.plus, Nat.succ_eq_add_one, Nat.add_assoc, Nat.add_comm 1 i]

theorem take_load (s : Blocks α) (p : Ptr) {n m : Nat} (h : n ≤ m) :
    (s.load p m).take n = s.load p n := by
  rw [load, load, Memory.load, Memory.load, ← List.map_take, List.take_range, Nat.min_eq_left h]

theorem dropLast_load (s : Blocks α) (p : Ptr) (n : Nat) :
    (s.load p n).dropLast = s.load p (n - 1) := by
  rw [List.dropLast_eq_take, length_load, take_load s p (Nat.sub_le n 1)]

theorem load_congr {s s' : Blocks α} {p : Ptr} {n : Nat}
    (h : ∀ j, p.index ≤ j → j < p.index + n → s'.mem p.block j = s.mem p.block j) :
    s'.load p n = s.load p n :=
  Memory.load_congr h

/-- **Frame**: outside the cells written nothing changes. -/
theorem put_outside (s : Blocks α) (p : Ptr) (ws : List α) {b j : Nat}
    (h : b ≠ p.block ∨ j < p.index ∨ p.index + ws.length ≤ j) : s.put p ws b j = s.mem b j := by
  rw [put]
  by_cases hb : b = p.block
  · rw [hb, Function.update_self]
    exact Memory.store_outside (h.resolve_left (not_not_intro hb))
  · rw [Function.update_of_ne hb]

/-- What is put is loaded. -/
theorem load_put (s : Blocks α) (p : Ptr) (ws : List α) (t : List Ptr) :
    (⟨s.put p ws, t⟩ : Blocks α).load p ws.length = ws := by
  rw [load, put]
  dsimp only
  rw [Function.update_self]
  exact Memory.load_store_same _ _ _

theorem mem_write (s : Blocks α) (p : Ptr) (a : α) : (s.write p a).mem p.block p.index = a :=
  (List.cons.inj (load_put s p [a] (p :: s.touched))).1

theorem write_elsewhere (s : Blocks α) (p : Ptr) (a : α) {b j : Nat}
    (h : b ≠ p.block ∨ j ≠ p.index) : (s.write p a).mem b j = s.mem b j := by
  refine put_outside s p [a] (h.imp_right fun hj => ?_)
  rw [List.length_singleton]
  omega

theorem load_copy (s : Blocks α) (dst src : Ptr) {n m : Nat} (h : m ≤ n) :
    (s.copy dst src n).load dst m = s.load src m := by
  have hput := load_put s dst (s.load src n) (s.copy dst src n).touched
  rw [length_load] at hput
  rw [← take_load s src h, ← hput, ← take_load _ dst h]
  rfl

/-- The cells behind those that were copied stay. -/
theorem load_copy_all (s : Blocks α) (dst src : Ptr) {n m : Nat} (h : n ≤ m) :
    (s.copy dst src n).load dst m = s.load src n ++ (s.load dst m).drop n := by
  obtain ⟨k, rfl⟩ := Nat.exists_eq_add_of_le h
  have hsplit : ∀ t : Blocks α, t.load dst (n + k) = t.load dst n ++ t.load (dst.plus n) k := by
    intro t
    rw [load, load, load, Memory.load, Memory.load, Memory.load, List.range_add, List.map_append,
      List.map_map]
    refine congrArg _ (List.map_congr_left fun i _ => ?_)
    rw [Function.comp_apply, Ptr.plus, Nat.add_assoc]
  have hbehind : (s.copy dst src n).load (dst.plus n) k = s.load (dst.plus n) k := by
    refine load_congr fun j hj _ => put_outside s dst _ (.inr (.inr ?_))
    rw [length_load]
    exact hj
  rw [hsplit, hsplit s, load_copy s dst src (Nat.le_refl n), hbehind,
    List.drop_left' (length_load s dst n)]

end Blocks

end CDemo
