/-
# Little-endian bytes

The bytes of a natural number, lowest first, and back.  `leBytes k v` is what `memcpy` copies
out of a `k`-byte unsigned integer on a little-endian machine; it keeps `v` modulo `256 ^ k`.
-/
import Mathlib.Tactic.Ring

namespace CDemo

/-- The `k` low bytes of `v`, lowest first. -/
def leBytes : Nat → Nat → List UInt8
  | 0, _ => []
  | k + 1, v => UInt8.ofNat v :: leBytes k (v / 256)

/-- The number whose bytes, lowest first, are given. -/
def ofLE : List UInt8 → Nat
  | [] => 0
  | b :: bs => b.toNat + 256 * ofLE bs

@[simp] theorem length_leBytes : ∀ k v, (leBytes k v).length = k
  | 0, _ => rfl
  | k + 1, v => by simp [leBytes, length_leBytes k]

/-- **Round trip**, up to the width. -/
theorem ofLE_leBytes : ∀ k v, ofLE (leBytes k v) = v % 256 ^ k
  | 0, v => by simp [leBytes, ofLE, Nat.mod_one]
  | k + 1, v => by
    simp only [leBytes, ofLE, ofLE_leBytes k]
    rw [Nat.pow_succ', Nat.mod_mul]
    simp

theorem ofLE_leBytes_of_lt {k v : Nat} (h : v < 256 ^ k) : ofLE (leBytes k v) = v := by
  rw [ofLE_leBytes, Nat.mod_eq_of_lt h]

theorem ofLE_lt : ∀ bs : List UInt8, ofLE bs < 256 ^ bs.length
  | [] => by simp [ofLE]
  | b :: bs => by
    have h := ofLE_lt bs
    have hb := b.toNat_lt
    simp only [ofLE, List.length_cons, Nat.pow_succ']
    omega

end CDemo
