/-
# Numbers as lists of words

A natural number is kept as 64-bit words, the lowest first.  `value` reads such a list; it is
Mathlib's `Nat.ofDigits` in base `radix = 2^64`.  The lemmas say how a value splits when the
list is cut, how large it can be, and that lists without a zero word at the top (`Normal`) are
told apart, measured and ordered by their values.
-/
import Mathlib.Data.Nat.Digits.Defs
import Mathlib.Data.Nat.Digits.Lemmas
import Mathlib.Tactic.Ring
import Mathlib.Tactic.LinearCombination
import Mathlib.Tactic.Linarith

namespace CDemo

/-- A machine word. -/
abbrev Word := BitVec 64

/-- `2^64`. -/
def radix : Nat := 2 ^ 64

theorem radix_pos : 0 < radix := by decide

theorem radix_eq_double : radix = 2 * 2 ^ 63 := rfl

theorem one_lt_radix : 1 < radix := by decide

theorem radix_pow_pos (n : Nat) : 0 < radix ^ n := Nat.pow_pos radix_pos

theorem toNat_lt_radix (w : Word) : w.toNat < radix := w.isLt

@[simp] theorem word_zero : (0 : Word).toNat = 0 := rfl

@[simp] theorem word_one : (1 : Word).toNat = 1 := rfl

/-- The number a list of words stands for, the lowest word first. -/
def value (ws : List Word) : Nat := Nat.ofDigits radix (ws.map BitVec.toNat)

/-! ## 1. Cutting a list -/

@[simp] theorem value_nil : value [] = 0 := rfl

@[simp] theorem value_cons (w : Word) (ws : List Word) :
    value (w :: ws) = w.toNat + radix * value ws := rfl

theorem value_append (xs ys : List Word) :
    value (xs ++ ys) = value xs + radix ^ xs.length * value ys := by
  rw [value, List.map_append, Nat.ofDigits_append, List.length_map]
  rfl

@[simp] theorem value_replicate_zero (n : Nat) : value (List.replicate n 0) = 0 := by
  rw [value, List.map_replicate]
  exact Nat.ofDigits_replicate_zero

theorem value_lt (ws : List Word) : value ws < radix ^ ws.length := by
  have h := Nat.ofDigits_lt_base_pow_length (l := ws.map BitVec.toNat) one_lt_radix (by
    intro x hx
    obtain ⟨w, -, rfl⟩ := List.mem_map.mp hx
    exact toNat_lt_radix w)
  rw [List.length_map] at h
  exact h

/-- The low `n` words and the rest. -/
theorem value_take_add_drop (ws : List Word) {n : Nat} (hn : n ≤ ws.length) :
    value (ws.take n) + radix ^ n * value (ws.drop n) = value ws := by
  have h := value_append (ws.take n) (ws.drop n)
  rw [List.take_append_drop, List.length_take, Nat.min_eq_left hn] at h
  exact h.symm

theorem value_take_add (ws : List Word) {n k : Nat} (hn : n ≤ ws.length) :
    value (ws.take (n + k)) = value (ws.take n) + radix ^ n * value ((ws.drop n).take k) := by
  rw [List.take_add, value_append, List.length_take, Nat.min_eq_left hn]

theorem value_take_lt (ws : List Word) {n : Nat} : value (ws.take n) < radix ^ n :=
  (value_lt _).trans_le (Nat.pow_le_pow_right radix_pos (List.length_take_le n ws))

theorem value_take (ws : List Word) {n : Nat} (hn : n ≤ ws.length) :
    value (ws.take n) = value ws % radix ^ n := by
  rw [← value_take_add_drop ws hn, Nat.add_mul_mod_self_left, Nat.mod_eq_of_lt (value_take_lt ws)]

theorem value_drop (ws : List Word) {n : Nat} (hn : n ≤ ws.length) :
    value (ws.drop n) = value ws / radix ^ n := by
  rw [← value_take_add_drop ws hn, Nat.add_mul_div_left _ _ (radix_pow_pos n),
    Nat.div_eq_of_lt (value_take_lt ws), Nat.zero_add]

/-- One more word. -/
theorem value_take_succ {ws : List Word} {n : Nat} (hn : n < ws.length) :
    value (ws.take (n + 1)) = value (ws.take n) + radix ^ n * ws[n].toNat := by
  rw [List.take_succ_eq_append_getElem hn, value_append, List.length_take,
    Nat.min_eq_left hn.le, value_cons, value_nil, Nat.mul_zero, Nat.add_zero]

/-- Two lists of one length with the same value are the same list. -/
theorem value_inj : ∀ {xs ys : List Word}, xs.length = ys.length → value xs = value ys → xs = ys
  | [], [], _, _ => rfl
  | [], _ :: _, hl, _ => by simp at hl
  | _ :: _, [], hl, _ => by simp at hl
  | x :: xs, y :: ys, hl, hv => by
    rw [value_cons, value_cons] at hv
    have hx : x.toNat = y.toNat := by
      have hmod := congrArg (· % radix) hv
      simp only [Nat.add_mul_mod_self_left, Nat.mod_eq_of_lt (toNat_lt_radix _)] at hmod
      exact hmod
    have hxs : value xs = value ys :=
      Nat.eq_of_mul_eq_mul_left radix_pos (Nat.add_left_cancel (hx ▸ hv))
    rw [BitVec.eq_of_toNat_eq hx, value_inj (Nat.succ.inj hl) hxs]

/-! ## 2. Lists without a zero word at the top -/

/-- The top word, if there is one, is not zero. -/
def Normal (ws : List Word) : Prop := ∀ h : ws ≠ [], ws.getLast h ≠ 0

instance (ws : List Word) : Decidable (Normal ws) :=
  if h : ws = [] then isTrue fun hne => absurd h hne
  else decidable_of_iff (ws.getLast h ≠ 0) ⟨fun hl _ => hl, fun hn => hn h⟩

theorem normal_nil : Normal [] := fun h => absurd rfl h

/-- How many words a number takes. -/
def wordLen (v : Nat) : Nat := (Nat.digits radix v).length

theorem wordLen_zero : wordLen 0 = 0 := by simp [wordLen]

theorem digits_value {ws : List Word} (hn : Normal ws) :
    Nat.digits radix (value ws) = ws.map BitVec.toNat := by
  refine Nat.digits_ofDigits radix one_lt_radix _ ?_ ?_
  · intro x hx
    obtain ⟨w, -, rfl⟩ := List.mem_map.mp hx
    exact toNat_lt_radix w
  · intro hne
    rw [List.getLast_map]
    intro h0
    exact hn (by simpa using hne) (BitVec.eq_of_toNat_eq (by simpa using h0))

/-- **A normal list is as long as its value takes.** -/
theorem Normal.length_eq {ws : List Word} (hn : Normal ws) : ws.length = wordLen (value ws) := by
  rw [wordLen, digits_value hn, List.length_map]

/-- **Normal lists are told apart by their values.** -/
theorem Normal.eq_of_value {xs ys : List Word} (hx : Normal xs) (hy : Normal ys)
    (h : value xs = value ys) : xs = ys :=
  value_inj (by rw [hx.length_eq, hy.length_eq, h]) h

theorem wordLen_le_iff {v n : Nat} : wordLen v ≤ n ↔ v < radix ^ n :=
  Nat.digits_length_le_iff one_lt_radix v

theorem lt_wordLen_iff {v n : Nat} : n < wordLen v ↔ radix ^ n ≤ v :=
  Nat.lt_digits_length_iff one_lt_radix v

theorem lt_radix_pow_wordLen (v : Nat) : v < radix ^ wordLen v := wordLen_le_iff.mp le_rfl

theorem Normal.eq_nil_iff {ws : List Word} (hn : Normal ws) : ws = [] ↔ value ws = 0 := by
  constructor
  · rintro rfl
    rfl
  · intro h
    exact hn.eq_of_value normal_nil h

theorem wordLen_mono {a b : Nat} (h : a ≤ b) : wordLen a ≤ wordLen b :=
  wordLen_le_iff.mpr (h.trans_lt (lt_radix_pow_wordLen b))

/-- A longer normal list is larger. -/
theorem Normal.value_lt_of_length {xs ys : List Word} (hy : Normal ys)
    (h : xs.length < ys.length) : value xs < value ys := by
  rw [hy.length_eq, lt_wordLen_iff] at h
  exact (value_lt xs).trans_le h

end CDemo
