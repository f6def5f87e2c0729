/-
# Numerals of a fixed width

A number written with a fixed count of digits, the highest first, with zeros in front where it is
short and without its highest digits where it is long.  Such numerals are cut where one likes: the
digits in front are a numeral of the quotient.  Without the zeros in front what remains are
Mathlib's `Nat.digits`, read from the top.
-/
import Mathlib.Data.Nat.Digits.Defs
import Mathlib.Data.Nat.Digits.Lemmas

namespace CDemo

/-- The last `n` digits of `v` in base `b`, the highest first. -/
def numeral (b : Nat) : Nat → Nat → List Nat
  | 0, _ => []
  | n + 1, v => numeral b n (v / b) ++ [v % b]

variable {b : Nat}

@[simp] theorem length_numeral (b : Nat) : ∀ n v : Nat, (numeral b n v).length = n
  | 0, _ => rfl
  | n + 1, v => by rw [numeral, List.length_append, length_numeral b n]; rfl

/-- **A numeral is cut where one likes.** -/
theorem numeral_append (b m : Nat) :
    ∀ n v : Nat, numeral b (m + n) v = numeral b m (v / b ^ n) ++ numeral b n v
  | 0, v => by rw [numeral, pow_zero, Nat.div_one, List.append_nil, Nat.add_zero]
  | n + 1, v => by
    rw [← Nat.add_assoc, numeral, numeral_append b m n (v / b), Nat.div_div_eq_div_mul, ← pow_succ',
      numeral, List.append_assoc]

/-- The digits beyond the width do not matter. -/
theorem numeral_mod : ∀ {n m : Nat} (v : Nat), n ≤ m →
    numeral b n (v % b ^ m) = numeral b n v
  | 0, _, _, _ => rfl
  | n + 1, 0, _, h => absurd h (by omega)
  | n + 1, m + 1, v, h => by
    have hlow : v % b ^ (m + 1) % b = v % b := Nat.mod_mod_of_dvd _ (Dvd.intro_left _ rfl)
    have hhigh : v % b ^ (m + 1) / b = v / b % b ^ m := by
      rw [pow_succ', Nat.mod_mul_right_div_self]
    rw [numeral, hlow, hhigh, numeral_mod (v / b) (Nat.le_of_succ_le_succ h), numeral]

theorem numeral_zero (b : Nat) : ∀ n : Nat, numeral b n 0 = List.replicate n 0
  | 0 => rfl
  | n + 1 => by rw [numeral, Nat.zero_div, Nat.zero_mod, numeral_zero b n, List.replicate_succ']

/-- A number that is short has zeros in front. -/
theorem numeral_pad {n k v : Nat} (h : v < b ^ n) :
    numeral b (k + n) v = List.replicate k 0 ++ numeral b n v := by
  rw [numeral_append, Nat.div_eq_of_lt h, numeral_zero]

/-- **A numeral that is just wide enough** has the digits of the number. -/
theorem numeral_digits (hb : 1 < b) (v : Nat) :
    numeral b (Nat.digits b v).length v = (Nat.digits b v).reverse := by
  induction v using Nat.strong_induction_on with
  | _ v ih =>
    rcases Nat.eq_zero_or_pos v with rfl | hpos
    · simp [numeral]
    · rw [Nat.digits_def' hb hpos, List.length_cons, numeral, ih _ (Nat.div_lt_self hpos hb),
        List.reverse_cons]

theorem numeral_eq (hb : 1 < b) {n v : Nat} (h : (Nat.digits b v).length ≤ n) :
    numeral b n v =
      List.replicate (n - (Nat.digits b v).length) 0 ++ (Nat.digits b v).reverse := by
  rw [← numeral_digits hb, ← numeral_pad ((Nat.digits_length_le_iff hb v).mp le_rfl),
    Nat.sub_add_cancel h]

end CDemo
