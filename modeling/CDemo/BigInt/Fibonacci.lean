/-
# The program of `test.c`

`Fibonacci(n)` makes two ones, adds `n * 10000` times the last two numbers, frees the older one, and
compares the text of the last sum with a file.

A sum is exact unless a carry runs past the words that both operands have (`AddFits`), and
neighbours in this sequence differ by one word at most.  So no sum of the program goes wrong,
however long it runs, and it has two numbers at any time (`fibonacci_exact`).  What does go wrong is
a loop that makes no sum, for `n = 0` and, as `n * 10000` is a `size_t`, for a few large `n`.

The text and the file are left out.
-/
import CDemo.BigInt.Storage
import Mathlib.Data.Nat.Fib.Basic

namespace CDemo.BigInt

/-! ## 1. The program -/

/-- The loop of `Fibonacci`. -/
def fibonacciLoop : Nat → Obj → Obj → Option Obj → Ledger → Run (Obj × Obj × Option Obj × Ledger)
  | 0, a, b, sum, h => .ok (a, b, sum, h)
  | rounds + 1, a, b, _, h => do
    let (sum, h) ← bigIntAddHeap h a b
    let h ← bigIntFree h a
    fibonacciLoop rounds b sum (some sum) h

/-- `n * 10000` as a `size_t`. -/
def fibonacciRounds (n : Nat) : Nat := n * 10000 % 2 ^ 64

/-- `Fibonacci`: the number that `BigInt2String` gets, and the heap at the end. -/
def fibonacci (n : Nat) : Run (CBigInt × Ledger) := do
  let (a, h) := newObj ⟨[], 0⟩ (bigIntNewU 1)
  let (b, h) := newObj h (bigIntNewU 1)
  let (a, b, sum, h) ← fibonacciLoop (fibonacciRounds n) a b none h
  match sum with
  | none => .error .nullPointer
  | some sum => do
    let h ← bigIntFree h a
    let h ← bigIntFree h b
    .ok (sum.num, h)

/-! ## 2. One sum -/

/-- **Numbers of about one size add exactly.** -/
theorem sumFits_of_double {x y : CNat} (hx : Clean x) (hy : Clean y) (hle : x.val ≤ y.val)
    (hdouble : y.val ≤ 2 * x.val) : SumFits x y := by
  have hxlen : x.len = wordLen x.val := (CNat.length_words hx.1).symm.trans hx.2.length_eq
  have hylen : y.len = wordLen y.val := (CNat.length_words hy.1).symm.trans hy.2.length_eq
  have hmono : x.len ≤ y.len := by
    rw [hxlen, hylen]
    exact wordLen_mono hle
  have hnext : y.len ≤ x.len + 1 := by
    rw [hxlen, hylen, wordLen_le_iff, Nat.pow_succ]
    calc
      y.val ≤ 2 * x.val := hdouble
      _ ≤ radix * x.val := Nat.mul_le_mul_right _ (by decide)
      _ < radix * radix ^ wordLen x.val :=
        (Nat.mul_lt_mul_left radix_pos).mpr (lt_radix_pow_wordLen _)
      _ = radix ^ wordLen x.val * radix := Nat.mul_comm ..
  rw [SumFits]
  split
  · exact .inr (.inl hnext)
  · exact .inr (.inl (hmono.trans (Nat.le_succ _)))

/-- The number is the `k`-th of the sequence. -/
structure IsFib (k : Nat) (x : CBigInt) : Prop where
  clean : Clean x.abs
  neg : x.neg = false
  val : x.abs.val = Nat.fib k

theorem isFib_one : IsFib 1 (bigIntNewU 1) :=
  ⟨(natNew_clean_iff 1).mpr (by decide), rfl, by decide⟩

theorem isFib_two : IsFib 2 (bigIntNewU 1) :=
  ⟨(natNew_clean_iff 1).mpr (by decide), rfl, by decide⟩

theorem fib_le_double {k : Nat} (hk : 1 ≤ k) : Nat.fib (k + 1) ≤ 2 * Nat.fib k := by
  obtain ⟨k, rfl⟩ := Nat.exists_eq_succ_of_ne_zero (Nat.one_le_iff_ne_zero.mp hk)
  have hnext : Nat.fib (k + 2) = Nat.fib k + Nat.fib (k + 1) := Nat.fib_add_two
  have hmono : Nat.fib k ≤ Nat.fib (k + 1) := Nat.fib_le_fib_succ
  change Nat.fib (k + 2) ≤ 2 * Nat.fib (k + 1)
  omega

section Sum

variable {k : Nat} {a b : CBigInt}

/-- A number of the sequence is not empty. -/
theorem IsFib.len_ne_zero (ha : IsFib k a) (hk : 1 ≤ k) : a.abs.len ≠ 0 := by
  intro h0
  have hval := ha.clean.len_eq_zero_iff.mp h0
  rw [ha.val] at hval
  exact absurd hval (Nat.fib_pos.mpr hk).ne'

/-- **One sum of the sequence is exact.** -/
theorem IsFib.add (hk : 1 ≤ k) (ha : IsFib k a) (hb : IsFib (k + 1) b) :
    ∃ c, bigIntAdd a b = .ok c ∧ IsFib (k + 2) c := by
  have hfits : SumFits a.abs b.abs := by
    refine sumFits_of_double ha.clean hb.clean ?_ ?_
    · rw [ha.val, hb.val]
      exact Nat.fib_le_fib_succ
    · rw [ha.val, hb.val]
      exact fib_le_double hk
  have hexact := (signedAdd_exact_iff ha.clean.shaped hb.clean.shaped b.neg).mpr (by
    rw [if_pos (ha.neg.trans hb.neg.symm)]
    exact hfits)
  obtain ⟨c, hc, hval⟩ := hexact
  obtain ⟨hclean, hsign⟩ := signedAdd_yields (fun _ h => h) ha.clean hb.clean c hc
  have hsum : signed c.neg c.abs.val = (Nat.fib (k + 2) : Int) := by
    rw [c.signed_val, hval, ha.neg, hb.neg, ha.val, hb.val, Nat.fib_add_two]
    exact (Int.natCast_add ..).symm
  have hneg : c.neg = false := by
    cases hcn : c.neg with
    | false => rfl
    | true =>
      have hpos : 0 < Nat.fib (k + 2) := Nat.fib_pos.mpr (Nat.succ_pos _)
      rw [hcn, signed, if_pos rfl] at hsum
      omega
  refine ⟨c, hc, hclean, hneg, ?_⟩
  rw [hneg] at hsum
  exact Int.ofNat_inj.mp hsum

end Sum

/-! ## 3. The loop -/

/-- **One round**: on to the next two numbers, with the older one freed. -/
theorem fibonacciLoop_succ {k : Nat} {a b : Obj} {h : Ledger} (hk : 1 ≤ k) (ha : IsFib k a.num)
    (hb : IsFib (k + 1) b.num) (hown : h.Owns (a.blocks ++ b.blocks) []) :
    ∃ c h', (∀ rounds sum,
        fibonacciLoop (rounds + 1) a b sum h = fibonacciLoop rounds b c (some c) h') ∧
      IsFib (k + 2) c.num ∧ h'.Owns (b.blocks ++ c.blocks) [] := by
  have hadata : a.data ∈ a.blocks ++ b.blocks := by simp [Obj.blocks]
  have hbdata : b.data ∈ a.blocks ++ b.blocks := by simp [Obj.blocks]
  have hne : a.len ≠ 0 ∧ b.len ≠ 0 :=
    ⟨ha.len_ne_zero hk, hb.len_ne_zero (Nat.le_succ_of_le hk)⟩
  obtain ⟨num, hnum, hc⟩ := ha.add hk hb
  obtain ⟨c, h₁, hadd, rfl, hown₁⟩ := signedAddHeap_ok hown hadata hbdata hne hnum
  have hfirst : (c.blocks ++ (a.blocks ++ b.blocks)).Perm (a.blocks ++ (b.blocks ++ c.blocks)) :=
    List.perm_append_comm.trans (List.Perm.of_eq (List.append_assoc ..))
  obtain ⟨h₂, hfree, hown₂⟩ := bigIntFree_ok (hown₁.congr hfirst)
  exact ⟨c, h₂, fun rounds sum => Run.bind_of_eq hadd (Run.bind_of_eq hfree rfl), hc, hown₂⟩

/-- **The loop moves along the sequence and keeps two numbers.** -/
theorem fibonacciLoop_ok (rounds : Nat) : ∀ {k : Nat} {a b : Obj} {h : Ledger},
    1 ≤ k → IsFib k a.num → IsFib (k + 1) b.num → h.Owns (a.blocks ++ b.blocks) [] →
    ∃ a' b' h', fibonacciLoop rounds a b (some b) h = .ok (a', b', some b', h') ∧
      IsFib (k + rounds + 1) b'.num ∧ h'.Owns (a'.blocks ++ b'.blocks) [] := by
  induction rounds with
  | zero =>
    intro k a b h hk ha hb hown
    exact ⟨a, b, h, rfl, hb, hown⟩
  | succ rounds ih =>
    intro k a b h hk ha hb hown
    obtain ⟨c, h₁, hround, hc, hown₁⟩ := fibonacciLoop_succ hk ha hb hown
    obtain ⟨a', b', h', hloop, hb', hown'⟩ := ih (Nat.le_succ_of_le hk) hb hc hown₁
    refine ⟨a', b', h', (hround rounds _).trans hloop, ?_, hown'⟩
    rw [Nat.add_comm rounds 1, ← Nat.add_assoc]
    exact hb'

/-- **`Fibonacci` is exact and frees what it allocates**, for every number of rounds that its loop
can make: the last sum is the right number of the sequence, no block is freed twice, and none is
left.  Without a round it follows a null pointer. -/
theorem fibonacci_exact (n : Nat) :
    if fibonacciRounds n = 0 then fibonacci n = .error .nullPointer
    else ∃ q h, fibonacci n = .ok (q, h) ∧ q.val = Nat.fib (fibonacciRounds n + 2) ∧
      h.live = [] := by
  have hown : (⟨[3, 2, 1, 0], 4⟩ : Ledger).Owns [0, 1, 2, 3] [] :=
    ⟨List.reverse_perm [0, 1, 2, 3], by decide, by decide⟩
  obtain ⟨c, h₁, hround, hc, hown₁⟩ := fibonacciLoop_succ (a := ⟨0, 1, bigIntNewU 1⟩)
    (b := ⟨2, 3, bigIntNewU 1⟩) (le_refl 1) isFib_one isFib_two hown
  unfold fibonacci
  generalize fibonacciRounds n = rounds
  cases rounds with
  | zero => rfl
  | succ rounds =>
    rw [if_neg (Nat.succ_ne_zero rounds)]
    obtain ⟨a', b', h', hloop, hb', hown'⟩ :=
      fibonacciLoop_ok rounds (Nat.le_succ 1) isFib_two hc hown₁
    obtain ⟨h₂, hfree₁, hown₂⟩ := bigIntFree_ok hown'
    rw [← List.append_nil b'.blocks] at hown₂
    obtain ⟨h₃, hfree₂, hown₃⟩ := bigIntFree_ok hown₂
    refine ⟨b'.num, h₃, ?_, ?_, List.perm_nil.mp hown₃.perm⟩
    · exact Run.bind_of_eq ((hround rounds none).trans hloop)
        (Run.bind_of_eq hfree₁ (Run.bind_of_eq hfree₂ rfl))
    · rw [CBigInt.val, hb'.neg, signed, hb'.val, Nat.add_comm 2 rounds]
      rfl

end CDemo.BigInt
