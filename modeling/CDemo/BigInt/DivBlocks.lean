/-
# The blocks of the recursive division

`natDivRecursiveStep` divides a long dividend block by block from the top, `B` words of the
quotient at a time, where `B` is half the length of the divisor.  Between two blocks the words at
`z` and at `u` are a quotient and a remainder of what there was at first (`Progress`), and a block
keeps that if nothing in it runs on.  `DivFits` says so of all blocks, and of the blocks of the
blocks; then the whole division is exact.

The temporary vectors are one for each depth, and a divisor of `n` words is cut so often that
`2 Len(n)` of them are enough.
-/
import CDemo.BigInt.DivRecursive

namespace CDemo.BigInt

/-! ## 1. When every block goes well -/

/-- **Every block of a dividend `u` goes well**, from word `j` down; `inner` is what the recursive
call asks of what it divides. -/
def BlocksFit (inner : Nat → Nat → Prop) (b v : Nat) : Nat → Nat → Nat → Prop
  | 0, _, _ => True
  | fuel + 1, j, u =>
    if b < j then
      let x := u / radix ^ (j - b)
      (inner (x / radix ^ (b - 1)) (v / radix ^ (b - 1)) ∧ GuessFits (b - 1) x v) ∧
        BlocksFit inner b v fuel (j - b) (u % radix ^ (j - b) + radix ^ (j - b) * (x % v))
    else inner (u / radix ^ (b - 1)) (v / radix ^ (b - 1)) ∧ GuessFits (b - 1) u v

/-- **The recursive division of `u` by `v` goes well**: the divisor is short or longer than the
dividend, or every block goes well. -/
def DivFits : Nat → Nat → Nat → Prop
  | 0, _, _ => True
  | fuel + 1, u, v =>
    wordLen v < divRecursiveThreshold ∨ wordLen u < wordLen v ∨
      BlocksFit (DivFits fuel) (wordLen v / 2) v (wordLen u - wordLen v + 1)
        (wordLen u - wordLen v) u

instance BlocksFit.decidable (inner : Nat → Nat → Prop) [∀ u v, Decidable (inner u v)]
    (b v : Nat) : ∀ fuel j u, Decidable (BlocksFit inner b v fuel j u)
  | 0, _, _ => inferInstanceAs (Decidable True)
  | fuel + 1, j, _ =>
    have := BlocksFit.decidable inner b v fuel
    inferInstanceAs (Decidable (if b < j then _ else _))

instance DivFits.decidable : ∀ fuel u v, Decidable (DivFits fuel u v)
  | 0, _, _ => inferInstanceAs (Decidable True)
  | fuel + 1, _, _ =>
    have := DivFits.decidable fuel
    inferInstanceAs (Decidable (_ ∨ _ ∨ _))

section

variable {n s u v : Nat}

/-- The high part of a divisor has its top bit set too. -/
theorem high_part (hs : s < n) (hhigh : radix ^ n ≤ 2 * v) :
    radix ^ (n - s) ≤ 2 * (v / radix ^ s) := by
  have heven : radix ^ (n - s) = 2 * (2 ^ 63 * radix ^ (n - s - 1)) := by
    rw [← Nat.sub_add_cancel (Nat.sub_pos_of_lt hs), pow_succ, Nat.add_sub_cancel,
      radix_eq_double]
    ring
  have hsplit : radix ^ n = radix ^ (n - s) * radix ^ s := by
    rw [← pow_add, Nat.sub_add_cancel hs.le]
  rw [hsplit, heven, Nat.mul_assoc] at hhigh
  rw [heven]
  refine Nat.mul_le_mul_left 2 ((Nat.le_div_iff_mul_le (radix_pow_pos s)).mpr ?_)
  exact Nat.le_of_mul_le_mul_left hhigh (by decide)

/-- The guess is less than twice a power. -/
theorem guess_lt {b : Nat} (hb : n / 2 = b + 1) (hhigh : radix ^ n ≤ 2 * v)
    (hu : u < radix ^ (n + n / 2)) : blockGuess b u v < 2 * radix ^ (b + 1) := by
  have hbn : b < n := by omega
  have htop := high_part hbn hhigh
  have hv1 : 0 < v / radix ^ b := by have := radix_pow_pos (n - b); omega
  rw [blockGuess, Nat.div_lt_iff_lt_mul hv1]
  have hw : u / radix ^ b < radix ^ (n + 1) := by
    rw [Nat.div_lt_iff_lt_mul (radix_pow_pos b), ← pow_add]
    exact hu.trans_eq (by congr 1; omega)
  calc u / radix ^ b < radix ^ (n + 1) := hw
    _ = radix ^ (b + 1) * radix ^ (n - b) := by
        rw [← pow_add]
        congr 1
        omega
    _ ≤ radix ^ (b + 1) * (2 * (v / radix ^ b)) := Nat.mul_le_mul_left _ htop
    _ = 2 * radix ^ (b + 1) * (v / radix ^ b) := by ring

/-- So it has one word more than a block. -/
theorem wordLen_guess {b : Nat} (hb : n / 2 = b + 1) (hhigh : radix ^ n ≤ 2 * v)
    (hu : u < radix ^ (n + n / 2)) : wordLen (blockGuess b u v) ≤ b + 2 := by
  refine wordLen_le_iff.mpr ((guess_lt hb hhigh hu).trans_le ?_)
  rw [pow_succ radix (b + 1), Nat.mul_comm]
  exact Nat.mul_le_mul_left _ (by decide)

/-- **A dividend of half as many words more than the divisor is a block.** -/
theorem isBlock (hn : divRecursiveThreshold ≤ n) (hhigh : radix ^ n ≤ 2 * v) (hv : v < radix ^ n)
    (hu : u < radix ^ (n + n / 2)) : IsBlock (n / 2 - 1) n u v := by
  have hn' : 100 ≤ n := hn
  obtain ⟨b, hb⟩ : ∃ b, n / 2 = b + 1 := ⟨n / 2 - 1, by omega⟩
  have hguess := guess_lt hb hhigh hu
  have hlen := wordLen_guess hb hhigh hu
  rw [hb, Nat.add_sub_cancel]
  have hbn : b < n := by omega
  have htop := high_part hbn hhigh
  refine ⟨by omega, hbn, hhigh, hv, ?_, ?_⟩
  · have hpow : 4 * radix ^ (b + 1) ≤ radix ^ (n - b) := by
      calc 4 * radix ^ (b + 1) ≤ radix * radix ^ (b + 1) := Nat.mul_le_mul_right _ (by decide)
        _ = radix ^ (b + 2) := by rw [pow_succ radix (b + 1), Nat.mul_comm]
        _ ≤ radix ^ (n - b) := Nat.pow_le_pow_right radix_pos (by omega)
    omega
  · omega

/-- The temporary quotient has room for what the recursive call computes. -/
theorem guess_room {l : Nat} (hn : divRecursiveThreshold ≤ n) (hhigh : radix ^ n ≤ 2 * v)
    (hu : u < radix ^ (n + n / 2)) (hl : n / 2 + 1 ≤ l) :
    u / radix ^ (n / 2 - 1) < v / radix ^ (n / 2 - 1) * radix ^ l := by
  have hn' : 100 ≤ n := hn
  have htop := high_part (s := n / 2 - 1) (by omega) hhigh
  have hw : u / radix ^ (n / 2 - 1) < radix ^ (n + 1) := by
    rw [Nat.div_lt_iff_lt_mul (radix_pow_pos _), ← pow_add]
    exact hu.trans_eq (by congr 1; omega)
  refine Nat.lt_of_mul_lt_mul_left (a := 2) ?_
  calc 2 * (u / radix ^ (n / 2 - 1))
      < 2 * radix ^ (n + 1) := Nat.mul_lt_mul_of_pos_left hw (by decide)
    _ ≤ radix * radix ^ (n + 1) := Nat.mul_le_mul_right _ (by decide)
    _ = radix ^ (n - (n / 2 - 1)) * radix ^ (n / 2 + 1) := by
        rw [← pow_add, ← pow_succ']
        congr 1
        omega
    _ ≤ 2 * (v / radix ^ (n / 2 - 1)) * radix ^ l :=
        Nat.mul_le_mul htop (Nat.pow_le_pow_right radix_pos hl)
    _ = 2 * (v / radix ^ (n / 2 - 1) * radix ^ l) := Nat.mul_assoc _ _ _

end

/-! ## 2. The temporary vectors -/

/-- The blocks of the temporary vectors are as large as these say. -/
structure Temps (temps : List (Option CNat)) (num : Nat) : Prop where
  length : temps.length = num
  fits : ∀ t, some t ∈ temps → t.cap ≤ t.data.length

theorem natMake_cap {z z' : CNat} (hz : z.cap ≤ z.data.length) {n : Nat}
    (h : natMake z n = .ok z') : z'.cap ≤ z'.data.length := by
  rw [natMake] at h
  split at h
  · next hlt =>
    rw [natPart_low] at h
    rw [← Except.ok.inj h]
    exact hlt.le.trans hz
  · split at h
    · rw [← Except.ok.inj h]
      exact le_rfl
    · rw [← Except.ok.inj h]
      simp [natNewLen]

/-- **A temporary vector is long enough for a guess.** -/
theorem makeTemp_eq {temps : List (Option CNat)} {num depth n : Nat} (h : Temps temps num)
    (hd : depth < num) (hn : 4 ≤ n) :
    ∃ t, makeTemp temps depth n = .ok (t, temps.set depth (some t)) ∧ t.Valid ∧
      n / 2 + 1 ≤ t.len ∧ n / 2 + 1 < t.data.length ∧ Temps (temps.set depth (some t)) num := by
  have hlt : depth < temps.length := h.length ▸ hd
  have hset : ∀ {t : CNat}, t.cap ≤ t.data.length → Temps (temps.set depth (some t)) num := by
    intro t ht
    refine ⟨by rw [List.length_set, h.length], fun t' ht' => ?_⟩
    rcases List.mem_or_eq_of_mem_set ht' with hmem | heq
    · exact h.fits t' hmem
    · rw [Option.some.inj heq]
      exact ht
  rw [makeTemp, Run.read_eq_ok (List.getElem?_eq_getElem hlt), Run.ok_bind]
  cases ht : temps[depth] with
  | none =>
    exact ⟨natNewLen n, rfl, valid_natNewLen n, by rw [natNewLen_len]; omega,
      by rw [natNewLen_data, List.length_replicate]; omega, hset (by simp [natNewLen])⟩
  | some t0 =>
    have hcap := h.fits t0 (ht ▸ List.getElem_mem hlt)
    obtain ⟨t, hmake, hlen, hvalid, -, hspare⟩ := natMake_eq hcap (n / 2 + 1)
    exact ⟨t, Run.bind_of_eq hmake rfl, hvalid, hlen.ge, hspare (by omega),
      hset (natMake_cap hcap hmake)⟩

/-! ## 3. What a recursive call does -/

/-- What is asked of `step` at one depth, with a divisor of `n` words: it divides, it leaves the
words above the dividend and the temporary vectors of the calls around it. -/
def StepDivides (step : CNat → CNat → CNat → Nat → List (Option CNat) → Run DivState)
    (fits : Nat → Nat → Prop) (num depth n : Nat) : Prop :=
  ∀ z u v temps, z.Valid → z.val = 0 → 0 < z.len → u.len < u.data.length → u.len ≤ u.cap →
    v.Valid → v.len ≤ v.cap → v.len = n → radix ^ v.len ≤ 2 * v.val →
    u.val < v.val * radix ^ z.len → fits u.val v.val → Temps temps num →
    ∃ zd ud temps', step z u v depth temps = .ok (zd, ud, temps') ∧
      zd.length = z.data.length ∧ value (zd.take z.len) = u.val / v.val ∧
      ud.length = u.data.length ∧ ud.drop u.len = u.data.drop u.len ∧
      value (ud.take u.len) = u.val % v.val ∧
      Temps temps' num ∧ ∀ i < depth, temps'[i]? = temps[i]?

theorem natPartIn_eq {x : CNat} {lo hi : Nat} (h : lo ≤ hi) (hc : hi ≤ x.cap) :
    natPartIn x lo hi = .ok ⟨x.data.drop lo, hi - lo, hi - lo⟩ := by
  rw [natPartIn, if_pos hc]
  exact natPart_eq x h

/-- A part of a vector above which there are zeros. -/
theorem part_val {x : CNat} (hx : x.Valid) {i l : Nat} (cap : Nat) (hl : i + l ≤ x.len)
    (hlt : x.val < radix ^ (i + l)) :
    (⟨x.data.drop i, l, cap⟩ : CNat).val = x.val / radix ^ i := by
  have hsplit := (val_split hx (show i ≤ x.len by omega)).2.1
  have htake : (x.data.drop i).take l = (above x i).words.take l := by
    have hle : l ≤ (above x i).len := by simp only [above]; omega
    rw [CNat.words, List.take_take, Nat.min_eq_left hle]
    rfl
  rw [CNat.val, CNat.words]
  dsimp only
  rw [htake, value_take_of_lt]
  · exact hsplit
  · refine lt_of_eq_of_lt hsplit ((Nat.div_lt_iff_lt_mul (radix_pow_pos i)).mpr ?_)
    rw [← pow_add, Nat.add_comm]
    exact hlt

/-- Words that are zero above a vector are zero afterwards, if nothing above it changes. -/
theorem value_take_frame {d e : List Word} {l k : Nat} (hd : l ≤ d.length) (he : l ≤ e.length)
    (hlk : l ≤ k) (hdrop : e.drop l = d.drop l) (hz : value (d.take k) = value (d.take l)) :
    value (e.take k) = value (e.take l) := by
  obtain ⟨i, rfl⟩ := Nat.exists_eq_add_of_le hlk
  rw [value_take_add d hd] at hz
  rw [value_take_add e he, hdrop]
  omega

section

variable {step : CNat → CNat → CNat → Nat → List (Option CNat) → Run DivState}
  {fits : Nat → Nat → Prop} {num depth : Nat} {v uu w qhat : CNat} {temps : List (Option CNat)}

/-- **A block**: the recursive call and what follows it divide the words of `uu`. -/
theorem block_eq (hn : divRecursiveThreshold ≤ v.len) (hv : v.Valid) (hvc : v.len ≤ v.cap)
    (hhigh : radix ^ v.len ≤ 2 * v.val)
    (hstep : StepDivides step fits num (depth + 1) (v.len - (v.len / 2 - 1)))
    (hu : uu.len < uu.data.length) (huc : uu.len ≤ uu.cap) (hul : v.len ≤ uu.len)
    (hlt : uu.val < radix ^ (v.len + v.len / 2)) (hwc : w.len ≤ w.cap)
    (hwd : w.data = uu.data.drop (v.len / 2 - 1)) (hwl : v.len / 2 - 1 + w.len ≤ uu.len)
    (hwv : w.val = uu.val / radix ^ (v.len / 2 - 1)) (hq : qhat.Valid) (hq0 : qhat.val = 0)
    (hql : v.len / 2 + 1 ≤ qhat.len) (hqroom : v.len / 2 + 1 < qhat.data.length)
    (hfits : fits (uu.val / radix ^ (v.len / 2 - 1)) (v.val / radix ^ (v.len / 2 - 1)))
    (hguess : GuessFits (v.len / 2 - 1) uu.val v.val) (htemps : Temps temps num) :
    ∃ qd wd temps' q ud,
      step qhat w (above v (v.len / 2 - 1)) (depth + 1) temps = .ok (qd, wd, temps') ∧
      finishGuessIn v (v.len / 2 - 1) ⟨qd, qhat.len, qhat.cap⟩
          ⟨splice uu.data (v.len / 2 - 1) wd, uu.len, uu.cap⟩ =
        .ok (q, ⟨ud, uu.len, uu.cap⟩, 0) ∧
      q.Valid ∧ q.val = uu.val / v.val ∧
      (∀ k, 0 < k → uu.val / v.val < radix ^ k → q.len ≤ k) ∧
      ud.length = uu.data.length ∧ ud.drop uu.len = uu.data.drop uu.len ∧
      value (ud.take uu.len) = uu.val % v.val ∧
      Temps temps' num ∧ ∀ i < depth + 1, temps'[i]? = temps[i]? := by
  have hn' : 100 ≤ v.len := hn
  have hb := isBlock hn hhigh CNat.val_lt hlt
  have hroom := guess_room hn hhigh hlt hql
  have hthigh := high_part hb.lt hhigh
  have hguessLen := (wordLen_guess (b := v.len / 2 - 1) (by omega) hhigh hlt).trans_lt
    (show v.len / 2 - 1 + 2 < qhat.data.length by omega)
  generalize hs : v.len / 2 - 1 = s at *
  have hul' : uu.len ≤ uu.data.length := hu.le
  have hsv : s ≤ v.len := hb.lt.le
  have hsu : s ≤ uu.len := hsv.trans hul
  have hwvalid : w.len < w.data.length := by
    rw [hwd, List.length_drop]
    omega
  have hv1 := (val_split hv hsv).2.1
  obtain ⟨hulow, huhigh, -⟩ := val_split hul' hsu
  obtain ⟨qd, wd, temps', hrun, hqdl, hqdv, hwdl, hwdrop, hwdv, htemps', hframe⟩ :=
    hstep qhat w (above v s) temps hq hq0 (by omega) hwvalid hwc (valid_above hv s) le_rfl rfl
      (by rw [hv1]; exact hthigh) (by rw [hwv, hv1]; exact hroom) (by rw [hwv, hv1]; exact hfits)
      htemps
  rw [hwv, hv1] at hqdv hwdv
  -- the words of the dividend above those that were divided are zero
  have hwl' : w.len ≤ w.data.length := hwvalid.le
  have hrest : value (wd.take (uu.len - s)) =
      uu.val / radix ^ s % (v.val / radix ^ s) := by
    rw [value_take_frame hwl' (by omega) (show w.len ≤ uu.len - s by omega) hwdrop, hwdv]
    rw [w.value_take_len, hwv, hwd]
    exact huhigh
  have huu : (⟨splice uu.data s wd, uu.len, uu.cap⟩ : CNat).val = blockRest s uu.val v.val := by
    rw [CNat.val, CNat.words, value_splice (by omega) hsu, hrest, hulow, blockRest]
    ring
  have hsl : (splice uu.data s wd).length = uu.data.length := by
    refine length_splice (by omega) ?_
    rw [hwdl, hwd, List.length_drop]
  have hfinish : Finishes v s ⟨qd, qhat.len, qhat.cap⟩ ⟨splice uu.data s wd, uu.len, uu.cap⟩
      uu.val :=
    finishGuessIn_eq hv hvc hb (by rw [CNat.Valid, hqdl]; exact hq) hqdv
      (by rw [hqdl]; exact hguessLen) (by rw [hsl]; exact hu) huc hul huu CNat.val_lt hguess
  obtain ⟨q, ud, hfin, hqv, hqval, hqlen, hudl, hudrop, hudv⟩ := hfinish
  refine ⟨qd, wd, temps', q, ud, hrun, hfin, hqv, hqval, hqlen, hudl.trans hsl, ?_, hudv,
    htemps', hframe⟩
  -- nothing above the dividend was touched by the recursive call either
  refine hudrop.trans ?_
  rw [drop_splice_above (by omega) hsu]
  have hk : uu.len - s = w.len + (uu.len - s - w.len) := by omega
  rw [hk, ← List.drop_drop, hwdrop, hwd, List.drop_drop, List.drop_drop]
  congr 1
  omega

end

/-! ## 4. Between two blocks -/

/-- **How far the division has come** when the words of the quotient from `j` on are done: the
words at `z` times the divisor and the words at `u` make up the dividend `total`. -/
structure Progress (v z u : CNat) (total j : Nat) : Prop where
  zValid : z.Valid
  uSpare : u.len < u.data.length
  long : v.len + j ≤ u.len
  le : j ≤ z.len
  sum : z.val * v.val + u.val = total
  fit : total < v.val * radix ^ z.len
  dvd : radix ^ j ∣ z.val
  small : u.val < radix ^ (v.len + j)
  fresh : z.val = 0 ∨ u.val < v.val * radix ^ j

section

variable {v z u q : CNat} {total i j : Nat}

/-- A block of the quotient, at its place, makes up part of the dividend. -/
theorem block_le (x v i : Nat) : x / radix ^ i / v * v * radix ^ i ≤ x :=
  calc x / radix ^ i / v * v * radix ^ i
      ≤ x / radix ^ i * radix ^ i := Nat.mul_le_mul_right _ (Nat.div_mul_le_self _ _)
    _ ≤ x := Nat.div_mul_le_self _ _

/-- A block is less than a power if its dividend is small. -/
theorem block_lt {x v i k : Nat} (hv : 0 < v) (hik : i ≤ k) (hx : x < v * radix ^ k) :
    x / radix ^ i / v < radix ^ (k - i) := by
  rw [Nat.div_div_eq_div_mul, Nat.div_lt_iff_lt_mul (Nat.mul_pos (radix_pow_pos i) hv)]
  calc x < v * radix ^ k := hx
    _ = radix ^ (k - i) * (radix ^ i * v) := by
        rw [← Nat.mul_assoc, ← pow_add, Nat.sub_add_cancel hik, Nat.mul_comm]

namespace Progress

theorem total_ge (h : Progress v z u total j) : u.val ≤ total := by
  rw [← h.sum]
  exact Nat.le_add_left _ _

/-- **The block is added to the quotient**, and no carry runs on: it falls on zeros. -/
theorem addAt_eq (h : Progress v z u total j) (hv : 0 < v.val) (hij : i ≤ j) (hiz : i < z.len)
    (hq : q.Valid) (hqv : q.val = u.val / radix ^ i / v.val)
    (hql : ∀ k, 0 < k → u.val / radix ^ i / v.val < radix ^ k → q.len ≤ k) :
    ∃ zd, addAt z q i = .ok zd ∧ zd.length = z.data.length ∧
      value (zd.take z.len) = z.val + radix ^ i * (u.val / radix ^ i / v.val) := by
  have hlen : i + q.len ≤ z.len := by
    have := hql (z.len - i) (by omega)
      (block_lt hv hiz.le (h.total_ge.trans_lt h.fit))
    omega
  have hno : z.val / radix ^ i % radix ^ q.len + q.val < radix ^ q.len := by
    have hqlt : q.val < radix ^ q.len := CNat.val_lt
    suffices hz : q.val = 0 ∨ z.val / radix ^ i % radix ^ q.len = 0 by
      have := Nat.mod_lt (z.val / radix ^ i) (radix_pow_pos q.len)
      omega
    rcases h.fresh with h0 | hsmall
    · right
      rw [h0, Nat.zero_div, Nat.zero_mod]
    · have hlt := block_lt hv hij hsmall
      rcases Nat.eq_zero_or_pos (j - i) with hji | hji
      · left
        rw [hji, pow_zero] at hlt
        omega
      · right
        have hdvd : radix ^ (j - i) ∣ z.val / radix ^ i := by
          refine (Nat.dvd_div_iff_mul_dvd ((Nat.pow_dvd_pow radix hij).trans h.dvd)).mpr ?_
          rw [← pow_add, Nat.add_sub_cancel' hij]
          exact h.dvd
        exact Nat.mod_eq_zero_of_dvd ((Nat.pow_dvd_pow radix (hql _ hji hlt)).trans hdvd)
  have hfit : z.val + radix ^ i * q.val < radix ^ z.len := by
    refine Nat.lt_of_mul_lt_mul_left (a := v.val) (lt_of_le_of_lt ?_ h.fit)
    have hble := block_le u.val v.val i
    rw [← h.sum, hqv, Nat.mul_add, Nat.mul_comm v.val z.val]
    refine Nat.add_le_add_left ?_ _
    calc v.val * (radix ^ i * (u.val / radix ^ i / v.val))
        = u.val / radix ^ i / v.val * v.val * radix ^ i := by ring
      _ ≤ u.val := hble
  have hcarry : CarryFits (z.val / radix ^ i) q.val q.len (z.len - i - q.len) false :=
    ⟨fun hr => Nat.not_le_of_lt hno hr.1, fun _ _ => hno⟩
  obtain ⟨zd, hrun, hzl, -, hzv⟩ :=
    addAt_val h.zValid hq hlen hcarry (fun hs => absurd hs Bool.false_ne_true) hfit
  exact ⟨zd, hrun, hzl, by rw [← hqv]; exact hzv⟩

/-- **One block further.** -/
theorem next (h : Progress v z u total j) (hv : 0 < v.val) (hij : i ≤ j) {zd ud : List Word}
    (hzl : zd.length = z.data.length)
    (hzv : value (zd.take z.len) = z.val + radix ^ i * (u.val / radix ^ i / v.val))
    (hul : ud.length = u.data.length)
    (huv : value (ud.take u.len) =
      u.val % radix ^ i + radix ^ i * (u.val / radix ^ i % v.val)) :
    Progress v ⟨zd, z.len, z.cap⟩ ⟨ud, u.len, u.cap⟩ total i := by
  have hp := radix_pow_pos i
  have hmod : u.val % radix ^ i < radix ^ i := Nat.mod_lt _ hp
  have hlt : u.val % radix ^ i + radix ^ i * (u.val / radix ^ i % v.val) <
      v.val * radix ^ i := by
    have hr : u.val / radix ^ i % v.val + 1 ≤ v.val := Nat.mod_lt _ hv
    calc u.val % radix ^ i + radix ^ i * (u.val / radix ^ i % v.val)
        < radix ^ i * (u.val / radix ^ i % v.val + 1) := by
          rw [Nat.mul_succ]
          omega
      _ ≤ radix ^ i * v.val := Nat.mul_le_mul_left _ hr
      _ = v.val * radix ^ i := Nat.mul_comm _ _
  refine ⟨?_, ?_, ?_, hij.trans h.le, ?_, h.fit, ?_, ?_, .inr (huv.trans_lt hlt)⟩
  · rw [CNat.Valid, hzl]
    exact h.zValid
  · rw [hul]
    exact h.uSpare
  · have := h.long
    simp only
    omega
  · rw [show (⟨zd, z.len, z.cap⟩ : CNat).val = _ from hzv,
      show (⟨ud, u.len, u.cap⟩ : CNat).val = _ from huv, ← h.sum]
    have h1 := Nat.div_add_mod (u.val / radix ^ i) v.val
    have h2 := Nat.div_add_mod u.val (radix ^ i)
    linear_combination radix ^ i * h1 + h2
  · rw [show (⟨zd, z.len, z.cap⟩ : CNat).val = _ from hzv]
    exact Nat.dvd_add ((Nat.pow_dvd_pow radix hij).trans h.dvd) (Nat.dvd_mul_right _ _)
  · rw [show (⟨ud, u.len, u.cap⟩ : CNat).val = _ from huv, pow_add]
    exact hlt.trans (Nat.mul_lt_mul_of_pos_right CNat.val_lt hp)

/-- At the end the quotient and the remainder are there. -/
theorem done (h : Progress v z u total 0) (hu : u.val < v.val) :
    z.val = total / v.val ∧ u.val = total % v.val := by
  have hv : 0 < v.val := (Nat.zero_le _).trans_lt hu
  rw [← h.sum, Nat.mul_comm, Nat.mul_add_div hv, Nat.div_eq_of_lt hu, Nat.add_zero,
    Nat.mul_add_mod, Nat.mod_eq_of_lt hu]
  exact ⟨rfl, rfl⟩

end Progress

end

/-! ## 5. All blocks -/

/-- The temporary vectors, with one of `l` words or more at `depth`. -/
structure Ready (temps : List (Option CNat)) (num depth l : Nat) : Prop where
  blocks : Temps temps num
  here : ∃ t, temps[depth]? = some (some t) ∧ t.Valid ∧ l ≤ t.len ∧ l < t.data.length

section

variable {temps temps' : List (Option CNat)} {num depth l : Nat}

/-- The temporary quotient, cleared. -/
theorem Ready.cleared (h : Ready temps num depth l) :
    ∃ t data, Run.read temps depth = .ok (some t) ∧ natClear t = .ok data ∧ l ≤ t.len ∧
      l < data.length ∧ (⟨data, t.len, t.cap⟩ : CNat).Valid ∧
      (⟨data, t.len, t.cap⟩ : CNat).val = 0 := by
  obtain ⟨t, hget, hvalid, hlen, hroom⟩ := h.here
  have htl : t.len ≤ t.data.length := hvalid
  refine ⟨t, _, Run.read_eq_ok hget, natClear_eq hvalid, hlen, ?_, ?_, ?_⟩
  · rw [List.length_append, List.length_replicate, List.length_drop]
    omega
  · simp only [CNat.Valid, List.length_append, List.length_replicate]
    omega
  · rw [CNat.val, CNat.words]
    dsimp only
    rw [List.take_left' (List.length_replicate), value_replicate_zero]

theorem Ready.of_frame (h : Ready temps num depth l) (htemps : Temps temps' num)
    (hframe : ∀ i < depth + 1, temps'[i]? = temps[i]?) : Ready temps' num depth l := by
  obtain ⟨t, hget, ht⟩ := h.here
  exact ⟨htemps, t, (hframe depth (Nat.lt_succ_self _)).trans hget, ht⟩

end

section

variable {step : CNat → CNat → CNat → Nat → List (Option CNat) → Run DivState}
  {fits : Nat → Nat → Prop} {num depth : Nat} {v : CNat}

/-- **The loop over the upper blocks.** -/
theorem divBlocksLoopIn_eq (hn : divRecursiveThreshold ≤ v.len) (hv : v.Valid)
    (hvc : v.len ≤ v.cap)
    (hhigh : radix ^ v.len ≤ 2 * v.val) (hdepth : depth + 1 < num)
    (hstep : StepDivides step fits num (depth + 1) (v.len - (v.len / 2 - 1))) {total : Nat} :
    ∀ {fuel j : Nat} {z u : CNat} {temps : List (Option CNat)}, j < fuel →
      Progress v z u total j → u.len ≤ u.cap → Ready temps num depth (v.len / 2 + 1) →
      BlocksFit fits (v.len / 2) v.val fuel j u.val →
      ∃ j' zd ud temps', divBlocksLoopIn step v (v.len / 2) depth num fuel j z u temps =
          .ok (j', ⟨zd, z.len, z.cap⟩, ⟨ud, u.len, u.cap⟩, temps') ∧
        j' ≤ v.len / 2 ∧ zd.length = z.data.length ∧ ud.length = u.data.length ∧
        ud.drop u.len = u.data.drop u.len ∧
        Progress v ⟨zd, z.len, z.cap⟩ ⟨ud, u.len, u.cap⟩ total j' ∧
        fits (value (ud.take u.len) / radix ^ (v.len / 2 - 1)) (v.val / radix ^ (v.len / 2 - 1)) ∧
        GuessFits (v.len / 2 - 1) (value (ud.take u.len)) v.val ∧
        Ready temps' num depth (v.len / 2 + 1) ∧ ∀ i < depth, temps'[i]? = temps[i]?
  | 0, _, _, _, _, hfuel, _, _, _, _ => absurd hfuel (Nat.not_lt_zero _)
  | fuel + 1, j, z, u, temps, hfuel, hprog, huc, hready, hfits => by
    have hn' : 100 ≤ v.len := hn
    rw [BlocksFit] at hfits
    rw [divBlocksLoopIn]
    by_cases hbj : v.len / 2 < j
    swap
    · rw [if_neg hbj] at hfits ⊢
      exact ⟨j, z.data, u.data, temps, rfl, Nat.le_of_not_lt hbj, rfl, rfl, rfl, hprog, hfits.1,
        hfits.2, hready, fun _ _ => rfl⟩
    rw [if_pos hbj] at hfits ⊢
    obtain ⟨⟨hinner, hguess⟩, hrest⟩ := hfits
    obtain ⟨b, hb⟩ : ∃ b, v.len / 2 = b + 1 := ⟨v.len / 2 - 1, by omega⟩
    have hvpos : 0 < v.val := by have := radix_pow_pos v.len; omega
    have hlong := hprog.long
    have huspare := hprog.uSpare
    have hul : u.Valid := huspare.le
    generalize hi : j - v.len / 2 = i at *
    have hiu : i ≤ u.len := by omega
    obtain ⟨hulow, huhigh, -⟩ := val_split hul hiu
    obtain ⟨t, data, hread, hclear, htl, htroom, hqv, hq0⟩ := hready.cleared
    have huv := valid_above hul i
    have hul : u.len ≤ u.data.length := hul
    have huaspare : (above u i).len < (above u i).data.length := by
      simp only [above, List.length_drop]
      omega
    have hlt : (above u i).val < radix ^ (v.len + v.len / 2) := by
      rw [huhigh, Nat.div_lt_iff_lt_mul (radix_pow_pos i), ← pow_add]
      exact hprog.small.trans_eq (by congr 1; omega)
    -- the words that the recursive call divides
    have hwv := part_val huv (i := v.len / 2 - 1) (l := v.len / 2 + v.len - (v.len / 2 - 1))
      (v.len / 2 + v.len - (v.len / 2 - 1)) (by simp only [above]; omega)
      (hlt.trans_eq (by congr 1; omega))
    obtain ⟨qd, wd, temps', q, ud, hrun, hfin, hqvalid, hqval, hqlen, hudl, hudrop, hudv, htemps',
      hframe⟩ := block_eq hn hv hvc hhigh hstep huaspare le_rfl
      (by simp only [above]; omega) hlt le_rfl rfl (by simp only [above]; omega) hwv hqv hq0 htl
      htroom
      (by rw [huhigh]; exact hinner) (by rw [huhigh]; exact hguess) hready.blocks
    rw [huhigh] at hqval hqlen hudv
    obtain ⟨zd, hadd, hzl, hzv⟩ := hprog.addAt_eq hvpos (show i ≤ j by omega)
      (by have := hprog.le; omega) hqvalid hqval hqlen
    have hudl' : ud.length = u.data.length - i := by rw [hudl, ← List.length_drop]; rfl
    have hsl : (splice u.data i ud).length = u.data.length := length_splice (by omega) hudl'
    have hsv : value ((splice u.data i ud).take u.len) =
        u.val % radix ^ i + radix ^ i * (u.val / radix ^ i % v.val) := by
      rw [value_splice (by omega) hiu, hulow]
      exact congrArg (fun x => u.val % radix ^ i + radix ^ i * x) hudv
    have hsdrop : (splice u.data i ud).drop u.len = u.data.drop u.len := by
      rw [drop_splice_above (by omega) hiu]
      refine hudrop.trans ?_
      simp only [above]
      rw [List.drop_drop, Nat.add_sub_cancel' hiu]
    have hprog' := hprog.next hvpos (show i ≤ j by omega) hzl hzv hsl hsv
    obtain ⟨j', zd', ud', temps'', hloop, hj', hzl', hul', hdrop', hprog'', hin, hgu, hready',
      hframe'⟩ :=
      divBlocksLoopIn_eq hn hv hvc hhigh hdepth hstep (show i < fuel by omega) hprog' huc
        (hready.of_frame htemps' hframe)
      (by rw [show (⟨splice u.data i ud, u.len, u.cap⟩ : CNat).val = _ from hsv]; exact hrest)
    refine ⟨j', zd', ud', temps'', ?_, hj', hzl'.trans hzl, hul'.trans hsl,
      hdrop'.trans hsdrop, hprog'', hin, hgu, hready', ?_⟩
    · refine Run.bind_of_eq (natPartIn_above u hiu huc) (Run.bind_of_eq hread
        (Run.bind_of_eq (Run.object_some t) (Run.bind_of_eq hclear ?_)))
      rw [decide_eq_true hdepth, Run.assert_true, Run.ok_bind]
      refine Run.bind_of_eq
        (natPartIn_eq (x := above u i) (by omega) (by simp only [above]; omega)) ?_
      refine Run.bind_of_eq (natPartIn_above v (by omega) hvc) (Run.bind_of_eq hrun ?_)
      exact Run.bind_of_eq hfin (Run.bind_of_eq hadd hloop)
    · intro k hk
      exact (hframe' k hk).trans (hframe k (by omega))

/-- **The last block.** -/
theorem divLastBlockIn_eq (hn : divRecursiveThreshold ≤ v.len) (hv : v.Valid)
    (hvc : v.len ≤ v.cap)
    (hhigh : radix ^ v.len ≤ 2 * v.val) (hdepth : depth + 1 < num)
    (hstep : StepDivides step fits num (depth + 1) (v.len - (v.len / 2 - 1)))
    {total j : Nat} {z u : CNat} {temps : List (Option CNat)} (hj : j ≤ v.len / 2)
    (hprog : Progress v z u total j) (hzl : 0 < z.len) (huc : u.len ≤ u.cap)
    (hready : Ready temps num depth (v.len / 2 + 1))
    (hinner : fits (u.val / radix ^ (v.len / 2 - 1)) (v.val / radix ^ (v.len / 2 - 1)))
    (hguess : GuessFits (v.len / 2 - 1) u.val v.val) :
    ∃ zd ud temps', divLastBlockIn step v (v.len / 2) depth num z u temps = .ok (zd, ud, temps') ∧
      zd.length = z.data.length ∧ value (zd.take z.len) = total / v.val ∧
      ud.length = u.data.length ∧ ud.drop u.len = u.data.drop u.len ∧
      value (ud.take u.len) = total % v.val ∧
      Temps temps' num ∧ ∀ i < depth, temps'[i]? = temps[i]? := by
  have hn' : 100 ≤ v.len := hn
  have hvpos : 0 < v.val := by have := radix_pow_pos v.len; omega
  have hlong := hprog.long
  obtain ⟨t, data, hread, hclear, htl, htroom, hqv, hq0⟩ := hready.cleared
  have huspare := hprog.uSpare
  have huv : u.Valid := huspare.le
  have hsu : v.len / 2 - 1 ≤ u.len := by omega
  obtain ⟨w, hnorm, hwd, hwcap, hwlen, -, -, hwval⟩ :=
    natNorm_eq (valid_above huv (v.len / 2 - 1))
  obtain ⟨qd, wd, temps', q, ud, hrun, hfin, hqvalid, hqval, hqlen, hudl, hudrop, hudv, htemps',
    hframe⟩ := block_eq hn hv hvc hhigh hstep huspare huc (by omega)
    (hprog.small.trans_le (Nat.pow_le_pow_right radix_pos (by omega)))
    (hwlen.trans_eq hwcap.symm) hwd
    (by simp only [above] at hwlen; omega) (hwval.trans (val_split huv hsu).2.1) hqv hq0
    htl htroom hinner hguess hready.blocks
  obtain ⟨q', hqnorm, -, -, hqle, hqvalid', -, hqval'⟩ := natNorm_eq hqvalid
  have h1 : u.val / radix ^ 0 / v.val = u.val / v.val := by rw [pow_zero, Nat.div_one]
  obtain ⟨zd, hadd, hzdl, hzv⟩ := hprog.addAt_eq hvpos (Nat.zero_le j) hzl hqvalid'
    (by rw [h1, hqval', hqval]) (by rw [h1]; exact fun k hk hlt => hqle.trans (hqlen k hk hlt))
  have hprog' := hprog.next hvpos (Nat.zero_le j) hzdl hzv hudl (by
    rw [hudv, pow_zero, Nat.mod_one, Nat.div_one, Nat.zero_add, Nat.one_mul])
  obtain ⟨hz, hu⟩ := hprog'.done (lt_of_eq_of_lt hudv (Nat.mod_lt _ hvpos))
  refine ⟨zd, ud, temps', ?_, hzdl, hz, hudl, hudrop, hu, htemps', fun i hi => hframe i (by omega)⟩
  refine Run.bind_of_eq hread (Run.bind_of_eq (Run.object_some t) (Run.bind_of_eq hclear ?_))
  rw [decide_eq_true hdepth, Run.assert_true, Run.ok_bind]
  refine Run.bind_of_eq (natPartIn_above u hsu huc) (Run.bind_of_eq hnorm ?_)
  refine Run.bind_of_eq (natPartIn_above v (by omega) hvc) (Run.bind_of_eq hrun ?_)
  exact Run.bind_of_eq hfin (Run.bind_of_eq rfl (Run.bind_of_eq hqnorm (Run.bind_of_eq hadd rfl)))

end

/-! ## 6. The recursion -/

theorem natNorm_wordLen {p : CNat} (hp : p.Valid) :
    natNorm p = .ok ⟨p.data, wordLen p.val, p.cap⟩ := by
  obtain ⟨q, hq, hqv, hqn, hqval⟩ := natNorm_val hp rfl
  have hlen : q.len = wordLen p.val := by
    rw [← CNat.length_words hqv, hqn.length_eq, ← hqval]
    rfl
  rw [hq, ← natNorm_len hq, hlen]

theorem val_wordLen {p : CNat} (hp : p.Valid) :
    (⟨p.data, wordLen p.val, p.cap⟩ : CNat).val = p.val := by
  obtain ⟨q, hq, -, -, -, -, -, hval⟩ := natNorm_eq hp
  rw [natNorm_wordLen hp, Except.ok.injEq] at hq
  rw [hq]
  exact hval

/-- A dividend that leaves room for its quotient is not too long. -/
theorem wordLen_le_of_room {u l : Nat} {v : CNat} (hroom : u < v.val * radix ^ l) :
    wordLen u ≤ v.len + l := by
  refine wordLen_le_iff.mpr (hroom.trans ?_)
  rw [pow_add]
  exact Nat.mul_lt_mul_of_pos_right CNat.val_lt (radix_pow_pos _)

/-- A vector with its top bit set is as long as its number. -/
theorem wordLen_of_high {v n : Nat} (hn : 0 < n) (hhigh : radix ^ n ≤ 2 * v) (hv : v < radix ^ n) :
    wordLen v = n := by
  have h1 := wordLen_le_iff.mpr hv
  have h2 := lt_wordLen_iff.mpr (pow_pred_le hn hhigh)
  omega

/-- The top word of a vector with its top bit set. -/
theorem top_of_high {v : CNat} (hv : v.Valid) (hn : 0 < v.len) (hhigh : radix ^ v.len ≤ 2 * v.val) :
    ∃ top, v.words[v.len - 1]? = some top ∧ 2 ^ 63 ≤ top.toNat := by
  obtain ⟨w, -, hw⟩ := read_word hv (show v.len - 1 < v.len by omega)
  have hlen := CNat.length_words hv
  obtain ⟨hlt, hget⟩ := List.getElem?_eq_some_iff.mp hw
  have hval := value_take_succ hlt
  rw [hget, Nat.sub_add_cancel hn, List.take_of_length_le hlen.le,
    v.value_words] at hval
  have hlow := value_take_lt v.words (n := v.len - 1)
  refine ⟨w, hw, Nat.le_of_not_lt fun hsmall => absurd hhigh (Nat.not_le.mpr ?_)⟩
  calc 2 * v.val = 2 * (value (v.words.take (v.len - 1)) + radix ^ (v.len - 1) * w.toNat) := by
        rw [hval]
    _ < 2 * (radix ^ (v.len - 1) * (w.toNat + 1)) := by
        rw [Nat.mul_succ]
        omega
    _ ≤ 2 * (radix ^ (v.len - 1) * 2 ^ 63) :=
        Nat.mul_le_mul_left _ (Nat.mul_le_mul_left _ hsmall)
    _ = radix ^ (v.len - 1) * radix := by
        rw [radix_eq_double]
        ring
    _ = radix ^ v.len := by rw [← pow_succ, Nat.sub_add_cancel hn]

/-- The same the other way. -/
theorem high_of_top {v : CNat} {top : Word} (hv : v.Valid) (hn : 0 < v.len)
    (htop : v.words[v.len - 1]? = some top) (hhigh : 2 ^ 63 ≤ top.toNat) :
    radix ^ v.len ≤ 2 * v.val := by
  have hlen := CNat.length_words hv
  obtain ⟨hlt, hget⟩ := List.getElem?_eq_some_iff.mp htop
  have hval := value_take_succ hlt
  rw [hget, Nat.sub_add_cancel hn, List.take_of_length_le hlen.le,
    v.value_words] at hval
  calc radix ^ v.len = radix ^ (v.len - 1) * radix := by rw [← pow_succ, Nat.sub_add_cancel hn]
    _ = 2 * (radix ^ (v.len - 1) * 2 ^ 63) := by
        rw [radix_eq_double]
        ring
    _ ≤ 2 * (radix ^ (v.len - 1) * top.toNat) :=
        Nat.mul_le_mul_left _ (Nat.mul_le_mul_left _ hhigh)
    _ ≤ 2 * v.val := by
        rw [hval]
        omega

section

variable {z u v : CNat}

/-- A dividend less than the divisor is the remainder. -/
theorem step_small (hlt : u.val < v.val) (hz0 : z.val = 0) :
    value (z.data.take z.len) = u.val / v.val ∧ value (u.data.take u.len) = u.val % v.val := by
  rw [Nat.div_eq_of_lt hlt, Nat.mod_eq_of_lt hlt]
  exact ⟨hz0, rfl⟩

/-- A run on the normalised dividend, seen on the dividend. -/
theorem widen (hu : u.Valid) {ud : List Word} {r : Nat} (hudl : ud.length = u.data.length)
    (hdrop : ud.drop (wordLen u.val) = u.data.drop (wordLen u.val))
    (hudv : value (ud.take (wordLen u.val)) = r) :
    ud.drop u.len = u.data.drop u.len ∧ value (ud.take u.len) = r := by
  have hul : u.len ≤ u.data.length := hu
  have hle : wordLen u.val ≤ u.len := wordLen_le_iff.mpr CNat.val_lt
  refine ⟨?_, ?_⟩
  · rw [← Nat.add_sub_cancel' hle, ← List.drop_drop, hdrop, List.drop_drop]
  · rw [value_take_frame (by omega) (by omega) hle hdrop, hudv]
    exact (val_wordLen hu).symm

/-- A divisor below the threshold goes to algorithm D. -/
theorem step_basic (hz : z.Valid) (hz0 : z.val = 0) (hu : u.Valid) (hv : v.Valid)
    (htwo : 2 ≤ v.len) (hhigh : radix ^ v.len ≤ 2 * v.val)
    (hroom : u.val < v.val * radix ^ z.len) :
    ∃ zd ud, natDivBasic z ⟨u.data, wordLen u.val, u.cap⟩ v = .ok (zd, ud) ∧
      zd.length = z.data.length ∧ value (zd.take z.len) = u.val / v.val ∧
      ud.length = u.data.length ∧ ud.drop u.len = u.data.drop u.len ∧
      value (ud.take u.len) = u.val % v.val := by
  obtain ⟨top, htop, htop63⟩ := top_of_high hv (by omega) hhigh
  have hzl : z.len ≤ z.data.length := hz
  have hnorm := natNorm_ok (natNorm_wordLen hu)
  have hval := val_wordLen hu
  by_cases hle : v.len ≤ wordLen u.val
  · have hlen := wordLen_le_of_room hroom
    have hroom' : wordLen u.val - v.len < z.len ∨ wordLen u.val - v.len = z.len ∧
        (⟨u.data, wordLen u.val, u.cap⟩ : CNat).val < v.val * radix ^ z.len := by
      rcases Nat.lt_or_ge (wordLen u.val - v.len) z.len with hlt | hge
      · exact .inl hlt
      · exact .inr ⟨by omega, by rw [hval]; exact hroom⟩
    obtain ⟨qd, ud, hrun, hqdl, hqdrop, hudl, hudrop, hqv, huv⟩ :=
      natDivBasic_eq hv htwo htop htop63
      hnorm.1 hle hz hroom'
    rw [hval] at hqv huv
    refine ⟨qd, ud, hrun, hqdl, ?_, hudl, widen hu hudl hudrop huv⟩
    -- the words of the quotient that were not written are zero
    have hmin : min (wordLen u.val - v.len + 1) z.len ≤ z.len := Nat.min_le_right _ _
    dsimp only at hqdrop hqv
    rw [value_take_frame (by omega) (by omega) hmin hqdrop, hqv]
    rw [z.value_take_len, (val_split hz hmin).1, hz0, Nat.zero_mod]
  · have hlt : u.val < v.val :=
      (wordLen_le_iff.mp (show wordLen u.val ≤ v.len - 1 by omega)).trans_le
        (pow_pred_le (by omega) hhigh)
    obtain ⟨hnlz, hne⟩ := nlz_of_high htop63
    obtain ⟨rec, hrec, -⟩ := reciprocalWord_eq hne hnlz
    have hread : Run.read v.data (v.len - 1) = .ok top := by
      refine Run.read_eq_ok ?_
      rw [CNat.words, List.getElem?_take_of_lt (by omega)] at htop
      exact htop
    obtain ⟨hq, hr⟩ := step_small hlt hz0
    refine ⟨z.data, u.data, ?_, rfl, hq, rfl, rfl, hr⟩
    refine Run.bind_of_eq hread (Run.bind_of_eq hrec ?_)
    rw [if_neg hle]

end

/-- **The recursive division divides** if every block goes well. -/
theorem natDivRecursiveStepIn_eq {num room : Nat} (hnum : ∀ d, 2 ^ d * 97 ≤ room → d + 1 < num) :
    ∀ {fuel depth n : Nat}, n < fuel → 2 ≤ n → 2 ^ depth * (n - 3) ≤ room →
      StepDivides (natDivRecursiveStepIn num fuel) (DivFits fuel) num depth n
  | 0, _, _, hfuel, _, _ => absurd hfuel (Nat.not_lt_zero _)
  | fuel + 1, depth, n, hfuel, htwo, hdepth => by
    rintro z u v temps hz hz0 hzl hspare huc hv hvc rfl hhigh hroom hfits htemps
    have hu : u.Valid := hspare.le
    have hvl := wordLen_of_high (by omega) hhigh CNat.val_lt
    have hnormv : natNorm v = .ok v := by rw [natNorm_wordLen hv, hvl]
    rw [natDivRecursiveStepIn, natNorm_wordLen hu, Run.ok_bind, hnormv, Run.ok_bind]
    dsimp only
    by_cases h0 : wordLen u.val = 0
    · have hu0 : u.val = 0 := by
        have := wordLen_le_iff.mp h0.le
        rw [pow_zero] at this
        omega
      have hlt : u.val < v.val := by have := radix_pow_pos v.len; omega
      rw [if_pos h0, natClear_eq hz, Run.ok_bind]
      have hzl' : z.len ≤ z.data.length := hz
      refine ⟨_, _, temps, rfl, ?_, ?_, rfl, rfl, (step_small hlt hz0).2, htemps, fun _ _ => rfl⟩
      · rw [List.length_append, List.length_replicate, List.length_drop]
        omega
      · rw [List.take_left' List.length_replicate, value_replicate_zero, Nat.div_eq_of_lt hlt]
    rw [if_neg h0]
    by_cases hthr : v.len < divRecursiveThreshold
    · obtain ⟨zd, ud, hrun, hzdl, hzv, hudl, hudrop, hudv⟩ :=
        step_basic hz hz0 hu hv htwo hhigh hroom
      rw [if_pos hthr]
      exact ⟨zd, ud, temps, Run.bind_of_eq hrun rfl, hzdl, hzv, hudl, hudrop, hudv, htemps,
        fun _ _ => rfl⟩
    rw [if_neg hthr]
    by_cases hshort : wordLen u.val < v.len
    · have hlt : u.val < v.val :=
        (wordLen_le_iff.mp (show wordLen u.val ≤ v.len - 1 by omega)).trans_le
          (pow_pred_le (by omega) hhigh)
      obtain ⟨hq, hr⟩ := step_small hlt hz0
      rw [if_pos hshort]
      exact ⟨z.data, u.data, temps, rfl, rfl, hq, rfl, rfl, hr, htemps, fun _ _ => rfl⟩
    rw [if_neg hshort]
    -- the blocks
    have hn : divRecursiveThreshold ≤ v.len := Nat.le_of_not_lt hthr
    have hn' : 100 ≤ v.len := hn
    rw [DivFits, hvl] at hfits
    have hblocks := (hfits.resolve_left hthr).resolve_left hshort
    have hdep : depth + 1 < num := by
      refine hnum depth (le_trans (Nat.mul_le_mul_left _ ?_) hdepth)
      omega
    have hstep : StepDivides (natDivRecursiveStepIn num fuel) (DivFits fuel) num (depth + 1)
        (v.len - (v.len / 2 - 1)) := by
      refine natDivRecursiveStepIn_eq hnum (by omega) (by omega) (le_trans ?_ hdepth)
      rw [pow_succ, Nat.mul_assoc]
      exact Nat.mul_le_mul_left _ (by omega)
    obtain ⟨t, hmake, htv, htl, htroom, htemps'⟩ :=
      makeTemp_eq htemps (show depth < num by omega) (show 4 ≤ v.len by omega)
    have hlen : depth < temps.length := by rw [htemps.length]; omega
    have hready : Ready (temps.set depth (some t)) num depth (v.len / 2 + 1) :=
      ⟨htemps', t, List.getElem?_set_self hlen, htv, htl, htroom⟩
    have hnorm := natNorm_ok (natNorm_wordLen hu)
    have hval := val_wordLen hu
    have hlen' := wordLen_le_of_room hroom
    have hprog : Progress v z ⟨u.data, wordLen u.val, u.cap⟩ u.val (wordLen u.val - v.len) := by
      refine ⟨hz, (wordLen_le_iff.mpr CNat.val_lt).trans_lt hspare, by dsimp only; omega, by omega,
        ?_, hroom, ?_, ?_, .inl hz0⟩
      · rw [hz0, Nat.zero_mul, Nat.zero_add, hval]
      · rw [hz0]
        exact Nat.dvd_zero _
      · rw [hval, Nat.add_sub_cancel' (Nat.le_of_not_lt hshort)]
        exact lt_radix_pow_wordLen _
    have huc' : wordLen u.val ≤ u.cap := (wordLen_le_iff.mpr CNat.val_lt).trans huc
    obtain ⟨j', zd, ud, temps', hloop, hj', hzdl, hudl, hudrop, hprog', hin, hgu, hready',
        hframe⟩ :=
      divBlocksLoopIn_eq hn hv hvc hhigh hdep hstep (Nat.lt_succ_self _) hprog huc' hready
        (by rw [hval]; exact hblocks)
    obtain ⟨zd', ud', temps'', hlast, hzdl', hzv, hudl', hudrop', hudv, htemps'', hframe'⟩ :=
      divLastBlockIn_eq hn hv hvc hhigh hdep hstep hj' hprog' hzl huc' hready' hin hgu
    refine ⟨zd', ud', temps'', ?_, hzdl'.trans hzdl, hzv, hudl'.trans hudl,
      (widen hu (hudl'.trans hudl) (hudrop'.trans hudrop) hudv).1,
      (widen hu (hudl'.trans hudl) (hudrop'.trans hudrop) hudv).2, htemps'', ?_⟩
    · exact Run.bind_of_eq hmake (Run.bind_of_eq hloop hlast)
    · intro i hi
      rw [hframe' i hi, hframe i hi, List.getElem?_set_ne (by omega)]

/-- The temporary vectors are enough. -/
theorem temps_enough {n d : Nat} (hn : divRecursiveThreshold ≤ n) (hd : 2 ^ d * 97 ≤ n - 3) :
    d + 1 < 2 * n.size := by
  have hn' : 100 ≤ n := hn
  have hlt : 2 ^ d < 2 ^ n.size := by
    have := Nat.lt_size_self n
    omega
  have := (Nat.pow_lt_pow_iff_right (by decide)).mp hlt
  omega

/-- **`natDivRecursive` divides** if every block goes well, and takes parts inside their vectors
only. -/
theorem natDivRecursiveIn_eq {q u v : CNat} (hq : q.Valid) (hql : 0 < q.len)
    (hu : u.len < u.data.length) (huc : u.len ≤ u.cap) (hv : v.Valid) (hvc : v.len ≤ v.cap)
    (hn : divRecursiveThreshold ≤ v.len) (hword : v.len < 2 ^ 64)
    (hhigh : radix ^ v.len ≤ 2 * v.val) (hroom : u.val < v.val * radix ^ q.len)
    (hfits : DivFits (v.len + 1) u.val v.val) : Divides (natDivRecursiveIn q u v) q u v := by
  have hn' : 100 ≤ v.len := hn
  have hql' : q.len ≤ q.data.length := hq
  have hsize : len64 (BitVec.ofNat 64 v.len) = .ok v.len.size := by
    rw [len64_eq, BitVec.toNat_ofNat, Nat.mod_eq_of_lt hword]
  have hzl : (List.replicate q.len (0 : Word) ++ q.data.drop q.len).length = q.data.length := by
    rw [List.length_append, List.length_replicate, List.length_drop]
    omega
  have htemps : Temps (List.replicate (2 * v.len.size) none) (2 * v.len.size) := by
    refine ⟨List.length_replicate, fun t ht => ?_⟩
    exact absurd (List.eq_of_mem_replicate ht) (by simp)
  have hstep : StepDivides (natDivRecursiveStepIn (2 * v.len.size) (v.len + 1))
      (DivFits (v.len + 1)) (2 * v.len.size) 0 v.len :=
    natDivRecursiveStepIn_eq (fun d hd => temps_enough hn hd) (Nat.lt_succ_self v.len) (by omega)
      (Nat.one_mul (v.len - 3)).le
  obtain ⟨zd, ud, temps', hrun, hzdl, hzv, hudl, -, hudv, -, -⟩ :=
    hstep ⟨List.replicate q.len 0 ++ q.data.drop q.len, q.len, q.cap⟩ u v
      (List.replicate (2 * v.len.size) none) (by rw [CNat.Valid, hzl]; exact hq)
      (by
        rw [CNat.val, CNat.words]
        dsimp only
        rw [List.take_left' List.length_replicate, value_replicate_zero])
      hql hu huc hv hvc rfl hhigh hroom hfits htemps
  refine ⟨(zd, ud), ?_, hzdl.trans hzl, hudl, hzv, hudv⟩
  exact Run.bind_of_eq hsize (Run.bind_of_eq (natClear_eq hq) (Run.bind_of_eq hrun rfl))

/-! ## 7. `natDivLarge` on all lengths -/

/-- How far `natDivLarge` shifts. -/
def headroom (v : Nat) : Nat := 64 * wordLen v - v.size

/-- **The division of `u` by `v` goes well**: the divisor is below the threshold, or every block of
the shifted operands goes well.  No memory has room for `2^64` words. -/
def LargeFits (u v : Nat) : Prop :=
  wordLen v < divRecursiveThreshold ∨
    wordLen v < 2 ^ 64 ∧
      DivFits (wordLen v + 1) (u * 2 ^ headroom v) (v * 2 ^ headroom v)

instance (u v : Nat) : Decidable (LargeFits u v) := inferInstanceAs (Decidable (_ ∨ _))

/-- A shift that sets the top bit shifts by the headroom. -/
theorem headroom_eq {v s : Nat} (hv : v ≠ 0) (hlt : v * 2 ^ s < radix ^ wordLen v)
    (hhigh : radix ^ wordLen v ≤ 2 * (v * 2 ^ s)) : s = headroom v := by
  have hpow : radix ^ wordLen v = 2 ^ (64 * wordLen v) := by rw [radix, ← pow_mul]
  have hlow : 2 ^ (v.size - 1) ≤ v := by
    refine Nat.lt_size.mp ?_
    have := Nat.size_pos.mpr (Nat.pos_of_ne_zero hv)
    omega
  have hup := Nat.lt_size_self v
  have hs := Nat.size_pos.mpr (Nat.pos_of_ne_zero hv)
  rw [hpow] at hlt hhigh
  have h1 : 2 ^ (v.size - 1 + s) < 2 ^ (64 * wordLen v) := by
    rw [pow_add]
    exact (Nat.mul_le_mul_right _ hlow).trans_lt hlt
  have h2 : 2 ^ (64 * wordLen v) < 2 ^ (v.size + s + 1) := by
    rw [pow_succ, pow_add, Nat.mul_comm _ 2]
    exact hhigh.trans_lt (Nat.mul_lt_mul_of_pos_left
      (Nat.mul_lt_mul_of_pos_right hup (by positivity)) (by decide))
  have h1' := (Nat.pow_lt_pow_iff_right (by decide)).mp h1
  have h2' := (Nat.pow_lt_pow_iff_right (by decide)).mp h2
  rw [headroom]
  omega

theorem Clean.len_eq {x : CNat} (hx : Clean x) : x.len = wordLen x.val := by
  rw [← CNat.length_words hx.1, hx.2.length_eq]
  rfl

section

variable {z u uIn vIn : CNat}

/-- The shift sets the divisor's top bit. -/
theorem Shifted.top_bit {q u v : CNat} {s : Nat} {top : Word} (h : Shifted uIn vIn q u v s top)
    (hpos : 0 < vIn.len) : radix ^ v.len ≤ 2 * v.val :=
  high_of_top h.vValid (h.vLen ▸ hpos) h.isTop h.high

/-- **The recursive division divides the shifted operands** if every block goes well. -/
theorem Shifted.natDivRecursiveIn_divides {q u v : CNat} {s : Nat} {top : Word}
    (h : Shifted uIn vIn q u v s top) (hvIn : Clean vIn) (hn : divRecursiveThreshold ≤ vIn.len)
    (hlen : vIn.len ≤ uIn.len) (hfits : LargeFits uIn.val vIn.val) :
    Divides (natDivRecursiveIn q u v) q u v := by
  have hlv := hvIn.len_eq
  have hvl := h.vLen
  have hn' : 100 ≤ vIn.len := hn
  have hhigh := h.top_bit (by omega)
  obtain ⟨hword, hdiv⟩ := hfits.resolve_left (by rw [← hlv]; exact Nat.not_lt.mpr hn)
  have hv0 : vIn.val ≠ 0 := by
    intro h0
    rw [h.vVal, h0, Nat.zero_mul, Nat.mul_zero] at hhigh
    exact absurd hhigh (Nat.not_le.mpr (radix_pow_pos _))
  have hs : s = headroom vIn.val := by
    refine headroom_eq hv0 ?_ ?_
    · rw [← h.vVal, ← hlv, ← hvl]
      exact CNat.val_lt
    · rw [← h.vVal, ← hlv, ← hvl]
      exact hhigh
  refine natDivRecursiveIn_eq h.qValid (by rw [h.qLen]; omega) (h.uSpare (by omega)) h.uCap
    h.vValid h.vCap
    (by rw [hvl]; exact hn) (by omega) hhigh (h.room hvIn (by omega) hlen) ?_
  rw [h.uVal, h.vVal, hvl, hlv, hs]
  exact hdiv

/-- **`natDivLarge` is exact** if every block goes well, whatever the storage held before. -/
theorem natDivLarge_run (hz : z.cap ≤ z.data.length)
    (hu : u.cap ≤ u.data.length) (huIn : Clean uIn) (hvIn : Clean vIn) (htwo : 2 ≤ vIn.len)
    (hle : vIn.val ≤ uIn.val) (hfits : LargeFits uIn.val vIn.val) :
    ∃ run : LargeRun z u uIn vIn, (Clean run.q ∧ Clean run.r ∧
      run.q.val = uIn.val / vIn.val ∧ run.r.val = uIn.val % vIn.val) ∧
      ∃ top, Shifted uIn vIn run.q' run.uShifted run.vShifted run.shift top := by
  have hlen := hvIn.len_le huIn hle
  refine exists_largeRun hz hu huIn hvIn (by omega) fun q u v s top h => ?_
  rw [divideCore, h.vLen]
  split
  · exact h.natDivBasic_divides hvIn htwo hlen
  · next hn =>
    obtain ⟨p, hrun, hdiv⟩ :=
      h.natDivRecursiveIn_divides hvIn (Nat.le_of_not_lt hn) hlen hfits
    exact ⟨p, natDivRecursiveIn_agrees q u v p hrun, hdiv⟩

/-- Two runs of a division that both divide leave the same words. -/
theorem Divides.words_eq {q u v : CNat} {qd qd' ud ud' : List Word}
    {x y : Run (List Word × List Word)} (hx : Divides x q u v) (hy : Divides y q u v)
    (hq : q.Valid) (hu : u.Valid) (hrun : x = .ok (qd, ud)) (hrun' : y = .ok (qd', ud')) :
    qd'.take q.len = qd.take q.len ∧ ud'.take u.len = ud.take u.len := by
  subst hrun hrun'
  obtain ⟨p, hp, hql, hul, hqv, huv⟩ := hx
  obtain ⟨p', hp', hql', hul', hqv', huv'⟩ := hy
  obtain rfl := Except.ok.inj hp
  obtain rfl := Except.ok.inj hp'
  dsimp only at hql hul hqv huv hql' hul' hqv' huv'
  have hq' : q.len ≤ q.data.length := hq
  have hu' : u.len ≤ u.data.length := hu
  refine ⟨value_inj ?_ (hqv'.trans hqv.symm), value_inj ?_ (huv'.trans huv.symm)⟩
  · rw [List.length_take_of_le (hq'.trans_eq hql'.symm),
      List.length_take_of_le (hq'.trans_eq hql.symm)]
  · rw [List.length_take_of_le (hu'.trans_eq hul'.symm),
      List.length_take_of_le (hu'.trans_eq hul.symm)]

/-- **Recursive division agrees with basic division** if every block goes well: the quotient and the
remainder are exact, no assertion fails, no depth is without its temporary vector, every part lies
inside its vector, and algorithm D leaves the same words. -/
theorem natDivLarge_agrees_basic (hz : z.cap ≤ z.data.length) (hu : u.cap ≤ u.data.length)
    (huIn : Clean uIn) (hvIn : Clean vIn) (hn : divRecursiveThreshold ≤ vIn.len)
    (hle : vIn.val ≤ uIn.val) (hfits : LargeFits uIn.val vIn.val) :
    ∃ run : LargeRun z u uIn vIn, natDivLarge z u uIn vIn = .ok (run.q, run.r) ∧
      uIn.val = run.q.val * vIn.val + run.r.val ∧ run.r.val < vIn.val ∧
      natDivRecursiveIn run.q' run.uShifted run.vShifted = .ok (run.qdata, run.udata) ∧
      natDivRecursive run.q' run.uShifted run.vShifted = .ok (run.qdata, run.udata) ∧
      ∃ qd ud, natDivBasic run.q' run.uShifted run.vShifted = .ok (qd, ud) ∧
        qd.take run.q'.len = run.qdata.take run.q'.len ∧
        ud.take run.u'.len = run.udata.take run.u'.len := by
  have hn' : 100 ≤ vIn.len := hn
  have hlen := hvIn.len_le huIn hle
  obtain ⟨run, ⟨-, -, hq, hr⟩, top, hshifted⟩ :=
    natDivLarge_run hz hu huIn hvIn (by omega) hle hfits
  have hpos : 0 < vIn.val := by
    have h0 : 0 < wordLen vIn.val := hvIn.len_eq ▸ (by omega)
    exact (radix_pow_pos 0).trans_le (lt_wordLen_iff.mp h0)
  -- the recursive division is the one in the middle of the run
  have hrec : natDivRecursive run.q' run.uShifted run.vShifted = .ok (run.qdata, run.udata) := by
    have hcore := run.core
    rw [divideCore, if_neg (Nat.not_lt.mpr hn)] at hcore
    exact hcore
  have hdiv := hshifted.natDivRecursiveIn_divides hvIn hn hlen hfits
  have hin : natDivRecursiveIn run.q' run.uShifted run.vShifted = .ok (run.qdata, run.udata) := by
    obtain ⟨p, hp, -⟩ := hdiv
    rw [hp, ← natDivRecursiveIn_agrees _ _ _ p hp, hrec]
  have hbasic := hshifted.natDivBasic_divides hvIn (by omega) hlen
  obtain ⟨⟨qd, ud⟩, hrun, -⟩ := id hbasic
  refine ⟨run, run.natDivLarge_eq, ?_, ?_, hin, hrec, qd, ud, hrun,
    hdiv.words_eq hbasic hshifted.qValid hshifted.uValid hin hrun⟩
  · rw [hq, hr, Nat.mul_comm, Nat.div_add_mod]
  · rw [hr]
    exact Nat.mod_lt _ hpos

end

/-- A number of 100 words, with its top bit set. -/
def hundredWords (w0 w50 : Word) : CNat :=
  ⟨w0 :: List.replicate 49 0 ++ w50 :: List.replicate 48 0 ++ [0x8000000000000000], 100, 100⟩

theorem natDivLarge_agrees_basic_hundred :
    ∃ run : LargeRun (natNewLen 0) (natNewLen 0) (hundredWords 5 0) (hundredWords 1 0),
      natDivLarge (natNewLen 0) (natNewLen 0) (hundredWords 5 0) (hundredWords 1 0) =
        .ok (run.q, run.r) ∧
      (hundredWords 5 0).val = run.q.val * (hundredWords 1 0).val + run.r.val ∧
      run.r.val < (hundredWords 1 0).val ∧
      natDivRecursiveIn run.q' run.uShifted run.vShifted = .ok (run.qdata, run.udata) ∧
      natDivRecursive run.q' run.uShifted run.vShifted = .ok (run.qdata, run.udata) ∧
      ∃ qd ud, natDivBasic run.q' run.uShifted run.vShifted = .ok (qd, ud) ∧
        qd.take run.q'.len = run.qdata.take run.q'.len ∧
        ud.take run.u'.len = run.udata.take run.u'.len :=
  natDivLarge_agrees_basic (by decide) (by decide) ⟨by decide, by decide +kernel⟩
    ⟨by decide, by decide +kernel⟩ (by decide) (by decide +kernel) (by decide +kernel)

/-- The remainder is `radix ^ 50 - 1`, and the borrow counts twice in the third word. -/
theorem recursive_borrow_counts_twice :
    Clean (hundredWords 0 1) ∧ Clean (hundredWords 1 0) ∧
      divRecursiveThreshold ≤ (hundredWords 1 0).len ∧
      (hundredWords 1 0).val ≤ (hundredWords 0 1).val ∧
      natDivLarge (natNewLen 0) (natNewLen 0) (hundredWords 0 1) (hundredWords 1 0) =
        .error .assertFailed :=
  ⟨⟨by decide, by decide +kernel⟩, ⟨by decide, by decide +kernel⟩, by decide, by decide +kernel,
    by decide +kernel⟩

end CDemo.BigInt
