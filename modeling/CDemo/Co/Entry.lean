/-
# The first entry into a coroutine (`ctx.c`, `swap_ctx_x64.asm`)

`make_ctx` prepares a save area for a function that has not run yet: the return address is the
function, and the stack pointer is the highest address of the stack that is a multiple of 16 and has
room for a word, on Win64 less 32 for the shadow area.  The first `swap_ctx` into the context pushes
the return address below that and takes it off again with its `ret`.

So the function starts with the stack pointer that `make_ctx` chose.  A compiled function expects
what a `call` leaves, a multiple of 16 less the 8 bytes of the return address, and its own pushes
and aligned accesses are laid out for that.  `first_entry` says that the words it may use lie inside
the stack, and that the alignment is wrong for every base and every size.
-/
import CDemo.Co.Swap

namespace CDemo.Co

variable {abi : Abi} {Ctx : Type}

/-! ## 1. What `make_ctx` leaves -/

/-- Rounding down to a multiple of 16. -/
theorem toNat_and_neg_16 (x : Word) : (x &&& (-16)).toNat = x.toNat / 16 * 16 := by
  have hmask : ((-16 : Word)).toNat = 2 ^ 64 - (15 + 1) := by decide
  have hshift : x.toNat / 16 * 16 = (x.toNat >>> 4) <<< 4 := by
    rw [Nat.shiftLeft_eq, Nat.shiftRight_eq_div_pow]
  rw [BitVec.toNat_and, hmask, hshift]
  refine Nat.eq_of_testBit_eq fun i => ?_
  rw [Nat.testBit_and, Nat.testBit_two_pow_sub_succ (by decide), Nat.testBit_shiftLeft,
    show 15 = 2 ^ 4 - 1 from rfl, Nat.testBit_two_pow_sub_one, Nat.testBit_shiftRight]
  by_cases hi : 4 ≤ i
  · by_cases h64 : i < 64
    · simp [hi, h64]
    · have hx : x.toNat.testBit i = false :=
        Nat.testBit_lt_two_pow (x.isLt.trans_le (Nat.pow_le_pow_right (by decide) (by omega)))
      simp [hi, hx]
  · simp [hi, Nat.lt_of_not_le hi]

/-- The size of the shadow area. -/
def Abi.shadow : Abi → Nat
  | .sysV => 0
  | .win64 => 32

/-- The stack pointer that `make_ctx` stores. -/
def startSp (abi : Abi) (ssSp ssSize : Word) : Word :=
  ((ssSp + ssSize - 8) &&& (-16)) - BitVec.ofNat 64 abi.shadow

/-- The registers a new context is loaded with. -/
def startRegs (abi : Abi) (ssSp ssSize : Word) (r : Reg) : Word :=
  if r = .rsp then startSp abi ssSp ssSize else 0

theorem makeCtx_holds (a fn ssSp ssSize : Word) (mem : Word → Word) :
    Holds abi (makeCtx abi a fn ssSp ssSize mem) a fn (startRegs abi ssSp ssSize) := by
  constructor
  · simp [makeCtx]
  · intro p hp
    cases abi with
    | sysV =>
      simp only [Abi.slots, List.mem_cons, List.not_mem_nil, or_false] at hp
      rcases hp with rfl | rfl | rfl | rfl | rfl | rfl | rfl | rfl <;>
        simp [makeCtx, startRegs, startSp, Abi.offsets, Abi.shadow]
    | win64 =>
      simp only [Abi.slots, List.mem_cons, List.not_mem_nil, or_false] at hp
      rcases hp with rfl | rfl | rfl | rfl | rfl | rfl | rfl | rfl | rfl | rfl <;>
        simp [makeCtx, startRegs, startSp, Abi.offsets, Abi.shadow]

theorem startSp_mod (abi : Abi) (ssSp ssSize : Word) :
    (startSp abi ssSp ssSize).toNat % 16 = 0 := by
  have hand := toNat_and_neg_16 (ssSp + ssSize - 8)
  rw [startSp, BitVec.toNat_sub, hand]
  cases abi <;> simp only [Abi.shadow, BitVec.toNat_ofNat] <;> omega

/-- Where the stack pointer is, for a stack that does not run over the end of the address space. -/
theorem toNat_startSp (abi : Abi) {ssSp ssSize : Word} (hsize : 64 ≤ ssSize.toNat)
    (hroom : ssSp.toNat + ssSize.toNat ≤ 2 ^ 64) :
    (startSp abi ssSp ssSize).toNat + abi.shadow =
      (ssSp.toNat + ssSize.toNat - 8) / 16 * 16 := by
  have htop : (ssSp + ssSize - 8).toNat = ssSp.toNat + ssSize.toNat - 8 := by
    rw [BitVec.toNat_sub, BitVec.toNat_add]
    have h8 : (8 : Word).toNat = 8 := rfl
    omega
  have hand := toNat_and_neg_16 (ssSp + ssSize - 8)
  rw [htop] at hand
  rw [startSp, BitVec.toNat_sub, hand]
  cases abi <;> simp only [Abi.shadow, BitVec.toNat_ofNat] <;> omega

/-! ## 2. The entry -/

/-- The return address and the shadow area above it lie inside the stack. -/
def InStack (abi : Abi) (ssSp ssSize : Word) (s : Cpu) : Prop :=
  ssSp.toNat ≤ (s.reg .rsp).toNat ∧
    (s.reg .rsp).toNat + 8 + abi.shadow ≤ ssSp.toNat + ssSize.toNat

/-- **What a compiled function relies on when it starts**: it is the function, the stack pointer is
8 less than a multiple of 16, and its words lie inside the stack. -/
def ObeysAbi (abi : Abi) (fn ssSp ssSize : Word) (s : Cpu) : Prop :=
  s.rip = fn ∧ ((s.reg .rsp).toNat + 8) % 16 = 0 ∧ InStack abi ssSp ssSize s

/-- **The first entry.**  A context is made for a function, others run and switch, and then one
switches to the context for the first time.  The function starts with its words inside the stack,
and with the stack pointer at a multiple of 16, where no compiled function expects it. -/
theorem first_entry {L : Layout abi Ctx} {s t s' : Sys Ctx} {c : Ctx}
    {fn ssSp ssSize ra : Word} {later : List (SwapEvent Ctx)} (hcur : s.cur ≠ c)
    (hrun : Trace (SwapStep L)
      ⟨{ s.cpu with mem := makeCtx abi (L.addr c) fn ssSp ssSize s.cpu.mem }, s.cur⟩ later t)
    (hswap : ∀ ra, SwapEvent.swap c ra ∉ later) (hmake : SwapEvent.make c ∉ later)
    (hentry : SwapStep L t (.swap c ra) s') :
    ¬ ObeysAbi abi fn ssSp ssSize s'.cpu ∧ s'.cpu.rip = fn ∧
      (s'.cpu.reg .rsp).toNat % 16 = 0 ∧
      (64 ≤ ssSize.toNat → ssSp.toNat + ssSize.toNat ≤ 2 ^ 64 →
        InStack abi ssSp ssSize s'.cpu) := by
  have hwait : Waits L c fn (startRegs abi ssSp ssSize)
      ⟨{ s.cpu with mem := makeCtx abi (L.addr c) fn ssSp ssSize s.cpu.mem }, s.cur⟩ :=
    ⟨hcur, makeCtx_holds _ _ _ _ _⟩
  obtain ⟨hrip, hregs⟩ := hentry.resumes (trace_waits hwait hrun hswap hmake)
  have hrsp : s'.cpu.reg .rsp = startSp abi ssSp ssSize :=
    hregs (.rsp, 0x38) (by cases abi <;> decide)
  have hmod := startSp_mod abi ssSp ssSize
  refine ⟨?_, hrip, ?_, fun hsize hroom => ?_⟩
  · rintro ⟨-, halign, -⟩
    rw [hrsp] at halign
    omega
  · rw [hrsp]
    exact hmod
  · have hval := toNat_startSp abi hsize hroom
    rw [InStack, hrsp]
    have hshadow : abi.shadow ≤ 32 := by cases abi <;> decide
    omega

/-- The main function enters the coroutine it has just made, on both platforms. -/
theorem first_entry_twoContexts :
    (¬ ObeysAbi .sysV 0x500 0x9000 0x1000 (callSwap .sysV 0x400 (mainCalls .sysV)) ∧
      InStack .sysV 0x9000 0x1000 (callSwap .sysV 0x400 (mainCalls .sysV))) ∧
    ¬ ObeysAbi .win64 0x500 0x9000 0x1000 (callSwap .win64 0x400 (mainCalls .win64)) ∧
      InStack .win64 0x9000 0x1000 (callSwap .win64 0x400 (mainCalls .win64)) := by
  obtain ⟨h, -, -, hin⟩ := first_entry (s := ⟨{ mainCalls .sysV with mem := fun _ => 0 }, false⟩)
    Bool.false_ne_true .start (by simp) (by simp) (step_mainCalls .sysV)
  obtain ⟨h', -, -, hin'⟩ := first_entry (s := ⟨{ mainCalls .win64 with mem := fun _ => 0 }, false⟩)
    Bool.false_ne_true .start (by simp) (by simp) (step_mainCalls .win64)
  exact ⟨⟨h, hin (by decide) (by decide)⟩, h', hin' (by decide) (by decide)⟩

/-- **A stack of 4096 bytes at `0x9000`**: `_co_main` starts with `rsp = 0x9ff0`. -/
theorem entry_misaligned :
    SwapStep (twoContexts .sysV) ⟨mainCalls .sysV, false⟩ (.swap true 0x400)
      ⟨callSwap .sysV 0x400 (mainCalls .sysV), true⟩ ∧
    ((callSwap .sysV 0x400 (mainCalls .sysV)).reg .rsp).toNat = 0x9ff0 ∧
    (0x9ff0 + 8) % 16 ≠ 0 ∧
    ¬ ObeysAbi .sysV 0x500 0x9000 0x1000 (callSwap .sysV 0x400 (mainCalls .sysV)) := by
  have hrsp := rsp_mainCalls .sysV
  refine ⟨step_mainCalls .sysV, by rw [hrsp]; rfl, by decide, ?_⟩
  rintro ⟨-, halign, -⟩
  rw [hrsp] at halign
  exact absurd halign (by decide)

end CDemo.Co
