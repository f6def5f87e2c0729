/-
# The context switch (`swap_ctx_x64.asm`, `ctx.h`, `ctx.c`)

`swap_ctx(from, to)` stores the registers of the caller in `from`, loads those of `to` and jumps to
the return address that `to` was left with.  The assembly is one file for two calling conventions,
which differ in the registers of the two arguments and in what the save area has room for.

The instructions are given a meaning on a machine of sixteen general registers, sixteen vector
registers and memory, and `swapCtx` is the text of the file.  Memory is made of aligned words; the
save areas of different contexts are different words, and no stack overlaps a save area.
What runs between two calls may change every register and everything else in memory.

The save area has no room for the vector registers.  The System V convention wants none of them
kept; Win64 wants `xmm6` to `xmm15`, as the comment in `ctx.h` says, and `swap_preserves` makes that
the only difference.
-/
import CDemo.Lib.Trace
import Mathlib.Logic.Function.Basic
import Mathlib.Data.BitVec

namespace CDemo.Co

/-! ## 1. The machine -/

/-- The two builds. -/
inductive Abi where
  | sysV
  | win64
  deriving DecidableEq, Repr

/-- The general registers. -/
inductive Reg where
  | rax | rbx | rcx | rdx | rsi | rdi | rbp | rsp
  | r8 | r9 | r10 | r11 | r12 | r13 | r14 | r15
  deriving DecidableEq, Repr

/-- A word, or the address of one. -/
abbrev Word := BitVec 64

structure Cpu where
  reg : Reg → Word
  xmm : Fin 16 → BitVec 128
  mem : Word → Word
  rip : Word

/-- The instructions `swap_ctx` is made of; `[base + off]` is an operand in memory. -/
inductive Instr where
  | load (dst base : Reg) (off : Word)
  | store (base : Reg) (off : Word) (src : Reg)
  | lea (dst base : Reg) (off : Word)
  | push (base : Reg)
  | ret
  deriving DecidableEq, Repr

/-- Puts a word on the stack. -/
def Cpu.pushWord (s : Cpu) (w : Word) : Cpu :=
  { s with
    reg := Function.update s.reg .rsp (s.reg .rsp - 8)
    mem := Function.update s.mem (s.reg .rsp - 8) w }

def Instr.exec (s : Cpu) : Instr → Cpu
  | .load dst base off => { s with reg := Function.update s.reg dst (s.mem (s.reg base + off)) }
  | .store base off src => { s with mem := Function.update s.mem (s.reg base + off) (s.reg src) }
  | .lea dst base off => { s with reg := Function.update s.reg dst (s.reg base + off) }
  | .push base => s.pushWord (s.mem (s.reg base))
  | .ret => { s with
      reg := Function.update s.reg .rsp (s.reg .rsp + 8)
      rip := s.mem (s.reg .rsp) }

def runInstrs (code : List Instr) (s : Cpu) : Cpu := code.foldl Instr.exec s

/-! ## 2. The code -/

/-- `FROM`. -/
def Abi.fromReg : Abi → Reg
  | .sysV => .rdi
  | .win64 => .rcx

/-- `TO`. -/
def Abi.toReg : Abi → Reg
  | .sysV => .rsi
  | .win64 => .rdx

/-- The first half of `swap_ctx`: the caller goes to `FROM`. -/
def saveCtx (abi : Abi) : List Instr :=
  [.load .rax .rsp 0,
   .store abi.fromReg 0 .rax,
   .store abi.fromReg 0x08 .rbx,
   .store abi.fromReg 0x10 .r12,
   .store abi.fromReg 0x18 .r13,
   .store abi.fromReg 0x20 .r14,
   .store abi.fromReg 0x28 .r15,
   .store abi.fromReg 0x30 .rbp,
   .lea .rsp .rsp 8,
   .store abi.fromReg 0x38 .rsp,
   .store abi.fromReg 0x40 .rdi] ++
  match abi with
  | .sysV => []
  | .win64 => [.store abi.fromReg 0x48 .rsi, .store abi.fromReg 0x50 .rcx]

/-- The second half: the registers of `TO`, and the jump. -/
def restoreCtx (abi : Abi) : List Instr :=
  [.load .rbx abi.toReg 0x08,
   .load .r12 abi.toReg 0x10,
   .load .r13 abi.toReg 0x18,
   .load .r14 abi.toReg 0x20,
   .load .r15 abi.toReg 0x28,
   .load .rbp abi.toReg 0x30,
   .load .rsp abi.toReg 0x38,
   .load .rdi abi.toReg 0x40] ++
  (match abi with
  | .sysV => []
  | .win64 => [.load .rsi abi.toReg 0x48, .load .rcx abi.toReg 0x50]) ++
  [.push abi.toReg, .ret]

/-- `swap_ctx`. -/
def swapCtx (abi : Abi) : List Instr := saveCtx abi ++ restoreCtx abi

/-- `call swap_ctx` with this return address, up to the `ret` of `swap_ctx`. -/
def callSwap (abi : Abi) (ra : Word) (s : Cpu) : Cpu := runInstrs (swapCtx abi) (s.pushWord ra)

/-- The words of a `co_ctx` that hold registers. -/
def Abi.offsets : Abi → List Word
  | .sysV => [0x00, 0x08, 0x10, 0x18, 0x20, 0x28, 0x30, 0x38, 0x40]
  | .win64 => [0x00, 0x08, 0x10, 0x18, 0x20, 0x28, 0x30, 0x38, 0x40, 0x48, 0x50]

/-- `make_ctx`: the registers are cleared, the return address is the function and the stack pointer
the highest aligned address of the stack with room for a word. -/
def makeCtx (abi : Abi) (a fn ssSp ssSize : Word) (mem : Word → Word) : Word → Word :=
  let sp := (ssSp + ssSize - 8) &&& (-16)
  let sp := match abi with
    | .sysV => sp
    | .win64 => sp - 32
  fun x => if x = a then fn else if x = a + 0x38 then sp
    else if x ∈ abi.offsets.map (a + ·) then 0 else mem x

/-! ## 3. What a call does -/

/-- `x` is no word of the save area at `a`. -/
def Outside (abi : Abi) (a x : Word) : Prop := ∀ off ∈ abi.offsets, x ≠ a + off

instance (abi : Abi) (a x : Word) : Decidable (Outside abi a x) :=
  inferInstanceAs (Decidable (∀ off ∈ abi.offsets, x ≠ a + off))

section Call

variable {abi : Abi} {s : Cpu} {a b : Word}

/-- The registers the save area keeps, with their words. -/
def Abi.slots : Abi → List (Reg × Word)
  | .sysV => [(.rbx, 0x08), (.r12, 0x10), (.r13, 0x18), (.r14, 0x20), (.r15, 0x28), (.rbp, 0x30),
      (.rsp, 0x38), (.rdi, 0x40)]
  | .win64 => [(.rbx, 0x08), (.r12, 0x10), (.r13, 0x18), (.r14, 0x20), (.r15, 0x28), (.rbp, 0x30),
      (.rsp, 0x38), (.rdi, 0x40), (.rsi, 0x48), (.rcx, 0x50)]

/-- The save area at `a` holds the registers of `s` and the return address. -/
def Holds (abi : Abi) (mem : Word → Word) (a ra : Word) (reg : Reg → Word) : Prop :=
  mem a = ra ∧ ∀ p ∈ abi.slots, mem (a + p.2) = reg p.1

/-- **The first half stores the caller**, with the stack pointer it had before the call. -/
theorem saveCtx_holds (ra : Word) (hfrom : s.reg abi.fromReg = a) :
    Holds abi (runInstrs (saveCtx abi) (s.pushWord ra)).mem a ra s.reg := by
  subst hfrom
  constructor
  · cases abi <;> simp [runInstrs, saveCtx, Instr.exec, Cpu.pushWord, Abi.fromReg]
  · cases abi <;> simp [runInstrs, saveCtx, Instr.exec, Cpu.pushWord, Abi.fromReg, Abi.slots]

/-- It touches nothing but the save area and the word below the stack pointer. -/
theorem saveCtx_frame (ra : Word) (hfrom : s.reg abi.fromReg = a) {x : Word}
    (hx : Outside abi a x) (hsp : x ≠ s.reg .rsp - 8) :
    (runInstrs (saveCtx abi) (s.pushWord ra)).mem x = s.mem x := by
  subst hfrom
  cases abi with
  | sysV =>
    simp only [Outside, Abi.offsets, List.forall_mem_cons] at hx
    simp_all [runInstrs, saveCtx, Instr.exec, Cpu.pushWord, Abi.fromReg]
  | win64 =>
    simp only [Outside, Abi.offsets, List.forall_mem_cons] at hx
    simp_all [runInstrs, saveCtx, Instr.exec, Cpu.pushWord, Abi.fromReg]

theorem saveCtx_regs (ra : Word) :
    (runInstrs (saveCtx abi) (s.pushWord ra)).reg abi.toReg = s.reg abi.toReg ∧
    (runInstrs (saveCtx abi) (s.pushWord ra)).xmm = s.xmm := by
  cases abi <;> simp [runInstrs, saveCtx, Instr.exec, Cpu.pushWord, Abi.toReg]

/-- **The second half loads the registers of `TO`** and jumps to its return address. -/
theorem restoreCtx_spec (hto : s.reg abi.toReg = b) :
    (runInstrs (restoreCtx abi) s).rip = s.mem b ∧
    (∀ p ∈ abi.slots, (runInstrs (restoreCtx abi) s).reg p.1 = s.mem (b + p.2)) ∧
    (runInstrs (restoreCtx abi) s).xmm = s.xmm := by
  subst hto
  refine ⟨?_, ?_, ?_⟩
  · cases abi <;> simp [runInstrs, restoreCtx, Instr.exec, Cpu.pushWord, Abi.toReg]
  · cases abi <;> simp [runInstrs, restoreCtx, Instr.exec, Cpu.pushWord, Abi.toReg, Abi.slots]
  · cases abi <;> simp [runInstrs, restoreCtx, Instr.exec, Cpu.pushWord, Abi.toReg]

/-- It touches nothing but the word below the stack pointer it loads. -/
theorem restoreCtx_frame {x : Word} (hx : x ≠ (runInstrs (restoreCtx abi) s).reg .rsp - 8) :
    (runInstrs (restoreCtx abi) s).mem x = s.mem x := by
  cases abi <;>
    simp_all [runInstrs, restoreCtx, Instr.exec, Cpu.pushWord, Abi.toReg]

end Call

/-! ## 4. The runs -/

/-- Where the contexts are: no word is in the save areas of two. -/
structure Layout (abi : Abi) (Ctx : Type) where
  addr : Ctx → Word
  disjoint : ∀ c d, c ≠ d → ∀ off ∈ abi.offsets, Outside abi (addr d) (addr c + off)

/-- The machine, and the context whose code is running. -/
structure Sys (Ctx : Type) where
  cpu : Cpu
  cur : Ctx

/-- What can happen: code of the running context, `make_ctx(c)`, and `swap_ctx(cur, dest)` called
with return address `ra`. -/
inductive SwapEvent (Ctx : Type) where
  | work
  | make (c : Ctx)
  | swap (dest : Ctx) (ra : Word)

variable {abi : Abi} {Ctx : Type}

/-- The words of the save area at `a` are the same in both memories. -/
def SameArea (abi : Abi) (a : Word) (mem mem' : Word → Word) : Prop :=
  ∀ off ∈ abi.offsets, mem' (a + off) = mem (a + off)

inductive SwapStep (L : Layout abi Ctx) : Sys Ctx → SwapEvent Ctx → Sys Ctx → Prop
  | work {s : Sys Ctx} {cpu : Cpu} : (∀ c, SameArea abi (L.addr c) s.cpu.mem cpu.mem) →
      SwapStep L s .work ⟨cpu, s.cur⟩
  | make {s : Sys Ctx} {c : Ctx} {fn ssSp ssSize : Word} : SwapStep L s (.make c)
      ⟨{ s.cpu with mem := makeCtx abi (L.addr c) fn ssSp ssSize s.cpu.mem }, s.cur⟩
  | swap {s : Sys Ctx} {dest : Ctx} {ra : Word} : s.cpu.reg abi.fromReg = L.addr s.cur →
      s.cpu.reg abi.toReg = L.addr dest →
      (∀ c, Outside abi (L.addr c) (s.cpu.reg .rsp - 8)) →
      (∀ c, Outside abi (L.addr c) ((callSwap abi ra s.cpu).reg .rsp - 8)) →
      SwapStep L s (.swap dest ra) ⟨callSwap abi ra s.cpu, dest⟩

/-- **The running context calls `swap_ctx` in `s` and gets control back in `s'`**, by the call that
is made in `t`: its own, if it switches to itself, or another's after a run in which nobody
switched to it and it was not made anew. -/
inductive Comeback (step : Sys Ctx → SwapEvent Ctx → Sys Ctx → Prop) (s : Sys Ctx) (ra : Word) :
    Sys Ctx → Sys Ctx → Prop
  | self {s' : Sys Ctx} : step s (.swap s.cur ra) s' → Comeback step s ra s s'
  | away {dest : Ctx} {ra' : Word} {s₁ t s' : Sys Ctx} {later : List (SwapEvent Ctx)} :
      dest ≠ s.cur → step s (.swap dest ra) s₁ → Trace step s₁ later t →
      (∀ ra, SwapEvent.swap s.cur ra ∉ later) → SwapEvent.make s.cur ∉ later →
      step t (.swap s.cur ra') s' → Comeback step s ra t s'

/-! ## 5. Save areas over a run -/

theorem slots_offsets {p : Reg × Word} (h : p ∈ abi.slots) : p.2 ∈ abi.offsets := by
  revert p
  cases abi <;> decide

theorem Holds.congr {a ra : Word} {mem mem' : Word → Word} {reg : Reg → Word}
    (hsame : SameArea abi a mem mem') (h : Holds abi mem a ra reg) : Holds abi mem' a ra reg := by
  obtain ⟨hra, hregs⟩ := h
  constructor
  · have h0 := hsame 0 (by cases abi <;> decide)
    rw [add_zero] at h0
    exact h0.trans hra
  · intro p hp
    rw [hsame p.2 (slots_offsets hp)]
    exact hregs p hp

theorem callSwap_eq (ra : Word) (s : Cpu) : callSwap abi ra s =
    runInstrs (restoreCtx abi) (runInstrs (saveCtx abi) (s.pushWord ra)) :=
  List.foldl_append

section Steps

variable {L : Layout abi Ctx} {s s' : Sys Ctx} {dest c : Ctx} {ra : Word}

/-- A call leaves the caller in its save area. -/
theorem SwapStep.saves (h : SwapStep L s (.swap dest ra) s') :
    Holds abi s'.cpu.mem (L.addr s.cur) ra s.cpu.reg := by
  cases h with
  | swap hfrom _ _ hout =>
    refine (saveCtx_holds ra hfrom).congr fun off hoff => ?_
    dsimp only
    rw [callSwap_eq] at hout ⊢
    exact restoreCtx_frame fun h => hout s.cur off hoff h.symm

/-- The save areas of the others stay as they are. -/
theorem SwapStep.sameArea (h : SwapStep L s (.swap dest ra) s') (hc : c ≠ s.cur) :
    SameArea abi (L.addr c) s.cpu.mem s'.cpu.mem := by
  intro off hoff
  cases h with
  | swap hfrom _ hsp hout =>
    dsimp only
    rw [callSwap_eq] at hout ⊢
    rw [restoreCtx_frame fun h => hout c off hoff h.symm]
    exact saveCtx_frame ra hfrom (L.disjoint c s.cur hc off hoff) fun h => hsp c off hoff h.symm

/-- **A call makes the machine what the save area of the other side says.** -/
theorem SwapStep.loads (h : SwapStep L s (.swap dest ra) s') {ra₀ : Word} {reg : Reg → Word}
    (hold : Holds abi (runInstrs (saveCtx abi) (s.cpu.pushWord ra)).mem (L.addr dest) ra₀ reg) :
    s'.cpu.rip = ra₀ ∧ ∀ p ∈ abi.slots, s'.cpu.reg p.1 = reg p.1 := by
  cases h with
  | swap _ hto _ _ =>
    rw [← (saveCtx_regs ra).1] at hto
    obtain ⟨hrip, hregs, -⟩ := restoreCtx_spec hto
    dsimp only
    rw [callSwap_eq]
    refine ⟨hrip.trans hold.1, fun p hp => ?_⟩
    rw [hregs p hp]
    exact hold.2 p hp

/-- No call touches the vector registers. -/
theorem SwapStep.xmm (h : SwapStep L s (.swap dest ra) s') : s'.cpu.xmm = s.cpu.xmm := by
  cases h with
  | swap _ hto _ _ =>
    rw [← (saveCtx_regs ra).1] at hto
    dsimp only
    rw [callSwap_eq, (restoreCtx_spec hto).2.2, (saveCtx_regs ra).2]

theorem SwapStep.cur (h : SwapStep L s (.swap dest ra) s') : s'.cur = dest := by
  cases h with
  | swap _ _ _ _ => rfl

end Steps

/-- `make_ctx` writes one save area. -/
theorem makeCtx_frame {a fn ssSp ssSize x : Word} {mem : Word → Word} (h : Outside abi a x) :
    makeCtx abi a fn ssSp ssSize mem x = mem x := by
  have h0 : x ≠ a := by simpa using h 0 (by cases abi <;> decide)
  have h38 : x ≠ a + 0x38 := h 0x38 (by cases abi <;> decide)
  have hmem : x ∉ abi.offsets.map (a + ·) := by
    intro hx
    obtain ⟨off, hoff, rfl⟩ := List.mem_map.mp hx
    exact h off hoff rfl
  simp only [makeCtx]
  rw [if_neg h0, if_neg h38, if_neg hmem]

/-- Context `c` waits: another one runs, and the save area of `c` holds what it left. -/
def Waits (L : Layout abi Ctx) (c : Ctx) (ra : Word) (reg : Reg → Word) (s : Sys Ctx) : Prop :=
  s.cur ≠ c ∧ Holds abi s.cpu.mem (L.addr c) ra reg

/-- **A waiting context goes on where it was left**, with its registers. -/
theorem SwapStep.resumes {L : Layout abi Ctx} {s s' : Sys Ctx} {c : Ctx} {ra ra' : Word}
    {reg : Reg → Word} (hs : SwapStep L s (.swap c ra') s') (h : Waits L c ra reg s) :
    s'.cpu.rip = ra ∧ ∀ p ∈ abi.slots, s'.cpu.reg p.1 = reg p.1 := by
  obtain ⟨hcur, hold⟩ := h
  obtain ⟨hfrom, hsp⟩ : s.cpu.reg abi.fromReg = L.addr s.cur ∧
      ∀ d, Outside abi (L.addr d) (s.cpu.reg .rsp - 8) := by
    cases hs with
    | swap hfrom _ hsp _ => exact ⟨hfrom, hsp⟩
  exact hs.loads (hold.congr fun off hoff =>
    saveCtx_frame ra' hfrom (L.disjoint c s.cur (Ne.symm hcur) off hoff)
      fun h => hsp c off hoff h.symm)

/-- **The step lemma.** -/
theorem SwapStep.waits {L : Layout abi Ctx} {s s' : Sys Ctx} {e : SwapEvent Ctx}
    (hs : SwapStep L s e s') {c : Ctx} {ra : Word} {reg : Reg → Word}
    (hswap : ∀ ra, e ≠ .swap c ra) (hmake : e ≠ .make c) (h : Waits L c ra reg s) :
    Waits L c ra reg s' := by
  obtain ⟨hcur, hold⟩ := h
  cases e with
  | work =>
    cases hs with
    | work hsame => exact ⟨hcur, hold.congr (hsame c)⟩
  | make d =>
    have hcd : c ≠ d := fun h => hmake (by rw [h])
    cases hs with
    | make =>
      exact ⟨hcur, hold.congr fun off hoff => makeCtx_frame (L.disjoint c d hcd off hoff)⟩
  | swap dest ra' =>
    refine ⟨?_, hold.congr (hs.sameArea (Ne.symm hcur))⟩
    rw [hs.cur]
    exact fun h => hswap ra' (by rw [h])

/-- **The run lemma.** -/
theorem trace_waits {L : Layout abi Ctx} {s : Sys Ctx} {c : Ctx} {ra : Word} {reg : Reg → Word}
    (h : Waits L c ra reg s) : ∀ {later : List (SwapEvent Ctx)} {t : Sys Ctx},
    Trace (SwapStep L) s later t → (∀ ra, SwapEvent.swap c ra ∉ later) →
      SwapEvent.make c ∉ later → Waits L c ra reg t
  | [], _, .start, _, _ => h
  | e :: later, _, .call htr hs, hswap, hmake => by
    have ih := trace_waits h htr (fun ra hmem => hswap ra (List.mem_cons_of_mem _ hmem))
      fun hmem => hmake (List.mem_cons_of_mem _ hmem)
    exact hs.waits (fun ra he => hswap ra (by rw [he]; exact List.mem_cons_self))
      (fun he => hmake (by rw [he]; exact List.mem_cons_self)) ih

/-! ## 6. Coming back -/

/-- The general registers the convention calls non-volatile. -/
def Abi.nonvolatile : Abi → List Reg
  | .sysV => [.rbx, .rbp, .rsp, .r12, .r13, .r14, .r15]
  | .win64 => [.rbx, .rbp, .rdi, .rsi, .rsp, .r12, .r13, .r14, .r15]

/-- The vector registers it calls non-volatile. -/
def Abi.nonvolatileXmm : Abi → List (Fin 16)
  | .sysV => []
  | .win64 => [6, 7, 8, 9, 10, 11, 12, 13, 14, 15]

/-- The code goes on behind its call, with its registers. -/
def Preserved (abi : Abi) (ra : Word) (s s' : Cpu) : Prop :=
  s'.rip = ra ∧ (∀ r ∈ abi.nonvolatile, s'.reg r = s.reg r) ∧
    ∀ i ∈ abi.nonvolatileXmm, s'.xmm i = s.xmm i

theorem nonvolatile_slots {r : Reg} (h : r ∈ abi.nonvolatile) : ∃ p ∈ abi.slots, p.1 = r := by
  revert r
  cases abi <;> decide

/-- **Return address and general registers come back**, and the vector registers are those of the
call that switches back. -/
theorem Comeback.loads {L : Layout abi Ctx} {s t s' : Sys Ctx} {ra : Word}
    (h : Comeback (SwapStep L) s ra t s') :
    s'.cpu.rip = ra ∧ (∀ p ∈ abi.slots, s'.cpu.reg p.1 = s.cpu.reg p.1) ∧
      s'.cpu.xmm = t.cpu.xmm := by
  cases h with
  | self hs =>
    have hfrom : s.cpu.reg abi.fromReg = L.addr s.cur := by
      cases hs with
      | swap hfrom _ _ _ => exact hfrom
    obtain ⟨hrip, hregs⟩ := hs.loads (saveCtx_holds ra hfrom)
    exact ⟨hrip, hregs, hs.xmm⟩
  | @away dest ra' s₁ t s' later hne hs htr hswap hmake hback =>
    have hwait : Waits L s.cur ra s.cpu.reg s₁ := ⟨by rw [hs.cur]; exact hne, hs.saves⟩
    obtain ⟨hrip, hregs⟩ := hback.resumes (trace_waits hwait htr hswap hmake)
    exact ⟨hrip, hregs, hback.xmm⟩

/-- The step keeps `xmm6` to `xmm15`. -/
def KeepsXmm (s s' : Sys Ctx) : Prop := ∀ i ∈ Abi.win64.nonvolatileXmm, s'.cpu.xmm i = s.cpu.xmm i

/-- A step of the runs in which no code changes `xmm6` to `xmm15` between two calls. -/
def CalmStep (L : Layout abi Ctx) (s : Sys Ctx) (e : SwapEvent Ctx) (s' : Sys Ctx) : Prop :=
  SwapStep L s e s' ∧ (e = .work → KeepsXmm s s')

theorem CalmStep.keepsXmm {L : Layout abi Ctx} {s s' : Sys Ctx} {e : SwapEvent Ctx}
    (h : CalmStep L s e s') : KeepsXmm s s' := by
  obtain ⟨hs, hwork⟩ := h
  cases e with
  | work => exact hwork rfl
  | make c =>
    cases hs with
    | make => exact fun _ _ => rfl
  | swap dest ra => exact fun i _ => congrFun hs.xmm i

/-- In a calm run the vector registers come back too. -/
theorem Comeback.calm {L : Layout abi Ctx} {s t s' : Sys Ctx} {ra : Word}
    (h : Comeback (CalmStep L) s ra t s') :
    Comeback (SwapStep L) s ra t s' ∧ KeepsXmm s t := by
  cases h with
  | self hs => exact ⟨.self hs.1, fun _ _ => rfl⟩
  | @away dest ra' s₁ t s' later hne hs htr hswap hmake hback =>
    have htr' : ∀ {later : List (SwapEvent Ctx)} {t : Sys Ctx}, Trace (CalmStep L) s₁ later t →
        Trace (SwapStep L) s₁ later t ∧ KeepsXmm s t := by
      intro later t htr
      induction htr with
      | start => exact ⟨.start, hs.keepsXmm⟩
      | call _ hstep ih =>
        exact ⟨.call ih.1 hstep.1, fun i hi => (hstep.keepsXmm i hi).trans (ih.2 i hi)⟩
    exact ⟨.away hne hs.1 (htr' htr).1 hswap hmake hback.1, (htr' htr).2⟩

/-- **What a context finds when it comes back.**  For any number of contexts, any calls between
them and any use of the registers: the code goes on at its return address with every non-volatile
register as it was, exactly when the convention is System V or `xmm6` to `xmm15` hold, at the call
that switches back, what they held at the context's own call; so in particular in every run in
which no code changes them between two calls. -/
theorem swap_preserves (L : Layout abi Ctx) :
    (∀ {s t s' : Sys Ctx} {ra : Word}, Comeback (SwapStep L) s ra t s' →
      (Preserved abi ra s.cpu s'.cpu ↔ abi = .sysV ∨ KeepsXmm s t)) ∧
    ∀ {s t s' : Sys Ctx} {ra : Word}, Comeback (CalmStep L) s ra t s' →
      Preserved abi ra s.cpu s'.cpu := by
  have hiff : ∀ {s t s' : Sys Ctx} {ra : Word}, Comeback (SwapStep L) s ra t s' →
      (Preserved abi ra s.cpu s'.cpu ↔ abi = .sysV ∨ KeepsXmm s t) := by
    intro s t s' ra h
    obtain ⟨hrip, hregs, hxmm⟩ := h.loads
    have hnv : ∀ r ∈ abi.nonvolatile, s'.cpu.reg r = s.cpu.reg r := by
      intro r hr
      obtain ⟨p, hp, rfl⟩ := nonvolatile_slots hr
      exact hregs p hp
    rw [Preserved, hxmm]
    cases abi with
    | sysV => exact ⟨fun _ => .inl rfl, fun _ => ⟨hrip, hnv, fun i hi => nomatch hi⟩⟩
    | win64 =>
      constructor
      · exact fun hp => .inr hp.2.2
      · rintro (habi | hkeep)
        · exact absurd habi (by decide)
        · exact ⟨hrip, hnv, hkeep⟩
  exact ⟨hiff, fun h => (hiff h.calm.1).mpr (.inr h.calm.2)⟩

/-! ## 7. Two contexts -/

/-- The context of the main function and one of a coroutine. -/
def twoContexts (abi : Abi) : Layout abi Bool where
  addr c := if c then 0x2000 else 0x1000
  disjoint := by cases abi <;> simp [Outside, Abi.offsets]

/-- The main function about to call `swap_ctx`, with a coroutine that was just made. -/
def mainCalls (abi : Abi) : Cpu where
  reg := Function.update (Function.update (fun _ => 0x8000) abi.fromReg 0x1000) abi.toReg 0x2000
  xmm := fun _ => 0
  mem := makeCtx abi 0x2000 0x500 0x9000 0x1000 fun _ => 0
  rip := 0x3f0

/-- The stack pointer the coroutine starts with. -/
theorem rsp_mainCalls (abi : Abi) : (callSwap abi 0x400 (mainCalls abi)).reg .rsp =
    match abi with
    | .sysV => 0x9ff0
    | .win64 => 0x9fd0 := by
  cases abi <;>
    simp [callSwap, swapCtx, runInstrs, saveCtx, restoreCtx, Instr.exec, Cpu.pushWord, Abi.fromReg,
      Abi.toReg, mainCalls, makeCtx]

/-- The coroutine about to call it, after using the vector registers. -/
def coroutineCalls (abi : Abi) : Cpu :=
  { callSwap abi 0x400 (mainCalls abi) with
    reg := Function.update (Function.update (callSwap abi 0x400 (mainCalls abi)).reg
      abi.fromReg 0x2000) abi.toReg 0x1000
    xmm := fun _ => 1 }

/-- The main function switches to the coroutine. -/
theorem step_mainCalls (abi : Abi) : SwapStep (twoContexts abi) ⟨mainCalls abi, false⟩
    (.swap true 0x400) ⟨callSwap abi 0x400 (mainCalls abi), true⟩ := by
  refine .swap ?_ ?_ ?_ ?_
  · cases abi <;> simp [mainCalls, twoContexts, Abi.fromReg, Abi.toReg]
  · cases abi <;> simp [mainCalls, twoContexts, Abi.toReg]
  · cases abi <;> simp [mainCalls, twoContexts, Abi.fromReg, Abi.toReg, Outside, Abi.offsets]
  · rw [rsp_mainCalls]
    cases abi <;> simp [twoContexts, Outside, Abi.offsets]

/-- The coroutine's call finds the main function where it was left. -/
theorem step_coroutineCalls (abi : Abi) : SwapStep (twoContexts abi) ⟨coroutineCalls abi, true⟩
    (.swap false 0x600) ⟨callSwap abi 0x600 (coroutineCalls abi), false⟩ := by
  have hfrom : (coroutineCalls abi).reg abi.fromReg = 0x2000 := by
    cases abi <;> simp [coroutineCalls, Abi.fromReg, Abi.toReg]
  have hto : (coroutineCalls abi).reg abi.toReg = 0x1000 := by
    cases abi <;> simp [coroutineCalls, Abi.toReg]
  have hsp : ∀ c, Outside abi ((twoContexts abi).addr c) ((coroutineCalls abi).reg .rsp - 8) := by
    have hrsp : (coroutineCalls abi).reg .rsp = (callSwap abi 0x400 (mainCalls abi)).reg .rsp := by
      cases abi <;> simp [coroutineCalls, Abi.fromReg, Abi.toReg]
    rw [hrsp, rsp_mainCalls]
    cases abi <;> simp [twoContexts, Outside, Abi.offsets]
  -- the stack pointer of the main function is the one it called with
  have hslot : (Reg.rsp, (0x38 : Word)) ∈ abi.slots := by cases abi <;> decide
  have hmain : (callSwap abi 0x400 (mainCalls abi)).mem (0x1000 + 0x38) = 0x8000 := by
    refine ((step_mainCalls abi).saves.2 _ hslot).trans ?_
    cases abi <;> simp [mainCalls, Abi.fromReg, Abi.toReg]
  have hback : (callSwap abi 0x600 (coroutineCalls abi)).reg .rsp = 0x8000 := by
    rw [← (saveCtx_regs 0x600).1] at hto
    rw [callSwap_eq, (restoreCtx_spec hto).2.1 _ hslot]
    have hoff := slots_offsets hslot
    refine (saveCtx_frame 0x600 hfrom ((twoContexts abi).disjoint false true (by simp) _ hoff)
      fun h => hsp false _ hoff h.symm).trans hmain
  refine .swap hfrom hto hsp ?_
  rw [hback]
  cases abi <;> simp [twoContexts, Outside, Abi.offsets]

/-- The main function switches to the coroutine, and the coroutine back. -/
theorem comeback_twoContexts (abi : Abi) : Comeback (SwapStep (twoContexts abi))
    ⟨mainCalls abi, false⟩ 0x400 ⟨coroutineCalls abi, true⟩
      ⟨callSwap abi 0x600 (coroutineCalls abi), false⟩ :=
  .away (by simp) (step_mainCalls abi) (.call .start (.work fun _ _ _ => rfl)) (by simp)
    (by simp) (step_coroutineCalls abi)

/-- Under System V the main function finds its registers. -/
theorem swap_preserves_sysV :
    Comeback (SwapStep (twoContexts .sysV)) ⟨mainCalls .sysV, false⟩ 0x400
      ⟨coroutineCalls .sysV, true⟩ ⟨callSwap .sysV 0x600 (coroutineCalls .sysV), false⟩ ∧
    Preserved .sysV 0x400 (mainCalls .sysV) (callSwap .sysV 0x600 (coroutineCalls .sysV)) :=
  ⟨comeback_twoContexts .sysV,
    ((swap_preserves (twoContexts .sysV)).1 (comeback_twoContexts .sysV)).mpr (.inl rfl)⟩

/-- **Under Win64 it finds the coroutine's `xmm6`.** -/
theorem swap_win64_xmm :
    Comeback (SwapStep (twoContexts .win64)) ⟨mainCalls .win64, false⟩ 0x400
      ⟨coroutineCalls .win64, true⟩ ⟨callSwap .win64 0x600 (coroutineCalls .win64), false⟩ ∧
    (mainCalls .win64).xmm 6 = 0 ∧
    (callSwap .win64 0x600 (coroutineCalls .win64)).xmm 6 = 1 ∧
    ¬ Preserved .win64 0x400 (mainCalls .win64)
      (callSwap .win64 0x600 (coroutineCalls .win64)) := by
  have hxmm := (comeback_twoContexts .win64).loads.2.2
  refine ⟨comeback_twoContexts .win64, rfl, congrFun hxmm 6, fun h => ?_⟩
  have h6 := h.2.2 6 (by decide)
  rw [show (callSwap .win64 0x600 (coroutineCalls .win64)).xmm 6 = 1 from congrFun hxmm 6] at h6
  exact absurd h6 (by decide)

end CDemo.Co
