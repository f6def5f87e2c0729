/-
# TRY, CATCH, EXCEPT and THROW (`except.h`, `except.c`)

The macros turn a structured construct into an `if` over `sigsetjmp`, an array of 256 jump buffers
and a counter.  This file has both sides: the language with the constructs in it (`Stmt`), the C
code the macros make of it (`CStmt`, `expand`), and a machine that runs that code.

The machine has a stack of statements still to be run, which is what `sigsetjmp` saves and
`siglongjmp` puts back.  A function call runs the function's body in front of the rest.  What
ordinary statements change is one state of any type, and a jump leaves it as it is.  So it is the
part of the memory that a jump leaves: after `siglongjmp` a local variable of the function with the
`TRY` that has changed since, and is not `volatile`, has no determined value, and is not in it.
The branches of an `if` are blocks in braces, as the macros need: the `else` of `CATCH` would
otherwise be taken for one of theirs.  An index outside the array and a jump through a buffer nobody
set stop the run.

`depth` is an `unsigned int`: below zero it goes on at the other end.
-/
import CDemo.Lib.Run
import Mathlib.Tactic.Ring

namespace CDemo.TryCatch

/-! ## 1. The language -/

/-- The two signals the handler turns into exceptions. -/
inductive Signal where
  | sigfpe
  | sigsegv
  deriving DecidableEq, Repr

/-- The number of a signal. -/
def Signal.number : Signal → Int
  | .sigfpe => 8
  | .sigsegv => 11

/-- A program: ordinary statements over a state `σ`, functions `F`, and the constructs.  A `CATCH`
without an `else` block has the empty one. -/
inductive Stmt (σ F : Type) where
  | skip
  | act (f : σ → σ)
  | seq (a b : Stmt σ F)
  | ite (p : σ → Bool) (a b : Stmt σ F)
  | while (p : σ → Bool) (a : Stmt σ F)
  | call (f : F)
  | tryCatch (body : Stmt σ F) (c : Int) (handler orElse : Stmt σ F)
  | tryExcept (body handler : Stmt σ F)
  | throw (x : σ → Int)
  | fault (s : Signal)

/-! ## 2. The C code -/

/-- C statements: `trySet a b` is `if (sigsetjmp(buf[depth++].buf, 1) == 0) a else b`,
`dec` is `--depth`, `ifResult c a b` is `if (buf[depth].result == c) a else b`. -/
inductive CStmt (σ F : Type) where
  | skip
  | act (f : σ → σ)
  | seq (a b : CStmt σ F)
  | ite (p : σ → Bool) (a b : CStmt σ F)
  | while (p : σ → Bool) (a : CStmt σ F)
  | call (f : F)
  | trySet (a b : CStmt σ F)
  | dec
  | ifResult (c : Int) (a b : CStmt σ F)
  | throw (x : σ → Int)
  | fault (s : Signal)

variable {σ F : Type}

/-- The preprocessor. -/
def expand : Stmt σ F → CStmt σ F
  | .skip => .skip
  | .act f => .act f
  | .seq a b => .seq (expand a) (expand b)
  | .ite p a b => .ite p (expand a) (expand b)
  | .while p a => .while p (expand a)
  | .call f => .call f
  | .tryCatch body c handler orElse =>
    .trySet (.seq (expand body) .dec) (.ifResult c (expand handler) (expand orElse))
  | .tryExcept body handler => .trySet (.seq (expand body) .dec) (expand handler)
  | .throw x => .throw x
  | .fault s => .fault s

/-! ## 3. The machine -/

/-- `jmp_buf`: the `if` in which `sigsetjmp` was called, and what comes after it. -/
structure JmpBuf (σ F : Type) where
  zero : CStmt σ F
  other : CStmt σ F
  rest : List (CStmt σ F)

/-- `jump_buffer`. -/
structure JumpBuffer (σ F : Type) where
  buf : Option (JmpBuf σ F)
  result : Int

/-- What is still to be run, the state, and the two globals. -/
structure Machine (σ F : Type) where
  code : List (CStmt σ F)
  mem : σ
  depth : Nat
  bufs : List (JumpBuffer σ F)

/-- `sigsetjmp` returns `v`, in the `if` it was called in. -/
def JmpBuf.resume (b : JmpBuf σ F) (v : Int) : List (CStmt σ F) :=
  (if v = 0 then b.zero else b.other) :: b.rest

/-- What `sigsetjmp` returns after `siglongjmp(buf, v)`. -/
def longjmpValue (v : Int) : Int := if v = 0 then 1 else v

/-- `++` and `--` of an `unsigned int`. -/
def inc32 (n : Nat) : Nat := (n + 1) % 2 ^ 32

def dec32 (n : Nat) : Nat := (n + (2 ^ 32 - 1)) % 2 ^ 32

/-- `THROW`, and the handler `sig`: `buf[--depth].result = v` and the jump. -/
def raise (m : Machine σ F) (v : Int) : Run (Machine σ F) := do
  let depth := dec32 m.depth
  let b ← Run.read m.bufs depth
  let bufs ← Run.write m.bufs depth { b with result := v }
  let buf ← Run.object b.buf
  .ok { m with code := buf.resume (longjmpValue v), depth := depth, bufs := bufs }

/-- `TRY`: `sigsetjmp(buf[depth++].buf, 1)` returns 0. -/
def setjmp (m : Machine σ F) (a b : CStmt σ F) : Run (Machine σ F) := do
  let old ← Run.read m.bufs m.depth
  let buf : JmpBuf σ F := ⟨a, b, m.code⟩
  let bufs ← Run.write m.bufs m.depth { old with buf := some buf }
  .ok { m with code := buf.resume 0, depth := inc32 m.depth, bufs := bufs }

/-- One statement, in front of `m.code`. -/
def exec (funs : F → CStmt σ F) (m : Machine σ F) : CStmt σ F → Run (Machine σ F)
  | .skip => .ok m
  | .act f => .ok { m with mem := f m.mem }
  | .seq a b => .ok { m with code := a :: b :: m.code }
  | .ite p a b => .ok { m with code := (if p m.mem then a else b) :: m.code }
  | .while p a => .ok (if p m.mem then { m with code := a :: .while p a :: m.code } else m)
  | .call f => .ok { m with code := funs f :: m.code }
  | .trySet a b => setjmp m a b
  | .dec => .ok { m with depth := dec32 m.depth }
  | .ifResult c a b => do
    let buf ← Run.read m.bufs m.depth
    .ok { m with code := (if buf.result = c then a else b) :: m.code }
  | .throw x => raise m (x m.mem)
  | .fault s => raise m s.number

end CDemo.TryCatch
