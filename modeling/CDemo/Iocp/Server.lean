/-
# The main thread of `server.c`

`NetWork` accepts clients in a loop on a non-blocking socket until `IsExit` is set, gives each an
`IoData` and posts its first read.  Behind the loop it posts a notification without an `IoData`, on
which a worker leaves its own loop.

It posts one, and there is a worker for each processor: whatever comes after, all workers but one
stay where they are (`server_shutdown`).
-/
import CDemo.Iocp.Native

namespace CDemo.NativeServer

open Native

/-! ## 1. The main thread -/

/-- Where the main thread is: at the test of its loop, in `accept`, or behind the loop. -/
inductive Phase where
  | test
  | accepting
  | done
  deriving DecidableEq, Repr

/-- `IsExit`, and where the main thread is. -/
structure Main where
  isExit : Bool
  phase : Phase
  deriving DecidableEq, Repr

abbrev State := Native.Server Main

/-- `CloseConn` has nothing to do with the main thread. -/
def onClose (_ : IoData) (g : Main) : Main := g

/-- What can happen to the main thread: the test of the loop succeeds, `accept` finds nobody or a
client, on a socket with this handle, the signal comes, the test fails.  `c` is the number of the
new connection, `junk` what `malloc` found in the buffer; `bind` and `mem` say whether the socket
could be bound to the port and whether there was memory for the `IoData`. -/
inductive MainEvent where
  | enter
  | nobody
  | accept (c cliSock : Nat) (junk : List UInt8) (bind mem ok : Bool)
  | signal
  | exit
  deriving DecidableEq, Repr

/-- `OnSignal`. -/
def onSignal (s : State) : State :=
  { s with main := { s.main with isExit := true } }

/-- The main thread goes on. -/
def goTo (s : State) (phase : Phase) : State :=
  { s with main := { s.main with phase := phase } }

/-- The body of the loop behind a successful `accept`; a socket of no use is closed again. -/
def acceptClient (s : State) (c cliSock : Nat) (junk : List UInt8) (bind mem ok : Bool) : State :=
  if bind = true ∧ mem = true then
    postRead onClose ((goTo s .test).socket c cliSock) c ⟨junk, 1024, .read, false, cliSock⟩ ok
  else goTo s .test

/-- Behind the loop: `PostQueuedCompletionStatus`. -/
def finish (s : State) : State :=
  { goTo s .done with notices := s.notices + 1 }

/-- The handle that `accept` returns is not open. -/
inductive MainStep : State → MainEvent → State → Prop
  | enter {s : State} : s.main.phase = .test → s.main.isExit = false →
      MainStep s .enter (goTo s .accepting)
  | nobody {s : State} : s.main.phase = .accepting → MainStep s .nobody (goTo s .test)
  | accept {s : State} {c cliSock : Nat} {junk : List UInt8} {bind mem ok : Bool} :
      s.main.phase = .accepting → s.Fresh c cliSock → junk.length = 1024 →
      MainStep s (.accept c cliSock junk bind mem ok) (acceptClient s c cliSock junk bind mem ok)
  | signal {s : State} : MainStep s .signal (onSignal s)
  | exit {s : State} : s.main.phase = .test → s.main.isExit = true →
      MainStep s .exit (finish s)

/-- A client is a connection if the socket could be bound and there was memory. -/
def MainEvent.effect : MainEvent → Effect
  | .accept c cliSock junk true true ok => .opens c cliSock junk ok
  | _ => .idle

def MainEvent.posts : MainEvent → Nat
  | .exit => 1
  | _ => 0

/-- What the body of the loop does to the connections. -/
theorem acceptClient_does {s : State} {c cliSock : Nat} {junk : List UInt8} (bind mem ok : Bool)
    (hfresh : s.Fresh c cliSock) (hjunk : junk.length = 1024) :
    (MainEvent.accept c cliSock junk bind mem ok).effect.Does onClose s
      (acceptClient s c cliSock junk bind mem ok) := by
  cases bind with
  | false => exact ⟨rfl, rfl, rfl⟩
  | true =>
    cases mem with
    | false => exact ⟨rfl, rfl, rfl⟩
    | true =>
      refine ⟨hfresh, hjunk, ?_⟩
      exact post_sameSocks onClose (s.socket c cliSock) _ c _ _ ok

/-- `server.c`. -/
def server : Program Main MainEvent where
  onClose := onClose
  step := MainStep
  effect := MainEvent.effect
  posts := MainEvent.posts
  does := by
    intro s e t hs
    cases hs with
    | enter _ _ => exact ⟨rfl, rfl, rfl⟩
    | nobody _ => exact ⟨rfl, rfl, rfl⟩
    | accept _ hfresh hjunk => exact acceptClient_does _ _ _ hfresh hjunk
    | signal => exact ⟨rfl, rfl, rfl⟩
    | exit _ _ => exact ⟨rfl, rfl, rfl⟩
  notices := by
    intro s e t hs
    cases hs with
    | enter _ _ => rfl
    | nobody _ => rfl
    | @accept c cliSock junk bind mem ok _ _ _ =>
      rw [acceptClient]
      split
      · exact (post_counts onClose ((goTo s .test).socket c cliSock) c _ _ ok).2
      · rfl
    | signal => rfl
    | exit _ _ => rfl

/-- The main thread before its first round. -/
def begin : Main := ⟨false, .test⟩

/-! ## 2. The end -/

theorem acceptClient_main (s : State) (c cliSock : Nat) (junk : List UInt8) (bind mem ok : Bool) :
    (acceptClient s c cliSock junk bind mem ok).main = { s.main with phase := .test } := by
  rw [acceptClient]
  split
  · rcases post_cases onClose ((goTo s .test).socket c cliSock) c
      ⟨junk, 1024, .read, false, cliSock⟩ .recv ok with ⟨sock, -, -, heq⟩ | heq
    · exact congrArg Server.main heq
    · exact congrArg Server.main heq
  · rfl

section Runs

variable {count : Nat} {history : List (Event MainEvent)} {s : State}

/-- A worker's round leaves the variables of the main thread alone. -/
theorem round_main {t : State} {w : Work}
    (htr : Trace (Step server) (start count begin) history s) (hw : Enabled s w)
    (ht : work onClose s w = .ok t) : t.main = s.main := by
  rcases work_main hw (trace_connOk htr) ht with ⟨-, hmain, -⟩ | ⟨-, data, -, hmain, -⟩
  · exact hmain
  · exact hmain

/-- **Every handle is its own client's**: a handle is closed together with its `IoData`. -/
theorem trace_own (htr : Trace (Step server) (start count begin) history s) : Own none s := by
  induction htr with
  | start => exact ⟨fun _ _ h => (nomatch h), fun _ _ h => (nomatch h)⟩
  | call htr hs ih =>
    cases hs with
    | work hw ht => exact work_own hw (trace_connOk htr) ht ih
    | main hmain =>
      cases hmain with
      | enter _ _ => exact ⟨ih.handles, ih.ops⟩
      | nobody _ => exact ⟨ih.handles, ih.ops⟩
      | @accept c cliSock junk bind mem ok _ hfresh hjunk =>
        rw [acceptClient]
        split
        · have hgo : Own none (goTo _ .test) := ⟨ih.handles, ih.ops⟩
          exact (hgo.socket hfresh.2.2).postRead ⟨junk, 1024, .read, false, cliSock⟩ ok
            fun _ => socket_handle _ _ _
        · exact ⟨ih.handles, ih.ops⟩
      | signal => exact ⟨ih.handles, ih.ops⟩
      | exit _ _ => exact ⟨ih.handles, ih.ops⟩

/-- No `IoData` is given up with an operation in flight. -/
theorem trace_oneOperation (htr : Trace (Step server) (start count begin) history s) :
    OneOperation s := by
  refine (trace_oneOperation_iff htr).mpr ?_
  intro c e _
  cases e with
  | accept c' cliSock junk bind mem ok => cases bind <;> cases mem <;> exact Effect.noConfusion
  | enter => exact Effect.noConfusion
  | nobody => exact Effect.noConfusion
  | signal => exact Effect.noConfusion
  | exit => exact Effect.noConfusion

/-- One notification is posted, when the main thread leaves its loop. -/
theorem trace_posted (htr : Trace (Step server) (start count begin) history s) :
    posted server history = if s.main.phase = .done then 1 else 0 := by
  induction htr with
  | start => rfl
  | @call history s t e htr hs ih =>
    have hposted : posted server (e :: history) = e.posted server + posted server history :=
      rfl
    rw [hposted, ih]
    cases hs with
    | work hw ht =>
      rw [round_main htr hw ht]
      exact Nat.zero_add _
    | main hmain =>
      cases hmain with
      | enter htest _ =>
        rw [htest]
        rfl
      | nobody hacc =>
        rw [hacc]
        rfl
      | accept hacc _ _ =>
        rw [acceptClient_main, hacc]
        rfl
      | signal => exact Nat.zero_add _
      | exit htest _ =>
        rw [htest]
        rfl

/-- The signal has come. -/
def signalled (history : List (Event MainEvent)) : Bool :=
  history.any fun e => match e with
    | .main .signal => true
    | _ => false

/-- `accept` has returned a client. -/
def isAccept : Event MainEvent → Bool
  | .main (.accept _ _ _ _ _ _) => true
  | _ => false

/-- The clients that were accepted after the first signal. -/
def late : List (Event MainEvent) → Nat
  | [] => 0
  | e :: history => late history + if isAccept e && signalled history then 1 else 0

/-- After the signal the main thread finishes its round and starts no other. -/
theorem trace_late (htr : Trace (Step server) (start count begin) history s) :
    s.main.isExit = signalled history ∧
      late history + (if s.main.phase = .accepting then 1 else 0) ≤ 1 ∧
      (signalled history = false → late history = 0) := by
  induction htr with
  | start => exact ⟨rfl, Nat.zero_le 1, fun _ => rfl⟩
  | @call history s t e htr hs ih =>
    obtain ⟨hexit, hle, hzero⟩ := ih
    cases hs with
    | work hw ht =>
      rw [round_main htr hw ht]
      exact ⟨hexit, hle, hzero⟩
    | main hmain =>
      cases hmain with
      | enter _ hno =>
        have hnone := hzero (hexit.symm.trans hno)
        refine ⟨hexit, ?_, hzero⟩
        rw [late, hnone]
        exact Nat.le_refl 1
      | nobody hacc =>
        rw [hacc, if_pos rfl] at hle
        exact ⟨hexit, Nat.le_of_succ_le hle, hzero⟩
      | accept hacc _ _ =>
        rw [hacc, if_pos rfl] at hle
        rw [acceptClient_main]
        refine ⟨hexit, ?_, fun hno => ?_⟩
        · rw [late]
          split
          · exact hle
          · exact Nat.le_of_succ_le hle
        · have hno' : signalled history = false := hno
          rw [late, hzero hno', hno', Bool.and_false]
          rfl
      | signal => exact ⟨rfl, hle, fun hno => nomatch hno⟩
      | exit htest _ =>
        rw [htest] at hle
        exact ⟨hexit, hle, hzero⟩

/-- **The end of `server.c`.**  At most one client is accepted after the signal.  No worker leaves
its loop before the main thread has left its own, and at most one of them does after, however many
there are. -/
theorem server_shutdown (htr : Trace (Step server) (start count begin) history s) :
    late history ≤ 1 ∧ (s.main.phase ≠ .done → s.running = count) ∧
      (s.main.phase = .done →
        s.running + taken history = count ∧ s.notices + taken history = 1) := by
  obtain ⟨hrunning, hnotices⟩ := trace_counts htr
  rw [trace_posted htr] at hnotices
  refine ⟨?_, ?_, ?_⟩
  · exact Nat.le_trans (Nat.le_add_right ..) (trace_late htr).2.1
  · intro hphase
    rw [if_neg hphase] at hnotices
    rw [(Nat.add_eq_zero_iff.mp hnotices).2] at hrunning
    exact hrunning
  · intro hphase
    rw [if_pos hphase] at hnotices
    exact ⟨hrunning, hnotices⟩

end Runs

/-- A buffer, as `malloc` may return it. -/
def cleared : List UInt8 := List.replicate 1024 0

theorem length_cleared : cleared.length = 1024 := List.length_replicate

/-- The server with one client, on socket 7, of which nothing has been read. -/
def oneClient (count : Nat) : State :=
  acceptClient (goTo (start count begin) .accepting) 0 7 cleared true true true

theorem oneClient_trace (count : Nat) : Trace (Step server) (start count begin)
    [.main (.accept 0 7 cleared true true true), .main .enter] (oneClient count) :=
  .call (.call .start (.main (.enter rfl rfl)))
    (.main (.accept rfl ⟨rfl, rfl, rfl⟩ length_cleared))

/-- The signal comes while the main thread is in `accept`; it accepts that client and ends, and one
of eight workers leaves. -/
theorem server_shutdown_oneClient : ∃ history s, Trace (Step server) (start 8 begin) history s ∧
    late history = 1 ∧ s.main.phase = .done ∧ taken history = 1 ∧ s.running = 7 ∧
      s.notices = 0 := by
  let s := acceptClient (onSignal (goTo (start 8 begin) .accepting)) 0 7 cleared true true true
  have htr : Trace (Step server) (start 8 begin)
      [.work .quit, .main .exit, .main (.accept 0 7 cleared true true true), .main .signal,
        .main .enter]
      { finish s with notices := 0, running := 7 } := by
    refine .call (.call (.call (.call (.call .start (.main (.enter rfl rfl))) (.main .signal))
      (.main (.accept rfl ⟨rfl, rfl, rfl⟩ length_cleared))) (.main (.exit rfl rfl)))
      (.work ⟨?_, ?_⟩ rfl)
    · exact Nat.succ_pos 7
    · exact Nat.succ_pos 0
  obtain ⟨-, hnotices⟩ := (server_shutdown htr).2.2 rfl
  exact ⟨_, _, htr, rfl, rfl, rfl, rfl, (Nat.add_eq_right (b := 1)).mp hnotices⟩

end CDemo.NativeServer
