/-
# The main thread of `server_ex.c`

This server accepts with `AcceptEx`, which completes when a client has connected and sent its first
bytes.  Each round makes an `IoData`, a socket and an event, and waits for the event; the first
operation posted for the client is the answer to its first bytes.

The signal handler cannot stop the loop by itself.  It closes the socket in `curAcceptSock`, which
makes the wait fail and the loop end.  `CloseConn` clears that variable, for the socket that it has
just closed; but it is called for every connection, by every worker, and so clears it also while
the main thread waits on another socket.  `signal_ends_iff` says when the signal works.

Nothing clears the variable when a client is accepted.  A signal that comes before the next round
closes the socket of that client, whose `IoData` keeps the handle; the system may give it to the
next client, and then an answer for the one goes to the other (`servers_echo`).

Where the wait itself fails, `CloseConn` frees the `IoData` with its `AcceptEx` still in flight
(`servers_one_operation`).  The event is lost too: `PostWrite` clears the `Overlapped` that holds
it, before `CloseConn` can close it (`events_open`).

Behind the loop there is a notification for every processor, and a worker takes one where
`CreateThread` had succeeded (`serverEx_shutdown`).
-/
import CDemo.Iocp.Server

namespace CDemo.NativeServerEx

open Native

/-! ## 1. The main thread -/

/-- Where the main thread is: at the start of a round, waiting for the client of a connection on the
socket with this handle, or behind the loop. -/
inductive Phase where
  | top
  | waiting (c cliSock : Nat)
  | done
  deriving DecidableEq, Repr

/-- Where the main thread is, `curAcceptSock`, and the number of event handles that are open. -/
structure Main where
  phase : Phase
  curAcceptSock : Option Nat
  events : Nat
  deriving DecidableEq, Repr

/-- `CloseConn`, besides closing the socket and freeing the memory: it closes the event and forgets
the socket of the main thread. -/
def onClose (data : IoData) (g : Main) : Main :=
  { g with
    curAcceptSock := none
    events := if data.hEvent then g.events - 1 else g.events }

/-- What succeeds in a round up to the wait: the memory of the `IoData` and of its buffer, the
event, and `AcceptEx`, which fails also where `WSASocket` gave no socket. -/
structure Setup where
  data : Bool
  buf : Bool
  event : Bool
  acceptEx : Bool
  deriving DecidableEq, Repr

/-- The main thread comes to the wait; without the memory of the buffer the round does not
return. -/
def Setup.ok (setup : Setup) : Bool := setup.data && setup.event && setup.acceptEx

/-- What can happen to the main thread: a round up to the wait, for connection `c` with a socket of
this handle; a client with its first bytes, `addrs` being the two addresses; a round that ends the
loop, because `AcceptEx` has completed with an error or else because the wait itself failed; and the
signal.  `bind` says whether the socket could be bound to the port.

What the source does between two of these is one step here: a signal comes before a round or in its
wait. -/
inductive MainEvent where
  | listen (c cliSock : Nat) (junk : List UInt8) (setup : Setup)
  | accepted (c : Nat) (bytes addrs : List UInt8) (bind ok : Bool)
  | failed (c : Nat) (completed : Bool)
  | signal
  deriving DecidableEq, Repr

abbrev State := Native.Server Main

/-- The main thread goes on. -/
def goTo (s : State) (phase : Phase) : State := { s with main := { s.main with phase := phase } }

/-- Behind the loop: `PostQueuedCompletionStatus` for every processor. -/
def finish (threadCount : Nat) (s : State) : State :=
  { goTo s .done with notices := s.notices + threadCount }

/-- A round up to the wait.  A failed `malloc` of the buffer calls `CloseConn` with an `Overlapped`
that nobody has set. -/
def listen (threadCount : Nat) (s : State) (c cliSock : Nat) (junk : List UInt8) (setup : Setup) :
    Run State :=
  if setup.data = false then .ok (finish threadCount s)
  else
    let s := s.socket c cliSock
    let s := { s with main := { s.main with curAcceptSock := some cliSock } }
    if setup.buf = false then .error .uninitialised
    else if setup.event = false then
      .ok (finish threadCount (closeConn onClose s c ⟨junk, 1024, .read, false, cliSock⟩))
    else
      let s := { s with main := { s.main with events := s.main.events + 1 } }
      if setup.acceptEx = false then
        .ok (finish threadCount (closeConn onClose s c (roundData junk cliSock)))
      else .ok (goTo (postAccept s c (roundData junk cliSock)) (.waiting c cliSock))

/-- The rest of the round when the wait succeeds. -/
def acceptClient (s : State) (c : Nat) (bytes addrs : List UInt8) (bind ok : Bool) :
    Run State := do
  let data ← ioData s c
  let s := (goTo s .top).complete c .accept
  let data := { data with buf := place addrs data.buf }.fill bytes
  if bytes.length = 0 ∨ bind = false then .ok (closeConn onClose s c data)
  else
    let buf ← Run.write data.buf bytes.length 0
    .ok (postWrite onClose s c { data with buf := buf } ok)

/-- The rest of the round when it fails. -/
def leaveLoop (threadCount : Nat) (s : State) (c : Nat) (completed : Bool) : Run State := do
  let data ← ioData s c
  let s := if completed then s.complete c .accept else s
  .ok (finish threadCount (closeConn onClose s c data))

/-- `OnSignal`: the socket is closed, whosever it is. -/
def onSignal (s : State) : State :=
  match s.main.curAcceptSock with
  | some cliSock => { s with handles := Function.update s.handles cliSock none }
  | none => s

/-- A new socket has a handle that is not open, and a client comes only while the socket is. -/
inductive MainStep (threadCount : Nat) : State → MainEvent → State → Prop
  | listen {s t : State} {c cliSock : Nat} {junk : List UInt8} {setup : Setup} :
      s.main.phase = .top → s.Fresh c cliSock → junk.length = 1024 →
      NativeServerEx.listen threadCount s c cliSock junk setup = .ok t →
      MainStep threadCount s (.listen c cliSock junk setup) t
  | accepted {s t : State} {c cliSock : Nat} {bytes addrs : List UInt8} {bind ok : Bool} :
      s.main.phase = .waiting c cliSock → s.handles cliSock = some c → .accept ∈ s.pending c →
      bytes.length ≤ 1024 - (16 + 16) * 2 → addrs.length = (16 + 16) * 2 →
      acceptClient s c bytes addrs bind ok = .ok t →
      MainStep threadCount s (.accepted c bytes addrs bind ok) t
  | failed {s t : State} {c cliSock : Nat} {completed : Bool} :
      s.main.phase = .waiting c cliSock → .accept ∈ s.pending c →
      leaveLoop threadCount s c completed = .ok t →
      MainStep threadCount s (.failed c completed) t
  | signal {s : State} : MainStep threadCount s .signal (onSignal s)

/-- What an event does to the connections. -/
def MainEvent.effect : MainEvent → Effect
  | .listen c cliSock junk setup => if setup.ok then .accepts c cliSock junk else .idle
  | .accepted c bytes addrs bind ok =>
    if bytes.length = 0 ∨ bind = false then .closes c true else .answers c bytes addrs ok
  | .failed c completed => .closes c completed
  | .signal => .idle

/-- The loop ends where a step of the round fails. -/
def MainEvent.posts (threadCount : Nat) : MainEvent → Nat
  | .listen _ _ _ setup => if setup.ok then 0 else threadCount
  | .failed _ _ => threadCount
  | _ => 0

/-! ## 2. What the steps do -/

/-- A socket that is closed in the round that made it. -/
theorem closeConn_socket {s : State} {c cliSock : Nat} (g : Main) (data : IoData)
    (hfresh : s.Fresh c cliSock) (hsock : data.cliSock = cliSock) :
    SameSocks (closeConn onClose { s.socket c cliSock with main := g } c data) s := by
  obtain ⟨hnone, -, hfree⟩ := hfresh
  subst hsock
  refine ⟨⟨?_, rfl, rfl⟩, ?_⟩
  · refine (congrArg (Function.update s.conns c) hnone.symm).trans ?_
    exact Function.update_eq_self c s.conns
  · refine (Function.update_idem ..).trans ?_
    refine (congrArg (Function.update s.handles data.cliSock) hfree.symm).trans ?_
    exact Function.update_eq_self data.cliSock s.handles

/-- **What a returning round up to the wait does**: the loop ends, or the main thread waits. -/
theorem listen_cases {threadCount : Nat} {s t : State} {c cliSock : Nat} {junk : List UInt8}
    {setup : Setup} (hfresh : s.Fresh c cliSock)
    (h : listen threadCount s c cliSock junk setup = .ok t) :
    (setup.ok = false ∧ SameSocks t s ∧ t.notices = s.notices + threadCount ∧
      t.main.phase = .done ∧ t.main.events = s.main.events) ∨
    (setup.ok = true ∧ t = { postAccept (s.socket c cliSock) c (roundData junk cliSock) with
      main := ⟨.waiting c cliSock, some cliSock, s.main.events + 1⟩ }) := by
  obtain ⟨data, buf, event, acceptEx⟩ := setup
  cases data with
  | false =>
    obtain rfl := Except.ok.inj h
    exact .inl ⟨rfl, ⟨⟨rfl, rfl, rfl⟩, rfl⟩, rfl, rfl, rfl⟩
  | true =>
    cases buf with
    | false => nomatch h
    | true =>
      cases event with
      | false =>
        obtain rfl := Except.ok.inj h
        have hsame := closeConn_socket { s.main with curAcceptSock := some cliSock }
          ⟨junk, 1024, .read, false, cliSock⟩ hfresh rfl
        exact .inl ⟨rfl, hsame, rfl, rfl, rfl⟩
      | true =>
        cases acceptEx with
        | false =>
          obtain rfl := Except.ok.inj h
          have hsame := closeConn_socket ⟨s.main.phase, some cliSock, s.main.events + 1⟩
            (roundData junk cliSock) hfresh rfl
          exact .inl ⟨rfl, hsame, rfl, rfl, rfl⟩
        | true =>
          obtain rfl := Except.ok.inj h
          exact .inr ⟨rfl, rfl⟩

/-- **What the rest of a round does**: it gives the client up, or posts the answer to its first
bytes. -/
theorem acceptClient_cases {s t : State} {c : Nat} {bytes addrs : List UInt8} {bind ok : Bool}
    (h : acceptClient s c bytes addrs bind ok = .ok t) : ∃ data, s.conns c = some data ∧
    (((MainEvent.accepted c bytes addrs bind ok).effect = .closes c true ∧
      t = closeConn onClose ((goTo s .top).complete c .accept) c data) ∨
    ((MainEvent.accepted c bytes addrs bind ok).effect = .answers c bytes addrs ok ∧
      t = postWrite onClose ((goTo s .top).complete c .accept) c
        { data with buf := put bytes (place addrs data.buf) } ok)) := by
  obtain ⟨data, hdata, h⟩ := Run.bind_eq_ok_iff.mp h
  refine ⟨data, ioData_eq_ok hdata, ?_⟩
  rw [MainEvent.effect]
  by_cases hno : bytes.length = 0 ∨ bind = false
  · rw [if_pos hno] at h ⊢
    exact .inl ⟨rfl, (Except.ok.inj h).symm⟩
  · rw [if_neg hno] at h ⊢
    obtain ⟨buf, hbuf, h⟩ := Run.bind_eq_ok_iff.mp h
    rw [Run.write] at hbuf
    split at hbuf
    · obtain rfl := Except.ok.inj hbuf
      exact .inr ⟨rfl, (Except.ok.inj h).symm⟩
    · cases hbuf

theorem leaveLoop_eq {threadCount : Nat} {s t : State} {c : Nat} {completed : Bool}
    (h : leaveLoop threadCount s c completed = .ok t) : ∃ data, s.conns c = some data ∧
      t = finish threadCount
        (closeConn onClose (if completed then s.complete c .accept else s) c data) := by
  obtain ⟨data, hdata, h⟩ := Run.bind_eq_ok_iff.mp h
  exact ⟨data, ioData_eq_ok hdata, (Except.ok.inj h).symm⟩

/-- Posting the answer leaves the main thread where it is, and loses no event that it has not been
given. -/
theorem postWrite_main (s : State) (c : Nat) (data : IoData) (ok : Bool) :
    (postWrite onClose s c data ok).notices = s.notices ∧
      (postWrite onClose s c data ok).main.phase = s.main.phase ∧
      (postWrite onClose s c data ok).main.events = s.main.events := by
  rw [postWrite]
  rcases post_cases onClose s c { data with hEvent := false, opCode := .write }
    (fun sock => .send sock (data.buf.take data.len)) ok with ⟨sock, -, -, heq⟩ | heq
  · rw [heq]
    exact ⟨rfl, rfl, rfl⟩
  · rw [heq]
    exact ⟨rfl, rfl, rfl⟩

/-- The next round begins, with the first bytes answered or not. -/
theorem acceptClient_phase {s t : State} {c : Nat} {bytes addrs : List UInt8} {bind ok : Bool}
    (h : acceptClient s c bytes addrs bind ok = .ok t) : t.main.phase = .top := by
  obtain ⟨data, -, ⟨-, rfl⟩ | ⟨-, rfl⟩⟩ := acceptClient_cases h
  · rfl
  · exact (postWrite_main _ _ _ _).2.1

theorem leaveLoop_phase {threadCount : Nat} {s t : State} {c : Nat} {completed : Bool}
    (h : leaveLoop threadCount s c completed = .ok t) : t.main.phase = .done := by
  obtain ⟨data, -, rfl⟩ := leaveLoop_eq h
  rfl

/-- The signal closes a socket at most. -/
theorem onSignal_same (s : State) : SameConns (onSignal s) s ∧
    (onSignal s).notices = s.notices ∧ (onSignal s).main = s.main := by
  unfold onSignal
  split
  · exact ⟨⟨rfl, rfl, rfl⟩, rfl, rfl⟩
  · exact ⟨⟨rfl, rfl, rfl⟩, rfl, rfl⟩

/-! ## 3. The program -/

/-- `server_ex.c` on a machine with `threadCount` processors.  The workers are those of the first
state, as many as `CreateThread` made. -/
def serverEx (threadCount : Nat) : Program Main MainEvent where
  onClose := onClose
  step := MainStep threadCount
  effect := MainEvent.effect
  posts := MainEvent.posts threadCount
  does := by
    intro s e t hs
    cases hs with
    | listen _ hfresh hjunk h =>
      rw [MainEvent.effect]
      rcases listen_cases hfresh h with ⟨hno, hsame, -⟩ | ⟨hok, rfl⟩
      · rw [hno]
        exact hsame.1
      · rw [hok]
        exact ⟨hfresh, hjunk, ⟨rfl, rfl, rfl⟩, rfl⟩
    | accepted _ _ hop hbytes haddrs h =>
      obtain ⟨data, hdata, ⟨heff, rfl⟩ | ⟨heff, rfl⟩⟩ := acceptClient_cases h
      · rw [heff]
        exact ⟨data, hdata, hop, ⟨rfl, rfl, rfl⟩, rfl⟩
      · rw [heff]
        refine ⟨data, hdata, hop, hbytes, haddrs, ?_⟩
        exact post_sameSocks onClose (s.complete _ .accept) { s.main with phase := .top } _ _ _ _
    | @failed _ c cliSock completed _ hop h =>
      obtain ⟨data, hdata, rfl⟩ := leaveLoop_eq h
      refine ⟨data, hdata, hop, ?_⟩
      cases completed with
      | true => exact ⟨⟨rfl, rfl, rfl⟩, rfl⟩
      | false => exact ⟨⟨rfl, rfl, rfl⟩, rfl⟩
    | signal => exact (onSignal_same s).1
  notices := by
    intro s e t hs
    cases hs with
    | listen _ hfresh _ h =>
      rw [MainEvent.posts]
      rcases listen_cases hfresh h with ⟨hno, -, hnotices, -⟩ | ⟨hok, rfl⟩
      · rw [hno]
        exact hnotices
      · rw [hok]
        rfl
    | accepted _ _ _ _ _ h =>
      obtain ⟨data, -, ⟨-, rfl⟩ | ⟨-, rfl⟩⟩ := acceptClient_cases h
      · rfl
      · exact (postWrite_main ((goTo s .top).complete _ .accept) _ _ _).1
    | @failed _ c cliSock completed _ _ h =>
      obtain ⟨data, -, rfl⟩ := leaveLoop_eq h
      cases completed with
      | true => rfl
      | false => rfl
    | signal => exact (onSignal_same s).2.1

/-- The main thread before its first round. -/
def begin : Main := ⟨.top, none, 0⟩

def allWell : Setup := ⟨true, true, true, true⟩

/-- The main thread of `workers` workers waits on socket 7. -/
def waiting (workers : Nat) : State :=
  { postAccept ((start workers begin).socket 0 7) 0 (roundData NativeServer.cleared 7) with
    main := ⟨.waiting 0 7, some 7, 1⟩ }

theorem waiting_trace (threadCount workers : Nat) :
    Trace (Step (serverEx threadCount)) (start workers begin)
      [.main (.listen 0 7 NativeServer.cleared allWell)] (waiting workers) :=
  .call .start (.main (.listen rfl ⟨rfl, rfl, rfl⟩ NativeServer.length_cleared rfl))

/-- A client that has come with a few bytes is answered. -/
theorem acceptClient_eq {s : State} {c : Nat} (data : IoData) {bytes addrs : List UInt8} (ok : Bool)
    (hdata : s.conns c = some data) (hbuf : data.buf.length = 1024) (hpos : bytes.length ≠ 0)
    (hbytes : bytes.length ≤ 1024 - (16 + 16) * 2) (haddrs : addrs.length = (16 + 16) * 2) :
    acceptClient s c bytes addrs true ok =
      .ok (postWrite onClose ((goTo s .top).complete c .accept) c
        { data with buf := put bytes (place addrs data.buf) } ok) := by
  have hlen := length_place hbuf haddrs
  have hlt : bytes.length < (bytes ++ (place addrs data.buf).drop bytes.length).length := by
    rw [List.length_append, List.length_drop]
    omega
  rw [acceptClient, ioData_ok hdata, Run.ok_bind]
  dsimp only [IoData.fill]
  rw [if_neg (by simp [hpos]), Run.write_eq_ok hlt, Run.ok_bind]
  rfl

/-- The addresses of a client and of the server. -/
def addresses : List UInt8 := List.replicate ((16 + 16) * 2) 0

theorem length_addresses : addresses.length = (16 + 16) * 2 := List.length_replicate

/-- The buffer of a client that has said `hi`. -/
def greeting : List UInt8 := put [104, 105] (place addresses NativeServer.cleared)

theorem length_greeting : greeting.length = 1024 := by
  have hplace := length_place NativeServer.length_cleared length_addresses
  refine (length_put ?_).trans hplace
  rw [hplace]
  decide

/-- A client has come with two bytes, which are answered. -/
def answering (workers : Nat) : State :=
  postWrite onClose ((goTo (waiting workers) .top).complete 0 .accept) 0
    { roundData NativeServer.cleared 7 with buf := greeting } true

theorem answering_trace (threadCount workers : Nat) :
    Trace (Step (serverEx threadCount)) (start workers begin)
      [.main (.accepted 0 [104, 105] addresses true true),
        .main (.listen 0 7 NativeServer.cleared allWell)]
      (answering workers) := by
  refine .call (waiting_trace threadCount workers)
    (.main (.accepted rfl rfl (List.mem_singleton_self _) (by decide) length_addresses ?_))
  exact acceptClient_eq (roundData NativeServer.cleared 7) true rfl NativeServer.length_cleared
    (by decide) (by decide) length_addresses

section Runs

variable {threadCount workers : Nat} {history : List (Event MainEvent)} {s t : State}

/-- What a worker's round leaves of the variables of the main thread; it opens no socket. -/
theorem round_main {w : Work}
    (htr : Trace (Step (serverEx threadCount)) (start workers begin) history s) (hw : Enabled s w)
    (ht : work onClose s w = .ok t) : t.main.phase = s.main.phase ∧
      t.main.events = s.main.events ∧
      t.main.curAcceptSock = (if w.closes then none else s.main.curAcceptSock) ∧
      ∀ cliSock c, t.handles cliSock = some c → s.handles cliSock = some c := by
  rcases work_main hw (trace_connOk htr) ht with
    ⟨hcloses, hmain, hhandles⟩ | ⟨hcloses, data, hev, hmain, hhandles⟩
  · rw [hmain, hcloses, hhandles]
    exact ⟨rfl, rfl, rfl, fun _ _ hc => hc⟩
  · rw [hmain, hcloses, hhandles]
    refine ⟨rfl, ?_, rfl, fun cliSock c hc => ?_⟩
    · rw [onClose, hev]
      rfl
    · by_cases hsame : cliSock = data.cliSock
      · subst hsame
        exact nomatch hc.symm.trans (Function.update_self ..)
      · exact (Function.update_of_ne hsame ..).symm.trans hc

/-- **The connection that the main thread waits for** has its event, and its `AcceptEx` is in
flight. -/
theorem trace_waited (htr : Trace (Step (serverEx threadCount)) (start workers begin) history s)
    {c cliSock : Nat} (hphase : s.main.phase = .waiting c cliSock) :
    ∃ data, s.conns c = some data ∧ .accept ∈ s.pending c ∧ data.hEvent = true ∧
      data.cliSock = cliSock := by
  induction htr generalizing c cliSock with
  | start => nomatch hphase
  | @call history s t e htr hs ih =>
    cases hs with
    | work hw ht =>
      obtain ⟨hsame, -⟩ := round_main htr hw ht
      obtain ⟨data, hdata, hop, hrest⟩ := ih (hsame.symm.trans hphase)
      obtain ⟨hconns, hpending⟩ := work_accept hw (trace_connOk htr) ht hop
      exact ⟨data, hconns.trans hdata, hpending ▸ hop, hrest⟩
    | main hmain =>
      cases hmain with
      | @listen _ k handle junk setup _ hfresh _ h =>
        rcases listen_cases hfresh h with ⟨-, -, -, hdone, -⟩ | ⟨-, rfl⟩
        · exact nomatch hdone.symm.trans hphase
        · obtain ⟨rfl, rfl⟩ := Phase.waiting.inj hphase
          refine ⟨roundData junk handle, Function.update_self k _ _, ?_, rfl, rfl⟩
          change Op.accept ∈ Function.update s.pending k (.accept :: s.pending k) k
          rw [Function.update_self]
          exact List.mem_cons_self
      | accepted _ _ _ _ _ h => exact nomatch (acceptClient_phase h).symm.trans hphase
      | failed _ _ h => exact nomatch (leaveLoop_phase h).symm.trans hphase
      | signal =>
        obtain ⟨⟨hconns, hpending, -⟩, -, hmain⟩ := onSignal_same s
        rw [hmain] at hphase
        rw [hconns, hpending]
        exact ih hphase

/-! ## 4. The signal -/

/-- A connection has been closed since the main thread began to wait.  A round up to the wait is one
step, so this counts from where `curAcceptSock` was set. -/
def disturbed : List (Event MainEvent) → Bool
  | [] => false
  | .main (.listen _ _ _ _) :: _ => false
  | .main (.accepted _ _ _ _ _) :: history | .main (.failed _ _) :: history
  | .main .signal :: history => disturbed history
  | .work w :: history => w.closes || disturbed history

/-- **While the main thread waits, `curAcceptSock` is its socket until a connection is closed.** -/
theorem trace_curAcceptSock
    (htr : Trace (Step (serverEx threadCount)) (start workers begin) history s) {c cliSock : Nat}
    (hphase : s.main.phase = .waiting c cliSock) :
    s.main.curAcceptSock = if disturbed history then none else some cliSock := by
  induction htr generalizing c cliSock with
  | start => nomatch hphase
  | @call history s t e htr hs ih =>
    cases hs with
    | work hw ht =>
      rename_i w
      obtain ⟨hsame, -, hcur, -⟩ := round_main htr hw ht
      rw [hcur, disturbed, ih (hsame.symm.trans hphase)]
      cases w.closes with
      | true => rfl
      | false => rfl
    | main hmain =>
      cases hmain with
      | listen _ hfresh _ h =>
        rcases listen_cases hfresh h with ⟨-, -, -, hdone, -⟩ | ⟨-, rfl⟩
        · exact nomatch hdone.symm.trans hphase
        · obtain ⟨rfl, rfl⟩ := Phase.waiting.inj hphase
          rfl
      | accepted _ _ _ _ _ h => exact nomatch (acceptClient_phase h).symm.trans hphase
      | failed _ _ h => exact nomatch (leaveLoop_phase h).symm.trans hphase
      | signal =>
        rw [(onSignal_same s).2.2] at hphase ⊢
        exact ih hphase

/-- The main thread has nothing left to do but leave its loop: the socket it waits on is closed. -/
def Ended (s : State) : Prop :=
  (∃ c cliSock, s.main.phase = .waiting c cliSock ∧ s.handles cliSock ≠ some c) ∨
    s.main.phase = .done

/-- The signal opens no socket. -/
theorem onSignal_handles {cliSock c : Nat} (h : (onSignal s).handles cliSock = some c) :
    s.handles cliSock = some c := by
  unfold onSignal at h
  split at h
  · next closed _ =>
    by_cases hsame : cliSock = closed
    · subst hsame
      exact nomatch h.symm.trans (Function.update_self ..)
    · exact (Function.update_of_ne hsame ..).symm.trans h
  · exact h

/-- No client comes any more. -/
theorem Step.ended {e : Event MainEvent}
    (htr : Trace (Step (serverEx threadCount)) (start workers begin) history s)
    (hs : Step (serverEx threadCount) s e t) (h : Ended s) :
    Ended t ∧ ∀ e', e = .main e' → (∃ c completed, e' = .failed c completed) ∨ e' = .signal := by
  cases hs with
  | work hw ht =>
    obtain ⟨hphase, -, -, hhandles⟩ := round_main htr hw ht
    refine ⟨?_, fun e' he => nomatch he⟩
    rcases h with ⟨c, cliSock, hwait, hclosed⟩ | hdone
    · exact .inl ⟨c, cliSock, hphase.trans hwait, fun hopen => hclosed (hhandles _ _ hopen)⟩
    · exact .inr (hphase.trans hdone)
  | main hmain =>
    cases hmain with
    | listen htop _ _ _ =>
      rcases h with ⟨c, cliSock, hwait, -⟩ | hdone
      · exact nomatch htop.symm.trans hwait
      · exact nomatch htop.symm.trans hdone
    | accepted hwait' hopen _ _ _ _ =>
      rcases h with ⟨c, cliSock, hwait, hclosed⟩ | hdone
      · obtain ⟨rfl, rfl⟩ := Phase.waiting.inj (hwait'.symm.trans hwait)
        exact absurd hopen hclosed
      · exact nomatch hwait'.symm.trans hdone
    | failed _ _ h =>
      exact ⟨.inr (leaveLoop_phase h), fun e' he => .inl ⟨_, _, (Event.main.inj he).symm⟩⟩
    | signal =>
      refine ⟨?_, fun e' he => .inr (Event.main.inj he).symm⟩
      rw [Ended, (onSignal_same s).2.2]
      rcases h with ⟨c, cliSock, hwait, hclosed⟩ | hdone
      · exact .inl ⟨c, cliSock, hwait, fun hopen => hclosed (onSignal_handles hopen)⟩
      · exact .inr hdone

theorem trace_ended {later : List (Event MainEvent)}
    (htr : Trace (Step (serverEx threadCount)) (start workers begin) history s) (h : Ended s)
    (hlater : Trace (Step (serverEx threadCount)) s later t) :
    (∃ history, Trace (Step (serverEx threadCount)) (start workers begin) history t) ∧ Ended t ∧
      ∀ e, .main e ∈ later → (∃ c completed, e = .failed c completed) ∨ e = .signal := by
  induction hlater with
  | start => exact ⟨⟨history, htr⟩, h, fun e he => nomatch he⟩
  | call _ hs ih =>
    obtain ⟨⟨history', htr'⟩, hended, hmem⟩ := ih
    obtain ⟨hended', hnew⟩ := Step.ended htr' hs hended
    refine ⟨⟨_, .call htr' hs⟩, hended', ?_⟩
    intro e he
    rcases List.mem_cons.mp he with heq | hold
    · exact hnew e heq.symm
    · exact hmem e hold

/-- **When the signal ends the server.**  The main thread waits for a client, on a socket that is
open.  If no connection has been closed since it began to wait, the signal ends the wait: from then
on no client is accepted, whatever the workers do, and the main thread can only leave its loop.
Otherwise nothing changes. -/
theorem signal_ends_iff {c cliSock : Nat}
    (htr : Trace (Step (serverEx threadCount)) (start workers begin) history s)
    (hphase : s.main.phase = .waiting c cliSock) (hopen : s.handles cliSock = some c) :
    (Ended (onSignal s) ↔ disturbed history = false) ∧
      (disturbed history = true → onSignal s = s) ∧
      (disturbed history = false → ∀ later t,
        Trace (Step (serverEx threadCount)) (onSignal s) later t →
          Ended t ∧ ∀ e, .main e ∈ later → (∃ c completed, e = .failed c completed) ∨
            e = .signal) := by
  have hcur := trace_curAcceptSock htr hphase
  cases hd : disturbed history with
  | true =>
    rw [hd, if_pos rfl] at hcur
    have hsame : onSignal s = s := by
      unfold onSignal
      rw [hcur]
    refine ⟨iff_of_false ?_ (by simp), fun _ => hsame, fun hno => absurd hno (by simp)⟩
    rw [hsame]
    rintro (⟨c', cliSock', hwait, hclosed⟩ | hdone)
    · obtain ⟨rfl, rfl⟩ := Phase.waiting.inj (hphase.symm.trans hwait)
      exact hclosed hopen
    · exact nomatch hphase.symm.trans hdone
  | false =>
    rw [hd, if_neg (by simp)] at hcur
    have hended : Ended (onSignal s) := by
      unfold onSignal
      rw [hcur]
      refine .inl ⟨c, cliSock, hphase, ?_⟩
      change Function.update s.handles cliSock none cliSock ≠ some c
      rw [Function.update_self]
      exact fun hno => nomatch hno
    refine ⟨iff_of_true hended rfl, fun hyes => absurd hyes (by simp), fun _ later t hlater => ?_⟩
    exact (trace_ended (.call htr (.main .signal)) hended hlater).2

/-- The signal ends the first wait.  It does not end the second, if the first client goes in the
meantime. -/
theorem signal_ends_iff_waiting : Ended (onSignal (waiting 2)) ∧
    ∃ history s, Trace (Step (serverEx 2)) (start 2 begin) history s ∧
      s.main.phase = .waiting 1 8 ∧ s.handles 8 = some 1 ∧ onSignal s = s ∧
      ¬ Ended (onSignal s) := by
  refine ⟨(signal_ends_iff (waiting_trace 2 2) rfl rfl).1.mpr rfl, ?_⟩
  have hlisten : MainStep 2 (answering 2) (.listen 1 8 NativeServer.cleared allWell) _ :=
    .listen rfl ⟨rfl, rfl, rfl⟩ NativeServer.length_cleared rfl
  have hgone := Trace.call (Trace.call (answering_trace 2 2) (.main hlisten))
    (.work (w := .gone 0 _) ⟨by decide, List.mem_singleton_self _, by simp⟩ (work_gone rfl))
  obtain ⟨hiff, hsame, -⟩ := signal_ends_iff hgone rfl rfl
  exact ⟨_, _, hgone, rfl, rfl, hsame rfl, fun h => absurd (hiff.mp h) (by decide)⟩

/-! ## 5. The events and the end -/

/-- The number of connections that a history has opened: a client came, and its first bytes were
answered. -/
def isOpening : Event MainEvent → Bool
  | .main e => e.effect.isAnswer
  | .work _ => false

def opened (history : List (Event MainEvent)) : Nat := history.countP isOpening

def Phase.isWaiting : Phase → Bool
  | .waiting _ _ => true
  | _ => false

/-- **Every client costs an event handle**: the handles that are open are one for each client there
ever was, and one for the client that is waited for. -/
theorem events_open (htr : Trace (Step (serverEx threadCount)) (start workers begin) history s) :
    s.main.events = opened history + if s.main.phase.isWaiting then 1 else 0 := by
  induction htr with
  | start => rfl
  | @call history s t e htr hs ih =>
    have hcons : opened (e :: history) = opened history + if isOpening e then 1 else 0 :=
      List.countP_cons ..
    cases hs with
    | work hw ht =>
      obtain ⟨hphase, hevents, -⟩ := round_main htr hw ht
      rw [hevents, hphase, hcons, ih]
      rfl
    | main hmain =>
      cases hmain with
      | @listen _ c cliSock junk setup htop hfresh _ h =>
        rw [htop] at ih
        rw [hcons, isOpening, MainEvent.effect]
        rcases listen_cases hfresh h with ⟨hno, -, -, hdone, hevents⟩ | ⟨hok, rfl⟩
        · rw [hevents, hdone, hno, ih]
          rfl
        · rw [hok]
          exact congrArg (· + 1) ih
      | accepted hphase _ _ _ _ h =>
        obtain ⟨data, hdata, -, hev, -⟩ := trace_waited htr hphase
        rw [hphase] at ih
        obtain ⟨data', hdata', ⟨heff, rfl⟩ | ⟨heff, rfl⟩⟩ := acceptClient_cases h
        · obtain rfl := Option.some.inj (hdata.symm.trans hdata')
          rw [hcons, isOpening, heff]
          refine Eq.trans (if_pos hev) ?_
          exact Nat.sub_eq_of_eq_add ih
        · obtain ⟨-, hphase', hevents⟩ := postWrite_main ((goTo s .top).complete _ .accept) _ _ _
          rw [hcons, isOpening, heff, hevents, hphase']
          exact ih
      | @failed _ c cliSock completed hphase _ h =>
        obtain ⟨data, hdata, -, hev, -⟩ := trace_waited htr hphase
        obtain ⟨data', hdata', rfl⟩ := leaveLoop_eq h
        obtain rfl := Option.some.inj (hdata.symm.trans hdata')
        rw [hphase] at ih
        rw [hcons]
        refine Eq.trans (if_pos hev) ?_
        cases completed with
        | true => exact Nat.sub_eq_of_eq_add ih
        | false => exact Nat.sub_eq_of_eq_add ih
      | signal =>
        rw [(onSignal_same s).2.2, hcons]
        exact ih

theorem events_open_answering :
    (answering 2).main.events = 1 ∧ (answering 2).main.phase = .top :=
  ⟨events_open (answering_trace 2 2), rfl⟩

/-- Behind the loop there is a notification for every processor, and none before. -/
theorem trace_posted (htr : Trace (Step (serverEx threadCount)) (start workers begin) history s) :
    posted (serverEx threadCount) history = if s.main.phase = .done then threadCount else 0 := by
  induction htr with
  | start => rfl
  | @call history s t e htr hs ih =>
    have hcons : posted (serverEx threadCount) (e :: history) =
        e.posted (serverEx threadCount) + posted (serverEx threadCount) history := rfl
    rw [hcons, ih]
    cases hs with
    | work hw ht =>
      rw [(round_main htr hw ht).1]
      exact Nat.zero_add _
    | main hmain =>
      cases hmain with
      | @listen _ c cliSock junk setup htop hfresh _ h =>
        have hposted : (Event.main (.listen c cliSock junk setup)).posted (serverEx threadCount) =
            if setup.ok then 0 else threadCount := rfl
        rw [htop, hposted]
        rcases listen_cases hfresh h with ⟨hno, -, -, hdone, -⟩ | ⟨hok, rfl⟩
        · rw [hno, hdone]
          rfl
        · rw [hok]
          rfl
      | accepted hphase _ _ _ _ h =>
        rw [hphase, acceptClient_phase h]
        rfl
      | failed hphase _ h =>
        rw [hphase, leaveLoop_phase h]
        rfl
      | signal =>
        rw [(onSignal_same s).2.2]
        exact Nat.zero_add _

/-- Workers with a notification for each of them can all leave their loops. -/
theorem quit_trace (n : Nat) : ∀ s : State, s.running = n → n ≤ s.notices →
    ∃ later t, Trace (Step (serverEx threadCount)) s later t ∧ t.running = 0 := by
  induction n with
  | zero =>
    intro s hrunning _
    exact ⟨[], s, .start, hrunning⟩
  | succ n ih =>
    intro s hrunning hnotices
    have hquit : Step (serverEx threadCount) s (.work .quit)
        { s with notices := s.notices - 1, running := s.running - 1 } := by
      refine .work ⟨?_, ?_⟩ work_quit
      · rw [hrunning]
        exact Nat.succ_pos n
      · exact Nat.lt_of_lt_of_le (Nat.succ_pos n) hnotices
    obtain ⟨later, t, htr, hzero⟩ :=
      ih { s with notices := s.notices - 1, running := s.running - 1 } (congrArg (· - 1) hrunning)
        (Nat.le_pred_of_lt hnotices)
    exact ⟨later ++ [.work .quit], t, Trace.after hquit htr, hzero⟩

/-- **The end of `server_ex.c`.**  There may be fewer workers than processors.  No worker leaves its
loop before the main thread has left its own; from then on there is a notification for every worker
that is left, and one more for each that was never created, and all of them can leave. -/
theorem serverEx_shutdown (hworkers : workers ≤ threadCount)
    (htr : Trace (Step (serverEx threadCount)) (start workers begin) history s) :
    (s.main.phase ≠ .done → s.running = workers) ∧
      (s.main.phase = .done → s.notices = s.running + (threadCount - workers) ∧
        ∃ later t, Trace (Step (serverEx threadCount)) s later t ∧ t.running = 0) := by
  obtain ⟨hrunning, hnotices⟩ := trace_counts htr
  rw [trace_posted htr] at hnotices
  constructor
  · intro hphase
    rw [if_neg hphase] at hnotices
    rw [(Nat.add_eq_zero_iff.mp hnotices).2] at hrunning
    exact hrunning
  · intro hphase
    rw [if_pos hphase] at hnotices
    have hsame : s.notices = s.running + (threadCount - workers) := by omega
    exact ⟨hsame, quit_trace s.running s rfl (by omega)⟩

/-- One of two workers was not created.  The wait fails; the other worker can leave. -/
theorem serverEx_shutdown_waiting : ∃ history s later t,
    Trace (Step (serverEx 2)) (start 1 begin) history s ∧ s.main.phase = .done ∧ s.running = 1 ∧
      s.notices = 2 ∧ Trace (Step (serverEx 2)) s later t ∧ t.running = 0 := by
  have hfailed : MainStep 2 (waiting 1) (.failed 0 false) _ :=
    .failed rfl (List.mem_singleton_self _) rfl
  have htr := Trace.call (waiting_trace 2 1) (.main hfailed)
  obtain ⟨hnotices, later, t, hlater, hzero⟩ := (serverEx_shutdown (by decide) htr).2 rfl
  exact ⟨_, _, later, t, htr, rfl, rfl, hnotices, hlater, hzero⟩

end Runs

/-! ## 6. Whose socket it is -/

/-- The connection that the main thread waits for. -/
def Phase.conn : Phase → Option Nat
  | .waiting c _ => some c
  | _ => none

/-- The signal spares the clients: it comes while the main thread waits, or finds no socket in
`curAcceptSock`. -/
def Spares (s : State) (e : Event MainEvent) : Prop :=
  e = .main .signal → s.main.phase.isWaiting = true ∨ s.main.curAcceptSock = none

section Sockets

variable {threadCount workers : Nat} {history : List (Event MainEvent)} {s : State}

/-- A run without a signal does. -/
theorem trace_spares (htr : Trace (Step (serverEx threadCount)) (start workers begin) history s)
    (hno : .main .signal ∉ history) :
    Trace (fun s e t => Step (serverEx threadCount) s e t ∧ Spares s e) (start workers begin)
      history s := by
  induction htr with
  | start => exact .start
  | call _ hs ih =>
    refine .call (ih fun hmem => hno (List.mem_cons_of_mem _ hmem)) ⟨hs, ?_⟩
    rintro rfl
    exact absurd List.mem_cons_self hno

/-- A signal in the wait closes the socket of the connection that is waited for. -/
theorem onSignal_own (htr : Trace (Step (serverEx threadCount)) (start workers begin) history s)
    (hspares : Spares s (.main .signal)) (h : Own s.main.phase.conn s) :
    Own s.main.phase.conn (onSignal s) := by
  unfold onSignal
  cases hcur : s.main.curAcceptSock with
  | none => exact h
  | some closed =>
    rcases hspares rfl with hwaiting | hno
    · cases hphase : s.main.phase with
      | top => exact nomatch (congrArg Phase.isWaiting hphase).symm.trans hwaiting
      | done => exact nomatch (congrArg Phase.isWaiting hphase).symm.trans hwaiting
      | waiting c cliSock =>
        rw [hphase] at h
        obtain ⟨data, hdata, -, -, hsock⟩ := trace_waited htr hphase
        have hclosed := (trace_curAcceptSock htr hphase).symm.trans hcur
        split at hclosed
        · nomatch hclosed
        · obtain rfl := hsock.trans (Option.some.inj hclosed)
          refine ⟨fun d other hother => ?_, h.ops⟩
          by_cases hd : d = c
          · subst hd
            obtain rfl := Option.some.inj (hdata.symm.trans hother)
            exact .inr ⟨rfl, Function.update_self ..⟩
          · exact h.shut (h.of_handle hdata) hd hother
    · exact nomatch hcur.symm.trans hno

/-- **Every handle is its own client's**, as long as the signal spares the clients. -/
theorem trace_own (htr : Trace (fun s e t => Step (serverEx threadCount) s e t ∧ Spares s e)
    (start workers begin) history s) : Own s.main.phase.conn s := by
  induction htr with
  | start => exact ⟨fun _ _ h => (nomatch h), fun _ _ h => (nomatch h)⟩
  | @call history s t e htr hs ih =>
    have htr' := htr.mono fun _ _ _ h => h.1
    obtain ⟨hs, hspares⟩ := hs
    cases hs with
    | work hw ht =>
      rw [(round_main htr' hw ht).1]
      exact work_own hw (trace_connOk htr') ht ih
    | main hmain =>
      cases hmain with
      | @listen _ c cliSock junk setup htop hfresh _ h =>
        rw [htop] at ih
        have hnone : Own none s := ih
        rcases listen_cases hfresh h with ⟨-, ⟨⟨hconns, hpending, -⟩, hhandles⟩, -, hdone, -⟩ |
          ⟨-, rfl⟩
        · rw [hdone]
          exact hnone.congr hconns hpending hhandles
        · have hsocket : Own none (s.socket c cliSock) := hnone.socket hfresh.2.2
          have hown : Own (some c) (postAccept (s.socket c cliSock) c (roundData junk cliSock)) :=
            (hsocket.postAccept (roundData junk cliSock) (Function.update_self ..)).of_none
          exact ⟨hown.handles, hown.ops⟩
      | @accepted _ c cliSock bytes addrs bind ok hphase hopen _ _ _ h =>
        rw [hphase] at ih
        have hnone : Own none s := Own.settle ih fun data hdata => by
          obtain ⟨data', hdata', -, -, hsock⟩ := trace_waited htr' hphase
          obtain rfl := Option.some.inj (hdata'.symm.trans hdata)
          exact hsock ▸ hopen
        have hgo : Own none (goTo s .top) := ⟨hnone.handles, hnone.ops⟩
        have htop := hgo.complete c .accept
        obtain ⟨data, hdata, ⟨-, rfl⟩ | ⟨-, rfl⟩⟩ := acceptClient_cases h
        · exact htop.closeConn (hnone.of_handle hdata)
        · rw [(postWrite_main _ _ _ _).2.1]
          have hhandle := hnone.of_handle hdata
          exact htop.postWrite { data with buf := put bytes (place addrs data.buf) } ok hhandle
      | @failed _ c cliSock completed hphase _ h =>
        rw [hphase] at ih
        obtain ⟨data, hdata, rfl⟩ := leaveLoop_eq h
        have hhandle := Own.of_handle ih hdata
        have hown : Own (some c) (if completed then s.complete c .accept else s) := by
          cases completed with
          | true => exact Own.complete ih c .accept
          | false => exact ih
        have hnone : Own none
            (closeConn onClose (if completed then s.complete c .accept else s) c data) := by
          cases completed with
          | true => exact hown.gone hhandle
          | false => exact hown.gone hhandle
        exact ⟨hnone.handles, hnone.ops⟩
      | signal =>
        rw [(onSignal_same s).2.2]
        exact onSignal_own htr' hspares ih

end Sockets

/-- **A message that goes astray.**  A client was accepted on socket 7, and a byte of its next
message has come in.  The signal closes the socket; the next client is accepted on it, and the
answer goes there. -/
theorem astray : ∃ history s, Trace (Step (serverEx 1)) (start 1 begin) history s ∧
    ∃ sent, .send 1 sent ∈ s.pending 0 := by
  have hops : (answering 1).pending 0 = [.send 0 (greeting.take 1024)] := rfl
  have hread : work onClose (answering 1) (.sent 0 0 (greeting.take 1024) 1 true) = .ok _ :=
    work_sent rfl rfl (by decide)
  rw [postRead, post_posts (rfl : Server.handles _ 7 = some 0), complete_pending hops] at hread
  have henabled : Enabled (answering 1) (.sent 0 0 (greeting.take 1024) 1 true) :=
    ⟨by decide, hops ▸ List.mem_singleton_self _, by decide, fun _ => canPost_of rfl rfl⟩
  have hwaits : Trace (Step (serverEx 1)) (start 1 begin)
      (.main (.listen 1 7 NativeServer.cleared allWell) :: .main .signal :: _) _ :=
    .call (.call (.call (answering_trace 1 1) (.work henabled hread)) (.main .signal))
      (.main (.listen rfl ⟨rfl, rfl, rfl⟩ NativeServer.length_cleared rfl))
  have hnext : Trace (Step (serverEx 1)) (start 1 begin)
      (.main (.accepted 1 [105] addresses true true) :: _) _ :=
    .call hwaits (.main (.accepted rfl rfl (List.mem_singleton_self _) (by decide) length_addresses
      (acceptClient_eq (roundData NativeServer.cleared 7) true rfl NativeServer.length_cleared
        (by decide) (by decide) length_addresses)))
  obtain ⟨history, s, htr, hconns, hpending, hhandles, hrunning⟩ : ∃ history s,
      Trace (Step (serverEx 1)) (start 1 begin) history s ∧
      s.conns 0 = some ⟨greeting, 1024, .read, false, 7⟩ ∧ s.pending 0 = [.recv 0] ∧
      s.handles 7 = some 1 ∧ s.running = 1 :=
    ⟨_, _, hnext, rfl, rfl, rfl, rfl⟩
  have hwork : work onClose s (.received 0 0 [33] true) = _ :=
    work_received onClose 0 true hconns rfl length_greeting (by decide) (by decide)
  have hhandles' : ((s.complete 0 (.recv 0)).fill 0 [33]).handles 7 = some 1 := hhandles
  rw [if_pos (by decide), postWrite, post_posts hhandles'] at hwork
  have henabled' : Enabled s (.received 0 0 [33] true) :=
    ⟨by rw [hrunning]; decide, hpending ▸ List.mem_singleton_self _, by decide, by decide,
      fun _ => canPost_of hconns hhandles⟩
  refine ⟨_, _, .call htr (.work henabled' hwork), (put [33] greeting).take 1024, ?_⟩
  dsimp only
  rw [Function.update_self]
  exact List.mem_cons_self

/-! ## 7. Both servers -/

/-- `CloseConn` meets an `AcceptEx` in flight only where the wait has failed. -/
theorem MainEvent.eq_failed {e : MainEvent} {c : Nat} (h : e.effect = .closes c false) :
    e = .failed c false := by
  cases e with
  | listen k cliSock junk setup =>
    rw [MainEvent.effect] at h
    split at h
    · nomatch h
    · nomatch h
  | accepted k bytes addrs bind ok =>
    rw [MainEvent.effect] at h
    split at h
    · nomatch h
    · nomatch h
  | failed k completed =>
    obtain ⟨rfl, rfl⟩ := Effect.closes.inj h
    rfl
  | signal => nomatch h

/-- **No worker touches an `IoData` that was freed.**  In every state that a server can reach,
whatever the port delivers, the worker's round returns, unless it is a read that filled the buffer,
which writes one byte behind it.  An `IoData` is allocated exactly while one operation on it is in
flight: always in `server.c`, and in `server_ex.c` as long as the wait has not failed, for there
`CloseConn` frees the `IoData` of an `AcceptEx` that goes on. -/
theorem servers_one_operation :
    (∀ {count : Nat} {history : List (Event NativeServer.MainEvent)} {s : NativeServer.State},
      Trace (Step NativeServer.server) (start count NativeServer.begin) history s →
        OneOperation s ∧ RoundsReturn NativeServer.server s) ∧
    ∀ {threadCount workers : Nat} {history : List (Event MainEvent)} {s : State},
      Trace (Step (serverEx threadCount)) (start workers begin) history s →
        (OneOperation s ↔ ∀ c, .main (.failed c false) ∉ history) ∧
          RoundsReturn (serverEx threadCount) s := by
  refine ⟨fun htr => ⟨NativeServer.trace_oneOperation htr, trace_roundsReturn htr⟩, fun htr => ?_⟩
  refine ⟨(trace_oneOperation_iff htr).trans ⟨fun h c hmem => ?_, fun h c e hmem heff => ?_⟩,
    trace_roundsReturn htr⟩
  · exact h c (.failed c false) hmem rfl
  · exact h c (e.eq_failed heff ▸ hmem)

theorem servers_one_operation_runs :
    (OneOperation (NativeServer.oneClient 1) ∧
      work NativeServer.onClose (NativeServer.oneClient 1)
        (.received 0 0 NativeServer.cleared true) = .error .outOfBounds) ∧
    OneOperation (answering 1) ∧
    ∃ history s, Trace (Step (serverEx 1)) (start 1 begin) history s ∧ ¬ OneOperation s := by
  obtain ⟨hone, hreturn⟩ := servers_one_operation.1 (NativeServer.oneClient_trace 1)
  have hlen := NativeServer.length_cleared
  refine ⟨⟨hone, (hreturn (.received 0 0 NativeServer.cleared true)
    ⟨?_, ?_, ?_, ?_, fun _ => canPost_of rfl rfl⟩).2 ?_⟩,
    (servers_one_operation.2 (answering_trace 1 1)).1.mpr (by simp), ?_⟩
  · decide
  · exact List.mem_singleton_self _
  · rw [hlen]
    decide
  · exact Nat.le_of_eq hlen
  · exact fun hshort => absurd hlen (Nat.ne_of_lt hshort)
  · have hfailed : MainStep 1 (waiting 1) (.failed 0 false) _ :=
      .failed rfl (List.mem_singleton_self _) rfl
    have htr := Trace.call (waiting_trace 1 1) (.main hfailed)
    refine ⟨_, _, htr, fun hone => ?_⟩
    exact (servers_one_operation.2 htr).1.mp hone 0 List.mem_cons_self

/-- **Every answer is the client's own.**  What is on its way on a connection is the whole of its
buffer, and starts with the bytes that came in last and a zero, the first ones of the client
included.  In `server.c` it goes to the client whose bytes they are.  So it does in `server_ex.c` if
no signal has come between the accept of a client and the next round, where it closes the client's
socket; and in a run where one has, a message goes astray. -/
theorem servers_echo :
    (∀ {count : Nat} {history : List (Event NativeServer.MainEvent)} {s : NativeServer.State},
      Trace (Step NativeServer.server) (start count NativeServer.begin) history s →
        SendsOwn NativeServer.server history s ∧ Echoes NativeServer.server history s) ∧
    (∀ {threadCount workers : Nat} {history : List (Event MainEvent)} {s : State},
      Trace (Step (serverEx threadCount)) (start workers begin) history s →
        Echoes (serverEx threadCount) history s) ∧
    (∀ {threadCount workers : Nat} {history : List (Event MainEvent)} {s : State},
      Trace (fun s e t => Step (serverEx threadCount) s e t ∧ Spares s e) (start workers begin)
        history s → SendsOwn (serverEx threadCount) history s) ∧
    ∃ history s, Trace (Step (serverEx 1)) (start 1 begin) history s ∧
      ∃ sent, .send 1 sent ∈ s.pending 0 := by
  refine ⟨fun htr => ?_, fun htr => trace_echoes htr, fun htr => ?_, astray⟩
  · exact ⟨trace_sendsOwn htr (NativeServer.trace_own htr), trace_echoes htr⟩
  · exact trace_sendsOwn (htr.mono fun _ _ _ h => h.1) (trace_own htr)

/-- A client sends `hi`, and gets the 1024 bytes of its buffer; so does one of `server_ex.c` that
sends it first. -/
theorem servers_echo_hi :
    (∃ (history : List (Event NativeServer.MainEvent)) (s : NativeServer.State)
      (sent rest : List UInt8),
      Trace (Step NativeServer.server) (start 1 NativeServer.begin) history s ∧
      .send 0 sent ∈ s.pending 0 ∧ sent.length = 1024 ∧ sent = [104, 105] ++ 0 :: rest) ∧
    ∃ sent rest, .send 0 sent ∈ (answering 1).pending 0 ∧ sent.length = 1024 ∧
      sent = [104, 105] ++ 0 :: rest := by
  constructor
  · have hlen := NativeServer.length_cleared
    have hwork :
        work NativeServer.onClose (NativeServer.oneClient 1) (.received 0 0 [104, 105] true) = _ :=
      work_received NativeServer.onClose 0 true rfl rfl hlen (by decide) (by decide)
    rw [if_pos (by decide)] at hwork
    have htr := Trace.call (NativeServer.oneClient_trace 1)
      (.work (w := .received 0 0 [104, 105] true)
        ⟨by decide, List.mem_singleton_self _, by decide, by decide,
          fun _ => canPost_of rfl rfl⟩ hwork)
    obtain ⟨⟨-, hown⟩, hecho⟩ := servers_echo.1 htr
    obtain ⟨bytes, rest, hlast, hrest⟩ := hecho 0 0 _ (List.mem_singleton_self _)
    obtain rfl : [104, 105] = bytes := Option.some.inj hlast
    exact ⟨_, _, _, rest, htr, List.mem_singleton_self _,
      (hown 0 0 _ (List.mem_singleton_self _)).1, hrest⟩
  · have htr := answering_trace 1 1
    obtain ⟨-, hown⟩ := servers_echo.2.2.1 (trace_spares htr (by simp))
    obtain ⟨bytes, rest, hlast, hrest⟩ := servers_echo.2.1 htr 0 0 _ (List.mem_singleton_self _)
    obtain rfl : [104, 105] = bytes := Option.some.inj hlast
    exact ⟨_, rest, List.mem_singleton_self _, (hown 0 0 _ (List.mem_singleton_self _)).1, hrest⟩

end CDemo.NativeServerEx
