/-
# The completion-port servers in C (`server.c`, `server_ex.c`)

Two servers echo what their clients send.  Both keep an `IoData` per client on the heap, with a
buffer of 1024 bytes, and one overlapped operation in flight for it; both have the same
`PostRead`, `PostWrite` and `WorkerThread`.  They differ in how the main thread accepts a client, in
what `CloseConn` does besides releasing the client, and in how they end.

This file has what they share.  A `Program` is the rest: what `CloseConn` does to the variables of
the main thread, and the steps of the main thread, each with its `Effect` on the connections.  The
laws of a `Program` are all the shared part needs, so that what is proved here holds of both
servers.

A connection is an `IoData` and the socket made with it, and has a number of its own, which is not
given to another while anything is left of it.  The program knows the socket by its handle only,
`cliSock`, and once a handle is closed the system may give it to another socket.  So `handles` says
whose socket a handle is open on, and an operation in flight says on whose socket it was posted.

Completions come in any order and go to any worker.  A worker that is handed an `IoData` which has
been freed, or that writes behind the end of a buffer, stops the run.
-/
import CDemo.Lib.Run
import CDemo.Lib.Trace
import Mathlib.Logic.Function.Basic

namespace CDemo.Native

/-! ## 1. The data -/

/-- `IoKind`. -/
inductive IoKind where
  | read
  | write
  deriving DecidableEq, Repr

/-- `IoData`: the memory and the length of `wsabuf`, the kind of the operation in flight, whether
`Overlapped` holds an event, and the handle of the socket. -/
structure IoData where
  buf : List UInt8
  len : Nat
  opCode : IoKind
  hEvent : Bool
  cliSock : Nat
  deriving DecidableEq, Repr

/-- An overlapped operation: `AcceptEx`, `WSARecv`, or `WSASend` of these bytes, with the connection
on whose socket it was posted. -/
inductive Op where
  | accept
  | recv (sock : Nat)
  | send (sock : Nat) (bytes : List UInt8)
  deriving DecidableEq, Repr

/-- What the program and the system share.  `conns` has the `IoData` that are allocated, `pending`
the operations in flight on each, `handles` the connection whose socket a handle is open on;
`notices` counts the notifications without an `IoData` that nobody has taken, `running` the workers
in their loop; `main` has the variables of the main thread. -/
structure Server (G : Type) where
  conns : Nat → Option IoData
  pending : Nat → List Op
  handles : Nat → Option Nat
  notices : Nat
  running : Nat
  main : G

variable {G E : Type}

/-! ## 2. The functions -/

/-- `CloseConn`; `onClose` is what it does besides closing the socket and freeing the memory. -/
def closeConn (onClose : IoData → G → G) (s : Server G) (c : Nat) (data : IoData) : Server G :=
  { s with
    conns := Function.update s.conns c none
    handles := Function.update s.handles data.cliSock none
    main := onClose data s.main }

/-- A posted operation, if the call succeeded; the connection is closed otherwise.  On a handle that
is closed no call succeeds. -/
def post (onClose : IoData → G → G) (s : Server G) (c : Nat) (data : IoData) (op : Nat → Op)
    (ok : Bool) : Server G :=
  match s.handles data.cliSock, ok with
  | some sock, true =>
    { s with
      conns := Function.update s.conns c (some data)
      pending := Function.update s.pending c (op sock :: s.pending c) }
  | _, _ => closeConn onClose s c data

/-- `PostRead`; the `memset` clears the event. -/
def postRead (onClose : IoData → G → G) (s : Server G) (c : Nat) (data : IoData) (ok : Bool) :
    Server G :=
  post onClose s c { data with hEvent := false, opCode := .read } .recv ok

/-- `PostWrite`: `WSASend` sends the first `wsabuf.len` bytes of the buffer. -/
def postWrite (onClose : IoData → G → G) (s : Server G) (c : Nat) (data : IoData) (ok : Bool) :
    Server G :=
  post onClose s c { data with hEvent := false, opCode := .write }
    (fun sock => .send sock (data.buf.take data.len)) ok

/-- The `IoData` behind a pointer; one that was freed has no memory. -/
def ioData (s : Server G) (c : Nat) : Run IoData :=
  match s.conns c with
  | some data => .ok data
  | none => .error .outOfBounds

/-- One round of the loop of `WorkerThread`, with what `GetQueuedCompletionStatus` gave it. -/
def workerThread (onClose : IoData → G → G) (s : Server G) (ctx : Option Nat) (dwIoSize : Nat)
    (ok : Bool) : Run (Server G) :=
  if dwIoSize = 0 then
    match ctx with
    | none => .ok { s with running := s.running - 1 }
    | some c => do
      let data ← ioData s c
      .ok (closeConn onClose s c data)
  else
    match ctx with
    | none => .error .nullPointer
    | some c => do
      let data ← ioData s c
      match data.opCode with
      | .read => do
        let buf ← Run.write data.buf dwIoSize 0
        .ok (postWrite onClose s c { data with buf := buf } ok)
      | .write => .ok (postRead onClose s c data ok)

/-! ## 3. The completions -/

/-- What a worker can be handed: a send or a receive that completed with some bytes, an operation
that completed with none because the client has gone or the socket was closed, or a notification.
`ok` is whether the operation posted then can be posted. -/
inductive Work where
  | sent (c sock : Nat) (bytes : List UInt8) (ioSize : Nat) (ok : Bool)
  | received (c sock : Nat) (bytes : List UInt8) (ok : Bool)
  | gone (c : Nat) (op : Op)
  | quit
  deriving DecidableEq, Repr

/-- The operation is no longer in flight. -/
def Server.complete (s : Server G) (c : Nat) (op : Op) : Server G :=
  { s with pending := Function.update s.pending c ((s.pending c).erase op) }

/-- The system puts the received bytes at the start of the buffer. -/
def IoData.fill (data : IoData) (bytes : List UInt8) : IoData :=
  { data with buf := bytes ++ data.buf.drop bytes.length }

def Server.fill (s : Server G) (c : Nat) (bytes : List UInt8) : Server G :=
  { s with conns := Function.update s.conns c ((s.conns c).map fun data => data.fill bytes) }

/-- A call on the handle of the connection can succeed. -/
def Server.CanPost (s : Server G) (c : Nat) : Prop :=
  ∀ data, s.conns c = some data → (s.handles data.cliSock).isSome

/-- The port can deliver it: the operation is in flight, and a worker waits.  What completes need
not have a socket any more, for the completion can have waited in the port.  `AcceptEx` belongs to
the listening socket, which has no port. -/
def Enabled (s : Server G) : Work → Prop
  | .sent c sock bytes ioSize ok =>
    0 < s.running ∧ .send sock bytes ∈ s.pending c ∧ 0 < ioSize ∧ (ok = true → s.CanPost c)
  | .received c sock bytes ok =>
    0 < s.running ∧ .recv sock ∈ s.pending c ∧ 0 < bytes.length ∧ bytes.length ≤ 1024 ∧
      (ok = true → s.CanPost c)
  | .gone c op => 0 < s.running ∧ op ∈ s.pending c ∧ op ≠ .accept
  | .quit => 0 < s.running ∧ 0 < s.notices

/-- The worker's round. -/
def work (onClose : IoData → G → G) (s : Server G) : Work → Run (Server G)
  | .sent c sock bytes ioSize ok =>
    workerThread onClose (s.complete c (.send sock bytes)) (some c) ioSize ok
  | .received c sock bytes ok =>
    workerThread onClose ((s.complete c (.recv sock)).fill c bytes) (some c) bytes.length ok
  | .gone c op => workerThread onClose (s.complete c op) (some c) 0 true
  | .quit => workerThread onClose { s with notices := s.notices - 1 } none 0 true

/-! ## 4. The programs -/

/-- What a worker leaves in the buffer after a read: the bytes, a zero, and what was behind. -/
def put (bytes buf : List UInt8) : List UInt8 :=
  (bytes ++ buf.drop bytes.length).set bytes.length 0

/-- `AcceptEx` puts two addresses behind the room that it was given for the first bytes. -/
def place (addrs buf : List UInt8) : List UInt8 := buf.take (1024 - (16 + 16) * 2) ++ addrs

/-- A new socket, by the handle the system gives it. -/
def Server.socket (s : Server G) (c cliSock : Nat) : Server G :=
  { s with handles := Function.update s.handles cliSock (some c) }

/-- The `IoData` that `AcceptEx` is posted with, and its event. -/
def roundData (buf : List UInt8) (cliSock : Nat) : IoData := ⟨buf, 1024, .read, true, cliSock⟩

/-- `AcceptEx` is posted. -/
def postAccept (s : Server G) (c : Nat) (data : IoData) : Server G :=
  { s with
    conns := Function.update s.conns c (some data)
    pending := Function.update s.pending c (.accept :: s.pending c) }

/-- What a step of the main thread does to the connections: it opens one with a read, starts an
`AcceptEx` for one, answers the first bytes of its client, or gives it up, where `completed` says
whether its `AcceptEx` has completed. -/
inductive Effect where
  | idle
  | opens (c cliSock : Nat) (junk : List UInt8) (ok : Bool)
  | accepts (c cliSock : Nat) (junk : List UInt8)
  | answers (c : Nat) (bytes addrs : List UInt8) (ok : Bool)
  | closes (c : Nat) (completed : Bool)
  deriving DecidableEq, Repr

/-- A client came and its first bytes are answered. -/
def Effect.isAnswer : Effect → Bool
  | .answers _ _ _ _ => true
  | _ => false

/-- The same connections, operations and workers. -/
def SameConns (s t : Server G) : Prop :=
  s.conns = t.conns ∧ s.pending = t.pending ∧ s.running = t.running

/-- And the same sockets. -/
def SameSocks (s t : Server G) : Prop := SameConns s t ∧ s.handles = t.handles

/-- Nothing is left of a connection with this number, and the handle is free. -/
def Server.Fresh (s : Server G) (c cliSock : Nat) : Prop :=
  s.conns c = none ∧ s.pending c = [] ∧ s.handles cliSock = none

/-- The state after a step with this effect.  A step without one may still close a socket. -/
def Effect.Does (onClose : IoData → G → G) (s t : Server G) : Effect → Prop
  | .idle => SameConns t s
  | .opens c cliSock junk ok => s.Fresh c cliSock ∧ junk.length = 1024 ∧
      SameSocks t
        (postRead onClose (s.socket c cliSock) c ⟨junk, 1024, .read, false, cliSock⟩ ok)
  | .accepts c cliSock junk => s.Fresh c cliSock ∧ junk.length = 1024 ∧
      SameSocks t (postAccept (s.socket c cliSock) c (roundData junk cliSock))
  | .answers c bytes addrs ok => ∃ data, s.conns c = some data ∧ .accept ∈ s.pending c ∧
      bytes.length ≤ 1024 - (16 + 16) * 2 ∧ addrs.length = (16 + 16) * 2 ∧
      SameSocks t (postWrite onClose (s.complete c .accept) c
        { data with buf := put bytes (place addrs data.buf) } ok)
  | .closes c completed => ∃ data, s.conns c = some data ∧ .accept ∈ s.pending c ∧
      SameSocks t
        (closeConn onClose (if completed then s.complete c .accept else s) c data)

/-- A server: its `CloseConn` and its main thread. -/
structure Program (G E : Type) where
  onClose : IoData → G → G
  step : Server G → E → Server G → Prop
  /-- what the event does to the connections -/
  effect : E → Effect
  /-- the number of notifications it posts -/
  posts : E → Nat
  does : ∀ {s e t}, step s e t → (effect e).Does onClose s t
  notices : ∀ {s e t}, step s e t → t.notices = s.notices + posts e

inductive Event (E : Type) where
  | main (e : E)
  | work (w : Work)

inductive Step (P : Program G E) : Server G → Event E → Server G → Prop
  | main {s t : Server G} {e : E} : P.step s e t → Step P s (.main e) t
  | work {s t : Server G} {w : Work} : Enabled s w → Native.work P.onClose s w = .ok t →
      Step P s (.work w) t

/-- Nobody is connected, and the workers are in their loops. -/
def start (count : Nat) (main : G) : Server G :=
  ⟨fun _ => none, fun _ => [], fun _ => none, 0, count, main⟩

/-! ## 5. What a client has sent -/

/-- What a history says of a connection: its buffer, the bytes that its client sent last, and
whether it was given up with `AcceptEx` in flight. -/
structure Past where
  buf : Option (List UInt8)
  last : Option (List UInt8)
  lost : Bool
  deriving DecidableEq, Repr

/-- What a round makes of the past of connection `c`. -/
def Work.past (c : Nat) : Work → Past → Past
  | .received c' _ bytes _, p =>
    if c' = c then ⟨p.buf.map (put bytes), some bytes, p.lost⟩ else p
  | .sent _ _ _ _ _, p | .gone _ _, p | .quit, p => p

/-- What a step of the main thread makes of it. -/
def Effect.past (c : Nat) : Effect → Past → Past
  | .opens c' _ junk _, p | .accepts c' _ junk, p =>
    if c' = c then ⟨some junk, none, p.lost⟩ else p
  | .answers c' bytes addrs _, p =>
    if c' = c then ⟨p.buf.map fun buf => put bytes (place addrs buf), some bytes, p.lost⟩ else p
  | .closes c' completed, p => if c' = c then { p with lost := p.lost || !completed } else p
  | .idle, p => p

/-- The past of connection `c`; the latest event is the first. -/
def past (P : Program G E) (c : Nat) : List (Event E) → Past
  | [] => ⟨none, none, false⟩
  | .main e :: history => (P.effect e).past c (past P c history)
  | .work w :: history => w.past c (past P c history)

theorem Work.past_lost (w : Work) (c : Nat) (p : Past) : (w.past c p).lost = p.lost := by
  cases w with
  | received k sock bytes ok =>
    rw [Work.past]
    split
    · rfl
    · rfl
  | sent k sock bytes n ok => rfl
  | gone k op => rfl
  | quit => rfl

/-- The connection a round is about. -/
def Work.conn : Work → Option Nat
  | .sent c _ _ _ _ | .received c _ _ _ | .gone c _ => some c
  | .quit => none

theorem Work.past_of_ne {w : Work} {c : Nat} {p : Past} (hc : w.conn ≠ some c) :
    w.past c p = p := by
  cases w with
  | received k sock bytes ok =>
    rw [Work.past, if_neg]
    exact fun heq => hc (congrArg some heq)
  | sent k sock bytes n ok => rfl
  | gone k op => rfl
  | quit => rfl

theorem Effect.past_lost (e : Effect) (c : Nat) (p : Past) :
    (e.past c p).lost = true ↔ e = .closes c false ∨ p.lost = true := by
  cases e with
  | idle => simp [Effect.past]
  | opens k cliSock junk ok =>
    rw [Effect.past]
    split
    · simp
    · simp
  | accepts k cliSock junk =>
    rw [Effect.past]
    split
    · simp
    · simp
  | answers k bytes addrs ok =>
    rw [Effect.past]
    split
    · simp
    · simp
  | closes k completed =>
    rw [Effect.past]
    by_cases hk : k = c
    · subst hk
      cases completed with
      | true => simp
      | false => simp
    · simp [hk]

/-- **A connection is lost by giving it up with `AcceptEx` in flight**, and in no other way. -/
theorem past_lost_iff {P : Program G E} {c : Nat} {history : List (Event E)} :
    (past P c history).lost = true ↔ ∃ e, .main e ∈ history ∧ P.effect e = .closes c false := by
  induction history with
  | nil => simp [past]
  | cons e history ih =>
    cases e with
    | work w =>
      rw [past, w.past_lost, ih]
      simp
    | main e =>
      rw [past, Effect.past_lost, ih]
      constructor
      · rintro (hnow | ⟨e', hmem, heq⟩)
        · exact ⟨e, List.mem_cons_self, hnow⟩
        · exact ⟨e', List.mem_cons_of_mem _ hmem, heq⟩
      · rintro ⟨e', hmem, heq⟩
        rcases List.mem_cons.mp hmem with hnow | hold
        · obtain rfl := Event.main.inj hnow
          exact .inl heq
        · exact .inr ⟨e', hold, heq⟩

theorem put_eq {bytes buf : List UInt8} (h : bytes.length < buf.length) :
    put bytes buf = bytes ++ 0 :: buf.drop (bytes.length + 1) := by
  rw [put, List.drop_eq_getElem_cons h, List.set_append_right _ _ (Nat.le_refl _), Nat.sub_self,
    List.set_cons_zero]

theorem length_put {bytes buf : List UInt8} (h : bytes.length ≤ buf.length) :
    (put bytes buf).length = buf.length := by
  rw [put, List.length_set, List.length_append, List.length_drop]
  omega

theorem length_place {addrs buf : List UInt8} (hbuf : buf.length = 1024)
    (haddrs : addrs.length = (16 + 16) * 2) : (place addrs buf).length = 1024 := by
  rw [place, List.length_append, List.length_take]
  omega

/-! ## 6. One connection -/

/-- What an operation in flight says of its `IoData`.  What is sent is the whole buffer, which
starts with the bytes that came last and a zero. -/
def Op.Fits (last : Option (List UInt8)) : Op → IoData → Prop
  | .accept, data => data.hEvent = true
  | .recv _, data => data.opCode = .read ∧ data.hEvent = false
  | .send _ sent, data => data.opCode = .write ∧ data.hEvent = false ∧ sent = data.buf ∧
      ∃ bytes rest, last = some bytes ∧ data.buf = bytes ++ 0 :: rest

/-- The connection is open with this one operation in flight, and its buffer has what came in on
it. -/
structure Live (p : Past) (s : Server G) (c : Nat) (data : IoData) (op : Op) : Prop where
  conns : s.conns c = some data
  pending : s.pending c = [op]
  fits : op.Fits p.last data
  len : data.len = 1024
  buf : data.buf.length = 1024
  past : p.buf = some data.buf
  lost : p.lost = false

/-- The connection is closed, and nothing is in flight but an `AcceptEx` that it was given up with;
or it is open. -/
def ConnOk (p : Past) (s : Server G) (c : Nat) : Prop :=
  (s.conns c = none ∧ s.pending c = if p.lost then [.accept] else []) ∨
    ∃ data op, Live p s c data op

section Post

variable {onClose : IoData → G → G} {s t : Server G} {c sock : Nat} {data : IoData} {op : Op}
  {p : Past}

theorem ConnOk.congr (hc : t.conns c = s.conns c) (hp : t.pending c = s.pending c)
    (h : ConnOk p s c) : ConnOk p t c := by
  rcases h with ⟨hnone, hops⟩ | ⟨data, op, hlive⟩
  · exact .inl ⟨hc.trans hnone, hp.trans hops⟩
  · exact .inr ⟨data, op,
      { hlive with conns := hc.trans hlive.conns, pending := hp.trans hlive.pending }⟩

/-- An operation of the port is in flight on an open connection only. -/
theorem ConnOk.of_mem (h : ConnOk p s c) (hop : op ∈ s.pending c) (hport : op ≠ .accept) :
    ∃ data, Live p s c data op := by
  rcases h with ⟨-, hops⟩ | ⟨data, op', hlive⟩
  · rw [hops] at hop
    split at hop
    · exact absurd (List.mem_singleton.mp hop) hport
    · exact absurd hop List.not_mem_nil
  · rw [hlive.pending] at hop
    obtain rfl := List.mem_singleton.mp hop
    exact ⟨data, hlive⟩

/-- So is an `AcceptEx`, where the memory is still allocated. -/
theorem ConnOk.of_conns (h : ConnOk p s c) (hdata : s.conns c = some data)
    (hop : op ∈ s.pending c) : Live p s c data op := by
  rcases h with ⟨hnone, -⟩ | ⟨data', op', hlive⟩
  · exact absurd (hnone.symm.trans hdata) (by simp)
  · obtain rfl := Option.some.inj (hlive.conns.symm.trans hdata)
    rw [hlive.pending] at hop
    obtain rfl := List.mem_singleton.mp hop
    exact hlive

/-- A connection of which nothing is left has not been given up in flight. -/
theorem ConnOk.not_lost (h : ConnOk p s c) (hnil : s.pending c = []) : p.lost = false := by
  rcases h with ⟨-, hops⟩ | ⟨data, op, hlive⟩
  · cases hlost : p.lost with
    | false => rfl
    | true =>
      rw [hlost, if_pos rfl] at hops
      exact absurd (hnil.symm.trans hops) (by simp)
  · exact hlive.lost

theorem post_posts {ops : Nat → Op} (h : s.handles data.cliSock = some sock) :
    post onClose s c data ops true =
      { s with
        conns := Function.update s.conns c (some data)
        pending := Function.update s.pending c (ops sock :: s.pending c) } := by
  unfold post
  rw [h]

theorem post_fails {ops : Nat → Op} :
    post onClose s c data ops false = closeConn onClose s c data := by
  unfold post
  cases s.handles data.cliSock with
  | none => rfl
  | some sock => rfl

/-- Posting does not look at the variables of the main thread. -/
theorem post_sameSocks (onClose : IoData → G → G) (s : Server G) (g : G) (c : Nat) (data : IoData)
    (ops : Nat → Op) (ok : Bool) :
    SameSocks (post onClose { s with main := g } c data ops ok) (post onClose s c data ops ok) := by
  unfold post
  dsimp only
  cases s.handles data.cliSock with
  | none => exact ⟨⟨rfl, rfl, rfl⟩, rfl⟩
  | some sock =>
    cases ok with
    | false => exact ⟨⟨rfl, rfl, rfl⟩, rfl⟩
    | true => exact ⟨⟨rfl, rfl, rfl⟩, rfl⟩

/-- **What posting does**: the operation is in flight on the socket of the handle, or the connection
is closed. -/
theorem post_cases (onClose : IoData → G → G) (s : Server G) (c : Nat) (data : IoData)
    (ops : Nat → Op) (ok : Bool) :
    (∃ sock, ok = true ∧ s.handles data.cliSock = some sock ∧ post onClose s c data ops ok =
      { s with
        conns := Function.update s.conns c (some data)
        pending := Function.update s.pending c (ops sock :: s.pending c) }) ∨
    post onClose s c data ops ok = closeConn onClose s c data := by
  cases ok with
  | false => exact .inr post_fails
  | true =>
    cases h : s.handles data.cliSock with
    | none => exact .inr (by unfold post; rw [h])
    | some sock => exact .inl ⟨sock, rfl, rfl, post_posts h⟩

theorem post_frame (onClose : IoData → G → G) (s : Server G) (data : IoData) (ops : Nat → Op)
    (ok : Bool) {c' : Nat} (h : c' ≠ c) :
    (post onClose s c data ops ok).conns c' = s.conns c' ∧
      (post onClose s c data ops ok).pending c' = s.pending c' := by
  rcases post_cases onClose s c data ops ok with ⟨sock, -, -, heq⟩ | heq
  · rw [heq]
    exact ⟨Function.update_of_ne h _ _, Function.update_of_ne h _ _⟩
  · rw [heq]
    exact ⟨Function.update_of_ne h _ _, rfl⟩

/-- **A connection with nothing in flight is all right once an operation is posted**, or it is
closed. -/
theorem post_connOk (data : IoData) {ops : Nat → Op} (hnil : s.pending c = []) (ok : Bool)
    (hfits : ∀ sock, (ops sock).Fits p.last data) (hlen : data.len = 1024)
    (hbuf : data.buf.length = 1024) (hpast : p.buf = some data.buf) (hlost : p.lost = false) :
    ConnOk p (post onClose s c data ops ok) c := by
  rcases post_cases onClose s c data ops ok with ⟨sock, -, -, heq⟩ | heq
  · rw [heq]
    refine .inr ⟨data, ops sock, Function.update_self .., ?_, hfits sock, hlen, hbuf, hpast, hlost⟩
    exact (Function.update_self ..).trans (congrArg _ hnil)
  · rw [heq]
    refine .inl ⟨Function.update_self .., ?_⟩
    rw [hlost]
    exact hnil

theorem postRead_connOk (data : IoData) (hnil : s.pending c = []) (ok : Bool)
    (hlen : data.len = 1024) (hbuf : data.buf.length = 1024) (hpast : p.buf = some data.buf)
    (hlost : p.lost = false) : ConnOk p (postRead onClose s c data ok) c :=
  post_connOk { data with hEvent := false, opCode := .read } hnil ok (fun _ => ⟨rfl, rfl⟩) hlen
    hbuf hpast hlost

/-- What is posted by `PostWrite` is the whole buffer. -/
theorem postWrite_connOk (data : IoData) {bytes rest : List UInt8} (hnil : s.pending c = [])
    (ok : Bool) (hlen : data.len = 1024) (hbuf : data.buf.length = 1024)
    (hpast : p.buf = some data.buf) (hlost : p.lost = false) (hlast : p.last = some bytes)
    (heq : data.buf = bytes ++ 0 :: rest) : ConnOk p (postWrite onClose s c data ok) c := by
  refine post_connOk { data with hEvent := false, opCode := .write } hnil ok (fun _ => ?_) hlen
    hbuf hpast hlost
  refine ⟨rfl, rfl, ?_, bytes, rest, hlast, heq⟩
  rw [hlen, ← hbuf, List.take_length]

/-- The answer to the bytes that a client sent last. -/
theorem postWrite_put_connOk (data : IoData) {bytes buf : List UInt8} (hnil : s.pending c = [])
    (ok : Bool) (hlen : data.len = 1024) (hbuf : buf.length = 1024) (hlt : bytes.length < 1024)
    (hpast : p.buf = some (put bytes buf)) (hlost : p.lost = false) (hlast : p.last = some bytes) :
    ConnOk p (postWrite onClose s c { data with buf := put bytes buf } ok) c :=
  postWrite_connOk { data with buf := put bytes buf } hnil ok hlen
    ((length_put (by omega)).trans hbuf) hpast hlost hlast (put_eq (by omega))

end Post

/-! ## 7. One round of a worker -/

section Round

variable {onClose : IoData → G → G} {s t : Server G} {c sock : Nat} {data : IoData} {op : Op}
  {w : Work} {p : Nat → Past}

theorem complete_pending (hops : s.pending c = [op]) : (s.complete c op).pending c = [] := by
  refine (Function.update_self ..).trans ?_
  rw [hops]
  exact List.erase_cons_head ..

theorem complete_frame {c' : Nat} (h : c' ≠ c) :
    (s.complete c op).conns c' = s.conns c' ∧ (s.complete c op).pending c' = s.pending c' :=
  ⟨rfl, Function.update_of_ne h _ _⟩

theorem fill_conns (bytes : List UInt8) (hdata : s.conns c = some data) :
    (s.fill c bytes).conns c = some (data.fill bytes) :=
  (Function.update_self ..).trans (congrArg (Option.map _) hdata)

/-- Writing the buffer of one connection leaves the others. -/
theorem fill_frame (s : Server G) {c c' : Nat} (bytes : List UInt8) (h : c' ≠ c) :
    (s.fill c bytes).conns c' = s.conns c' ∧ (s.fill c bytes).pending c' = s.pending c' :=
  ⟨Function.update_of_ne h _ _, rfl⟩

theorem canPost_of {sock : Nat} (hdata : s.conns c = some data)
    (hsock : s.handles data.cliSock = some sock) : s.CanPost c := by
  intro data' hdata'
  obtain rfl := Option.some.inj (hdata.symm.trans hdata')
  rw [hsock]
  rfl

theorem ioData_ok (h : s.conns c = some data) : ioData s c = .ok data := by
  rw [ioData, h]

theorem ioData_eq_ok (h : ioData s c = .ok data) : s.conns c = some data := by
  rw [ioData] at h
  split at h
  · next data' hdata =>
    obtain rfl := Except.ok.inj h
    exact hdata
  · nomatch h

/-- After a send the worker posts a receive. -/
theorem work_sent {bytes : List UInt8} {ioSize : Nat} {ok : Bool} (hdata : s.conns c = some data)
    (hkind : data.opCode = .write) (hsize : 0 < ioSize) :
    work onClose s (.sent c sock bytes ioSize ok) =
      .ok (postRead onClose (s.complete c (.send sock bytes)) c data ok) := by
  rw [work, workerThread, if_neg (by omega), ioData_ok (s := s.complete c (.send sock bytes)) hdata,
    Run.ok_bind, hkind]

/-- After a receive it posts a send, if the zero behind the bytes fits into the buffer. -/
theorem work_received {bytes : List UInt8} (onClose : IoData → G → G) (sock : Nat) (ok : Bool)
    (hdata : s.conns c = some data) (hkind : data.opCode = .read) (hbuf : data.buf.length = 1024)
    (hpos : 0 < bytes.length) (hle : bytes.length ≤ 1024) :
    work onClose s (.received c sock bytes ok) =
      if bytes.length < 1024 then
        .ok (postWrite onClose ((s.complete c (.recv sock)).fill c bytes) c
          { data with buf := put bytes data.buf } ok)
      else .error .outOfBounds := by
  have hfill := fill_conns (s := s.complete c (.recv sock)) bytes hdata
  have hlen : (bytes ++ data.buf.drop bytes.length).length = 1024 := by
    rw [List.length_append, List.length_drop]
    omega
  rw [work, workerThread, if_neg (by omega), ioData_ok hfill, Run.ok_bind]
  simp only [IoData.fill, hkind]
  by_cases hlt : bytes.length < 1024
  · rw [if_pos hlt, Run.write_eq_ok (by rw [hlen]; exact hlt), Run.ok_bind]
    rfl
  · rw [if_neg hlt, Run.write, if_neg (by rw [hlen]; exact hlt)]
    rfl

/-- A client that has gone is released. -/
theorem work_gone (hdata : s.conns c = some data) :
    work onClose s (.gone c op) = .ok (closeConn onClose (s.complete c op) c data) := by
  rw [work, workerThread, if_pos rfl, ioData_ok (s := s.complete c op) hdata, Run.ok_bind]

theorem work_quit : work onClose s .quit =
    .ok { s with notices := s.notices - 1, running := s.running - 1 } := rfl

/-- A read leaves room for the zero that the worker puts behind it. -/
def Work.Short : Work → Prop
  | .received _ _ bytes _ => bytes.length < 1024
  | _ => True

/-- **The port delivers, and the worker's round returns**, unless it is a read that filled the
buffer. -/
theorem work_returns_iff (hw : Enabled s w) (h : ∀ c, ConnOk (p c) s c) :
    ((∃ t, work onClose s w = .ok t) ↔ w.Short) ∧
      (¬ w.Short → work onClose s w = .error .outOfBounds) := by
  cases w with
  | sent c sock bytes ioSize ok =>
    obtain ⟨-, hop, hsize, -⟩ := hw
    obtain ⟨data, hlive⟩ := (h c).of_mem hop (by simp)
    refine ⟨iff_of_true ⟨_, work_sent hlive.conns hlive.fits.1 hsize⟩ trivial, fun hn => ?_⟩
    exact absurd trivial hn
  | received c sock bytes ok =>
    obtain ⟨-, hop, hpos, hle, -⟩ := hw
    obtain ⟨data, hlive⟩ := (h c).of_mem hop (by simp)
    have hwork := work_received onClose sock ok hlive.conns hlive.fits.1 hlive.buf hpos hle
    by_cases hlt : bytes.length < 1024
    · rw [if_pos hlt] at hwork
      exact ⟨iff_of_true ⟨_, hwork⟩ hlt, fun hn => absurd hlt hn⟩
    · rw [if_neg hlt] at hwork
      refine ⟨iff_of_false ?_ hlt, fun _ => hwork⟩
      rintro ⟨t, ht⟩
      exact nomatch hwork.symm.trans ht
  | gone c op =>
    obtain ⟨-, hop, hport⟩ := hw
    obtain ⟨data, hlive⟩ := (h c).of_mem hop hport
    exact ⟨iff_of_true ⟨_, work_gone hlive.conns⟩ trivial, fun hn => absurd trivial hn⟩
  | quit => exact ⟨iff_of_true ⟨_, work_quit⟩ trivial, fun hn => absurd trivial hn⟩

/-- **What a returning round does**: it posts the operation that comes next, releases the
connection, or takes a notification. -/
theorem work_cases (hw : Enabled s w) (h : ∀ c, ConnOk (p c) s c)
    (ht : work onClose s w = .ok t) :
    (∃ c sock bytes ioSize ok data, w = .sent c sock bytes ioSize ok ∧ (ok = true → s.CanPost c) ∧
      Live (p c) s c data (.send sock bytes) ∧
      t = postRead onClose (s.complete c (.send sock bytes)) c data ok) ∨
    (∃ c sock bytes ok data, w = .received c sock bytes ok ∧ (ok = true → s.CanPost c) ∧
      Live (p c) s c data (.recv sock) ∧ bytes.length < 1024 ∧
      t = postWrite onClose ((s.complete c (.recv sock)).fill c bytes) c
        { data with buf := put bytes data.buf } ok) ∨
    (∃ c op data, w = .gone c op ∧ op ≠ .accept ∧ Live (p c) s c data op ∧
      t = closeConn onClose (s.complete c op) c data) ∨
    (w = .quit ∧ t = { s with notices := s.notices - 1, running := s.running - 1 }) := by
  cases w with
  | sent c sock bytes ioSize ok =>
    obtain ⟨-, hop, hsize, hpost⟩ := hw
    obtain ⟨data, hlive⟩ := (h c).of_mem hop (by simp)
    rw [work_sent hlive.conns hlive.fits.1 hsize] at ht
    exact .inl ⟨c, sock, bytes, ioSize, ok, data, rfl, hpost, hlive, (Except.ok.inj ht).symm⟩
  | received c sock bytes ok =>
    obtain ⟨-, hop, hpos, hle, hpost⟩ := hw
    obtain ⟨data, hlive⟩ := (h c).of_mem hop (by simp)
    rw [work_received onClose sock ok hlive.conns hlive.fits.1 hlive.buf hpos hle] at ht
    split at ht
    · next hlt =>
      exact .inr (.inl ⟨c, sock, bytes, ok, data, rfl, hpost, hlive, hlt,
        (Except.ok.inj ht).symm⟩)
    · exact absurd ht (by simp)
  | gone c op =>
    obtain ⟨-, hop, hport⟩ := hw
    obtain ⟨data, hlive⟩ := (h c).of_mem hop hport
    rw [work_gone hlive.conns] at ht
    exact .inr (.inr (.inl ⟨c, op, data, rfl, hport, hlive, (Except.ok.inj ht).symm⟩))
  | quit =>
    rw [work_quit] at ht
    exact .inr (.inr (.inr ⟨rfl, (Except.ok.inj ht).symm⟩))

/-- A round leaves the other connections alone. -/
theorem work_other (hw : Enabled s w) (h : ∀ c, ConnOk (p c) s c) (ht : work onClose s w = .ok t)
    (hc : w.conn ≠ some c) : t.conns c = s.conns c ∧ t.pending c = s.pending c := by
  rcases work_cases hw h ht with ⟨k, sock, bytes, n, ok, data, rfl, -, -, rfl⟩ |
    ⟨k, sock, bytes, ok, data, rfl, -, -, -, rfl⟩ | ⟨k, op, data, rfl, -, -, rfl⟩ | ⟨rfl, rfl⟩
  · have hk : c ≠ k := fun heq => hc (congrArg some heq.symm)
    obtain ⟨h1, h2⟩ := post_frame onClose (s.complete k (.send sock bytes))
      { data with hEvent := false, opCode := .read } .recv ok hk
    exact ⟨h1, h2.trans (complete_frame hk).2⟩
  · have hk : c ≠ k := fun heq => hc (congrArg some heq.symm)
    obtain ⟨h1, h2⟩ := post_frame onClose ((s.complete k (.recv sock)).fill k bytes)
      { data with buf := put bytes data.buf, hEvent := false, opCode := .write }
      (fun sock => .send sock ((put bytes data.buf).take data.len)) ok hk
    obtain ⟨h3, h4⟩ := fill_frame (s.complete k (.recv sock)) bytes hk
    exact ⟨h1.trans h3, (h2.trans h4).trans (complete_frame hk).2⟩
  · have hk : c ≠ k := fun heq => hc (congrArg some heq.symm)
    exact ⟨Function.update_of_ne hk _ _, (complete_frame (s := s) hk).2⟩
  · exact ⟨rfl, rfl⟩

/-- So it does with one that waits for its client. -/
theorem work_accept (hw : Enabled s w) (h : ∀ c, ConnOk (p c) s c) (ht : work onClose s w = .ok t)
    (hop : .accept ∈ s.pending c) : t.conns c = s.conns c ∧ t.pending c = s.pending c := by
  refine work_other hw h ht ?_
  have hne : ∀ k op, op ∈ s.pending k → op ≠ .accept → some k ≠ some c := by
    intro k op hmem hport heq
    obtain rfl := Option.some.inj heq
    obtain ⟨data, hlive⟩ := (h k).of_mem hmem hport
    rw [hlive.pending] at hop
    exact hport (List.mem_singleton.mp hop).symm
  cases w with
  | sent k sock bytes n ok => exact hne k _ hw.2.1 (by simp)
  | received k sock bytes ok => exact hne k _ hw.2.1 (by simp)
  | gone k op => exact hne k op hw.2.1 hw.2.2
  | quit => exact fun heq => (nomatch heq)

/-- The round ends with `CloseConn`. -/
def Work.closes : Work → Bool
  | .sent _ _ _ _ ok | .received _ _ _ ok => !ok
  | .gone _ _ => true
  | .quit => false

/-- What posting does to the main thread and the sockets. -/
theorem post_main (onClose : IoData → G → G) (s : Server G) (c : Nat) (data : IoData)
    (ops : Nat → Op) {ok : Bool} (hpost : ok = true → (s.handles data.cliSock).isSome) :
    ((!ok) = false ∧ (post onClose s c data ops ok).main = s.main ∧
      (post onClose s c data ops ok).handles = s.handles) ∨
    ((!ok) = true ∧ post onClose s c data ops ok = closeConn onClose s c data) := by
  cases ok with
  | true =>
    obtain ⟨sock, hsock⟩ := Option.isSome_iff_exists.mp (hpost rfl)
    rw [post_posts hsock]
    exact .inl ⟨rfl, rfl, rfl⟩
  | false => exact .inr ⟨rfl, post_fails⟩

/-- A worker touches the sockets and the variables of the main thread in `CloseConn` only, and hands
it an `IoData` without an event. -/
theorem work_main (hw : Enabled s w) (h : ∀ c, ConnOk (p c) s c)
    (ht : work onClose s w = .ok t) :
    (w.closes = false ∧ t.main = s.main ∧ t.handles = s.handles) ∨
      (w.closes = true ∧ ∃ data, data.hEvent = false ∧ t.main = onClose data s.main ∧
        t.handles = Function.update s.handles data.cliSock none) := by
  rcases work_cases hw h ht with ⟨k, sock, bytes, n, ok, data, rfl, hpost, hlive, rfl⟩ |
    ⟨k, sock, bytes, ok, data, rfl, hpost, hlive, -, rfl⟩ | ⟨k, op, data, rfl, hport, hlive, rfl⟩ |
    ⟨rfl, rfl⟩
  · rcases post_main onClose (s.complete k (.send sock bytes)) k
      { data with hEvent := false, opCode := .read } .recv
      (fun hok => hpost hok data hlive.conns) with ⟨hok, hmain, hhandles⟩ | ⟨hok, heq⟩
    · exact .inl ⟨hok, hmain, hhandles⟩
    · refine .inr ⟨hok, _, rfl, congrArg Server.main heq, congrArg Server.handles heq⟩
  · rcases post_main onClose ((s.complete k (.recv sock)).fill k bytes) k
      { data with buf := put bytes data.buf, hEvent := false, opCode := .write }
      (fun sock => .send sock ((put bytes data.buf).take data.len))
      (fun hok => hpost hok data hlive.conns) with ⟨hok, hmain, hhandles⟩ | ⟨hok, heq⟩
    · exact .inl ⟨hok, hmain, hhandles⟩
    · refine .inr ⟨hok, _, rfl, congrArg Server.main heq, congrArg Server.handles heq⟩
  · refine .inr ⟨rfl, data, ?_, rfl, rfl⟩
    cases op with
    | accept => exact absurd rfl hport
    | recv _ => exact hlive.fits.2
    | send _ _ => exact hlive.fits.2.1
  · exact .inl ⟨rfl, rfl, rfl⟩

end Round

/-! ## 8. One step -/

section Steps

variable {P : Program G E} {s t : Server G} {history : List (Event E)}

/-- **The step lemma for a worker.** -/
theorem work_connOk {w : Work} (hw : Enabled s w) (ht : work P.onClose s w = .ok t)
    (h : ∀ c, ConnOk (past P c history) s c) (c : Nat) :
    ConnOk (past P c (.work w :: history)) t c := by
  rw [past]
  by_cases hc : w.conn = some c
  · rcases work_cases hw h ht with ⟨k, sock, bytes, n, ok, data, rfl, -, hlive, rfl⟩ |
      ⟨k, sock, bytes, ok, data, rfl, -, hlive, hlt, rfl⟩ | ⟨k, op, data, rfl, -, hlive, rfl⟩ |
      ⟨rfl, -⟩
    · obtain rfl := Option.some.inj hc
      exact postRead_connOk data (complete_pending hlive.pending) ok hlive.len hlive.buf hlive.past
        hlive.lost
    · obtain rfl := Option.some.inj hc
      rw [Work.past, if_pos rfl]
      exact postWrite_put_connOk (s := (s.complete k (.recv sock)).fill k bytes) data
        (complete_pending hlive.pending) ok hlive.len hlive.buf hlt
        (congrArg (Option.map _) hlive.past) hlive.lost rfl
    · obtain rfl := Option.some.inj hc
      refine .inl ⟨Function.update_self .., ?_⟩
      rw [Work.past, hlive.lost]
      exact complete_pending hlive.pending
    · nomatch hc
  · obtain ⟨hconns, hpending⟩ := work_other hw h ht hc
    rw [Work.past_of_ne hc]
    exact (h c).congr hconns hpending

/-- An operation on one connection leaves the others as they were. -/
theorem ConnOk.other {p : Past} {u : Server G} {c : Nat} (h : ConnOk p s c)
    (hsame : SameConns t u) (hframe : u.conns c = s.conns c ∧ u.pending c = s.pending c) :
    ConnOk p t c :=
  h.congr ((congrFun hsame.1 c).trans hframe.1) ((congrFun hsame.2.1 c).trans hframe.2)

/-- **The step lemma for the main thread.** -/
theorem Effect.Does.connOk {onClose : IoData → G → G} {e : Effect} {p : Nat → Past}
    (hdoes : e.Does onClose s t) (h : ∀ c, ConnOk (p c) s c) (c : Nat) :
    ConnOk (e.past c (p c)) t c := by
  cases e with
  | idle => exact (h c).congr (congrFun hdoes.1 c) (congrFun hdoes.2.1 c)
  | opens k cliSock junk ok =>
    obtain ⟨⟨-, hnil, -⟩, hjunk, ⟨hsame, -⟩⟩ := hdoes
    rw [Effect.past]
    by_cases hc : c = k
    · subst hc
      rw [if_pos rfl]
      refine ConnOk.congr (congrFun hsame.1 c) (congrFun hsame.2.1 c) ?_
      exact postRead_connOk (s := s.socket c cliSock) ⟨junk, 1024, .read, false, cliSock⟩ hnil ok
        rfl hjunk rfl ((h c).not_lost hnil)
    · rw [if_neg (Ne.symm hc)]
      exact (h c).other hsame (post_frame onClose (s.socket k cliSock) _ _ ok hc)
  | accepts k cliSock junk =>
    obtain ⟨⟨-, hnil, -⟩, hjunk, ⟨hsame, -⟩⟩ := hdoes
    rw [Effect.past]
    by_cases hc : c = k
    · subst hc
      rw [if_pos rfl]
      refine ConnOk.congr (congrFun hsame.1 c) (congrFun hsame.2.1 c) ?_
      refine .inr ⟨roundData junk cliSock, .accept, Function.update_self .., ?_, rfl, rfl, hjunk,
        rfl, (h c).not_lost hnil⟩
      exact (Function.update_self ..).trans (congrArg _ hnil)
    · rw [if_neg (Ne.symm hc)]
      exact (h c).other hsame ⟨Function.update_of_ne hc _ _, Function.update_of_ne hc _ _⟩
  | answers k bytes addrs ok =>
    obtain ⟨data, hdata, hop, hbytes, haddrs, ⟨hsame, -⟩⟩ := hdoes
    rw [Effect.past]
    by_cases hc : c = k
    · subst hc
      have hlive := (h c).of_conns hdata hop
      rw [if_pos rfl]
      refine ConnOk.congr (congrFun hsame.1 c) (congrFun hsame.2.1 c) ?_
      exact postWrite_put_connOk data (complete_pending hlive.pending) ok hlive.len
        (length_place hlive.buf haddrs) (by omega) (congrArg (Option.map _) hlive.past) hlive.lost
        rfl
    · rw [if_neg (Ne.symm hc)]
      obtain ⟨h1, h2⟩ := post_frame onClose (s.complete k .accept)
        { data with buf := put bytes (place addrs data.buf), hEvent := false, opCode := .write }
        (fun sock => .send sock ((put bytes (place addrs data.buf)).take data.len)) ok hc
      exact (h c).other hsame ⟨h1, h2.trans (complete_frame hc).2⟩
  | closes k completed =>
    obtain ⟨data, hdata, hop, ⟨hsame, -⟩⟩ := hdoes
    rw [Effect.past]
    by_cases hc : c = k
    · subst hc
      have hlive := (h c).of_conns hdata hop
      rw [if_pos rfl, hlive.lost]
      refine ConnOk.congr (congrFun hsame.1 c) (congrFun hsame.2.1 c) ?_
      cases completed with
      | true => exact .inl ⟨Function.update_self .., complete_pending hlive.pending⟩
      | false => exact .inl ⟨Function.update_self .., hlive.pending⟩
    · rw [if_neg (Ne.symm hc)]
      refine (h c).other hsame ⟨?_, ?_⟩
      · cases completed with
        | true => exact Function.update_of_ne hc _ _
        | false => exact Function.update_of_ne hc _ _
      · cases completed with
        | true => exact (complete_frame hc).2
        | false => rfl

/-- **The step lemma.** -/
theorem Step.connOk {e : Event E} (hs : Step P s e t) (h : ∀ c, ConnOk (past P c history) s c)
    (c : Nat) : ConnOk (past P c (e :: history)) t c := by
  cases hs with
  | work hw ht => exact work_connOk hw ht h c
  | main hmain => exact (P.does hmain).connOk h c

theorem post_counts (onClose : IoData → G → G) (s : Server G) (c : Nat) (data : IoData)
    (ops : Nat → Op) (ok : Bool) : (post onClose s c data ops ok).running = s.running ∧
      (post onClose s c data ops ok).notices = s.notices := by
  rcases post_cases onClose s c data ops ok with ⟨sock, -, -, heq⟩ | heq
  · rw [heq]
    exact ⟨rfl, rfl⟩
  · rw [heq]
    exact ⟨rfl, rfl⟩

/-- The main thread neither starts nor stops a worker in its loop. -/
theorem Effect.Does.running {onClose : IoData → G → G} {e : Effect} (hdoes : e.Does onClose s t) :
    t.running = s.running := by
  cases e with
  | idle => exact hdoes.2.2
  | opens c cliSock junk ok =>
    obtain ⟨-, -, ⟨-, -, hrunning⟩, -⟩ := hdoes
    exact hrunning.trans (post_counts onClose (s.socket c cliSock) c _ _ ok).1
  | accepts c cliSock junk =>
    obtain ⟨-, -, ⟨-, -, hrunning⟩, -⟩ := hdoes
    exact hrunning
  | answers c bytes addrs ok =>
    obtain ⟨data, -, -, -, -, ⟨-, -, hrunning⟩, -⟩ := hdoes
    exact hrunning.trans (post_counts onClose (s.complete c .accept) c _ _ ok).1
  | closes c completed =>
    obtain ⟨data, -, -, ⟨-, -, hrunning⟩, -⟩ := hdoes
    cases completed with
    | true => exact hrunning
    | false => exact hrunning

def Event.isQuit : Event E → Bool
  | .work .quit => true
  | _ => false

/-- The notifications an event posts. -/
def Event.posted (P : Program G E) : Event E → Nat
  | .main e => P.posts e
  | .work _ => 0

/-- **Workers leave their loops one for each notification they take**, and in no other way. -/
theorem Step.counts {e : Event E} (hs : Step P s e t)
    (h : ∀ c, ConnOk (past P c history) s c) :
    t.running + (if e.isQuit then 1 else 0) = s.running ∧
      t.notices + (if e.isQuit then 1 else 0) = s.notices + e.posted P := by
  cases hs with
  | main hmain => exact ⟨(P.does hmain).running, P.notices hmain⟩
  | work hw ht =>
    rcases work_cases hw h ht with ⟨k, sock, bytes, n, ok, data, rfl, -, -, rfl⟩ |
      ⟨k, sock, bytes, ok, data, rfl, -, -, -, rfl⟩ | ⟨k, op, data, rfl, -, -, rfl⟩ | ⟨rfl, rfl⟩
    · exact post_counts P.onClose (s.complete k (.send sock bytes)) k _ _ ok
    · exact post_counts P.onClose ((s.complete k (.recv sock)).fill k bytes) k _ _ ok
    · exact ⟨rfl, rfl⟩
    · obtain ⟨hrunning, hnotices⟩ := hw
      constructor
      · exact Nat.sub_add_cancel hrunning
      · exact Nat.sub_add_cancel hnotices

end Steps

/-! ## 9. Every run -/

section Runs

variable {P : Program G E} {count : Nat} {g : G} {history : List (Event E)} {s : Server G}

/-- **The run lemma.** -/
theorem trace_connOk (htr : Trace (Step P) (start count g) history s) (c : Nat) :
    ConnOk (past P c history) s c := by
  induction htr generalizing c with
  | start => exact .inl ⟨rfl, rfl⟩
  | call _ hs ih => exact hs.connOk ih c

/-- The notifications that a history has posted and those that workers have taken. -/
def posted (P : Program G E) : List (Event E) → Nat
  | [] => 0
  | e :: history => e.posted P + posted P history

def taken (history : List (Event E)) : Nat := history.countP Event.isQuit

/-- Every worker that left its loop has taken a notification, and the others wait. -/
theorem trace_counts (htr : Trace (Step P) (start count g) history s) :
    s.running + taken history = count ∧ s.notices + taken history = posted P history := by
  induction htr with
  | start => exact ⟨rfl, rfl⟩
  | @call history s t e htr hs ih =>
    obtain ⟨hrunning, hnotices⟩ := hs.counts (trace_connOk htr)
    have htaken : taken (e :: history) = taken history + if e.isQuit then 1 else 0 :=
      List.countP_cons ..
    have hposted : posted P (e :: history) = e.posted P + posted P history := rfl
    omega

/-- Every `IoData` that is allocated has exactly one operation in flight, and no other has one. -/
def OneOperation (s : Server G) : Prop :=
  ∀ c, (s.pending c).length = if (s.conns c).isSome then 1 else 0

/-- A worker's round goes wrong only where a read has filled the buffer. -/
def RoundsReturn (P : Program G E) (s : Server G) : Prop :=
  ∀ w, Enabled s w → ((∃ t, work P.onClose s w = .ok t) ↔ w.Short) ∧
    (¬ w.Short → work P.onClose s w = .error .outOfBounds)

/-- **One operation for each `IoData`**, exactly as long as none has been given up with its
`AcceptEx` in flight. -/
theorem trace_oneOperation_iff (htr : Trace (Step P) (start count g) history s) :
    OneOperation s ↔ ∀ c e, .main e ∈ history → P.effect e ≠ .closes c false := by
  have hlost : (∀ c, (past P c history).lost = false) ↔
      ∀ c e, .main e ∈ history → P.effect e ≠ .closes c false := by
    refine forall_congr' fun c => ?_
    rw [← Bool.not_eq_true, past_lost_iff]
    simp only [not_exists, not_and, ne_eq]
  rw [← hlost]
  constructor
  · intro hone c
    rcases trace_connOk htr c with ⟨hconn, hops⟩ | ⟨data, op, hlive⟩
    · have hlen := hone c
      rw [hconn, hops] at hlen
      cases hlost : (past P c history).lost with
      | false => rfl
      | true =>
        rw [hlost] at hlen
        exact absurd hlen (by decide)
    · exact hlive.lost
  · intro hlost c
    rcases trace_connOk htr c with ⟨hconn, hops⟩ | ⟨data, op, hlive⟩
    · rw [hconn, hops, hlost c]
      rfl
    · rw [hlive.conns, hlive.pending]
      rfl

theorem trace_roundsReturn (htr : Trace (Step P) (start count g) history s) : RoundsReturn P s :=
  fun _ hw => work_returns_iff hw (trace_connOk htr)

end Runs

/-! ## 10. Whose socket it is -/

/-- An operation in flight on connection `c` was posted on its own socket. -/
def Op.On (c : Nat) : Op → Prop
  | .accept => True
  | .recv sock | .send sock _ => sock = c

/-- The handle of every connection is open on its own socket; the connection that the main thread
waits for may have lost it. -/
structure Own (waited : Option Nat) (s : Server G) : Prop where
  handles : ∀ c data, s.conns c = some data → s.handles data.cliSock = some c ∨
    waited = some c ∧ s.handles data.cliSock = none
  ops : ∀ c op, op ∈ s.pending c → op.On c

section Own

variable {onClose : IoData → G → G} {s t : Server G} {c cliSock : Nat} {data : IoData}
  {waited : Option Nat}

theorem Own.congr (hconns : t.conns = s.conns) (hpending : t.pending = s.pending)
    (hhandles : t.handles = s.handles) (h : Own waited s) : Own waited t := by
  obtain ⟨hown, hops⟩ := h
  rw [← hconns, ← hhandles] at hown
  rw [← hpending] at hops
  exact ⟨hown, hops⟩

/-- The handle of a connection is open on no other's socket. -/
theorem Own.of_handle (h : Own waited s) (hdata : s.conns c = some data) :
    ∀ d, s.handles data.cliSock = some d → d = c := by
  intro d hd
  rcases h.handles c data hdata with hown | ⟨-, hnone⟩
  · exact Option.some.inj (hd.symm.trans hown)
  · exact nomatch hd.symm.trans hnone

theorem Own.complete (h : Own waited s) (c : Nat) (op : Op) : Own waited (s.complete c op) := by
  refine ⟨h.handles, fun d op' hop => ?_⟩
  by_cases hd : d = c
  · subst hd
    have hself : (s.complete d op).pending d = (s.pending d).erase op := Function.update_self ..
    rw [hself] at hop
    exact h.ops d op' (List.mem_of_mem_erase hop)
  · rw [(complete_frame (s := s) hd).2] at hop
    exact h.ops d op' hop

theorem Own.fill (h : Own waited s) (c : Nat) (bytes : List UInt8) :
    Own waited (s.fill c bytes) := by
  refine ⟨fun d data hdata => ?_, h.ops⟩
  by_cases hd : d = c
  · subst hd
    have hself : (s.fill d bytes).conns d = (s.conns d).map fun data => data.fill bytes :=
      Function.update_self ..
    obtain ⟨old, hold, rfl⟩ := Option.map_eq_some_iff.mp (hself.symm.trans hdata)
    exact h.handles d old hold
  · rw [(fill_frame s bytes hd).1] at hdata
    exact h.handles d data hdata

/-- Closing a handle that is no other connection's. -/
theorem Own.shut (h : Own waited s)
    (hhandle : ∀ d, s.handles data.cliSock = some d → d = c) {d : Nat} {other : IoData}
    (hd : d ≠ c) (hother : s.conns d = some other) :
    Function.update s.handles data.cliSock none other.cliSock = some d ∨
      waited = some d ∧ Function.update s.handles data.cliSock none other.cliSock = none := by
  by_cases hsame : other.cliSock = data.cliSock
  · rcases h.handles d other hother with hown | ⟨hwaited, -⟩
    · rw [hsame] at hown
      exact absurd (hhandle d hown) hd
    · rw [hsame]
      exact .inr ⟨hwaited, Function.update_self ..⟩
  · rw [Function.update_of_ne hsame]
    exact h.handles d other hother

theorem Own.closeConn (h : Own waited s)
    (hhandle : ∀ d, s.handles data.cliSock = some d → d = c) :
    Own waited (closeConn onClose s c data) := by
  refine ⟨fun d other hother => ?_, h.ops⟩
  have hd : d ≠ c := by
    rintro rfl
    exact nomatch (Function.update_self ..).symm.trans hother
  exact h.shut hhandle hd ((Function.update_of_ne hd ..).symm.trans hother)

/-- An operation of connection `c`, whose handle is open on its socket. -/
theorem Own.launch (h : Own waited s) (data : IoData) {op : Op} (hop : op.On c)
    (hhandle : s.handles data.cliSock = some c) :
    Own waited { s with
      conns := Function.update s.conns c (some data)
      pending := Function.update s.pending c (op :: s.pending c) } := by
  constructor
  · intro d other hother
    by_cases hd : d = c
    · subst hd
      obtain rfl := Option.some.inj
        ((Function.update_self d (some data) s.conns).symm.trans hother)
      exact .inl hhandle
    · exact h.handles d other ((Function.update_of_ne hd ..).symm.trans hother)
  · intro d op' hop'
    dsimp only at hop'
    by_cases hd : d = c
    · subst hd
      rw [Function.update_self] at hop'
      rcases List.mem_cons.mp hop' with rfl | hold
      · exact hop
      · exact h.ops d op' hold
    · rw [Function.update_of_ne hd] at hop'
      exact h.ops d op' hop'

/-- **What is posted is posted on the connection's own socket.** -/
theorem Own.post (h : Own waited s) (data : IoData) (ops : Nat → Op) (hops : (ops c).On c)
    (ok : Bool) (hhandle : ∀ d, s.handles data.cliSock = some d → d = c) :
    Own waited (post onClose s c data ops ok) := by
  rcases post_cases onClose s c data ops ok with ⟨sock, -, hsock, heq⟩ | heq
  · rw [heq]
    obtain rfl := hhandle sock hsock
    exact h.launch data hops hsock
  · rw [heq]
    exact h.closeConn hhandle

theorem Own.postRead (h : Own waited s) (data : IoData) (ok : Bool)
    (hhandle : ∀ d, s.handles data.cliSock = some d → d = c) :
    Own waited (postRead onClose s c data ok) :=
  h.post { data with hEvent := false, opCode := .read } .recv rfl ok hhandle

theorem Own.postWrite (h : Own waited s) (data : IoData) (ok : Bool)
    (hhandle : ∀ d, s.handles data.cliSock = some d → d = c) :
    Own waited (postWrite onClose s c data ok) :=
  h.post { data with hEvent := false, opCode := .write }
    (fun sock => .send sock (data.buf.take data.len)) rfl ok hhandle

/-- A handle that is free belongs to no connection, if nobody has lost one. -/
theorem Own.socket (h : Own none s) (hfree : s.handles cliSock = none) :
    Own none (s.socket c cliSock) := by
  refine ⟨fun d data hdata => ?_, h.ops⟩
  rcases h.handles d data hdata with hown | ⟨hno, -⟩
  · have hne : data.cliSock ≠ cliSock := by
      rintro rfl
      exact nomatch hown.symm.trans hfree
    exact .inl ((Function.update_of_ne hne ..).trans hown)
  · exact nomatch hno

/-- A connection that waits for its client. -/
theorem Own.postAccept (h : Own waited s) (data : IoData)
    (hhandle : s.handles data.cliSock = some c) : Own waited (postAccept s c data) :=
  h.launch data trivial hhandle

theorem Own.of_none (h : Own none s) : Own waited s :=
  ⟨fun d data hdata => (h.handles d data hdata).imp_right fun hno => (nomatch hno.1), h.ops⟩

/-- The connection that is waited for has its socket after all, or is gone. -/
theorem Own.settle (h : Own (some c) s)
    (hown : ∀ data, s.conns c = some data → s.handles data.cliSock = some c) : Own none s := by
  refine ⟨fun d data hdata => ?_, h.ops⟩
  rcases h.handles d data hdata with hd | ⟨hwaited, -⟩
  · exact .inl hd
  · obtain rfl := Option.some.inj hwaited
    exact .inl (hown data hdata)

theorem Own.gone (h : Own (some c) s)
    (hhandle : ∀ d, s.handles data.cliSock = some d → d = c) :
    Own none (Native.closeConn onClose s c data) := by
  refine (h.closeConn hhandle).settle fun other hother => ?_
  change Function.update s.conns c none c = some other at hother
  rw [Function.update_self] at hother
  nomatch hother

theorem socket_handle (s : Server G) (c cliSock : Nat) {d : Nat}
    (h : (s.socket c cliSock).handles cliSock = some d) : d = c :=
  Option.some.inj (h.symm.trans (Function.update_self ..))

/-- **The step lemma for a worker.** -/
theorem work_own {w : Work} {p : Nat → Past} (hw : Enabled s w) (hok : ∀ c, ConnOk (p c) s c)
    (ht : work onClose s w = .ok t) (h : Own waited s) : Own waited t := by
  rcases work_cases hw hok ht with ⟨k, sock, bytes, n, ok, data, rfl, -, hlive, rfl⟩ |
    ⟨k, sock, bytes, ok, data, rfl, -, hlive, -, rfl⟩ | ⟨k, op, data, rfl, -, hlive, rfl⟩ |
    ⟨rfl, rfl⟩
  · exact (h.complete k _).postRead data ok (h.of_handle hlive.conns)
  · have hhandle := h.of_handle hlive.conns
    exact ((h.complete k _).fill k bytes).postWrite { data with buf := put bytes data.buf } ok
      hhandle
  · exact (h.complete k op).closeConn (h.of_handle hlive.conns)
  · exact ⟨h.handles, h.ops⟩

end Own

/-- Whatever is in flight on a connection is in flight on its own socket; what is sent there is its
buffer, whole, which has what came in on it. -/
def SendsOwn (P : Program G E) (history : List (Event E)) (s : Server G) : Prop :=
  (∀ c op, op ∈ s.pending c → op.On c) ∧
    ∀ c sock bytes, .send sock bytes ∈ s.pending c →
      bytes.length = 1024 ∧ (past P c history).buf = some bytes

/-- What is sent starts with the bytes that came last on the connection and a zero. -/
def Echoes (P : Program G E) (history : List (Event E)) (s : Server G) : Prop :=
  ∀ c sock sent, .send sock sent ∈ s.pending c →
    ∃ bytes rest, (past P c history).last = some bytes ∧ sent = bytes ++ 0 :: rest

section Sends

variable {P : Program G E} {count : Nat} {g : G} {history : List (Event E)} {s : Server G}

theorem trace_sendsOwn {waited : Option Nat} (htr : Trace (Step P) (start count g) history s)
    (h : Own waited s) : SendsOwn P history s := by
  refine ⟨h.ops, fun c sock bytes hop => ?_⟩
  obtain ⟨data, hlive⟩ := (trace_connOk htr c).of_mem hop (by simp)
  obtain rfl : bytes = data.buf := hlive.fits.2.2.1
  exact ⟨hlive.buf, hlive.past⟩

theorem trace_echoes (htr : Trace (Step P) (start count g) history s) : Echoes P history s := by
  intro c sock sent hop
  obtain ⟨data, hlive⟩ := (trace_connOk htr c).of_mem hop (by simp)
  obtain ⟨-, -, rfl, hlast⟩ := hlive.fits
  exact hlast

end Sends

end CDemo.Native
