/-
# The completion port (`go/iocp/main.go`)

The server keeps one `IOData` per client and one overlapped operation in flight for it.  The main
loop accepts a client together with its first bytes and posts a write; from then on any of the
workers takes the next completion, and what it posts depends on the operation that completed: a
read after a write, a write after a read.

The state is what the operating system and the program share: the open connections, the operations
in flight, and the number of workers still running.  Completions come in any order, to any worker.
A failed `WSASend` or `WSARecv` closes the connection.  The notifications the main function posts
at its end are not part of this file, and neither are completions that
`GetQueuedCompletionStatus` reports with an error: every completion here is one of an operation that
succeeded.

Two lines break what the server is for.

* `postWrite` sends `WsaBuf`, whose `Len` is 1024 from the first to the last, and not the `NBytes`
  that were received.
* A completion of no bytes means that the client has gone.  The worker closes the connection and
  then leaves its loop with `break`, where it should go on to the next completion.

`echo_iff` says that there is nothing else.
-/
import CDemo.Lib.Trace
import Mathlib.Logic.Function.Basic
import Mathlib.Data.List.Count

namespace CDemo.Iocp

/-! ## 1. The program -/

/-- `syscall.WSABuf`. -/
structure WSABuf where
  len : Nat
  buf : List UInt8
  deriving DecidableEq, Repr

/-- `IOData`, without the handles. -/
structure IOData where
  wsaBuf : WSABuf
  nBytes : Nat
  isRead : Bool
  deriving DecidableEq, Repr

/-- An overlapped operation: `WSARecv`, or `WSASend` of these bytes. -/
inductive Op where
  | recv
  | send (bytes : List UInt8)
  deriving DecidableEq, Repr

/-- The open connections, the operations in flight with their connections, and the number of
workers in their loop. -/
structure Server where
  conns : Nat → Option IOData
  pending : List (Nat × Op)
  running : Nat

/-- `closeIO`. -/
def closeIo (s : Server) (c : Nat) : Server :=
  { s with conns := Function.update s.conns c none }

/-- A posted operation, if the call succeeded; the connection is closed otherwise. -/
def post (s : Server) (c : Nat) (data : IOData) (op : Op) (ok : Bool) : Server :=
  if ok then
    { s with conns := Function.update s.conns c (some data), pending := (c, op) :: s.pending }
  else closeIo s c

/-- `postWrite`: `WSASend` sends the first `Len` bytes of the buffer. -/
def postWrite (s : Server) (c : Nat) (data : IOData) (ok : Bool) : Server :=
  let data := { data with isRead := false }
  post s c data (.send (data.wsaBuf.buf.take data.wsaBuf.len)) ok

/-- `postRead`. -/
def postRead (s : Server) (c : Nat) (data : IOData) (ok : Bool) : Server :=
  let data := { data with nBytes := data.wsaBuf.len, isRead := true }
  post s c data .recv ok

/-- One round of the loop of `workThread`, with a completion of `ioSize` bytes. -/
def workThread (s : Server) (c : Nat) (data : IOData) (ioSize : Nat) (ok : Bool) : Server :=
  if ioSize = 0 then { closeIo s c with running := s.running - 1 }
  else
    let data := { data with nBytes := ioSize }
    if data.isRead then postWrite s c data ok else postRead s c data ok

/-- One round of the main loop: a client and its first `nBytes` bytes, which are at the start of
the buffer; the end of the buffer takes the two addresses.  Without any byte the socket is closed
again. -/
def acceptClient (s : Server) (c : Nat) (buf : List UInt8) (nBytes : Nat) (ok : Bool) : Server :=
  if nBytes = 0 then s else postWrite s c ⟨⟨1024, buf⟩, nBytes, true⟩ ok

/-- The server before the first client, with its workers started. -/
def start (count : Nat) : Server := ⟨fun _ => none, [], count⟩

/-! ## 2. The runs -/

inductive Kind where
  | read
  | write
  deriving DecidableEq, Repr

def Op.kind : Op → Kind
  | .recv => .read
  | .send _ => .write

/-- What can happen: a client is accepted, a write or a read completes, or an operation completes
with no bytes because the client has gone.  `ok` is whether the operation posted then can be
posted. -/
inductive Event where
  | accept (c : Nat) (buf : List UInt8) (nBytes : Nat) (ok : Bool)
  | writeDone (c ioSize : Nat) (ok : Bool)
  | readDone (c : Nat) (bytes : List UInt8) (ok : Bool)
  | gone (c : Nat) (kind : Kind)
  deriving DecidableEq, Repr

/-- The operation is no longer in flight. -/
def Server.complete (s : Server) (c : Nat) (op : Op) : Server :=
  { s with pending := s.pending.erase (c, op) }

/-- The system has put the bytes at the start of the buffer. -/
def IOData.fill (data : IOData) (bytes : List UInt8) : IOData :=
  { data with wsaBuf := { data.wsaBuf with buf := bytes ++ data.wsaBuf.buf.drop bytes.length } }

inductive Step : Server → Event → Server → Prop
  | accept {s : Server} {c : Nat} {buf : List UInt8} {nBytes : Nat} {ok : Bool} :
      s.conns c = none → buf.length = 1024 → nBytes ≤ 1024 - 24 * 2 →
      Step s (.accept c buf nBytes ok) (acceptClient s c buf nBytes ok)
  | writeDone {s : Server} {c ioSize : Nat} {ok : Bool} {bytes : List UInt8} {data : IOData} :
      0 < s.running → (c, .send bytes) ∈ s.pending → s.conns c = some data → 0 < ioSize →
      Step s (.writeDone c ioSize ok) (workThread (s.complete c (.send bytes)) c data ioSize ok)
  | readDone {s : Server} {c : Nat} {ok : Bool} {bytes : List UInt8} {data : IOData} :
      0 < s.running → (c, .recv) ∈ s.pending → s.conns c = some data → 0 < bytes.length →
      bytes.length ≤ 1024 →
      Step s (.readDone c bytes ok)
        (workThread (s.complete c .recv) c (data.fill bytes) bytes.length ok)
  | gone {s : Server} {c : Nat} {op : Op} {data : IOData} :
      0 < s.running → (c, op) ∈ s.pending → s.conns c = some data →
      Step s (.gone c op.kind) (workThread (s.complete c op) c data 0 true)

/-! ## 3. What the server promises -/

/-- Every open connection has exactly one operation in flight, and no other has one. -/
def OneOperation (s : Server) : Prop :=
  ∀ c, s.pending.countP (fun p => p.1 = c) = if (s.conns c).isSome then 1 else 0

/-- The kinds of the completions of a connection since it was accepted, the latest first. -/
def completions (c : Nat) : List Event → List Kind
  | [] => []
  | .accept c' _ _ _ :: history => if c' = c then [] else completions c history
  | .writeDone c' _ _ :: history =>
    if c' = c then .write :: completions c history else completions c history
  | .readDone c' _ _ :: history =>
    if c' = c then .read :: completions c history else completions c history
  | .gone c' kind :: history =>
    if c' = c then kind :: completions c history else completions c history

/-- What comes after these completions, if they alternate. -/
def nextKind : List Kind → Kind
  | .write :: _ => .read
  | _ => .write

/-- Write, read, write, and so on; the latest first. -/
def Alternates : List Kind → Prop
  | [] => True
  | kind :: kinds => kind = nextKind kinds ∧ Alternates kinds

/-- The write that is posted after a read sends the bytes that were read. -/
def Exact : Event → Server → Prop
  | .readDone c bytes true, s => (c, .send bytes) ∈ s.pending
  | _, _ => True

/-- **The promise**, about a run of `history` that leads to `s`. -/
def EchoContract (count : Nat) (history : List Event) (s : Server) : Prop :=
  OneOperation s ∧ (∀ c, Alternates (completions c history)) ∧
    Trace (fun s e t => Step s e t ∧ Exact e t) (start count) history s ∧ s.running = count

/-- Every read that was answered had 1024 bytes, and no client has gone. -/
def EchoCond (history : List Event) : Prop :=
  (∀ c bytes, Event.readDone c bytes true ∈ history → bytes.length = 1024) ∧
    ∀ c kind, Event.gone c kind ∉ history

/-! ## 4. One connection -/

/-- The operations in flight for a connection. -/
def ops (s : Server) (c : Nat) : List (Nat × Op) := s.pending.filter fun p => p.1 = c

def IOData.kind (data : IOData) : Kind := if data.isRead then .read else .write

/-- The connection is closed and has no operation in flight, or it is open and has one, the one
`isRead` says and the completions so far lead to. -/
def ConnOk (history : List Event) (s : Server) (c : Nat) : Prop :=
  (s.conns c = none ∧ ops s c = []) ∨
  ∃ data op, s.conns c = some data ∧ ops s c = [(c, op)] ∧ op.kind = data.kind ∧
    op.kind = nextKind (completions c history) ∧ data.wsaBuf.len = 1024 ∧
    data.wsaBuf.buf.length = 1024

/-- The connection an event is about. -/
def Event.conn : Event → Nat
  | .accept c _ _ _ | .writeDone c _ _ | .readDone c _ _ | .gone c _ => c

def Event.isGone : Event → Bool
  | .gone _ _ => true
  | _ => false

theorem completions_of_ne {c : Nat} {e : Event} (h : e.conn ≠ c) (history : List Event) :
    completions c (e :: history) = completions c history := by
  cases e with
  | accept c' _ _ _ => exact if_neg h
  | writeDone c' _ _ => exact if_neg h
  | readDone c' _ _ => exact if_neg h
  | gone c' _ => exact if_neg h

theorem ConnOk.congr {history history' : List Event} {s s' : Server} {c : Nat}
    (hc : s'.conns c = s.conns c) (ho : ops s' c = ops s c)
    (hh : completions c history' = completions c history) (h : ConnOk history s c) :
    ConnOk history' s' c := by
  unfold ConnOk at h ⊢
  rw [hc, ho, hh]
  exact h

section Post

variable {s : Server} {c : Nat} {data : IOData} {op : Op}

/-- An open connection's operation is the only one. -/
theorem ConnOk.of_mem {history : List Event} (h : ConnOk history s c) (hop : (c, op) ∈ s.pending)
    (hdata : s.conns c = some data) :
    ops s c = [(c, op)] ∧ op.kind = data.kind ∧ op.kind = nextKind (completions c history) ∧
      data.wsaBuf.len = 1024 ∧ data.wsaBuf.buf.length = 1024 := by
  have hmem : (c, op) ∈ ops s c := List.mem_filter.mpr ⟨hop, by simp⟩
  rcases h with ⟨hnone, -⟩ | ⟨data', op', hsome, hops, hkind, hnext, hlen, hbuf⟩
  · rw [hdata] at hnone
    exact absurd hnone (by simp)
  · rw [hdata] at hsome
    obtain rfl := Option.some.inj hsome
    rw [hops] at hmem
    obtain rfl : op = op' := congrArg Prod.snd (List.mem_singleton.mp hmem)
    exact ⟨hops, hkind, hnext, hlen, hbuf⟩

theorem ops_complete (s : Server) (c : Nat) (op : Op) (c' : Nat) :
    ops (s.complete c op) c' = (ops s c').erase (c, op) := List.erase_filter.symm

theorem ops_complete_of_ne {c' : Nat} (h : c' ≠ c) : ops (s.complete c op) c' = ops s c' := by
  rw [ops_complete, List.erase_of_not_mem]
  intro hmem
  have := (List.mem_filter.mp hmem).2
  simp [Ne.symm h] at this

/-- What closing and posting do to the connection itself and to the others. -/
theorem closeIo_conn : (closeIo s c).conns c = none := Function.update_self ..

theorem post_frame (ok : Bool) {c' : Nat} (h : c' ≠ c) :
    (post s c data op ok).conns c' = s.conns c' ∧ ops (post s c data op ok) c' = ops s c' := by
  cases ok with
  | true =>
    refine ⟨Function.update_of_ne h _ _, ?_⟩
    exact List.filter_cons_of_neg (by simp [Ne.symm h])
  | false => exact ⟨Function.update_of_ne h _ _, rfl⟩

/-- **A connection whose operation has completed is all right once the next is posted**, or it is
closed. -/
theorem post_connOk {history : List Event} (hops : ops s c = []) (ok : Bool)
    (hkind : op.kind = data.kind) (hnext : op.kind = nextKind (completions c history))
    (hlen : data.wsaBuf.len = 1024) (hbuf : data.wsaBuf.buf.length = 1024) :
    ConnOk history (post s c data op ok) c := by
  cases ok with
  | true =>
    refine .inr ⟨data, op, Function.update_self .., ?_, hkind, hnext, hlen, hbuf⟩
    show List.filter _ ((c, op) :: s.pending) = _
    rw [List.filter_cons_of_pos (by simp)]
    exact congrArg _ hops
  | false => exact .inl ⟨closeIo_conn, hops⟩

end Post

/-! ## 5. One step -/

/-- The worker touches one connection. -/
theorem workThread_frame {s : Server} {c : Nat} {data : IOData} {ioSize : Nat} {ok : Bool}
    {c' : Nat} (h : c' ≠ c) :
    (workThread s c data ioSize ok).conns c' = s.conns c' ∧
      ops (workThread s c data ioSize ok) c' = ops s c' := by
  unfold workThread
  split
  · exact ⟨Function.update_of_ne h _ _, rfl⟩
  · dsimp only
    split
    · exact post_frame ok h
    · exact post_frame ok h

theorem workThread_read {s : Server} {c : Nat} {data : IOData} {ioSize : Nat} {ok : Bool}
    (hsize : ioSize ≠ 0) (hread : data.isRead = true) :
    workThread s c data ioSize ok = post s c ⟨data.wsaBuf, ioSize, false⟩
      (.send (data.wsaBuf.buf.take data.wsaBuf.len)) ok := by
  unfold workThread
  rw [if_neg hsize]
  exact if_pos hread

theorem workThread_write {s : Server} {c : Nat} {data : IOData} {ioSize : Nat} {ok : Bool}
    (hsize : ioSize ≠ 0) (hread : data.isRead = false) :
    workThread s c data ioSize ok = post s c ⟨data.wsaBuf, data.wsaBuf.len, true⟩ .recv ok := by
  unfold workThread
  rw [if_neg hsize]
  exact if_neg (by simp [hread])

theorem isRead_of_kind {data : IOData} (h : Kind.read = data.kind) : data.isRead = true := by
  cases hr : data.isRead with
  | true => rfl
  | false => simp [IOData.kind, hr] at h

theorem not_isRead_of_kind {data : IOData} (h : Kind.write = data.kind) : data.isRead = false := by
  cases hr : data.isRead with
  | true => simp [IOData.kind, hr] at h
  | false => rfl

/-- The buffer keeps its length. -/
theorem length_fill {data : IOData} {bytes : List UInt8} (hb : data.wsaBuf.buf.length = 1024)
    (hle : bytes.length ≤ 1024) : (data.fill bytes).wsaBuf.buf.length = 1024 := by
  show (bytes ++ data.wsaBuf.buf.drop bytes.length).length = 1024
  rw [List.length_append, List.length_drop, hb]
  omega

/-- The connections a step is not about. -/
theorem Step.frame {s s' : Server} {e : Event} (hs : Step s e s') {c : Nat} (h : c ≠ e.conn) :
    s'.conns c = s.conns c ∧ ops s' c = ops s c := by
  cases hs with
  | accept _ _ _ =>
    unfold acceptClient
    split
    · exact ⟨rfl, rfl⟩
    · exact post_frame _ h
  | writeDone _ _ _ _ =>
    obtain ⟨h1, h2⟩ := workThread_frame h
    exact ⟨h1, h2.trans (ops_complete_of_ne h)⟩
  | readDone _ _ _ _ _ =>
    obtain ⟨h1, h2⟩ := workThread_frame h
    exact ⟨h1, h2.trans (ops_complete_of_ne h)⟩
  | gone _ _ _ =>
    obtain ⟨h1, h2⟩ := workThread_frame h
    exact ⟨h1, h2.trans (ops_complete_of_ne h)⟩

/-- The completed operation was the only one. -/
theorem ops_completed {s : Server} {c : Nat} {op : Op} (h : ops s c = [(c, op)]) :
    ops (s.complete c op) c = [] := by
  rw [ops_complete, h]
  simp

/-- **The step lemma**: the connection a step is about has the operation that comes next, or is
closed. -/
theorem Step.connOk {s s' : Server} {e : Event} (hs : Step s e s') {history : List Event}
    (h : ∀ c, ConnOk history s c) (c : Nat) : ConnOk (e :: history) s' c := by
  by_cases hc : c = e.conn
  swap
  · obtain ⟨h1, h2⟩ := hs.frame hc
    exact (h c).congr h1 h2 (completions_of_ne (Ne.symm hc) history)
  subst hc
  cases hs with
  | @accept c buf nBytes ok hnone hbuf _ =>
    have hops : ops s c = [] := by
      rcases h c with ⟨-, hops⟩ | ⟨data, op, hsome, -⟩
      · exact hops
      · rw [hnone] at hsome
        exact absurd hsome (by simp)
    unfold acceptClient
    split
    · exact .inl ⟨hnone, hops⟩
    · refine post_connOk hops ok rfl ?_ rfl hbuf
      show Kind.write = nextKind (completions c (.accept c buf nBytes ok :: history))
      rw [completions, if_pos rfl]
      rfl
  | @writeDone c ioSize ok bytes data _ hop hdata hsize =>
    obtain ⟨hops, hkind, hnext, hlen, hbuf⟩ := (h c).of_mem hop hdata
    rw [workThread_write (by omega) (not_isRead_of_kind hkind)]
    refine post_connOk (ops_completed hops) ok rfl ?_ hlen hbuf
    show Kind.read = nextKind (completions c (.writeDone c ioSize ok :: history))
    rw [completions, if_pos rfl]
    rfl
  | @readDone c ok bytes data _ hop hdata hpos hle =>
    obtain ⟨hops, hkind, hnext, hlen, hbuf⟩ := (h c).of_mem hop hdata
    rw [workThread_read (by omega)
      (isRead_of_kind (show Kind.read = (data.fill bytes).kind from hkind))]
    refine post_connOk (ops_completed hops) ok rfl ?_ hlen (length_fill hbuf hle)
    show Kind.write = nextKind (completions c (.readDone c bytes ok :: history))
    rw [completions, if_pos rfl]
    rfl
  | @gone c op data _ hop hdata =>
    obtain ⟨hops, -⟩ := (h c).of_mem hop hdata
    exact .inl ⟨closeIo_conn, ops_completed hops⟩

/-- Completions go on alternating. -/
theorem Step.alternates {s s' : Server} {e : Event} (hs : Step s e s') {history : List Event}
    (h : ∀ c, ConnOk history s c) (halt : ∀ c, Alternates (completions c history)) (c : Nat) :
    Alternates (completions c (e :: history)) := by
  by_cases hc : c = e.conn
  swap
  · rw [completions_of_ne (Ne.symm hc)]
    exact halt c
  subst hc
  cases hs with
  | accept _ _ _ =>
    simp only [completions, Event.conn, ↓reduceIte]
    trivial
  | @writeDone c _ _ _ _ _ hop hdata _ =>
    obtain ⟨-, -, hnext, -⟩ := (h c).of_mem hop hdata
    simp only [completions, Event.conn, ↓reduceIte]
    exact ⟨hnext, halt c⟩
  | @readDone c _ _ _ _ hop hdata _ _ =>
    obtain ⟨-, -, hnext, -⟩ := (h c).of_mem hop hdata
    simp only [completions, Event.conn, ↓reduceIte]
    exact ⟨hnext, halt c⟩
  | @gone c _ _ _ hop hdata =>
    obtain ⟨-, -, hnext, -⟩ := (h c).of_mem hop hdata
    simp only [completions, Event.conn, ↓reduceIte]
    exact ⟨hnext, halt c⟩

/-- A worker leaves its loop exactly when a client has gone. -/
theorem Step.running {s s' : Server} {e : Event} (hs : Step s e s') {history : List Event}
    (h : ∀ c, ConnOk history s c) :
    s'.running + (if e.isGone then 1 else 0) = s.running := by
  have hpost : ∀ (s : Server) (c : Nat) (data : IOData) (op : Op) (ok : Bool),
      (post s c data op ok).running = s.running := by
    intro s c data op ok
    cases ok <;> rfl
  cases hs with
  | accept _ _ _ =>
    unfold acceptClient
    split
    · rfl
    · exact hpost _ _ _ _ _
  | @writeDone c _ _ _ _ _ hop hdata hsize =>
    obtain ⟨-, hkind, -⟩ := (h c).of_mem hop hdata
    rw [workThread_write (by omega) (not_isRead_of_kind hkind)]
    exact hpost _ _ _ _ _
  | @readDone c _ bytes data _ hop hdata hpos _ =>
    obtain ⟨-, hkind, -⟩ := (h c).of_mem hop hdata
    rw [workThread_read (by omega)
      (isRead_of_kind (show Kind.read = (data.fill bytes).kind from hkind))]
    exact hpost _ _ _ _ _
  | gone hrun _ _ =>
    show s.running - 1 + 1 = s.running
    omega

/-- **The answer to a read is exact when it filled the buffer.** -/
theorem Step.exact_iff {s s' : Server} {e : Event} (hs : Step s e s') {history : List Event}
    (h : ∀ c, ConnOk history s c) :
    Exact e s' ↔ ∀ c bytes, e = .readDone c bytes true → bytes.length = 1024 := by
  cases hs with
  | accept _ _ _ => exact iff_of_true trivial (fun _ _ he => nomatch he)
  | writeDone _ _ _ _ => exact iff_of_true trivial (fun _ _ he => nomatch he)
  | gone _ _ _ => exact iff_of_true trivial (fun _ _ he => nomatch he)
  | @readDone c ok bytes data _ hop hdata hpos hle =>
    cases ok with
    | false => exact iff_of_true trivial (fun _ _ he => nomatch he)
    | true =>
    obtain ⟨hops, hkind, -, hlen, hbuf⟩ := (h c).of_mem hop hdata
    rw [workThread_read (by omega)
      (isRead_of_kind (show Kind.read = (data.fill bytes).kind from hkind))]
    have hfill := length_fill hbuf hle
    have hsent : (data.fill bytes).wsaBuf.buf.take (data.fill bytes).wsaBuf.len =
        (data.fill bytes).wsaBuf.buf :=
        List.take_of_length_le (by rw [hfill]; exact Nat.le_of_eq hlen.symm)
    rw [hsent]
    constructor
    · intro hmem c' bytes' he
      obtain ⟨rfl, rfl, -⟩ := Event.readDone.inj he
      -- nothing else is in flight for this connection
      rcases List.mem_cons.mp hmem with heq | hold
      · obtain ⟨-, heq⟩ := Prod.mk.inj heq
        rw [Op.send.inj heq]
        exact hfill
      · have hin : (c, Op.send bytes) ∈ ops (s.complete c .recv) c :=
          List.mem_filter.mpr ⟨hold, by simp⟩
        rw [ops_completed hops] at hin
        exact absurd hin (by simp)
    · intro hfull
      have hbytes : (data.fill bytes).wsaBuf.buf = bytes := by
        show bytes ++ data.wsaBuf.buf.drop bytes.length = bytes
        rw [hfull c bytes rfl, List.drop_eq_nil_of_le (Nat.le_of_eq hbuf), List.append_nil]
      rw [hbytes]
      exact List.mem_cons_self

/-! ## 6. Every run -/

/-- **The run lemma.** -/
theorem trace_connOk {count : Nat} : ∀ {history : List Event} {s : Server},
    Trace Step (start count) history s →
      (∀ c, ConnOk history s c) ∧ (∀ c, Alternates (completions c history)) ∧
      (s.running = count ↔ ∀ c kind, Event.gone c kind ∉ history) ∧ s.running ≤ count
  | [], _, .start => ⟨fun _ => .inl ⟨rfl, rfl⟩, fun _ => trivial, by simp [start], Nat.le_refl _⟩
  | e :: history, _, .call htr hs => by
    obtain ⟨hconn, halt, hrun, hle⟩ := trace_connOk htr
    have hstep := hs.running hconn
    refine ⟨hs.connOk hconn, hs.alternates hconn halt, ?_, by omega⟩
    cases hgone : e.isGone with
    | true =>
      rw [hgone, if_pos rfl] at hstep
      cases e with
      | gone c kind => exact iff_of_false (by omega) fun hno => hno c kind List.mem_cons_self
      | accept _ _ _ _ => nomatch hgone
      | writeDone _ _ _ => nomatch hgone
      | readDone _ _ _ => nomatch hgone
    | false =>
      rw [hgone, if_neg (by simp), Nat.add_zero] at hstep
      rw [hstep, hrun]
      constructor
      · intro hno c kind hmem
        rcases List.mem_cons.mp hmem with heq | hmem
        · rw [← heq] at hgone
          nomatch hgone
        · exact hno c kind hmem
      · exact fun hno c kind hmem => hno c kind (List.mem_cons_of_mem _ hmem)

/-- A run is exact exactly when every read it answered filled the buffer. -/
theorem trace_exact_iff {count : Nat} : ∀ {history : List Event} {s : Server},
    Trace Step (start count) history s →
      (Trace (fun s e t => Step s e t ∧ Exact e t) (start count) history s ↔
        ∀ c bytes, Event.readDone c bytes true ∈ history → bytes.length = 1024)
  | [], _, .start => iff_of_true .start (by simp)
  | e :: history, s, .call htr hs => by
    constructor
    · intro hexact c bytes hmem
      obtain _ | ⟨htr', hs', he⟩ := hexact
      have htr₁ := htr'.mono fun _ _ _ h => h.1
      rcases List.mem_cons.mp hmem with heq | hmem
      · exact (hs'.exact_iff (trace_connOk htr₁).1).mp he c bytes heq.symm
      · exact (trace_exact_iff htr₁).mp htr' c bytes hmem
    · intro hfull
      refine .call ((trace_exact_iff htr).mpr fun c bytes hmem =>
        hfull c bytes (List.mem_cons_of_mem _ hmem)) ⟨hs, ?_⟩
      refine (hs.exact_iff (trace_connOk htr).1).mpr fun c bytes he => hfull c bytes ?_
      rw [he]
      exact List.mem_cons_self

/-- One operation in flight per open connection. -/
theorem oneOperation {history : List Event} {s : Server} (h : ∀ c, ConnOk history s c) :
    OneOperation s := by
  intro c
  rw [List.countP_eq_length_filter]
  rcases h c with ⟨hnone, hops⟩ | ⟨data, op, hsome, hops, -⟩
  · rw [hnone]
    exact congrArg List.length hops
  · rw [hsome]
    exact congrArg List.length hops

/-- **When the server keeps its promise.**  In every run, whatever the order in which clients come
and operations complete: each open connection has one operation in flight, its completions
alternate, every write sends what was read and all workers are running, exactly when every read
that was answered had 1024 bytes and no client has gone. -/
theorem echo_iff {count : Nat} {history : List Event} {s : Server}
    (htr : Trace Step (start count) history s) :
    EchoContract count history s ↔ EchoCond history := by
  obtain ⟨hconn, halt, hrun, -⟩ := trace_connOk htr
  unfold EchoContract EchoCond
  rw [trace_exact_iff htr, hrun]
  exact ⟨fun h => h.2.2, fun h => ⟨oneOperation hconn, halt, h⟩⟩

/-- A buffer as `make` gives it. -/
def freshBuf : List UInt8 := List.replicate 1024 0

/-- A client that connects with one byte and sends some more after its first answer. -/
def oneClient (bytes : List UInt8) : List Event :=
  [.readDone 0 bytes true, .writeDone 0 1024 true, .accept 0 freshBuf 1 true]

/-- The server with the client connected, and after its first answer. -/
def connected (count : Nat) : Server := acceptClient (start count) 0 freshBuf 1 true

def answered (count : Nat) : Server :=
  workThread ((connected count).complete 0 (.send (freshBuf.take 1024))) 0
    ⟨⟨1024, freshBuf⟩, 1, false⟩ 1024 true

theorem trace_answered {count : Nat} (hcount : 0 < count) : Trace Step (start count)
    [.writeDone 0 1024 true, .accept 0 freshBuf 1 true] (answered count) := by
  have haccept : Step (start count) (.accept 0 freshBuf 1 true) (connected count) :=
    .accept rfl List.length_replicate (by decide)
  have hconn : (connected count).conns 0 = some ⟨⟨1024, freshBuf⟩, 1, false⟩ := rfl
  exact .call (.call .start haccept) (.writeDone hcount List.mem_cons_self hconn (by decide))

theorem conns_answered (count : Nat) :
    (answered count).conns 0 = some ⟨⟨1024, freshBuf⟩, 1024, true⟩ := rfl

/-- The server takes the client's bytes, with any number of workers. -/
theorem trace_oneClient {count : Nat} (hcount : 0 < count) {bytes : List UInt8}
    (hpos : 0 < bytes.length) (hle : bytes.length ≤ 1024) :
    ∃ s, Trace Step (start count) (oneClient bytes) s :=
  ⟨_, .call (trace_answered hcount)
    (.readDone hcount List.mem_cons_self (conns_answered count) hpos hle)⟩

theorem echoCond_oneClient {bytes : List UInt8} (h : bytes.length = 1024) :
    EchoCond (oneClient bytes) := by
  constructor
  · intro c bytes' hmem
    obtain ⟨-, rfl⟩ : c = 0 ∧ bytes' = bytes := by simpa [oneClient] using hmem
    exact h
  · intro c kind hmem
    simp [oneClient] at hmem

/-- A read that fills the buffer is echoed. -/
theorem echo_iff_fullRead : ∃ s,
    Trace Step (start 4) (oneClient (List.replicate 1024 7)) s ∧
      EchoContract 4 (oneClient (List.replicate 1024 7)) s := by
  have hlen : (List.replicate 1024 (7 : UInt8)).length = 1024 := List.length_replicate
  obtain ⟨s, htr⟩ := trace_oneClient (show 0 < 4 by decide)
    (Nat.lt_of_lt_of_eq (by decide : 0 < 1024) hlen.symm) (Nat.le_of_eq hlen)
  exact ⟨s, htr, (echo_iff htr).mpr (echoCond_oneClient hlen)⟩

/-- **A client that sends one byte gets 1024 back, and a client that leaves takes a worker
along.** -/
theorem echo_shortRead :
    (∃ s, Trace Step (start 1) (oneClient [7]) s ∧ ¬ EchoContract 1 (oneClient [7]) s) ∧
    ∃ s, Trace Step (start 1) (.gone 0 .read :: (oneClient [7]).tail) s ∧ s.running = 0 ∧
      ¬ EchoContract 1 (.gone 0 .read :: (oneClient [7]).tail) s := by
  constructor
  · obtain ⟨s, htr⟩ := trace_oneClient (show 0 < 1 by decide)
      (show 0 < [(7 : UInt8)].length by decide) (by decide)
    refine ⟨s, htr, fun h => ?_⟩
    have hlen := (trace_exact_iff htr).mp h.2.2.1 0 [7] List.mem_cons_self
    exact absurd hlen (by decide)
  · have hrecv : (0, Op.recv) ∈ (answered 1).pending := List.mem_cons_self
    have htr := Trace.call (trace_answered (show 0 < 1 by decide))
      (.gone (by decide) hrecv (conns_answered 1))
    refine ⟨_, htr, rfl, fun h => ?_⟩
    exact absurd h.2.2.2 (by decide)

end CDemo.Iocp
