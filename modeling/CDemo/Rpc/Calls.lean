/-
# Many clients and one server (`rpc_client.c`, `rpc_server.c`)

Any number of clients call the server, each call on a connection of its own; the server takes the
connections one after the other.  Between the two ends anything can happen that happens to sockets:
the bytes come in pieces, a write falls short, the server reads what has arrived of a request and
gives up, the client runs into its timeout with a part of the response.  A call that fails on the
way leaves no trace on the client, but its request may have been carried out.

The number of a call is a `static` of `rpc_call`.  A call raises it when it begins, reads it when it
writes its request, and reads it again when it asks for the response.  A client may have several
calls under way (the `static` is then read and written whole), and the three need not be the same
number: a call whose number has moved on finds its own answer and turns it down, after it has stored
the result code.

The handlers of the library are functions of a program that has variables, so the server has a
state here, which a handled request changes.  `calls_linearizable` is what the protocol promises in
spite of all this: no request is carried out twice, a call that returns anything but `-1` has been
carried out once and got the answer to its own request, a call that returns `-1` leaves the
caller's `result` alone unless it has been overtaken, and the order in which the requests were
carried out is one in which the calls could have been made one by one.  `calls_alone`: a client that
makes its calls one by one is never overtaken.
-/
import CDemo.Rpc.Demo
import CDemo.Lib.Trace

namespace CDemo.Rpc

/-! ## 1. A part of a frame -/

/-- What has arrived of a frame is a frame only when all that counts is there. -/
theorem framed_take {bytes : List UInt8} {n : Nat} (h : Framed (bytes.take n)) :
    Framed bytes ∧ word (bytes.take n) 4 = word bytes 4 ∧ word (bytes.take n) 8 = word bytes 8 ∧
      message (bytes.take n) = message bytes := by
  obtain ⟨h12, hmagic, hlen⟩ := h
  rw [List.length_take] at h12 hlen
  have hword : ∀ i, i + 4 ≤ 12 → word (bytes.take n) i = word bytes i := by
    intro i hi
    rw [word, word, List.drop_take, List.take_take, min_eq_left (by omega)]
  rw [hword 0 (by decide)] at hmagic
  rw [hword 8 (by decide)] at hlen
  refine ⟨⟨by omega, hmagic, by omega⟩, hword 4 (by decide), hword 8 (by decide), ?_⟩
  rw [message, message, hword 8 (by decide), List.drop_take, List.take_take, min_eq_left (by omega)]

/-- `handle_client`, on whole reads, by the frame. -/
theorem acceptRequest_framed (bytes : List UInt8) : acceptRequest ⟨bytes, []⟩ =
    if Framed bytes ∧ word bytes 8 ≠ 0 ∧ word bytes 8 ≤ 65536 then
      parseRequest (word bytes 4) (message bytes)
    else none := by
  rw [acceptRequest_eq]
  exact readFrame bytes none (fun len => len ≠ 0 ∧ len ≤ 65536) parseRequest

/-- `rpc_get_rsp`, on whole reads, by the frame. -/
theorem rpcGetRsp_framed (bytes : List UInt8) (rsp : Rsp) (requireCallSN : Nat) :
    rpcGetRsp ⟨bytes, []⟩ rsp requireCallSN =
      if Framed bytes then parseResponse rsp requireCallSN (word bytes 4) (message bytes)
      else (-1, rsp) := by
  have hframe := readFrame bytes (-1, rsp) (fun _ => True) (parseResponse rsp requireCallSN)
  simp only [if_true, and_true] at hframe
  rw [rpcGetRsp_eq, hframe]

/-- **The server accepts the whole request or nothing**, in whatever pieces it comes. -/
theorem acceptRequest_take {bytes : List UInt8} {n : Nat} {plan : List Nat} {req : Request}
    (h : acceptRequest ⟨bytes.take n, plan⟩ = some req) : acceptRequest ⟨bytes, []⟩ = some req := by
  rw [acceptRequest_planFree] at h
  split at h
  · rw [acceptRequest_framed] at h ⊢
    split at h
    · next hframed =>
      obtain ⟨hwhole, h4, h8, hmsg⟩ := framed_take hframed.1
      rw [h8] at hframed
      rw [h4, hmsg] at h
      rw [if_pos ⟨hwhole, hframed.2⟩]
      exact h
    · nomatch h
  · nomatch h

/-- **The client takes the whole response or nothing.** -/
theorem rpcGetRsp_take (bytes : List UInt8) (n : Nat) (plan : List Nat) (rsp : Rsp)
    (requireCallSN : Nat) :
    rpcGetRsp ⟨bytes.take n, plan⟩ rsp requireCallSN = (-1, rsp) ∨
      rpcGetRsp ⟨bytes.take n, plan⟩ rsp requireCallSN =
        rpcGetRsp ⟨bytes, []⟩ rsp requireCallSN := by
  have hplan := rpcGetRsp_planFree rsp requireCallSN (bytes.take n) plan
  dsimp only at hplan
  rw [hplan]
  split
  · rw [rpcGetRsp_framed, rpcGetRsp_framed]
    split
    · next hframed =>
      obtain ⟨hwhole, h4, -, hmsg⟩ := framed_take hframed
      rw [if_pos hwhole, h4, hmsg]
      exact .inr rfl
    · exact .inl rfl
  · exact .inl rfl

/-- The second word of a frame is the number of the call. -/
theorem word_frame {sn : Nat} (hsn : sn < 2 ^ 32) (body : List UInt8) :
    word (requestFrame sn body) 4 = sn := by
  have hdrop : (requestFrame sn body).drop 4 = leBytes 4 sn ++ (leBytes 4 body.length ++ body) := by
    rw [requestFrame, List.append_assoc, List.append_assoc]
    exact List.drop_left' (length_leBytes 4 _)
  rw [word, hdrop, List.take_left' (length_leBytes 4 sn), ofLE_leBytes_of_lt hsn]

/-- A request has the number of its call. -/
theorem acceptRequest_callSN {sn : Nat} (hsn : sn < 2 ^ 32) {body : List UInt8} {req : Request}
    (h : acceptRequest ⟨requestFrame sn body, []⟩ = some req) : req.callSN = sn := by
  rw [acceptRequest_framed] at h
  split at h
  · unfold parseRequest at h
    obtain ⟨⟨bs, r⟩, -, h⟩ := Option.bind_eq_some_iff.mp h
    obtain ⟨-, -, h⟩ := Option.bind_eq_some_iff.mp h
    obtain ⟨⟨name, r'⟩, -, h⟩ := Option.bind_eq_some_iff.mp h
    rw [← Option.some.inj h]
    exact word_frame hsn body
  · nomatch h

/-- **The client and a whole response.**  It leaves `result` alone, or the numbers are the same and
it does not return `-1`, or they are not and it has stored the result code. -/
theorem rpcGetRsp_numbered {sent : Nat} (hsent : sent < 2 ^ 32) (body : List UInt8) (rsp : Rsp)
    (required : Nat) :
    rpcGetRsp ⟨requestFrame sent body, []⟩ rsp required = (-1, rsp) ∨
    (required = sent ∧ (rpcGetRsp ⟨requestFrame sent body, []⟩ rsp required).1 ≠ -1) ∨
    (required ≠ sent ∧ rpcGetRsp ⟨requestFrame sent body, []⟩ rsp required =
      (-1, { rsp with res := (message (requestFrame sent body)).headD 0 })) := by
  rw [rpcGetRsp_framed]
  split
  · rw [word_frame hsent]
    unfold parseResponse
    split
    · exact .inl rfl
    · next bs r hread =>
      have hhead : bs.headD 0 = (message (requestFrame sent body)).headD 0 := by
        unfold readerReadBytes at hread
        split at hread
        · nomatch hread
        · rw [← (Prod.mk.inj (Option.some.inj hread)).1]
          cases message (requestFrame sent body) <;> rfl
      dsimp only
      rw [hhead]
      by_cases hsn : required = sent
      · rw [if_pos hsn]
        exact .inr (.inl ⟨hsn, by simp⟩)
      · rw [if_neg hsn]
        exact .inr (.inr ⟨hsn, rfl⟩)
  · exact .inl rfl

/-- Four bytes are not a request. -/
theorem acceptRequest_magic (bytes : List UInt8) {k : Nat} (hk : k ≤ 4) (plan : List Nat) :
    acceptRequest ⟨bytes.take k, plan⟩ = none := by
  cases hacc : acceptRequest ⟨bytes.take k, plan⟩ with
  | none => rfl
  | some req =>
    rw [← List.take_length (l := bytes.take k)] at hacc
    have hwhole := acceptRequest_take hacc
    rw [acceptRequest_framed] at hwhole
    split at hwhole
    · next hframed =>
      have h12 := hframed.1.1
      rw [List.length_take] at h12
      omega
    · nomatch hwhole

theorem respond_eq (handlers : Handlers) (req : Request) :
    respond handlers req = requestFrame req.callSN (outBuf handlers req).data := rfl

/-! ## 2. The network -/

/-- What the server's handlers are and do: the handlers in each state of its variables, and the
variables after a request. -/
structure Service (σ : Type) where
  handlers : σ → Handlers
  next : σ → Request → σ

/-- One execution of `rpc_call`: whose it is, the message in `buf`, what `result` holds when it is
called, how many bytes of the request are written, if the connection stands, the number that the
request has and the number that the response is to have, once `callSN` was read for them, what the
server sent, if it has taken the connection, and what the call returned. -/
structure RpcCall where
  client : Nat
  body : List UInt8
  result : Rsp
  written : Option Nat
  sent : Option Nat
  required : Option Nat
  response : Option (List UInt8)
  returned : Option (Int × Rsp)

/-- The bytes that `rpc_call` means to write; the number is not looked at before it is read. -/
def RpcCall.frame (call : RpcCall) : List UInt8 := requestFrame (call.sent.getD 0) call.body

/-- All calls there have been, by their connections; `callSN` of each client; the variables of the
server, and the requests that it has carried out, the latest first. -/
structure Network (σ : Type) where
  calls : Nat → Option RpcCall
  callSN : Nat → Nat
  vars : σ
  log : List (Nat × Request)

variable {σ : Type}

def Network.set (N : Network σ) (c : Nat) (call : RpcCall) : Network σ :=
  { N with calls := Function.update N.calls c (some call) }

theorem Network.set_self (N : Network σ) (c : Nat) (call : RpcCall) :
    (N.set c call).calls c = some call := Function.update_self ..

theorem Network.set_of_ne (N : Network σ) {c c' : Nat} (call : RpcCall) (h : c' ≠ c) :
    (N.set c call).calls c' = N.calls c' := Function.update_of_ne h ..

theorem Network.set_cases (N : Network σ) {c c' : Nat} {call call' : RpcCall}
    (h : (N.set c call).calls c' = some call') :
    (c' = c ∧ call' = call) ∨ (c' ≠ c ∧ N.calls c' = some call') := by
  by_cases hc : c' = c
  · subst hc
    exact .inl ⟨rfl, (Option.some.inj ((N.set_self c' call).symm.trans h)).symm⟩
  · exact .inr ⟨hc, (N.set_of_ne call hc).symm.trans h⟩

/-- What can happen: client `p` calls; the connection cannot be made or stands; `n` bytes of the
request are written by now; the second write reads the number; a write fails; the server takes the
connection, reads `k` bytes in pieces, and `m` bytes of what it writes arrive; the client reads the
number again, and calls `rpc_get_rsp` with it; it reads `j` of the bytes that came, in pieces. -/
inductive NetEvent where
  | call (c p : Nat) (body : List UInt8) (result : Rsp)
  | refuse (c : Nat)
  | connect (c : Nat)
  | write (c n : Nat)
  | number (c : Nat)
  | broken (c : Nat)
  | serve (c k : Nat) (plan : List Nat) (m : Nat)
  | ask (c : Nat)
  | read (c j : Nat) (plan : List Nat)

/-- The client's side of a call. -/
def beginCall (client : Nat) (body : List UInt8) (result : Rsp) : RpcCall :=
  ⟨client, body, result, none, none, none, none, none⟩

/-- `socket`, `gethostbyname`, `connect` or one of the writes fails. -/
def RpcCall.fail (call : RpcCall) : RpcCall :=
  { call with returned := some (-1, call.result) }

/-- `rpc_get_rsp` reads what comes. -/
def RpcCall.read (call : RpcCall) (required j : Nat) (plan : List Nat) : RpcCall :=
  { call with
    returned := some (rpcGetRsp ⟨(call.response.getD []).take j, plan⟩ call.result required) }

/-- `handle_client` on the connection of a call. -/
def serve (S : Service σ) (N : Network σ) (c : Nat) (call : RpcCall) (k : Nat) (plan : List Nat)
    (m : Nat) : Network σ :=
  match acceptRequest ⟨call.frame.take k, plan⟩ with
  | none => N.set c { call with response := some [] }
  | some req =>
    { N.set c { call with response := some ((respond (S.handlers N.vars) req).take m) } with
      vars := S.next N.vars req
      log := (c, req) :: N.log }

/-- The server takes a connection once, and a connection is used for one call.  The magic number is
written before the number is read. -/
inductive NetStep (S : Service σ) : Network σ → NetEvent → Network σ → Prop
  | call {N : Network σ} {c p : Nat} {body : List UInt8} {result : Rsp} : N.calls c = none →
      NetStep S N (.call c p body result)
        { N.set c (beginCall p body result) with
          callSN := Function.update N.callSN p ((N.callSN p + 1) % 2 ^ 32) }
  | refuse {N : Network σ} {c : Nat} {call : RpcCall} : N.calls c = some call →
      call.written = none → call.returned = none → NetStep S N (.refuse c) (N.set c call.fail)
  | connect {N : Network σ} {c : Nat} {call : RpcCall} : N.calls c = some call →
      call.written = none → call.returned = none →
      NetStep S N (.connect c) (N.set c { call with written := some 0 })
  | write {N : Network σ} {c n n' : Nat} {call : RpcCall} : N.calls c = some call →
      call.written = some n → call.returned = none → n ≤ n' → n' ≤ call.frame.length →
      (call.sent = none → n' ≤ 4) →
      NetStep S N (.write c n') (N.set c { call with written := some n' })
  | number {N : Network σ} {c : Nat} {call : RpcCall} : N.calls c = some call →
      call.written = some 4 → call.returned = none → call.sent = none →
      NetStep S N (.number c) (N.set c { call with sent := some (N.callSN call.client) })
  | broken {N : Network σ} {c n : Nat} {call : RpcCall} : N.calls c = some call →
      call.written = some n → call.returned = none → n < call.frame.length →
      NetStep S N (.broken c) (N.set c call.fail)
  | serve {N : Network σ} {c n k m : Nat} {call : RpcCall} {plan : List Nat} :
      N.calls c = some call → call.written = some n → call.response = none → k ≤ n →
      NetStep S N (.serve c k plan m) (Rpc.serve S N c call k plan m)
  | ask {N : Network σ} {c : Nat} {call : RpcCall} : N.calls c = some call →
      call.written = some call.frame.length → call.returned = none → call.required = none →
      NetStep S N (.ask c) (N.set c { call with required := some (N.callSN call.client) })
  | read {N : Network σ} {c required j : Nat} {call : RpcCall} {plan : List Nat} :
      N.calls c = some call → call.required = some required → call.returned = none →
      NetStep S N (.read c j plan) (N.set c (call.read required j plan))

/-- Nobody has called. -/
def quiet (vars : σ) : Network σ := ⟨fun _ => none, fun _ => 0, vars, []⟩

/-! ## 3. One call after the other -/

/-- The variables of the server after these requests, the latest first. -/
def Service.after (S : Service σ) (vars : σ) : List (Nat × Request) → σ
  | [] => vars
  | e :: log => S.next (S.after vars log) e.2

/-- **The call was carried out once, at a place in the log**, and the bytes are its answer there. -/
def CarriedOut (S : Service σ) (vars : σ) (log : List (Nat × Request)) (c : Nat) (call : RpcCall)
    (bytes : List UInt8) : Prop :=
  ∃ later before req, log = later ++ (c, req) :: before ∧
    acceptRequest ⟨call.frame, []⟩ = some req ∧
    bytes = respond (S.handlers (S.after vars before)) req

/-- The call returned what the client makes of that answer. -/
def Answered (S : Service σ) (vars : σ) (log : List (Nat × Request)) (c : Nat) (call : RpcCall)
    (ret : Int × Rsp) : Prop :=
  ∃ sn bytes, call.sent = some sn ∧ CarriedOut S vars log c call bytes ∧
    rpcGetRsp ⟨bytes, []⟩ call.result sn = ret

/-- The call was carried out, and then asked for the number of another call: it has stored the
result code of its answer, and nothing else. -/
def Overtaken (S : Service σ) (vars : σ) (log : List (Nat × Request)) (c : Nat) (call : RpcCall)
    (ret : Int × Rsp) : Prop :=
  ∃ sn required bytes, call.sent = some sn ∧ call.required = some required ∧ required ≠ sn ∧
    CarriedOut S vars log c call bytes ∧
    ret = (-1, { call.result with res := (message bytes).headD 0 })

/-- What holds of every call there has been. -/
structure CallOk (S : Service σ) (vars : σ) (log : List (Nat × Request)) (c : Nat)
    (call : RpcCall) : Prop where
  sent_lt : ∀ sn, call.sent = some sn → sn < 2 ^ 32
  unsent : call.sent = none → (∀ n, call.written = some n → n ≤ 4) ∧ ∀ req, (c, req) ∉ log
  unserved : call.response = none → ∀ req, (c, req) ∉ log
  served : ∀ sent, call.response = some sent →
    sent = [] ∨ ∃ bytes m, CarriedOut S vars log c call bytes ∧ sent = bytes.take m
  returned : ∀ ret, call.returned = some ret →
    ret = (-1, call.result) ∨ (ret.1 ≠ -1 ∧ Answered S vars log c call ret) ∨
      Overtaken S vars log c call ret

/-- What holds of the network. -/
structure NetOk (S : Service σ) (vars : σ) (N : Network σ) : Prop where
  vars_eq : N.vars = S.after vars N.log
  callSN_lt : ∀ p, N.callSN p < 2 ^ 32
  nodup : (N.log.map Prod.fst).Nodup
  known : ∀ c req, (c, req) ∈ N.log → N.calls c ≠ none
  calls : ∀ c call, N.calls c = some call → CallOk S vars N.log c call

section Ok

variable {S : Service σ} {vars : σ} {log : List (Nat × Request)} {c : Nat} {call : RpcCall}
  {N N' : Network σ}

theorem CarriedOut.cons {bytes : List UInt8} (e : Nat × Request)
    (h : CarriedOut S vars log c call bytes) : CarriedOut S vars (e :: log) c call bytes := by
  obtain ⟨later, before, req, rfl, hreq⟩ := h
  exact ⟨e :: later, before, req, rfl, hreq⟩

theorem CarriedOut.mem {bytes : List UInt8} (h : CarriedOut S vars log c call bytes) :
    ∃ req, (c, req) ∈ log := by
  obtain ⟨later, before, req, rfl, -⟩ := h
  exact ⟨req, by simp⟩

/-- What is carried out has a number. -/
theorem CallOk.sent_of_carriedOut (h : CallOk S vars log c call) {bytes : List UInt8}
    (hout : CarriedOut S vars log c call bytes) : ∃ sn, call.sent = some sn ∧ sn < 2 ^ 32 := by
  cases hsent : call.sent with
  | none =>
    obtain ⟨req, hmem⟩ := hout.mem
    exact absurd hmem ((h.unsent hsent).2 req)
  | some sn => exact ⟨sn, rfl, h.sent_lt sn hsent⟩

/-- Carrying out another call's request changes nothing for this one. -/
theorem CallOk.cons {e : Nat × Request} (hne : e.1 ≠ c) (h : CallOk S vars log c call) :
    CallOk S vars (e :: log) c call := by
  have hlog : ∀ req, (c, req) ∉ log → (c, req) ∉ e :: log := by
    intro req hno hmem
    rcases List.mem_cons.mp hmem with rfl | hmem
    · exact hne rfl
    · exact hno hmem
  refine ⟨h.sent_lt, ?_, ?_, ?_, ?_⟩
  · intro hnone
    exact ⟨(h.unsent hnone).1, fun req => hlog req ((h.unsent hnone).2 req)⟩
  · intro hnone req
    exact hlog req (h.unserved hnone req)
  · intro sent hsent
    rcases h.served sent hsent with hnil | ⟨bytes, m, hout, hm⟩
    · exact .inl hnil
    · exact .inr ⟨bytes, m, hout.cons e, hm⟩
  · intro ret hret
    rcases h.returned ret hret with hfail | ⟨hne, sn, bytes, hsn, hout, hrsp⟩ |
      ⟨sn, required, bytes, hsn, hreq, hdiff, hout, heq⟩
    · exact .inl hfail
    · exact .inr (.inl ⟨hne, sn, bytes, hsn, hout.cons e, hrsp⟩)
    · exact .inr (.inr ⟨sn, required, bytes, hsn, hreq, hdiff, hout.cons e, heq⟩)

/-- **One call changes**, and nothing is carried out. -/
theorem NetOk.set (h : NetOk S vars N) (hcall : CallOk S vars N.log c call) :
    NetOk S vars (N.set c call) where
  vars_eq := h.vars_eq
  callSN_lt := h.callSN_lt
  nodup := h.nodup
  known := by
    intro c' req hmem
    by_cases hc : c' = c
    · subst hc
      rw [N.set_self]
      exact Option.some_ne_none call
    · rw [N.set_of_ne call hc]
      exact h.known c' req hmem
  calls := by
    intro c' call' hcall'
    rcases N.set_cases hcall' with ⟨rfl, rfl⟩ | ⟨-, hold⟩
    · exact hcall
    · exact h.calls c' call' hold

/-- What the client makes of a part of the answer to its own request. -/
theorem CallOk.read_returned (h : CallOk S vars log c call) {required : Nat}
    (hrequired : call.required = some required) (j : Nat) (plan : List Nat) {ret : Int × Rsp}
    (hret : rpcGetRsp ⟨(call.response.getD []).take j, plan⟩ call.result required = ret) :
    ret = (-1, call.result) ∨ (ret.1 ≠ -1 ∧ Answered S vars log c call ret) ∨
      Overtaken S vars log c call ret := by
  have hempty : ∀ n, rpcGetRsp ⟨([] : List UInt8).take n, plan⟩ call.result required =
      (-1, call.result) := by
    intro n
    rcases rpcGetRsp_take [] n plan call.result required with hfail | hwhole
    · exact hfail
    · exact hwhole
  cases hsent : call.response with
  | none =>
    rw [hsent] at hret
    exact .inl (hret.symm.trans (hempty j))
  | some sent =>
    rw [hsent, Option.getD_some] at hret
    rcases h.served sent hsent with rfl | ⟨bytes, m, hout, rfl⟩
    · exact .inl (hret.symm.trans (hempty j))
    · rw [List.take_take] at hret
      rcases rpcGetRsp_take bytes (min j m) plan call.result required with hfail | hwhole
      · exact .inl (hret.symm.trans hfail)
      · -- the whole answer: it has the number of the request
        rw [hwhole] at hret
        obtain ⟨sn, hsn, hlt⟩ := h.sent_of_carriedOut hout
        have hanswer : ∃ body, bytes = requestFrame sn body := by
          obtain ⟨later, before, req, -, hreq, rfl⟩ := hout
          have hframe : call.frame = requestFrame sn call.body := by
            rw [RpcCall.frame, hsn, Option.getD_some]
          rw [hframe] at hreq
          rw [respond_eq, acceptRequest_callSN hlt hreq]
          exact ⟨_, rfl⟩
        obtain ⟨body, hbody⟩ := hanswer
        rcases rpcGetRsp_numbered hlt body call.result required with hfail | ⟨rfl, hok⟩ |
          ⟨hdiff, hover⟩
        · rw [hbody, hfail] at hret
          exact .inl hret.symm
        · rw [← hbody, hret] at hok
          exact .inr (.inl ⟨hok, required, bytes, hsn, hout, hret⟩)
        · rw [← hbody, hret] at hover
          exact .inr (.inr ⟨sn, required, bytes, hsn, hrequired, hdiff, hout, hover⟩)

/-- **The server carries out a request**, for the first time on this connection. -/
theorem NetOk.carryOut (h : NetOk S vars N) (hcall : N.calls c = some call)
    (hnew : call.response = none) (hsent : call.sent ≠ none) {req : Request}
    (hreq : acceptRequest ⟨call.frame, []⟩ = some req) (m : Nat) :
    NetOk S vars
      { N.set c { call with response := some ((respond (S.handlers N.vars) req).take m) } with
        vars := S.next N.vars req
        log := (c, req) :: N.log } where
  vars_eq := congrArg (fun q => S.next q req) h.vars_eq
  callSN_lt := h.callSN_lt
  nodup := by
    refine List.nodup_cons.mpr ⟨?_, h.nodup⟩
    intro hmem
    obtain ⟨⟨c', req'⟩, hmem', rfl⟩ := List.mem_map.mp hmem
    exact (h.calls _ call hcall).unserved hnew req' hmem'
  known := by
    intro c' req' hmem
    by_cases hc : c' = c
    · subst hc
      exact ne_of_eq_of_ne (N.set_self c' _) (Option.some_ne_none _)
    · refine ne_of_eq_of_ne (N.set_of_ne _ hc) (h.known c' req' ?_)
      exact (List.mem_cons.mp hmem).resolve_left fun heq => hc (congrArg Prod.fst heq)
  calls := by
    intro c' call' hcall'
    rcases N.set_cases hcall' with ⟨rfl, rfl⟩ | ⟨hc, hold⟩
    · have hok := h.calls c' call hcall
      refine ⟨hok.sent_lt, (fun hnone => absurd hnone hsent), (fun hnone => nomatch hnone), ?_, ?_⟩
      · intro sent hsent
        have hhere : CarriedOut S vars ((c', req) :: N.log) c' call
            (respond (S.handlers N.vars) req) :=
          ⟨[], N.log, req, rfl, hreq, by rw [h.vars_eq]⟩
        exact .inr ⟨_, m, hhere, (Option.some.inj hsent).symm⟩
      · intro ret hret
        rcases hok.returned ret hret with hfail | ⟨-, sn, bytes, -, hout, -⟩ |
          ⟨sn, required, bytes, -, -, -, hout, -⟩
        · exact .inl hfail
        · obtain ⟨req', hmem⟩ := hout.mem
          exact absurd hmem (hok.unserved hnew req')
        · obtain ⟨req', hmem⟩ := hout.mem
          exact absurd hmem (hok.unserved hnew req')
    · exact (h.calls c' call' hold).cons (Ne.symm hc)

/-- A step of a call that is under way, which changes neither its request nor its response. -/
theorem CallOk.update (h : CallOk S vars log c call) {call' : RpcCall}
    (hsent : call'.sent = call.sent) (hbody : call'.body = call.body)
    (hrsp : call'.response = call.response)
    (hwritten : call'.sent = none → ∀ n, call'.written = some n → n ≤ 4)
    (hret : ∀ ret, call'.returned = some ret →
      ret = (-1, call'.result) ∨ (ret.1 ≠ -1 ∧ Answered S vars log c call' ret) ∨
        Overtaken S vars log c call' ret) :
    CallOk S vars log c call' := by
  have hframe : call'.frame = call.frame := by
    rw [RpcCall.frame, RpcCall.frame, hsent, hbody]
  refine ⟨hsent ▸ h.sent_lt, ?_, ?_, ?_, hret⟩
  · intro hnone
    exact ⟨hwritten hnone, (h.unsent (hsent ▸ hnone)).2⟩
  · rw [hrsp]
    exact h.unserved
  · intro sent hresponse
    rcases h.served sent (hrsp ▸ hresponse) with hnil | ⟨bytes, m, hout, hm⟩
    · exact .inl hnil
    · refine .inr ⟨bytes, m, ?_, hm⟩
      unfold CarriedOut at hout ⊢
      rw [hframe]
      exact hout

/-- A call that fails. -/
theorem CallOk.fail (h : CallOk S vars log c call) : CallOk S vars log c call.fail := by
  refine h.update rfl rfl rfl (fun hnone => (h.unsent hnone).1) ?_
  intro ret hret
  exact .inl (Option.some.inj hret).symm

/-- **The number is read**: nothing has been carried out yet. -/
theorem CallOk.number (h : CallOk S vars log c call) (hopen : call.returned = none)
    (hsent : call.sent = none) {sn : Nat} (hlt : sn < 2 ^ 32) :
    CallOk S vars log c { call with sent := some sn } where
  sent_lt := by
    intro sn' heq
    rw [← Option.some.inj heq]
    exact hlt
  unsent hnone := nomatch hnone
  unserved := h.unserved
  served := by
    intro sent hresponse
    rcases h.served sent hresponse with hnil | ⟨bytes, m, hout, -⟩
    · exact .inl hnil
    · obtain ⟨req, hmem⟩ := hout.mem
      exact absurd hmem ((h.unsent hsent).2 req)
  returned := by
    intro ret hret
    exact nomatch hopen.symm.trans hret

/-- **The step lemma.** -/
theorem NetStep.ok {e : NetEvent} (hs : NetStep S N e N') (h : NetOk S vars N) :
    NetOk S vars N' := by
  cases hs with
  | @call c p body result hnone =>
    have hset : NetOk S vars (N.set c (beginCall p body result)) := by
      have hno : ∀ req, (c, req) ∉ N.log := fun req hmem => h.known c req hmem hnone
      exact h.set ⟨(fun _ hsent => nomatch hsent), (fun _ => ⟨(fun _ hn => nomatch hn), hno⟩),
        (fun _ => hno), (fun _ hsent => nomatch hsent), fun _ hret => nomatch hret⟩
    refine ⟨hset.vars_eq, ?_, hset.nodup, hset.known, hset.calls⟩
    intro q
    dsimp only
    by_cases hq : q = p
    · subst hq
      rw [Function.update_self]
      exact Nat.mod_lt _ (by decide)
    · rw [Function.update_of_ne hq]
      exact h.callSN_lt q
  | refuse hcall _ _ => exact h.set (h.calls _ _ hcall).fail
  | connect hcall _ hopen =>
    refine h.set ((h.calls _ _ hcall).update rfl rfl rfl ?_ ?_)
    · rintro - n hn
      rw [← Option.some.inj hn]
      exact Nat.zero_le 4
    · exact fun ret hret => nomatch hopen.symm.trans hret
  | write hcall _ hopen _ _ hmagic =>
    refine h.set ((h.calls _ _ hcall).update rfl rfl rfl ?_ ?_)
    · intro hnone n hn
      rw [← Option.some.inj hn]
      exact hmagic hnone
    · exact fun ret hret => nomatch hopen.symm.trans hret
  | number hcall _ hopen hsent =>
    exact h.set ((h.calls _ _ hcall).number hopen hsent (h.callSN_lt _))
  | broken hcall _ _ _ => exact h.set (h.calls _ _ hcall).fail
  | @serve c n k m call plan hcall hwritten hnew hk =>
    unfold Rpc.serve
    have hok := h.calls _ _ hcall
    split
    · refine h.set ⟨hok.sent_lt, hok.unsent, (fun hnone => nomatch hnone), ?_, ?_⟩
      · intro sent hsent
        exact .inl (Option.some.inj hsent).symm
      · exact hok.returned
    · next req hreq =>
      refine h.carryOut hcall hnew ?_ (acceptRequest_take hreq) m
      intro hnone
      have h4 := (hok.unsent hnone).1 n hwritten
      exact nomatch (acceptRequest_magic call.frame (hk.trans h4) plan).symm.trans hreq
  | ask hcall _ hopen _ =>
    have hok := h.calls _ _ hcall
    refine h.set (hok.update rfl rfl rfl (fun hnone => (hok.unsent hnone).1) ?_)
    exact fun ret hret => nomatch hopen.symm.trans hret
  | @read c required j call plan hcall hrequired hopen =>
    have hok := h.calls _ _ hcall
    refine h.set (hok.update rfl rfl rfl (fun hnone => (hok.unsent hnone).1) ?_)
    intro ret hret
    exact hok.read_returned hrequired j plan (Option.some.inj hret)

/-- What has been carried out stays so. -/
theorem NetStep.log_suffix {e : NetEvent} (hs : NetStep S N e N') :
    ∃ new, N'.log = new ++ N.log := by
  cases hs with
  | @serve c n k m call plan _ _ _ _ =>
    unfold Rpc.serve
    split
    · exact ⟨[], rfl⟩
    · next req _ => exact ⟨[(c, req)], rfl⟩
  | call _ => exact ⟨[], rfl⟩
  | refuse _ _ _ => exact ⟨[], rfl⟩
  | connect _ _ _ => exact ⟨[], rfl⟩
  | write _ _ _ _ _ _ => exact ⟨[], rfl⟩
  | number _ _ _ _ => exact ⟨[], rfl⟩
  | broken _ _ _ _ => exact ⟨[], rfl⟩
  | ask _ _ _ _ => exact ⟨[], rfl⟩
  | read _ _ _ => exact ⟨[], rfl⟩

end Ok

/-! ## 4. Every run -/

section Runs

variable {S : Service σ} {vars : σ} {history : List NetEvent} {N : Network σ}

/-- **The run lemma.** -/
theorem trace_netOk (htr : Trace (NetStep S) (quiet vars) history N) : NetOk S vars N := by
  refine htr.invariant ⟨rfl, fun _ => Nat.two_pow_pos 32, List.nodup_nil, ?_, ?_⟩
    fun _ _ _ h hs => hs.ok h
  · intro c req hmem
    nomatch hmem
  · intro c call hcall
    nomatch hcall

theorem trace_log_suffix {later : List NetEvent} {N' : Network σ}
    (htr : Trace (NetStep S) N later N') : ∃ new, N'.log = new ++ N.log := by
  refine Trace.invariant (I := fun N' => ∃ new, N'.log = new ++ N.log) ⟨[], rfl⟩ ?_ htr
  rintro N₁ e N₂ ⟨new, hnew⟩ hs
  obtain ⟨new', hnew'⟩ := hs.log_suffix
  refine ⟨new' ++ new, ?_⟩
  rw [hnew', hnew, List.append_assoc]

/-- In the log, call `a` comes before call `b`. -/
def Before (log : List (Nat × Request)) (a b : Nat) : Prop :=
  ∃ later between earlier reqA reqB, log = later ++ (b, reqB) :: (between ++ (a, reqA) :: earlier)

/-- A call that had returned is before every call that was made after. -/
theorem before_of_returned {later : List NetEvent} {N' : Network σ} (h : NetOk S vars N)
    (htr : Trace (NetStep S) N later N') {a b : Nat} {call : RpcCall} {ret : Int × Rsp}
    (hcall : N.calls a = some call) (hret : call.returned = some ret) (hok : ret.1 ≠ -1)
    (hnew : N.calls b = none) {req : Request} (hmem : (b, req) ∈ N'.log) : Before N'.log a b := by
  obtain ⟨new, hnew'⟩ := trace_log_suffix htr
  rw [hnew'] at hmem ⊢
  have hb : (b, req) ∈ new := by
    rcases List.mem_append.mp hmem with hb | hb
    · exact hb
    · exact absurd hnew (h.known b req hb)
  rcases (h.calls a call hcall).returned ret hret with rfl | ⟨-, _, _, -, hout, -⟩ |
    ⟨_, _, _, -, -, -, -, rfl⟩
  · exact absurd rfl hok
  · obtain ⟨between, earlier, reqA, hlog, -⟩ := hout
    obtain ⟨front, back, rfl⟩ := List.append_of_mem hb
    refine ⟨front, back ++ between, earlier, reqA, req, ?_⟩
    rw [hlog]
    simp only [List.append_assoc, List.cons_append]
  · exact absurd rfl hok

/-- **What the protocol promises**, for any number of clients and calls, any handlers with any
variables, and whatever happens to the connections.  No request is carried out twice.  A call that
returned `-1` left `result` alone, or it was carried out and overtaken, and stored the result code;
any other call was carried out once, and returned what the server's answer to its own request is
after the requests that were carried out before.  And a call that had returned, other than with
`-1`, was carried out before every call that was made later. -/
theorem calls_linearizable (htr : Trace (NetStep S) (quiet vars) history N) :
    (N.log.map Prod.fst).Nodup ∧
    (∀ c call ret, N.calls c = some call → call.returned = some ret →
      (ret.1 = -1 → ret.2 = call.result ∨ Overtaken S vars N.log c call ret) ∧
        (ret.1 ≠ -1 → Answered S vars N.log c call ret)) ∧
    ∀ later N' a b call ret req, Trace (NetStep S) N later N' → N.calls a = some call →
      call.returned = some ret → ret.1 ≠ -1 → N.calls b = none → (b, req) ∈ N'.log →
      Before N'.log a b := by
  have hok := trace_netOk htr
  refine ⟨hok.nodup, ?_, ?_⟩
  · intro c call ret hcall hret
    rcases (hok.calls c call hcall).returned ret hret with rfl | ⟨hne, hans⟩ | hover
    · exact ⟨fun _ => .inl rfl, fun hne => absurd rfl hne⟩
    · exact ⟨fun heq => absurd heq hne, fun _ => hans⟩
    · refine ⟨fun _ => .inr hover, fun hne => ?_⟩
      obtain ⟨sn, required, bytes, -, -, -, -, rfl⟩ := hover
      exact absurd rfl hne
  · intro later N' a b call ret req hlater hcall hret hne hnew hmem
    exact before_of_returned hok hlater hcall hret hne hnew hmem

end Runs

/-- A server without variables, whose `f` answers 42. -/
def fortyTwo : Service Unit :=
  ⟨fun _ => handlersOf [([102], fun _ => ⟨rpcOk, some (.scalar .s32 42)⟩)], fun _ _ => ()⟩

/-- What `result` holds before. -/
def seven : Rsp := ⟨7, ⟨.unknown, .ll 0⟩⟩

/-- A call `f()` that is answered; it has the number `sn`, and asks for `required`. -/
def callF (sn required : Nat) : RpcCall :=
  { beginCall 0 [1, 0, 102, 0] seven with
    written := some 16
    sent := some sn
    required := some required
    response := some ((respond (fortyTwo.handlers ()) ⟨sn, [102], ⟨[1, 0, 102, 0], 3⟩⟩).take 99) }

/-- **Two calls of one client.**  The second one begins while the first one waits, and the first one
asks for the number of the second. -/
theorem overlap_trace : ∃ (history : List NetEvent) (N : Network Unit),
    Trace (NetStep fortyTwo) (quiet ()) history N ∧
      N.calls 5 = some ((callF 1 2).read 2 99 [10, 10, 10]) ∧
      N.calls 6 = some ((callF 2 2).read 2 99 [10, 10, 10]) := by
  -- the first call writes its request, with number 1
  have magic5 : Trace (NetStep fortyTwo) (quiet ()) _ _ :=
    .call (e := .write 5 4) (.call (e := .connect 5)
      (.call (e := .call 5 0 [1, 0, 102, 0] seven) .start (.call rfl)) (.connect rfl rfl rfl))
      (.write rfl rfl rfl (by decide) (by decide) (by decide))
  have written5 : Trace (NetStep fortyTwo) (quiet ()) _ _ :=
    .call (e := .write 5 16) (.call (e := .number 5) magic5 (.number rfl rfl rfl rfl))
      (.write rfl rfl rfl (by decide) (by decide) (by decide))
  -- the second call begins, and then the first one asks for its answer
  have read5 : Trace (NetStep fortyTwo) (quiet ()) _ _ :=
    .call (e := .read 5 99 [10, 10, 10]) (.call (e := .ask 5) (.call (e := .serve 5 16 [] 99)
      (.call (e := .call 6 0 [1, 0, 102, 0] seven) written5 (.call rfl))
      (.serve rfl rfl rfl (by decide))) (.ask rfl rfl rfl rfl)) (.read rfl rfl rfl)
  have magic6 : Trace (NetStep fortyTwo) (quiet ()) _ _ :=
    .call (e := .write 6 4) (.call (e := .connect 6) read5 (.connect rfl rfl rfl))
      (.write rfl rfl rfl (by decide) (by decide) (by decide))
  have written6 : Trace (NetStep fortyTwo) (quiet ()) _ _ :=
    .call (e := .write 6 16) (.call (e := .number 6) magic6 (.number rfl rfl rfl rfl))
      (.write rfl rfl rfl (by decide) (by decide) (by decide))
  refine ⟨_, _, .call (e := .read 6 99 [10, 10, 10]) (.call (e := .ask 6)
    (.call (e := .serve 6 16 [] 99) written6 (.serve rfl rfl rfl (by decide)))
    (.ask rfl rfl rfl rfl)) (.read rfl rfl rfl), ?_, ?_⟩
  · rfl
  · rfl

theorem callF_read : ((callF 1 2).read 2 99 [10, 10, 10]).returned =
      some (-1, ⟨rpcOk, ⟨.unknown, .ll 0⟩⟩) ∧
    ((callF 2 2).read 2 99 [10, 10, 10]).returned = some (0, ⟨rpcOk, ⟨.s32, .ll 42⟩⟩) := by
  decide

/-- The second call is answered; the first one was carried out, and returns `-1` with the result
code of its answer in `result`. -/
theorem calls_linearizable_overlap : ∃ (N : Network Unit) (first second : RpcCall),
    N.calls 5 = some first ∧ N.calls 6 = some second ∧
    second.returned = some (0, ⟨rpcOk, ⟨.s32, .ll 42⟩⟩) ∧
    Answered fortyTwo () N.log 6 second (0, ⟨rpcOk, ⟨.s32, .ll 42⟩⟩) ∧
    first.result.res ≠ rpcOk ∧ first.returned = some (-1, ⟨rpcOk, ⟨.unknown, .ll 0⟩⟩) ∧
    Overtaken fortyTwo () N.log 5 first (-1, ⟨rpcOk, ⟨.unknown, .ll 0⟩⟩) := by
  obtain ⟨h, N, htr, hfirst, hsecond⟩ := overlap_trace
  obtain ⟨hret5, hret6⟩ := callF_read
  obtain ⟨-, hcalls, -⟩ := calls_linearizable htr
  refine ⟨N, _, _, hfirst, hsecond, hret6, (hcalls 6 _ _ hsecond hret6).2 (by decide), by decide,
    hret5, ?_⟩
  refine ((hcalls 5 _ _ hfirst hret5).1 rfl).resolve_left ?_
  decide

/-! ## 5. One call at a time -/

section Alone

variable {S : Service σ} {vars : σ} {history : List NetEvent} {N N' : Network σ} {p : Nat}

/-- Client `p` calls only when all its calls have returned. -/
def AloneStep (S : Service σ) (p : Nat) (N : Network σ) (e : NetEvent) (N' : Network σ) : Prop :=
  NetStep S N e N' ∧ ∀ c body result, e = .call c p body result →
    ∀ c' call, N.calls c' = some call → call.client = p → call.returned ≠ none

/-- Every call of `p` asks for its own number, and a call that is under way has the last one. -/
structure CallAlone (p : Nat) (callSN : Nat) (call : RpcCall) : Prop where
  last : call.client = p → call.returned = none → ∀ sn, call.sent = some sn → sn = callSN
  own : call.client = p → ∀ sn, call.required = some sn → call.sent = some sn

/-- The same for all calls. -/
def NetAlone (p : Nat) (N : Network σ) : Prop :=
  ∀ c call, N.calls c = some call → CallAlone p (N.callSN p) call

theorem NetAlone.set (h : NetAlone p N) {c : Nat} {call : RpcCall}
    (hcall : CallAlone p (N.callSN p) call) : NetAlone p (N.set c call) := by
  intro c' call' hcall'
  rcases N.set_cases hcall' with ⟨rfl, rfl⟩ | ⟨-, hold⟩
  · exact hcall
  · exact h c' call' hold

/-- A step that reads no number, and opens no call again. -/
theorem CallAlone.kept {callSN : Nat} {call call' : RpcCall} (h : CallAlone p callSN call)
    (hclient : call'.client = call.client) (hsent : call'.sent = call.sent)
    (hreq : call'.required = call.required)
    (hopen : call'.returned = none → call.returned = none) : CallAlone p callSN call' where
  last := by
    rw [hclient, hsent]
    exact fun hp hret => h.last hp (hopen hret)
  own := by
    rw [hclient, hsent, hreq]
    exact h.own

/-- **The step lemma.** -/
theorem AloneStep.alone {e : NetEvent} (hs : AloneStep S p N e N') (hok : NetOk S vars N)
    (h : NetAlone p N) : NetAlone p N' := by
  obtain ⟨hstep, hquiet⟩ := hs
  cases hstep with
  | @call c q body result hnone =>
    intro c' call' hcall'
    rcases N.set_cases hcall' with ⟨rfl, rfl⟩ | ⟨-, hold⟩
    · refine ⟨?_, ?_⟩
      · intro _ _ _ hsent
        cases hsent
      · intro _ _ hreq
        cases hreq
    · refine ⟨?_, (h c' call' hold).own⟩
      intro hp hopen sn hsent
      dsimp only
      by_cases hq : q = p
      · subst hq
        exact absurd hopen (hquiet c body result rfl c' call' hold hp)
      · rw [Function.update_of_ne (Ne.symm hq)]
        exact (h c' call' hold).last hp hopen sn hsent
  | refuse hcall _ _ => exact h.set ((h _ _ hcall).kept rfl rfl rfl fun hret => by cases hret)
  | connect hcall _ _ => exact h.set ((h _ _ hcall).kept rfl rfl rfl id)
  | write hcall _ _ _ _ _ => exact h.set ((h _ _ hcall).kept rfl rfl rfl id)
  | @number c call hcall _ _ hsent =>
    refine h.set ⟨?_, ?_⟩
    · intro hp _ sn hsn
      rw [← hp]
      exact (Option.some.inj hsn).symm
    · intro hp sn hreq
      exact absurd (hsent.symm.trans ((h c call hcall).own hp sn hreq)) (by simp)
  | broken hcall _ _ _ => exact h.set ((h _ _ hcall).kept rfl rfl rfl fun hret => by cases hret)
  | @serve c n k m call plan hcall _ _ _ =>
    unfold Rpc.serve
    have hset : ∀ response, NetAlone p (N.set c { call with response := response }) :=
      fun response => h.set ((h c call hcall).kept rfl rfl rfl id)
    split
    · exact hset _
    · exact hset _
  | @ask c call hcall hwritten hopen _ =>
    refine h.set ⟨(h c call hcall).last, ?_⟩
    intro hp sn hreq
    -- all is written, so the number has been read
    cases hsent : call.sent with
    | none =>
      have h4 := ((hok.calls c call hcall).unsent hsent).1 _ hwritten
      rw [RpcCall.frame, requestFrame] at h4
      simp only [List.length_append, length_leBytes] at h4
      omega
    | some sn' =>
      rw [← Option.some.inj hreq, (h c call hcall).last hp hopen sn' hsent, hp]
  | read hcall _ _ => exact h.set ((h _ _ hcall).kept rfl rfl rfl fun hret => by cases hret)

theorem trace_alone (htr : Trace (AloneStep S p) (quiet vars) history N) :
    NetOk S vars N ∧ NetAlone p N := by
  refine Trace.invariant (I := fun N => NetOk S vars N ∧ NetAlone p N)
    ⟨trace_netOk .start, ?_⟩ ?_ htr
  · intro c call hcall
    nomatch hcall
  · exact fun _ _ _ h hs => ⟨hs.1.ok h.1, hs.alone h.1 h.2⟩

/-- **A client that makes its calls one by one**, whatever the others do: a call of it that returned
`-1` left `result` alone. -/
theorem calls_alone (htr : Trace (AloneStep S p) (quiet vars) history N) {c : Nat} {call : RpcCall}
    {ret : Int × Rsp} (hcall : N.calls c = some call) (hp : call.client = p)
    (hret : call.returned = some ret) (hfail : ret.1 = -1) : ret.2 = call.result := by
  obtain ⟨hok, halone⟩ := trace_alone htr
  rcases (hok.calls c call hcall).returned ret hret with rfl | ⟨hne, -⟩ | hover
  · rfl
  · exact absurd hfail hne
  · obtain ⟨sn, required, bytes, hsent, hreq, hdiff, -⟩ := hover
    have hown := (halone c call hcall).own hp required hreq
    exact absurd (Option.some.inj (hown.symm.trans hsent)) hdiff

end Alone

/-- The client gives up on a response that does not come, and calls again. -/
theorem again_trace : ∃ (history : List NetEvent) (N : Network Unit),
    Trace (AloneStep fortyTwo 0) (quiet ()) history N ∧ N.calls 6 = some (beginCall 0 [] seven) ∧
      N.calls 5 = some ({ callF 1 1 with response := none }.read 1 0 []) := by
  have magic : Trace (AloneStep fortyTwo 0) (quiet ()) _ _ :=
    .call (e := .write 5 4) (.call (e := .connect 5)
      (.call (e := .call 5 0 [1, 0, 102, 0] seven) .start
        ⟨.call rfl, fun _ _ _ _ _ _ h => nomatch h⟩)
      ⟨.connect rfl rfl rfl, fun _ _ _ h => nomatch h⟩)
      ⟨.write rfl rfl rfl (by decide) (by decide) (by decide), fun _ _ _ h => nomatch h⟩
  have asked : Trace (AloneStep fortyTwo 0) (quiet ()) _ _ :=
    .call (e := .ask 5) (.call (e := .write 5 16) (.call (e := .number 5) magic
      ⟨.number rfl rfl rfl rfl, fun _ _ _ h => nomatch h⟩)
      ⟨.write rfl rfl rfl (by decide) (by decide) (by decide), fun _ _ _ h => nomatch h⟩)
      ⟨.ask rfl rfl rfl rfl, fun _ _ _ h => nomatch h⟩
  refine ⟨_, _, .call (e := .call 6 0 [] seven) (.call (e := .read 5 0 []) asked
    ⟨.read rfl rfl rfl, fun _ _ _ h => nomatch h⟩) ⟨.call rfl, ?_⟩, rfl, rfl⟩
  rintro - - - - c call hcall -
  by_cases hc : c = 5
  · subst hc
    obtain rfl := Option.some.inj hcall
    exact Option.some_ne_none _
  · simp [Network.set, Function.update, hc, quiet] at hcall

theorem calls_alone_again : ∃ (N : Network Unit) (first : RpcCall) (ret : Int × Rsp),
    N.calls 5 = some first ∧ N.calls 6 ≠ none ∧ first.returned = some ret ∧ ret.1 = -1 ∧
      ret.2 = first.result := by
  obtain ⟨h, N, htr, hsecond, hfirst⟩ := again_trace
  exact ⟨N, _, _, hfirst, by rw [hsecond]; exact Option.some_ne_none _, rfl, by decide,
    calls_alone htr hfirst rfl rfl (by decide)⟩

end CDemo.Rpc
