/-
# What a call comes to (`rpc_server.c`, `rpc_client.c`, `main.c`)

A program registers its functions and another one calls them by name.  The registry has room for
128 names of 255 characters, and keeps the first of two equal names; the client sends the length of
the name in 16 bits; the server turns down names of 256 characters and messages of more than 65536
bytes.  `rpcCall_resolves` goes through all of it: for whatever has been registered and whatever is
called, what `rpc_call` returns.

The second half is the third function of the demo.  `login_handler` gives its output buffer to the
parser, and `parse_login` writes a whole response for every argument; it stops at the first one that
it turns down.  The client reads one response.  `login_decided` says what decides: the first
argument alone, of which the name counts and the first byte of the password.  An empty password has
no first byte (`login_stops_iff`).
-/
import CDemo.Rpc.Calls

namespace CDemo.Rpc

/-! ## 1. The registry -/

section Registry

variable {H : Type}

/-- The entry a registration makes. -/
def entryOf (reg : CString × H) : List UInt8 × H := (reg.1.bytes.take 255, reg.2)

end Registry

variable {Msg : Type}

/-- The third word of a frame is the length of the message, and the rest is the message. -/
theorem frame_message (sn : Nat) {body : List UInt8} (hlen : body.length < 2 ^ 32) :
    word (requestFrame sn body) 8 = body.length ∧ message (requestFrame sn body) = body := by
  have h8 : (leBytes 4 magicNum ++ leBytes 4 sn).length = 8 := by
    rw [List.length_append, length_leBytes, length_leBytes]
  have h12 : (leBytes 4 magicNum ++ leBytes 4 sn ++ leBytes 4 body.length).length = 12 := by
    rw [List.length_append, h8, length_leBytes]
  have hword : word (requestFrame sn body) 8 = body.length := by
    rw [word, requestFrame, List.append_assoc, List.drop_left' h8,
      List.take_left' (length_leBytes 4 _), ofLE_leBytes_of_lt hlen]
  refine ⟨hword, ?_⟩
  rw [message, hword, requestFrame, List.drop_left' h12, List.take_length]

section Calls

variable {σ : Type}

/-- The user data after these calls, up to the first one that is turned down. -/
def runUntil (handler : Handler σ) : σ → List Call → σ
  | s, [] => s
  | s, c :: cs =>
    if (c.run handler s).2 then (c.run handler s).1 else runUntil handler (c.run handler s).1 cs

/-- The calls that the parser makes of a request, if none is turned down. -/
def argCalls (r : Reader) : List Call := (rpcParseReqArgs record r []).2.2

/-- What `parse_arg` does where an argument stands. -/
theorem parseArg_isArg (handler : Handler σ) (s : σ) (pre rest : List UInt8) {b : List UInt8}
    {c : Call} (hb : IsArg b c) : parseArg handler ⟨pre ++ (b ++ rest), pre.length⟩ s =
      ((c.run handler s).2, ⟨pre ++ (b ++ rest), pre.length + b.length⟩, (c.run handler s).1) := by
  rcases parseArg_parses handler s pre (b ++ rest) with ⟨b', c', rest', heq, hb', hrun⟩ | ⟨hnone, -⟩
  · obtain ⟨rfl, rfl⟩ := hb.unique hb' heq
    exact hrun
  · exact absurd hb (hnone b c rest rfl)

/-- And where none stands. -/
theorem parseArg_noArg (handler : Handler σ) (s : σ) (pre : List UInt8) {left : List UInt8}
    (hnone : NoArg left) : ∃ r, parseArg handler ⟨pre ++ left, pre.length⟩ s = (true, r, s) := by
  rcases parseArg_parses handler s pre left with ⟨b, c, rest, heq, hb, -⟩ | ⟨-, pos, -, hrun⟩
  · exact absurd hb (hnone b c rest heq)
  · exact ⟨_, hrun⟩

/-- **The loop makes the same calls for every handler**, until one is turned down. -/
theorem parseLoop_calls (handler : Handler σ) (n : Nat) : ∀ pre left : List UInt8,
    ∃ cs : List Call, cs.length ≤ n ∧
      (∀ i s, (parseLoop handler i n ⟨pre ++ left, pre.length⟩ s).2.2 = runUntil handler s cs) ∧
      ∀ i acc, (parseLoop record i n ⟨pre ++ left, pre.length⟩ acc).2.2 = acc ++ cs := by
  induction n with
  | zero =>
    intro pre left
    exact ⟨[], Nat.le_refl 0, fun _ _ => rfl, fun _ acc => (List.append_nil acc).symm⟩
  | succ n ih =>
    intro pre left
    by_cases hex : ∃ b c rest, left = b ++ rest ∧ IsArg b c
    · obtain ⟨b, c, rest, rfl, hb⟩ := hex
      obtain ⟨cs, hlen, hrun, hrec⟩ := ih (pre ++ b) rest
      rw [List.append_assoc, List.length_append] at hrun hrec
      refine ⟨c :: cs, Nat.succ_le_succ hlen, ?_, ?_⟩
      · intro i s
        rw [parseLoop, parseArg_isArg handler s pre rest hb, runUntil]
        cases hrej : (c.run handler s).2 with
        | true => rfl
        | false => exact hrun (i + 1) _
      · intro i acc
        rw [parseLoop, parseArg_isArg record acc pre rest hb]
        refine (hrec (i + 1) _).trans ?_
        exact List.append_assoc acc [c] cs
    · have hnone : NoArg left := fun b c rest heq hb => hex ⟨b, c, rest, heq, hb⟩
      refine ⟨[], Nat.zero_le _, ?_, ?_⟩
      · intro i s
        obtain ⟨r, hr⟩ := parseArg_noArg handler s pre hnone
        rw [parseLoop, hr]
        rfl
      · intro i acc
        obtain ⟨r, hr⟩ := parseArg_noArg record acc pre hnone
        rw [parseLoop, hr]
        exact (List.append_nil acc).symm

/-- **A handler sees the calls of the request**, at most 255 of them. -/
theorem rpcParseReqArgs_calls (handler : Handler σ) (r : Reader) (s : σ) :
    (rpcParseReqArgs handler r s).2.2 = runUntil handler s (argCalls r) ∧
      (argCalls r).length ≤ 255 := by
  by_cases hpos : r.pos < r.data.length
  · have hdata : r.data = r.data.take r.pos ++ r.data[r.pos] :: r.data.drop (r.pos + 1) := by
      rw [← List.drop_eq_getElem_cons hpos, List.take_append_drop]
    have hlen : (r.data.take r.pos).length = r.pos := List.length_take_of_le hpos.le
    have hread := readerReadBytes_cons (r.data.take r.pos) (r.data.drop (r.pos + 1)) r.data[r.pos]
    rw [← hdata, hlen] at hread
    obtain ⟨cs, hle, hrun, hrec⟩ := parseLoop_calls handler r.data[r.pos].toNat
      (r.data.take r.pos ++ [r.data[r.pos]]) (r.data.drop (r.pos + 1))
    rw [List.append_assoc, List.singleton_append, ← hdata, List.length_append, hlen] at hrun hrec
    have hcalls : argCalls r = cs := by
      rw [argCalls, rpcParseReqArgs, hread]
      exact hrec 0 []
    have hbyte := r.data[r.pos].toNat_lt
    rw [hcalls]
    refine ⟨?_, by omega⟩
    rw [rpcParseReqArgs, hread]
    exact hrun 0 s
  · have hread : readerReadBytes r 1 = none := if_pos (by omega)
    have hcalls : argCalls r = [] := by
      rw [argCalls, rpcParseReqArgs, hread]
      rfl
    rw [hcalls, rpcParseReqArgs, hread]
    exact ⟨rfl, Nat.zero_le 255⟩

end Calls

/-! ## 4. `login` -/

/-- `Netmsg__ReqLogin`; the data of an empty `psw` is a null pointer. -/
structure ReqLogin where
  username : CString
  psw : List UInt8
  deriving DecidableEq, Repr

/-- `"witton"`. -/
def witton : CString :=
  ⟨['w', 'i', 't', 't', 'o', 'n'].map fun c => UInt8.ofNat c.toNat, by decide⟩

/-- `"RPC call login failed!"`. -/
def loginFailed : CString :=
  ⟨['R', 'P', 'C', ' ', 'c', 'a', 'l', 'l', ' ', 'l', 'o', 'g', 'i', 'n', ' ', 'f', 'a', 'i', 'l',
    'e', 'd', '!'].map fun c => UInt8.ofNat c.toNat, by decide⟩

/-- The bytes behind the pointer that the callback gets. -/
def Payload.bytes : Payload → List UInt8
  | .block bytes => bytes
  | .word _ => []

section Login

/- `netmsg__req_login__unpack` is generated from `login.proto`. -/
variable (unpack : List UInt8 → Option ReqLogin)

/-- The condition of `parse_login`: `strncmp` compares the terminator too, `memcmp` one byte. -/
def loginOk (bytes : List UInt8) : Run Bool :=
  match unpack bytes with
  | none => .ok false
  | some login =>
    if login.username = witton then
      match login.psw with
      | [] => .error .nullPointer
      | b :: _ => .ok (b = 49)
    else .ok false

/-- What `parse_login` makes of an argument. -/
def verdict (c : Call) : Run Bool :=
  if c.dt ≠ .pb then .ok false else loginOk unpack (c.v.bytes.take c.vlen)

/-- `parse_login`; the user data is the output buffer. -/
def parseLogin : Handler (Run Enc) := fun buf dt v vlen =>
  match buf with
  | .error fault => (.error fault, true)
  | .ok e =>
    match verdict unpack ⟨dt, v, vlen⟩ with
    | .error fault => (.error fault, true)
    | .ok true => (.ok (rpcMakeRsp Pb.none (fun _ => true) e rpcOk []).2, false)
    | .ok false =>
      (.ok (rpcMakeRsp Pb.none (fun _ => true) e rpcErr [.str .s8cp loginFailed]).2, true)

/-- `login_handler`. -/
def loginHandler (args : Reader) (buf : Enc) : Run Enc :=
  (rpcParseReqArgs (parseLogin unpack) args (.ok buf)).2.2

/-- **The argument logs in**: it is a message with the right name and a password that starts with
`1`. -/
def Admits (c : Call) : Prop :=
  c.dt = .pb ∧ ∃ psw, unpack (c.v.bytes.take c.vlen) = some ⟨witton, 49 :: psw⟩

/-- The argument is a message with the right name and an empty password. -/
def NoPassword (c : Call) : Prop :=
  c.dt = .pb ∧ unpack (c.v.bytes.take c.vlen) = some ⟨witton, []⟩

theorem verdict_cases (c : Call) :
    (verdict unpack c = .ok true ∧ Admits unpack c ∧ ¬ NoPassword unpack c) ∨
    (verdict unpack c = .ok false ∧ ¬ Admits unpack c ∧ ¬ NoPassword unpack c) ∨
    (verdict unpack c = .error .nullPointer ∧ ¬ Admits unpack c ∧ NoPassword unpack c) := by
  unfold verdict Admits NoPassword
  by_cases hdt : c.dt = .pb
  swap
  · rw [if_pos hdt]
    exact .inr (.inl ⟨rfl, fun h => hdt h.1, fun h => hdt h.1⟩)
  rw [if_neg (not_not.mpr hdt), loginOk]
  cases hlogin : unpack (c.v.bytes.take c.vlen) with
  | none =>
    refine .inr (.inl ⟨rfl, ?_, ?_⟩)
    · rintro ⟨-, psw, h⟩
      nomatch h
    · rintro ⟨-, h⟩
      nomatch h
  | some login =>
    obtain ⟨username, psw⟩ := login
    dsimp only
    by_cases hname : username = witton
    swap
    · rw [if_neg hname]
      refine .inr (.inl ⟨rfl, ?_, ?_⟩)
      · rintro ⟨-, psw', h⟩
        exact hname (congrArg ReqLogin.username (Option.some.inj h))
      · rintro ⟨-, h⟩
        exact hname (congrArg ReqLogin.username (Option.some.inj h))
    subst hname
    rw [if_pos rfl]
    cases psw with
    | nil =>
      refine .inr (.inr ⟨rfl, ?_, hdt, rfl⟩)
      rintro ⟨-, psw', h⟩
      exact absurd (congrArg ReqLogin.psw (Option.some.inj h)) (by simp)
    | cons b psw =>
      have hpsw : ¬ (c.dt = .pb ∧ some (ReqLogin.mk witton (b :: psw)) = some ⟨witton, []⟩) := by
        rintro ⟨-, h⟩
        exact absurd (congrArg ReqLogin.psw (Option.some.inj h)) (by simp)
      by_cases hb : b = 49
      · subst hb
        exact .inl ⟨rfl, ⟨hdt, psw, rfl⟩, hpsw⟩
      · refine .inr (.inl ⟨congrArg Except.ok (decide_eq_false hb), ?_, hpsw⟩)
        rintro ⟨-, psw', h⟩
        exact hb (List.cons.inj (congrArg ReqLogin.psw (Option.some.inj h))).1

/-- What `parse_login` does, one line for each verdict. -/
theorem parseLogin_run (c : Call) (e : Enc) :
    (Admits unpack c ∧ ¬ NoPassword unpack c ∧ c.run (parseLogin unpack) (.ok e) =
      (.ok (rpcMakeRsp Pb.none (fun _ => true) e rpcOk []).2, false)) ∨
    (¬ Admits unpack c ∧ ¬ NoPassword unpack c ∧ c.run (parseLogin unpack) (.ok e) =
      (.ok (rpcMakeRsp Pb.none (fun _ => true) e rpcErr [.str .s8cp loginFailed]).2, true)) ∨
    (¬ Admits unpack c ∧ NoPassword unpack c ∧ c.run (parseLogin unpack) (.ok e) =
      (.error .nullPointer, true)) := by
  unfold Call.run parseLogin
  rcases verdict_cases unpack c with ⟨hv, hyes, hno⟩ | ⟨hv, hyes, hno⟩ | ⟨hv, hyes, hno⟩
  · exact .inl ⟨hyes, hno, by dsimp only; rw [hv]⟩
  · exact .inr (.inl ⟨hyes, hno, by dsimp only; rw [hv]⟩)
  · exact .inr (.inr ⟨hyes, hno, by dsimp only; rw [hv]⟩)

/-- Behind arguments that log in there is one without a password. -/
def Stops (cs : List Call) : Prop :=
  ∃ before c after, cs = before ++ c :: after ∧ (∀ x ∈ before, Admits unpack x) ∧
    NoPassword unpack c

theorem stops_cons (c : Call) (cs : List Call) :
    Stops unpack (c :: cs) ↔ NoPassword unpack c ∨ (Admits unpack c ∧ Stops unpack cs) := by
  constructor
  · rintro ⟨before, c', after, heq, hadmits, hno⟩
    cases before with
    | nil =>
      obtain ⟨rfl, -⟩ := List.cons.inj heq
      exact .inl hno
    | cons x before =>
      obtain ⟨rfl, rfl⟩ := List.cons.inj heq
      exact .inr ⟨hadmits c (List.mem_cons_self ..), before, c', after, rfl,
        fun y hy => hadmits y (List.mem_cons_of_mem c hy), hno⟩
  · rintro (hno | ⟨hyes, before, c', after, rfl, hadmits, hno⟩)
    · exact ⟨[], c, cs, rfl, (fun _ hx => nomatch hx), hno⟩
    · exact ⟨c :: before, c', after, rfl, List.forall_mem_cons.mpr ⟨hyes, hadmits⟩, hno⟩

/-- The loop of the parser stops the server where there is no password to look at. -/
theorem runUntil_login_error (cs : List Call) : ∀ e : Enc,
    (Stops unpack cs → runUntil (parseLogin unpack) (.ok e) cs = .error .nullPointer) ∧
      (¬ Stops unpack cs → ∃ e', runUntil (parseLogin unpack) (.ok e) cs = .ok e') := by
  induction cs with
  | nil =>
    intro e
    refine ⟨?_, fun _ => ⟨e, rfl⟩⟩
    rintro ⟨before, c, after, heq, -⟩
    exact absurd heq (by simp)
  | cons c cs ih =>
    intro e
    rw [stops_cons, runUntil]
    rcases parseLogin_run unpack c e with
      ⟨hyes, hno, hrun⟩ | ⟨hyes, hno, hrun⟩ | ⟨hyes, hno, hrun⟩
    · rw [hrun]
      obtain ⟨herror, hok⟩ := ih (rpcMakeRsp Pb.none (fun _ => true) e rpcOk []).2
      refine ⟨fun h => herror (h.resolve_left hno).2, fun h => hok fun hstops => ?_⟩
      exact h (.inr ⟨hyes, hstops⟩)
    · rw [hrun]
      exact ⟨fun h => absurd (h.resolve_left hno).1 hyes, fun _ => ⟨_, rfl⟩⟩
    · rw [hrun]
      exact ⟨fun _ => rfl, fun h => absurd (.inl hno) h⟩

/-- The response for an argument that is turned down. -/
def failedReply : List UInt8 := rpcErr :: encArgs Pb.none [.str .s8cp loginFailed]

/-- What `parse_login` leaves in the buffer: nothing without arguments, a whole response for the
first one, and then, if that one logs in, whatever comes of the others. -/
theorem runUntil_login_data (cs : List Call) : ∀ e e' : Enc,
    runUntil (parseLogin unpack) (.ok e) cs = .ok e' →
    ∃ tail, e'.buf.data = e.buf.data ++ tail ∧ tail.length ≤ 2 * cs.length + 27 ∧
      (cs = [] → tail = []) ∧
      ∀ c cs', cs = c :: cs' → (Admits unpack c → ∃ rest, tail = rpcOk :: 0 :: rest) ∧
        (¬ Admits unpack c → tail = failedReply) := by
  have hm : ∀ n, (fun _ => true : Mem) n = true := fun _ => rfl
  induction cs with
  | nil =>
    intro e e' h
    rw [← Except.ok.inj h]
    exact ⟨[], (List.append_nil _).symm, Nat.zero_le _, fun _ => rfl, fun _ _ h => nomatch h⟩
  | cons c cs ih =>
    intro e e' h
    rw [runUntil] at h
    rcases parseLogin_run unpack c e with
      ⟨hyes, -, hrun⟩ | ⟨hyes, -, hrun⟩ | ⟨hyes, -, hrun⟩
    · rw [hrun] at h
      obtain ⟨tail, hdata, hlen, -⟩ := ih _ _ h
      rw [rpcMakeRsp_data (rpcMakeRsp_ok hm _ _ _), List.append_assoc] at hdata
      refine ⟨rpcOk :: 0 :: tail, hdata, ?_, (fun h => nomatch h), ?_⟩
      · simp only [List.length_cons]
        omega
      · intro c' cs' heq
        obtain ⟨rfl, -⟩ := List.cons.inj heq
        exact ⟨fun _ => ⟨tail, rfl⟩, fun hno => absurd hyes hno⟩
    · rw [hrun] at h
      have hdata :
          (rpcMakeRsp Pb.none (fun _ => true) e rpcErr [.str .s8cp loginFailed]).2.buf.data =
            e.buf.data ++ failedReply := rpcMakeRsp_data (rpcMakeRsp_ok hm _ _ _)
      obtain rfl := Except.ok.inj h
      refine ⟨failedReply, hdata, ?_, (fun h => nomatch h), ?_⟩
      · have hsize : failedReply.length = 27 := by decide
        rw [hsize]
        exact Nat.le_add_left 27 _
      · intro c' cs' heq
        obtain ⟨rfl, -⟩ := List.cons.inj heq
        exact ⟨fun h => absurd h hyes, fun _ => rfl⟩
    · rw [hrun] at h
      nomatch h

/-- The client on a response without arguments, whatever comes behind it. -/
theorem rpcParseReqArgs_none (bd : Obj) (res : UInt8) (rest : List UInt8) :
    rpcParseReqArgs rspBaseData ⟨res :: 0 :: rest, 1⟩ bd = (0, ⟨res :: 0 :: rest, 2⟩, bd) := by
  have hread : readerReadBytes ⟨res :: 0 :: rest, 1⟩ 1 = some ([0], ⟨res :: 0 :: rest, 2⟩) :=
    readerReadBytes_cons [res] rest 0
  rw [rpcParseReqArgs, hread]
  rfl

/-- The client on the response for an argument that is turned down. -/
theorem rpcParseReqArgs_failed (bd : Obj) :
    (rpcParseReqArgs rspBaseData ⟨failedReply, 1⟩ bd).1 = 0 ∧
      (rpcParseReqArgs rspBaseData ⟨failedReply, 1⟩ bd).2.2 =
        ⟨.s8cp, .s (loginFailed.bytes ++ [0])⟩ := by
  obtain ⟨hzero, hdel⟩ := parse_reply rpcErr (some (.str .s8cp loginFailed)) bd
  refine ⟨hzero, ?_⟩
  obtain ⟨htype, hv⟩ := hdel.mpr fun x hx => by
    obtain rfl := List.mem_singleton.mp hx
    exact (by decide : loginFailed.strlen < 2 ^ 16)
  exact congrArg₂ Obj.mk htype hv

/-- The client on an empty response. -/
theorem rpcGetRsp_empty {sn : Nat} (rsp : Rsp) :
    rpcGetRsp ⟨requestFrame sn [], []⟩ rsp sn = (-1, rsp) := by
  rw [rpcGetRsp_framed]
  split
  · rw [(frame_message sn (by decide)).2]
    rfl
  · rfl

/-- **When `login` stops the server**: exactly when some argument, behind arguments that all log
in, has the right name and no password. -/
theorem login_stops_iff (args : Reader) (buf : Enc) :
    (∃ fault, loginHandler unpack args buf = .error fault) ↔ Stops unpack (argCalls args) := by
  rw [loginHandler, (rpcParseReqArgs_calls (parseLogin unpack) args (.ok buf)).1]
  obtain ⟨herror, hok⟩ := runUntil_login_error unpack (argCalls args) buf
  constructor
  · rintro ⟨fault, hfault⟩
    by_contra hno
    obtain ⟨e', he'⟩ := hok hno
    exact nomatch hfault.symm.trans he'
  · exact fun h => ⟨_, herror h⟩

/-- **What decides a login.**  Whatever the request is, and whatever its other arguments are, the
client that reads the response gets: a failed call if no argument reaches the callback, because
there is none or the first one is malformed; `RPC_OK` and no value when the first argument logs in;
`RPC_ERR` and the text otherwise. -/
theorem login_decided {args : Reader} {out : Enc}
    (h : loginHandler unpack args ⟨bufferNew 256, 0⟩ = .ok out) {sn : Nat} (hsn : sn < 2 ^ 32)
    (rsp : Rsp) :
    (argCalls args = [] → rpcGetRsp ⟨requestFrame sn out.buf.data, []⟩ rsp sn = (-1, rsp)) ∧
    ∀ c cs, argCalls args = c :: cs →
      (Admits unpack c →
        rpcGetRsp ⟨requestFrame sn out.buf.data, []⟩ rsp sn = (0, ⟨rpcOk, rsp.data⟩)) ∧
      (¬ Admits unpack c → rpcGetRsp ⟨requestFrame sn out.buf.data, []⟩ rsp sn =
        (0, ⟨rpcErr, ⟨.s8cp, .s (loginFailed.bytes ++ [0])⟩⟩)) := by
  obtain ⟨hrun, hcount⟩ := rpcParseReqArgs_calls (parseLogin unpack) args
    (.ok (⟨bufferNew 256, 0⟩ : Enc))
  rw [loginHandler, hrun] at h
  obtain ⟨tail, hdata, hlen, hnil, hcons⟩ := runUntil_login_data unpack (argCalls args) _ _ h
  have htail : out.buf.data = tail := hdata
  rw [htail]
  refine ⟨?_, ?_⟩
  · intro hnone
    rw [hnil hnone]
    exact rpcGetRsp_empty rsp
  · intro c cs heq
    obtain ⟨hyes, hno⟩ := hcons c cs heq
    constructor
    · intro hadmits
      obtain ⟨rest, hrest⟩ := hyes hadmits
      subst hrest
      have hshort : (rpcOk :: 0 :: rest).length < 2 ^ 32 := by omega
      refine (rpcGetRsp_frame hsn hshort rsp).trans ?_
      rw [rpcParseReqArgs_none]
      rfl
    · intro hadmits
      rw [hno hadmits]
      have hshort : failedReply.length < 2 ^ 32 := by decide
      refine (rpcGetRsp_frame hsn hshort rsp).trans ?_
      obtain ⟨hzero, hobj⟩ := rpcParseReqArgs_failed rsp.data
      exact Prod.ext (congrArg Int.ofNat hzero) (congrArg (Rsp.mk rpcErr) hobj)

end Login

/-- The message `{ username: "witton", psw: "1" }` on the wire. -/
def wittonBytes : List UInt8 := [10, 6, 119, 105, 116, 116, 111, 110, 18, 1, 49]

/-- `netmsg__req_login__unpack` on that message, and on the same one without a password. -/
def unpackWitton (bytes : List UInt8) : Option ReqLogin :=
  if bytes = wittonBytes then some ⟨witton, [49]⟩
  else if bytes = wittonBytes.take 8 then some ⟨witton, []⟩
  else none

/-- A request with that message and then the number 5: two responses, of which the client reads
the first. -/
def loginArgs : Reader := ⟨2 :: 27 :: 11 :: 0 :: wittonBytes ++ [2, 5], 0⟩

theorem argCalls_loginArgs : argCalls loginArgs =
    [⟨.pb, .block (wittonBytes ++ [0]), 11⟩, ⟨.u8, .word 5, 1⟩] := by decide

theorem login_decided_loginArgs : ∃ out : Enc,
    loginHandler unpackWitton loginArgs ⟨bufferNew 256, 0⟩ = .ok out ∧ out.buf.data.length = 29 ∧
      rpcGetRsp ⟨requestFrame 7 out.buf.data, []⟩ ⟨9, ⟨.unknown, .ll 0⟩⟩ 7 =
        (0, ⟨rpcOk, ⟨.unknown, .ll 0⟩⟩) := by
  refine ⟨_, rfl, by decide, ?_⟩
  refine ((login_decided unpackWitton rfl (by decide) _).2 _ _ argCalls_loginArgs).1 ?_
  exact ⟨rfl, [], rfl⟩

end CDemo.Rpc
