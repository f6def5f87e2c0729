/-
# One request, one response (`rpc_server.c`, `rpc_util.c`)

`handle_client` reads a framed request, finds the handler by name and writes a framed
response; `rpc_get_rsp` reads that frame on the client.  This file embeds both ends and asks
whether they agree: does the client get the result code and the value the server sent?

Handlers build their reply with `RPC_MAKE_RSP`, whose format is that of the argument list, and
`rpc_get_rsp` parses it with the argument parser.  The branch for an unknown function writes
its reply by hand in another format: a result code, a 32-bit length and a text.  The parser
takes the low byte of the length for a count and the next one for a tag, and the client is
told that the call failed.

Nor do all values come through.  `GET_TYPE` lists eight integer types and takes every other number
for the address of a message, so that a handler that sends a `long` (an `int64_t` where that is a
`long`), a `signed char` or a `double` stops the server.  On the client the value lies zero-extended
in `v.ll` of `object_t`, and is read through the member of its type; for 16 bits there is none, and
a negative `short` comes out positive.  `agrees_iff` says that there is nothing else.

A socket delivers its bytes in pieces; `Sock.plan` bounds the next reads.  With an empty plan
each read gets all it asks for.  Allocations succeed.
-/
import CDemo.Rpc.Parse
import CDemo.Lib.Run

namespace CDemo.Rpc

/-! ## 1. The socket -/

/-- The bytes still to come, and how many of them each of the next reads may take. -/
structure Sock where
  rest : List UInt8
  plan : List Nat
  deriving DecidableEq, Repr

/-- `read_sock`: at least one byte and at most `n`, nothing at the end of the stream. -/
def readSock (s : Sock) (n : Nat) : List UInt8 × Sock :=
  let k := match s.plan with
    | [] => n
    | p :: _ => min n (max 1 p)
  (s.rest.take k, ⟨s.rest.drop k, s.plan.tail⟩)

/-- `rpc_read_u32`: one read that must give all four bytes. -/
def rpcReadU32 (s : Sock) : Option (Nat × Sock) :=
  let (bs, s) := readSock s 4
  if bs.length = 4 then some (ofLE bs, s) else none

/-- The loop of `read_sock_until`.  A round takes a byte or ends the loop, so `remain` rounds
are enough. -/
def readLoop : Nat → Nat → Sock → Option (List UInt8 × Sock)
  | _, 0, s => some ([], s)
  | 0, _ + 1, _ => none
  | rounds + 1, remain + 1, s =>
    let (bs, s) := readSock s (remain + 1)
    if bs.length = 0 then none
    else (readLoop rounds (remain + 1 - bs.length) s).map fun (bs', s) => (bs ++ bs', s)

/-- `read_sock_until`. -/
def readSockUntil (s : Sock) (n : Nat) : Option (List UInt8 × Sock) := readLoop n n s

/-! ## 2. The server -/

/-- `g_rpc_magic_num`. -/
def magicNum : Nat := 0xceadbeef

/-- `RPC_OK`. -/
def rpcOk : UInt8 := 0

/-- `RPC_ERR`. -/
def rpcErr : UInt8 := 1

/-- `rpc_handler_t`: from the arguments and the output buffer to the output buffer. -/
abbrev RpcHandler := Reader → Enc → Enc

/-- `handlers`. -/
abbrev Handlers := List (List UInt8 × RpcHandler)

/-- `rpc_server_register`: at most 128 handlers, each under the first 255 characters of its
name. -/
def rpcServerRegister {H : Type} (handlers : List (List UInt8 × H)) (name : CString)
    (handler : H) : Int × List (List UInt8 × H) :=
  if handlers.length ≥ 128 then (-1, handlers)
  else (0, handlers ++ [(name.bytes.take 255, handler)])

/-- `find_handler`. -/
def findHandler {H : Type} (handlers : List (List UInt8 × H)) (name : List UInt8) : Option H :=
  (handlers.find? (fun entry => entry.1 = name)).map Prod.snd

/-- A request `handle_client` does not turn down: its number, the name up to the first NUL,
and the reader behind the name. -/
structure Request where
  callSN : Nat
  name : List UInt8
  args : Reader
  deriving DecidableEq, Repr

/-- `handle_client` up to the look-up of the handler. -/
def acceptRequest (s : Sock) : Option Request := do
  let (mn, s) ← rpcReadU32 s
  guard (mn = magicNum)
  let (callSN, s) ← rpcReadU32 s
  let (msgLen, s) ← rpcReadU32 s
  guard (msgLen ≠ 0 ∧ msgLen ≤ 65536)
  let (msg, _) ← readSockUntil s msgLen
  let (bs, r) ← readerReadBytes (readerInit msg) 2
  let nameLen := ofLE bs
  guard (nameLen < 256)
  let (funcName, r) ← readerReadBytes r nameLen
  some ⟨callSN, funcName.takeWhile (· ≠ 0), r⟩

/-- `"Function not found"`. -/
def errText : CString :=
  ⟨['F', 'u', 'n', 'c', 't', 'i', 'o', 'n', ' ', 'n', 'o', 't', ' ', 'f', 'o', 'u', 'n', 'd'].map
    fun c => UInt8.ofNat c.toNat, by decide⟩

/-- The output buffer `handle_client` fills. -/
def outBuf (handlers : Handlers) (req : Request) : Buffer :=
  let mem : Mem := fun _ => true
  let e : Enc := ⟨bufferNew 256, 0⟩
  match findHandler handlers req.name with
  | none =>
    let (_, e) := bufferAppendU8 mem e rpcErr
    let (_, e) := bufferAppendU32 mem e errText.strlen
    (bufferAppend mem e errText.bytes).2.buf
  | some handler => (handler req.args e).buf

/-- The four writes of `handle_client`. -/
def writeResponse (callSN : Nat) (out : Buffer) : List UInt8 :=
  leBytes 4 magicNum ++ leBytes 4 callSN ++ leBytes 4 out.data.length ++ out.data

def respond (handlers : Handlers) (req : Request) : List UInt8 :=
  writeResponse req.callSN (outBuf handlers req)

/-- `handle_client`: what it writes, if it does not close the connection first. -/
def handleClient (handlers : Handlers) (s : Sock) : Option (List UInt8) :=
  (acceptRequest s).map (respond handlers)

/-- An `rpc_handler_t` that may stop. -/
abbrev RunHandler := Reader → Enc → Run Enc

/-- `handle_client`, with handlers that may stop. -/
def handleClientRun (handlers : List (List UInt8 × RunHandler)) (s : Sock) :
    Run (Option (List UInt8)) :=
  match acceptRequest s with
  | none => .ok none
  | some req =>
    match findHandler handlers req.name with
    | none => .ok (some (respond [] req))
    | some handler => do
      let out ← handler req.args ⟨bufferNew 256, 0⟩
      .ok (some (writeResponse req.callSN out.buf))

/-- With handlers that return, the two are the same. -/
theorem handleClientRun_ok (handlers : Handlers) (s : Sock) :
    handleClientRun (handlers.map fun entry => (entry.1, fun r e => .ok (entry.2 r e))) s =
      .ok (handleClient handlers s) := by
  rw [handleClientRun, handleClient]
  cases acceptRequest s with
  | none => rfl
  | some req =>
    simp only [List.find?_map, Function.comp_def, Option.map_some, respond, outBuf, findHandler]
    cases handlers.find? (fun entry => entry.1 = req.name) with
    | none => rfl
    | some entry => rfl

/-! ## 3. The client -/

/-- The union of `object_t`: a 64-bit integer or a pointer to a NUL-terminated string. -/
inductive ObjVal where
  | ll (v : BitVec 64)
  | s (bytes : List UInt8)
  deriving DecidableEq, Repr

/-- `object_t`. -/
structure Obj where
  type : DataType
  v : ObjVal
  deriving DecidableEq, Repr

/-- `rpc_rsp_t`. -/
structure Rsp where
  res : UInt8
  data : Obj
  deriving DecidableEq, Repr

/-- `rsp_base_data`. -/
def rspBaseData : Handler Obj := fun bd dt v _ =>
  match dt, v with
  | .s8, .word w | .u8, .word w | .s16, .word w | .u16, .word w
  | .s32, .word w | .u32, .word w | .s64, .word w | .u64, .word w => (⟨dt, .ll w⟩, false)
  | .s8p, .block s | .u8p, .block s | .s8cp, .block s | .u8cp, .block s => (⟨dt, .s s⟩, false)
  | _, _ => (bd, true)

/-- `rpc_get_rsp`: what it returns and the response it leaves. -/
def rpcGetRsp (s : Sock) (rsp : Rsp) (requireCallSN : Nat) : Int × Rsp :=
  match rpcReadU32 s with
  | none => (-1, rsp)
  | some (mn, s) =>
    if mn ≠ magicNum then (-1, rsp) else
    match rpcReadU32 s with
    | none => (-1, rsp)
    | some (callSN, s) =>
      match rpcReadU32 s with
      | none => (-1, rsp)
      | some (respLen, s) =>
        match readSockUntil s respLen with
        | none => (-1, rsp)
        | some (bytes, _) =>
          match readerReadBytes (readerInit bytes) 1 with
          | none => (-1, rsp)
          | some (bs, r) =>
            let rsp := { rsp with res := bs.headD 0 }
            if requireCallSN = callSN then
              let (ret, _, data) := rpcParseReqArgs rspBaseData r rsp.data
              (ret, { rsp with data := data })
            else (-1, rsp)

/-! ## 4. What handlers send -/

/-- Handlers of this file send no messages. -/
def Pb.none : Pb Empty := ⟨nofun, nofun⟩

/-- The types of numbers that `GET_TYPE` does not list. -/
inductive UnlistedType where
  | schar | bool | long | ulong | float | double | longDouble
  deriving DecidableEq, Repr

/-- The pointer types that `GET_TYPE` lists and `buffer_append_dt` has no case for. -/
inductive PointerType where
  | s16p | u16p | s32p | u32p | s64p | u64p
  | s16cp | u16cp | s32cp | u32cp | s64cp | u64cp | vp | cvp
  deriving DecidableEq, Repr

/-- The tag of a pointer type. -/
def PointerType.dt : PointerType → DataType
  | .s16p => .s16p | .u16p => .u16p | .s32p => .s32p | .u32p => .u32p | .s64p => .s64p
  | .u64p => .u64p | .s16cp => .s16cp | .u16cp => .u16cp | .s32cp => .s32cp | .u32cp => .u32cp
  | .s64cp => .s64cp | .u64cp => .u64cp | .vp => .vp | .cvp => .cvp

/-- A value that a handler sends: an integer or a string of a type the library takes, a number of
another type, by whether it differs from zero, or another pointer. -/
inductive Value where
  | arg (x : Arg Empty)
  | number (t : UnlistedType) (nonzero : Bool)
  | pointer (t : PointerType)

/-- `GET_TYPE`.  What is not listed may be a message: `IS_PROTOBUF_MSG` follows a number that is not
zero as a pointer. -/
def getType : Value → Run DataType
  | .arg x => .ok x.dt
  | .number _ true => .error .outOfBounds
  | .number _ false => .ok .unknown
  | .pointer t => .ok t.dt

/-- `BUFFER_PUSH_ARG`: the tag, and what `buffer_append_dt` does with it.  Its last case is an
`assert(false)`. -/
def bufferPushValue (e : Enc) (x : Value) : Run Enc := do
  let dt ← getType x
  let mem : Mem := fun _ => true
  let (_, e) := bufferAppend mem e [dt.code]
  match x with
  | .arg x => .ok (bufferAppendDt Pb.none mem e x).2
  | .number _ _ | .pointer _ => .error .assertFailed

/-- What a handler sends: a result code, and a value or nothing. -/
structure Answer where
  res : UInt8
  value : Option Value

/-- `RPC_MAKE_RSP`. -/
def rpcMakeAnswer (e : Enc) (answer : Answer) : Run Enc :=
  let mem : Mem := fun _ => true
  let (_, e) := bufferAppendU8 mem e answer.res
  let (_, e) := bufferAppendU8 mem e (UInt8.ofNat answer.value.toList.length)
  match answer.value with
  | .none => .ok e
  | .some x => bufferPushValue e x

/-- A handler that builds its reply with `RPC_MAKE_RSP`. -/
def answerHandler (answer : Reader → Answer) : RunHandler := fun r e => rpcMakeAnswer e (answer r)

/-- The handlers of a table of answers. -/
def answering (table : List (List UInt8 × (Reader → Answer))) : List (List UInt8 × RunHandler) :=
  table.map fun entry => (entry.1, answerHandler entry.2)

/-- What the server means to send for a request. -/
def serverAnswer (table : List (List UInt8 × (Reader → Answer))) (req : Request) : Answer :=
  match table.find? (fun entry => entry.1 = req.name) with
  | none => ⟨rpcErr, some (.arg (.str .s8cp errText))⟩
  | some entry => entry.2 req.args

/-- An answer of a type that the library takes. -/
structure Reply where
  res : UInt8
  value : Option (Arg Empty)

def Reply.answer (reply : Reply) : Answer := ⟨reply.res, reply.value.map .arg⟩

/-- A handler that sends such answers always returns. -/
def replying (reply : Reader → Reply) : RpcHandler := fun r e =>
  (rpcMakeRsp Pb.none (fun _ => true) e (reply r).res (reply r).value.toList).2

/-- The handlers of a table of replies. -/
def handlersOf (table : List (List UInt8 × (Reader → Reply))) : Handlers :=
  table.map fun entry => (entry.1, replying entry.2)

theorem rpcMakeAnswer_reply (e : Enc) (reply : Reply) :
    rpcMakeAnswer e reply.answer =
      .ok (rpcMakeRsp Pb.none (fun _ => true) e reply.res reply.value.toList).2 := by
  obtain ⟨res, value⟩ := reply
  cases value with
  | none => rfl
  | some x => rfl

/-! ## 5. What agreement is -/

/-- The signed types. -/
def ScalarType.signed : ScalarType → Bool
  | .s8 | .s16 | .s32 | .s64 => true
  | .u8 | .u16 | .u32 | .u64 => false

/-- The number that the bits of an integer are. -/
def ScalarType.value (t : ScalarType) (v : BitVec (8 * t.size)) : Int :=
  if t.signed then v.toInt else v.toNat

/-- The member of `object_t` in which an integer of the type is found: `c`, `b`, `i`, `u`, `ll` or
`ull`.  There is none of 16 bits, and `i` or `u` has to do. -/
def ScalarType.member (t : ScalarType) (w : BitVec 64) : Int :=
  match t with
  | .s8 => (w.setWidth 8).toInt
  | .u8 => (w.setWidth 8).toNat
  | .s16 | .s32 => (w.setWidth 32).toInt
  | .u16 | .u32 => (w.setWidth 32).toNat
  | .s64 => w.toInt
  | .u64 => w.toNat

/-- `data` is the value that was sent, read through the member its type names; without a value
it is what it was. -/
def Delivered (before : Obj) : Option Value → Obj → Prop
  | .none, data => data = before
  | .some (.arg (.scalar t v)), data =>
    data.type = t.dt ∧ ∃ w, data.v = .ll w ∧ t.member w = t.value v
  | .some (.arg (.str t s)), data => data.type = t.dt ∧ data.v = .s (s.bytes ++ [0])
  | .some (.number _ _), _ | .some (.pointer _), _ => False

/-- The library takes the value. -/
def Answer.Taken (answer : Answer) : Prop :=
  ∀ x ∈ answer.value.toList, ∃ arg, x = .arg arg

/-- The client takes `answer` from the bytes `out`. -/
def Agrees (out : List UInt8) (sn : Nat) (answer : Answer) : Prop :=
  ∀ rsp : Rsp, ∃ data, rpcGetRsp ⟨out, []⟩ rsp sn = (0, ⟨answer.res, data⟩) ∧
    Delivered rsp.data answer.value data

/-- The value comes through: a `short` that is not negative, any other integer of the list, and a
string of less than 65536 bytes. -/
def Arg.Survives : Arg Empty → Prop
  | .scalar t v => t = .s16 → 0 ≤ t.value v
  | .str _ s => s.strlen < 2 ^ 16
  | .pb m => nomatch m

/-- No value of another type comes through. -/
def Value.Survives : Value → Prop
  | .arg x => x.Survives
  | .number _ _ | .pointer _ => False

/-- The zero-extended word of an integer. -/
theorem toNat_word (t : ScalarType) (v : BitVec (8 * t.size)) :
    (v.setWidth 64).toNat = v.toNat := by
  have hle : 2 ^ (8 * t.size) ≤ 2 ^ 64 :=
    Nat.pow_le_pow_right (by decide) (by have := size_le t; omega)
  rw [BitVec.toNat_setWidth, Nat.mod_eq_of_lt (v.isLt.trans_le hle)]

/-- The signed number that the low bits of a word are. -/
theorem toInt_low {k : Nat} (w : BitVec 64) :
    (w.setWidth k).toInt =
      if 2 * (w.toNat % 2 ^ k) < 2 ^ k then ((w.toNat % 2 ^ k : Nat) : Int)
      else ((w.toNat % 2 ^ k : Nat) : Int) - (2 ^ k : Nat) := by
  rw [BitVec.toInt_eq_toNat_cond, BitVec.toNat_setWidth]

/-- **Where an integer is found**, in the zero-extended word. -/
theorem member_arrives (t : ScalarType) (v : BitVec (8 * t.size)) :
    t.member (v.setWidth 64) = t.value v ↔ (t = .s16 → 0 ≤ t.value v) := by
  have hv := v.isLt
  have hint := BitVec.toInt_eq_toNat_cond v
  have hword := toNat_word t v
  generalize v.setWidth 64 = w at hword ⊢
  have hw := w.toInt_eq_toNat_cond
  cases t <;>
    simp only [ScalarType.member, ScalarType.value, ScalarType.signed, ScalarType.size,
      toInt_low, BitVec.toNat_setWidth, hword, Nat.reduceMul, Nat.reducePow, reduceCtorEq,
      if_true, true_implies, false_implies, iff_true, Bool.false_eq_true, if_false]
      at hv hint hw ⊢ <;>
    split_ifs at hint hw ⊢ <;>
    omega

/-! ## 6. The frame -/

theorem rpcReadU32_append {v : Nat} (h : v < 2 ^ 32) (rest : List UInt8) :
    rpcReadU32 ⟨leBytes 4 v ++ rest, []⟩ = some (v, ⟨rest, []⟩) := by
  have ht : (leBytes 4 v ++ rest).take 4 = leBytes 4 v := List.take_left' (length_leBytes 4 v)
  have hd : (leBytes 4 v ++ rest).drop 4 = rest := List.drop_left' (length_leBytes 4 v)
  unfold rpcReadU32 readSock
  dsimp only
  rw [ht, hd, if_pos (length_leBytes 4 v), ofLE_leBytes_of_lt h]
  rfl

theorem readSockUntil_append (bs rest : List UInt8) :
    readSockUntil ⟨bs ++ rest, []⟩ bs.length = some (bs, ⟨rest, []⟩) := by
  unfold readSockUntil
  cases bs with
  | nil => rfl
  | cons b bs =>
    have ht : (b :: bs ++ rest).take (bs.length + 1) = b :: bs := List.take_left' rfl
    have hd : (b :: bs ++ rest).drop (bs.length + 1) = rest := List.drop_left' rfl
    rw [List.length_cons]
    unfold readLoop readSock
    dsimp only
    rw [ht, hd, if_neg (by simp), List.length_cons, Nat.sub_self]
    simp [readLoop]

/-- **Reading a response frame.** -/
theorem rpcGetRsp_frame {sn : Nat} (hsn : sn < 2 ^ 32) {b : UInt8} {body : List UInt8}
    (hlen : (b :: body).length < 2 ^ 32) (rsp : Rsp) :
    rpcGetRsp ⟨leBytes 4 magicNum ++ leBytes 4 sn ++ leBytes 4 (b :: body).length ++ b :: body, []⟩
        rsp sn
      = (((rpcParseReqArgs rspBaseData ⟨b :: body, 1⟩ rsp.data).1 : Int),
          ⟨b, (rpcParseReqArgs rspBaseData ⟨b :: body, 1⟩ rsp.data).2.2⟩) := by
  have hb := readSockUntil_append (b :: body) []
  rw [List.append_nil] at hb
  have h1 : readerReadBytes (readerInit (b :: body)) 1 = some ([b], ⟨b :: body, 1⟩) :=
    readerReadBytes_cons [] body b
  unfold rpcGetRsp
  rw [List.append_assoc, List.append_assoc, rpcReadU32_append (by decide)]
  dsimp only
  rw [if_neg (not_not.mpr rfl), rpcReadU32_append hsn]
  dsimp only
  rw [rpcReadU32_append hlen]
  dsimp only
  rw [hb]
  dsimp only
  rw [h1]
  dsimp only [List.headD_cons]
  rw [if_pos rfl]

/-! ## 7. The two kinds of response -/

/-- `rsp_base_data` takes every integer and every string. -/
theorem rspBaseData_arrives (bd : Obj) : ∀ x : Arg Empty,
    (rspBaseData bd (x.arrives Pb.none).dt (x.arrives Pb.none).v (x.arrives Pb.none).vlen).2
      = false ∧
    (Delivered bd (some (.arg x))
      (rspBaseData bd (x.arrives Pb.none).dt (x.arrives Pb.none).v (x.arrives Pb.none).vlen).1 ↔
      x.Survives)
  | .scalar t v => by
    have hr : rspBaseData bd t.dt (.word (v.setWidth 64)) t.size
        = (⟨t.dt, .ll (v.setWidth 64)⟩, false) := by cases t <;> rfl
    refine ⟨by rw [Arg.arrives, hr], ?_⟩
    rw [Arg.arrives, hr, Arg.Survives, ← member_arrives]
    constructor
    · rintro ⟨-, w, hw, hmember⟩
      rw [ObjVal.ll.inj hw]
      exact hmember
    · exact fun hmember => ⟨rfl, _, rfl, hmember⟩
  | .str t s => by
    have hr : ∀ bytes n, rspBaseData bd t.dt (.block bytes) n = (⟨t.dt, .s bytes⟩, false) := by
      intro bytes n
      cases t <;> rfl
    refine ⟨by rw [Arg.arrives, hr], ?_⟩
    rw [Arg.arrives, hr]
    constructor
    · rintro ⟨-, hs⟩
      have hb : s.bytes.take (s.strlen % 2 ^ 16) = s.bytes :=
        List.append_cancel_right (ObjVal.s.inj hs)
      have hl : (s.bytes.take (s.strlen % 2 ^ 16)).length = s.strlen := congrArg List.length hb
      show s.strlen < 2 ^ 16
      rw [List.length_take] at hl
      have hm : s.strlen % 2 ^ 16 < 2 ^ 16 := Nat.mod_lt _ (by decide)
      omega
    · intro h
      have hm : s.strlen % 2 ^ 16 = s.strlen := Nat.mod_eq_of_lt h
      refine ⟨rfl, ?_⟩
      dsimp only
      rw [hm, List.take_of_length_le (by simp [CString.strlen])]
  | .pb m => nomatch m

/-- **A reply built with `RPC_MAKE_RSP`** parses without complaint; what it delivers is the
value that was sent exactly when the value survives. -/
theorem parse_reply (res : UInt8) (value : Option (Arg Empty)) (bd : Obj) :
    (rpcParseReqArgs rspBaseData ⟨res :: encArgs Pb.none value.toList, 1⟩ bd).1 = 0 ∧
    (Delivered bd (value.map .arg)
      (rpcParseReqArgs rspBaseData ⟨res :: encArgs Pb.none value.toList, 1⟩ bd).2.2 ↔
      ∀ x ∈ value.toList, x.Survives) := by
  have hlen : value.toList.length ≤ 10 := by cases value <;> simp
  have hc := rpcParseReqArgs_encArgs Pb.none rspBaseData bd value.toList hlen [res] []
  rw [List.append_nil, List.append_nil, List.length_singleton, List.singleton_append] at hc
  rw [hc]
  cases value with
  | none => simp [parseLoop, Delivered]
  | some x =>
    obtain ⟨hacc, hdel⟩ := rspBaseData_arrives bd x
    obtain ⟨pos, hp, -⟩ := parseArg_encArg Pb.none rspBaseData x bd
      ([res] ++ [UInt8.ofNat [x].length]) []
    rw [List.append_nil] at hp
    simp only [Option.toList_some, List.flatMap_cons, List.flatMap_nil, List.append_nil,
      List.length_singleton, parseLoop, List.singleton_append]
    simp only [List.length_singleton, List.singleton_append] at hp
    rw [hp, hacc]
    refine ⟨rfl, ?_⟩
    dsimp only [Option.map_some]
    rw [hdel]
    simp

/-- The bytes `RPC_MAKE_RSP` puts into the empty buffer. -/
theorem outBuf_replying {handlers : Handlers} {req : Request} {reply : Reader → Reply}
    (h : findHandler handlers req.name = some (replying reply)) :
    (outBuf handlers req).data
      = (reply req.args).res :: encArgs Pb.none (reply req.args).value.toList := by
  unfold outBuf
  rw [h]
  exact rpcMakeRsp_data (rpcMakeRsp_ok (fun _ => rfl) _ _ _)

/-- No reply comes near the 32-bit length of the frame. -/
theorem length_reply_lt (res : UInt8) (value : Option (Arg Empty)) :
    (res :: encArgs Pb.none value.toList).length < 2 ^ 32 := by
  cases value with
  | none => simp [encArgs]
  | some x =>
    have hx : (encBody Pb.none x).length < 2 ^ 17 := by
      cases x with
      | scalar t v =>
        have := size_le t
        rw [encBody, length_leBytes]
        omega
      | str t s =>
        have hm : s.strlen % 2 ^ 16 < 2 ^ 16 := Nat.mod_lt _ (by decide)
        rw [encBody, List.length_append, length_leBytes, List.length_take]
        omega
      | pb m => exact m.elim
    simp only [encArgs, encArg, Option.toList_some, List.flatMap_cons, List.flatMap_nil,
      List.append_nil, List.length_cons]
    omega

/-- **The hand-written reply is not an argument list.**  The client reads 18 arguments off the
length of the text and stops at the first: its tag is a zero byte. -/
theorem parse_errReply (bd : Obj) :
    rpcParseReqArgs rspBaseData ⟨rpcErr :: (leBytes 4 errText.strlen ++ errText.bytes), 1⟩ bd
      = (1, ⟨rpcErr :: (leBytes 4 errText.strlen ++ errText.bytes), 3⟩, bd) := by
  rfl

theorem outBuf_notFound {handlers : Handlers} {req : Request}
    (h : findHandler handlers req.name = none) :
    (outBuf handlers req).data = rpcErr :: (leBytes 4 errText.strlen ++ errText.bytes) := by
  unfold outBuf
  rw [h]
  rfl

/-! ## 8. Every request -/

/-- The sequence number of an accepted request is a `uint32_t`. -/
theorem rpcReadU32_lt {s s' : Sock} {v : Nat} (h : rpcReadU32 s = some (v, s')) : v < 2 ^ 32 := by
  unfold rpcReadU32 at h
  dsimp only at h
  split at h
  · rename_i hl
    simp only [Option.some.injEq, Prod.mk.injEq] at h
    have hlt := ofLE_lt (readSock s 4).1
    rw [hl] at hlt
    rw [← h.1]
    exact hlt
  · exact absurd h (by simp)

theorem acceptRequest_callSN_lt {s : Sock} {req : Request} (h : acceptRequest s = some req) :
    req.callSN < 2 ^ 32 := by
  unfold acceptRequest at h
  obtain ⟨⟨mn, s1⟩, -, h⟩ := Option.bind_eq_some_iff.mp h
  obtain ⟨-, -, h⟩ := Option.bind_eq_some_iff.mp h
  obtain ⟨⟨sn, s2⟩, hsn, h⟩ := Option.bind_eq_some_iff.mp h
  obtain ⟨⟨msgLen, s3⟩, -, h⟩ := Option.bind_eq_some_iff.mp h
  obtain ⟨-, -, h⟩ := Option.bind_eq_some_iff.mp h
  obtain ⟨⟨msg, s4⟩, -, h⟩ := Option.bind_eq_some_iff.mp h
  obtain ⟨⟨bs, r1⟩, -, h⟩ := Option.bind_eq_some_iff.mp h
  obtain ⟨-, -, h⟩ := Option.bind_eq_some_iff.mp h
  obtain ⟨⟨funcName, r2⟩, -, h⟩ := Option.bind_eq_some_iff.mp h
  rw [← Option.some.inj h]
  exact rpcReadU32_lt hsn

/-- What the client makes of the response of a handler that replies with `RPC_MAKE_RSP`. -/
theorem rpcGetRsp_respond {handlers : Handlers} {req : Request} {reply : Reader → Reply}
    (h : findHandler handlers req.name = some (replying reply)) (hsn : req.callSN < 2 ^ 32)
    (rsp : Rsp) :
    rpcGetRsp ⟨respond handlers req, []⟩ rsp req.callSN
      = (((rpcParseReqArgs rspBaseData ⟨(reply req.args).res ::
            encArgs Pb.none (reply req.args).value.toList, 1⟩ rsp.data).1 : Int),
          ⟨(reply req.args).res, (rpcParseReqArgs rspBaseData ⟨(reply req.args).res ::
            encArgs Pb.none (reply req.args).value.toList, 1⟩ rsp.data).2.2⟩) := by
  rw [respond, writeResponse, outBuf_replying h, rpcGetRsp_frame hsn (length_reply_lt _ _)]

/-- **A registered handler** is understood exactly when its value survives. -/
theorem agrees_replying {handlers : Handlers} {req : Request} {reply : Reader → Reply}
    (h : findHandler handlers req.name = some (replying reply)) (hsn : req.callSN < 2 ^ 32) :
    Agrees (respond handlers req) req.callSN (reply req.args).answer ↔
      ∀ x ∈ (reply req.args).value.toList, x.Survives := by
  constructor
  · intro hag
    obtain ⟨data, hret, hdel⟩ := hag ⟨0, ⟨.unknown, .ll 0⟩⟩
    rw [rpcGetRsp_respond h hsn] at hret
    have hdata := congrArg (fun p => p.2.data) hret
    dsimp only at hdata
    rw [← hdata] at hdel
    exact (parse_reply _ _ _).2.mp hdel
  · intro hfit rsp
    obtain ⟨h0, hdel⟩ := parse_reply (reply req.args).res (reply req.args).value rsp.data
    refine ⟨_, ?_, hdel.mpr hfit⟩
    rw [rpcGetRsp_respond h hsn, h0]
    rfl

/-- **The reply to an unknown function** is not understood, whatever it is to say. -/
theorem not_agrees_notFound {handlers : Handlers} {req : Request}
    (h : findHandler handlers req.name = none) (hsn : req.callSN < 2 ^ 32) (answer : Answer) :
    ¬ Agrees (respond handlers req) req.callSN answer := by
  intro hag
  obtain ⟨data, hret, -⟩ := hag ⟨0, ⟨.unknown, .ll 0⟩⟩
  rw [respond, writeResponse, outBuf_notFound h, rpcGetRsp_frame hsn (by decide),
    parse_errReply] at hret
  have h1 : ((1 : Nat) : Int) = 0 := congrArg Prod.fst hret
  exact absurd h1 (by decide)

/-- A value of a type that the library does not take stops the server. -/
theorem bufferPushValue_ok {e e' : Enc} {x : Value} (h : bufferPushValue e x = .ok e') :
    ∃ arg, x = .arg arg := by
  cases x with
  | arg arg => exact ⟨arg, rfl⟩
  | number t nonzero => cases nonzero <;> exact nomatch h
  | pointer t => exact nomatch h

/-- **A handler that returns** has sent an integer or a string that the library takes, or
nothing. -/
theorem rpcMakeAnswer_ok {e e' : Enc} {answer : Answer} (h : rpcMakeAnswer e answer = .ok e') :
    ∃ reply : Reply, answer = reply.answer := by
  obtain ⟨res, value⟩ := answer
  cases value with
  | none => exact ⟨⟨res, none⟩, rfl⟩
  | some x =>
    obtain ⟨arg, rfl⟩ := bufferPushValue_ok h
    exact ⟨⟨res, some arg⟩, rfl⟩

theorem exists_reply_of_taken {answer : Answer} (h : answer.Taken) :
    ∃ reply : Reply, answer = reply.answer := by
  obtain ⟨res, value⟩ := answer
  cases value with
  | none => exact ⟨⟨res, none⟩, rfl⟩
  | some x =>
    obtain ⟨arg, rfl⟩ := h x (List.mem_singleton_self _)
    exact ⟨⟨res, some arg⟩, rfl⟩

/-- A value that survives is one that the library takes. -/
theorem taken_of_survives {answer : Answer} (h : ∀ x ∈ answer.value.toList, x.Survives) :
    answer.Taken := by
  intro x hx
  cases x with
  | arg arg => exact ⟨arg, rfl⟩
  | number t nonzero => exact (h _ hx).elim
  | pointer t => exact (h _ hx).elim

theorem survives_answer (reply : Reply) :
    (∀ x ∈ reply.answer.value.toList, x.Survives) ↔ ∀ x ∈ reply.value.toList, x.Survives := by
  obtain ⟨res, value⟩ := reply
  cases value <;> simp [Reply.answer, Value.Survives]

theorem findHandler_answering (table : List (List UInt8 × (Reader → Answer)))
    (name : List UInt8) :
    findHandler (answering table) name =
      (table.find? (fun entry => entry.1 = name)).map fun entry => answerHandler entry.2 := by
  simp [findHandler, answering, List.find?_map, Function.comp_def, Option.map_map]

/-- The one handler that sends `reply`. -/
theorem findHandler_self (name : List UInt8) (reply : Reply) :
    findHandler [(name, replying fun _ => reply)] name = some (replying fun _ => reply) := by
  simp [findHandler]

/-- What `handle_client` writes where the handler sends `reply`. -/
theorem handleClientRun_reply {handlers : List (List UInt8 × RunHandler)} {s : Sock}
    {req : Request} (hacc : acceptRequest s = some req) {answer : Reader → Answer}
    (hfind : findHandler handlers req.name = some (answerHandler answer)) {reply : Reply}
    (heq : answer req.args = reply.answer) :
    handleClientRun handlers s =
      .ok (some (respond [(req.name, replying fun _ => reply)] req)) := by
  rw [handleClientRun, hacc]
  dsimp only
  rw [hfind]
  dsimp only
  rw [answerHandler, heq, rpcMakeAnswer_reply, respond, outBuf, findHandler_self]
  rfl

/-- And where it answers at all, a reply is what it has sent. -/
theorem exists_reply_of_handleClientRun {handlers : List (List UInt8 × RunHandler)} {s : Sock}
    {req : Request} (hacc : acceptRequest s = some req) {answer : Reader → Answer}
    (hfind : findHandler handlers req.name = some (answerHandler answer))
    {out : Option (List UInt8)} (hout : handleClientRun handlers s = .ok out) :
    ∃ reply : Reply, answer req.args = reply.answer := by
  rw [handleClientRun, hacc] at hout
  dsimp only at hout
  rw [hfind] at hout
  obtain ⟨e, he, -⟩ := Run.bind_eq_ok_iff.mp hout
  exact rpcMakeAnswer_ok he

/-- **When server and client agree.**  For every request `handle_client` accepts, and handlers
that build their replies with `RPC_MAKE_RSP`, the server answers and the client gets what was sent
exactly when the function is registered and the value survives. -/
theorem agrees_iff (table : List (List UInt8 × (Reader → Answer))) {s : Sock} {req : Request}
    (h : acceptRequest s = some req) :
    (∃ out, handleClientRun (answering table) s = .ok (some out) ∧
        Agrees out req.callSN (serverAnswer table req)) ↔
      (∃ entry ∈ table, entry.1 = req.name) ∧
        ∀ x ∈ (serverAnswer table req).value.toList, x.Survives := by
  have hsn := acceptRequest_callSN_lt h
  have hfind := findHandler_answering table req.name
  cases hf : table.find? (fun entry => entry.1 = req.name) with
  | none =>
    rw [hf, Option.map_none] at hfind
    have hrun : handleClientRun (answering table) s = .ok (some (respond [] req)) := by
      rw [handleClientRun, h]
      dsimp only
      rw [hfind]
    constructor
    · rintro ⟨out, hout, hag⟩
      obtain rfl := Option.some.inj (Except.ok.inj (hrun.symm.trans hout))
      exact absurd hag (not_agrees_notFound rfl hsn _)
    · rintro ⟨⟨entry, hmem, hname⟩, -⟩
      have := List.find?_eq_none.mp hf entry hmem
      simp [hname] at this
  | some entry =>
    rw [hf, Option.map_some] at hfind
    have hanswer : serverAnswer table req = entry.2 req.args := by rw [serverAnswer, hf]
    have hmem : ∃ entry ∈ table, entry.1 = req.name :=
      ⟨entry, List.mem_of_find?_eq_some hf, by simpa using List.find?_some hf⟩
    rw [hanswer]
    constructor
    · rintro ⟨out, hout, hag⟩
      obtain ⟨reply, heq⟩ := exists_reply_of_handleClientRun h hfind hout
      have hrun := handleClientRun_reply h hfind heq
      obtain rfl := Option.some.inj (Except.ok.inj (hrun.symm.trans hout))
      rw [heq] at hag ⊢
      exact ⟨hmem, (survives_answer reply).mpr
        ((agrees_replying (findHandler_self _ _) hsn).mp hag)⟩
    · rintro ⟨-, hfit⟩
      obtain ⟨reply, heq⟩ := exists_reply_of_taken (taken_of_survives hfit)
      refine ⟨_, handleClientRun_reply h hfind heq, ?_⟩
      rw [heq] at hfit ⊢
      exact (agrees_replying (findHandler_self _ _) hsn).mpr ((survives_answer reply).mp hfit)

/-- The request `f()` with number 7. -/
def requestF : Sock :=
  ⟨leBytes 4 magicNum ++ leBytes 4 7 ++ leBytes 4 4 ++ leBytes 2 1 ++ [102] ++ [0], []⟩

/-- What `handle_client` makes of it. -/
theorem acceptRequest_requestF :
    acceptRequest requestF = some ⟨7, [102], ⟨[1, 0, 102, 0], 3⟩⟩ := by decide

/-- A registered `f` that answers the `int` -42. -/
theorem agrees_iff_registered :
    ∃ out, handleClientRun
        (answering [([102], fun _ => ⟨rpcOk, some (.arg (.scalar .s32 (-42)))⟩)]) requestF =
          .ok (some out) ∧
      Agrees out 7 ⟨rpcOk, some (.arg (.scalar .s32 (-42)))⟩ := by
  refine (agrees_iff [([102], fun _ => ⟨rpcOk, some (.arg (.scalar .s32 (-42)))⟩)]
    acceptRequest_requestF).mpr ⟨⟨_, List.mem_singleton_self _, rfl⟩, ?_⟩
  intro x hx
  obtain rfl : x = .arg (.scalar .s32 (-42)) := List.mem_singleton.mp hx
  exact fun h => nomatch h

/-- **An unknown function.**  The server accepts the request and answers; the client returns 1
in place of 0. -/
theorem agrees_unregistered :
    ∃ out, acceptRequest requestF = some ⟨7, [102], ⟨[1, 0, 102, 0], 3⟩⟩ ∧
      handleClientRun (answering []) requestF = .ok (some out) ∧
      (rpcGetRsp ⟨out, []⟩ ⟨0, ⟨.unknown, .ll 0⟩⟩ 7).1 = 1 ∧
      ¬ Agrees out 7 (serverAnswer [] ⟨7, [102], ⟨[1, 0, 102, 0], 3⟩⟩) := by
  refine ⟨respond [] ⟨7, [102], ⟨[1, 0, 102, 0], 3⟩⟩, acceptRequest_requestF,
    by rw [handleClientRun, acceptRequest_requestF]; rfl, by decide, ?_⟩
  exact not_agrees_notFound rfl (by decide) _

end CDemo.Rpc
