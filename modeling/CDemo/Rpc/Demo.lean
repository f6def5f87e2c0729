/-
# The functions of the demo (`main.c`, `rpc_client.c`)

The demo registers three functions and calls them.  `sum` adds its integers; `concat` joins its
strings in a buffer of 256 bytes.  This file embeds the two, and the way of a call: the request
that `RPC_MAKE_REQ` builds, the frame that `rpc_call` puts around it, `handle_client`, the
handler, and `rpc_get_rsp`.

An integer arrives in a 64-bit word that was zero before, so a negative number of 8, 16 or 32 bits
comes as a large positive one.  Ten such errors are too small to cancel out modulo `2^64`:
`sum_iff` says that `sum` is right exactly when there is none.

`concat` uses `strcat` and no one compares lengths.  A message may have 65536 bytes, the buffer has
room for 255 and the terminator, and `concat_iff` says that this is where it goes wrong.
-/
import CDemo.Rpc.Segments
import CDemo.Rpc.Grammar
import Mathlib.Data.List.TakeWhile

namespace CDemo.Rpc

/-! ## 1. A call -/

variable {Msg : Type}

/-- `RPC_MAKE_REQ`: the results of the appends, and the buffer. -/
def rpcMakeReq (pb : Pb Msg) (mem : Mem) (func : CString) (xs : List (Arg Msg)) :
    List Int × Enc :=
  let size := func.strlen % 2 ^ 16
  let (r1, e) := bufferAppend mem ⟨bufferNew 1024, 0⟩ (leBytes 2 size)
  let (r2, e) := bufferAppend mem e (func.bytes.take size)
  let (rs, e) := bufferPushArgs pb mem e xs
  (r1 :: r2 :: rs, e)

/-- The four writes of `rpc_call`. -/
def requestFrame (callSN : Nat) (body : List UInt8) : List UInt8 :=
  leBytes 4 magicNum ++ leBytes 4 callSN ++ leBytes 4 body.length ++ body

/-- `rpc_call`, once the connection stands: what it returns and the response it leaves. -/
def rpcCall (handlers : Handlers) (callSN : Nat) (buf : Buffer) (result : Rsp) : Int × Rsp :=
  let out := handleClient handlers ⟨requestFrame callSN buf.data, []⟩
  rpcGetRsp ⟨out.getD [], []⟩ result callSN

/-- `rpc_call`, where a handler may stop the server. -/
def rpcCallRun (handlers : List (List UInt8 × RunHandler)) (callSN : Nat) (buf : Buffer)
    (result : Rsp) : Run (Int × Rsp) := do
  let out ← handleClientRun handlers ⟨requestFrame callSN buf.data, []⟩
  .ok (rpcGetRsp ⟨out.getD [], []⟩ result callSN)

/-- With handlers that return, the two are the same. -/
theorem rpcCallRun_ok (handlers : Handlers) (callSN : Nat) (buf : Buffer) (result : Rsp) :
    rpcCallRun (handlers.map fun entry => (entry.1, fun r e => .ok (entry.2 r e))) callSN buf
      result = .ok (rpcCall handlers callSN buf result) := by
  rw [rpcCallRun, handleClientRun_ok]
  rfl

/-- What `RPC_MAKE_REQ` puts into the buffer, for a name of less than 65536 bytes. -/
theorem rpcMakeReq_data (pb : Pb Msg) {func : CString} (hf : func.strlen < 2 ^ 16)
    (xs : List (Arg Msg)) :
    (rpcMakeReq pb (fun _ => true) func xs).2.buf.data =
      leBytes 2 func.strlen ++ (func.bytes ++ encArgs pb xs) := by
  have hm : ∀ n, (fun _ => true : Mem) n = true := fun _ => rfl
  have htake : func.bytes.take func.strlen = func.bytes := List.take_of_length_le le_rfl
  simp only [rpcMakeReq, Nat.mod_eq_of_lt hf, htake]
  rw [bufferPushArgs_data (bufferPushArgs_ok hm _ xs), bufferAppend_data (bufferAppend_ok hm _ _),
    bufferAppend_data (bufferAppend_ok hm _ _), List.append_assoc]
  rfl

/-- **The server accepts the frame**, and reads the name and the arguments. -/
theorem acceptRequest_frame {callSN : Nat} (hsn : callSN < 2 ^ 32) {func : CString}
    (hf : func.strlen < 256) {args : List UInt8}
    (hlen : (leBytes 2 func.strlen ++ (func.bytes ++ args)).length ≤ 65536) :
    acceptRequest ⟨requestFrame callSN (leBytes 2 func.strlen ++ (func.bytes ++ args)), []⟩ =
      some ⟨callSN, func.bytes,
        ⟨leBytes 2 func.strlen ++ (func.bytes ++ args), 2 + func.strlen⟩⟩ := by
  have hbody := readSockUntil_append (leBytes 2 func.strlen ++ (func.bytes ++ args)) []
  rw [List.append_nil] at hbody
  have hpos : (leBytes 2 func.strlen ++ (func.bytes ++ args)).length ≠ 0 := by
    rw [List.length_append, length_leBytes]
    omega
  have hsize := readerReadBytes_append [] (leBytes 2 func.strlen) (func.bytes ++ args)
    (length_leBytes 2 _)
  have hname := readerReadBytes_append (leBytes 2 func.strlen) func.bytes args
    (n := func.strlen) rfl
  rw [length_leBytes] at hname
  have hle : ofLE (leBytes 2 func.strlen) = func.strlen := ofLE_leBytes_of_lt (by omega)
  have hnul : func.bytes.takeWhile (· ≠ 0) = func.bytes := by
    refine List.takeWhile_eq_self_iff.mpr fun b hb => ?_
    exact decide_eq_true fun h0 => func.noNul (h0 ▸ hb)
  rw [acceptRequest_eq, requestFrame, List.append_assoc, List.append_assoc,
    rpcReadU32_append (by decide)]
  dsimp only
  rw [if_pos rfl, rpcReadU32_append hsn]
  dsimp only
  rw [rpcReadU32_append (hlen.trans_lt (by decide))]
  dsimp only
  rw [if_pos ⟨hpos, hlen⟩, hbody]
  dsimp only
  rw [parseRequest]
  refine (congrArg (· >>= _) hsize).trans ?_
  refine (guard_bind _).trans ?_
  rw [List.nil_append, if_pos (by rw [hle]; exact hf), hle]
  refine (congrArg (· >>= _) hname).trans ?_
  refine congrArg (fun name => some (Request.mk callSN name _)) hnul

/-- **A call of a registered function** returns the handler's reply if its value survives. -/
theorem rpcCall_delivers {handlers : Handlers} {func : CString} {reply : Reader → Reply}
    (hfind : findHandler handlers func.bytes = some (replying reply)) {callSN : Nat}
    (hsn : callSN < 2 ^ 32) (hf : func.strlen < 256) {buf : Buffer} {args : List UInt8}
    (hbuf : buf.data = leBytes 2 func.strlen ++ (func.bytes ++ args))
    (hlen : buf.data.length ≤ 65536)
    (hfit : ∀ x ∈ (reply ⟨buf.data, 2 + func.strlen⟩).value.toList, x.Survives) (rsp : Rsp) :
    ∃ data, rpcCall handlers callSN buf rsp =
        (0, ⟨(reply ⟨buf.data, 2 + func.strlen⟩).res, data⟩) ∧
      Delivered rsp.data ((reply ⟨buf.data, 2 + func.strlen⟩).value.map .arg) data := by
  rw [hbuf] at hlen hfit ⊢
  have hacc := acceptRequest_frame hsn hf hlen
  rw [rpcCall, hbuf, handleClient, hacc]
  have hag : Agrees (respond handlers ⟨callSN, func.bytes,
      ⟨leBytes 2 func.strlen ++ (func.bytes ++ args), 2 + func.strlen⟩⟩) callSN _ :=
    (agrees_replying hfind hsn).mpr hfit
  exact hag rsp

/-- An argument that fits is one of the grammar, and stands for its call. -/
theorem isArg_encArg {pb : Pb Msg} (hpb : pb.PackExact) : ∀ {x : Arg Msg}, x.Fits pb →
    IsArg (encArg pb x) (x.call pb)
  | .scalar t v, _ => by
    have htag : (t.dt.code, t.dt, (leBytes t.size v.toNat).length) ∈ intTags := by
      rw [length_leBytes, mem_intTags_iff]
      exact ⟨DataType.ofCode?_code _, scalarLen_dt t, size_pos t⟩
    have h := IsArg.int htag
    rw [ofLE_scalar, length_leBytes, ofNat_scalar] at h
    exact h
  | .str t s, hfit => by
    have hlen : s.strlen % 2 ^ 16 = s.strlen := Nat.mod_eq_of_lt hfit
    have htake : s.bytes.take s.strlen = s.bytes := List.take_of_length_le le_rfl
    have htag : (t.dt.code, t.dt) ∈ textTags :=
      mem_textTags_iff.mpr ⟨DataType.ofCode?_code _, by cases t <;> rfl⟩
    rw [encArg, encBody, hlen, htake]
    exact .text htag (length_leBytes 2 _) (ofLE_leBytes_of_lt hfit)
  | .pb m, hfit => by
    have hfit' : (pb.pack m).length < 2 ^ 16 := by
      rw [hpb m]
      exact hfit
    have htag : (DataType.pb.code, DataType.pb) ∈ textTags := by decide
    exact .text htag (length_leBytes 2 _) (ofLE_leBytes_of_lt hfit')

theorem isArgs_encArgs {pb : Pb Msg} (hpb : pb.PackExact) : ∀ {xs : List (Arg Msg)},
    (∀ x ∈ xs, x.Fits pb) → IsArgs (xs.flatMap (encArg pb)) (xs.map (Arg.call pb))
  | [], _ => .nil
  | x :: _, h => .cons (isArg_encArg hpb (h x List.mem_cons_self))
      (isArgs_encArgs hpb fun y hy => h y (List.mem_cons_of_mem x hy))

/-- **A list of arguments that the handler accepts** is read to its end. -/
theorem rpcParseReqArgs_accepts {σ : Type} {pb : Pb Msg} (hpb : pb.PackExact)
    {handler : Handler σ} {s : σ} {r : Reader} {count : UInt8} {rest : List UInt8}
    {xs : List (Arg Msg)} (hr : r.data.drop r.pos = count :: (xs.flatMap (encArg pb) ++ rest))
    (hcount : count.toNat = xs.length) (hfit : ∀ x ∈ xs, x.Fits pb)
    (hacc : Accepts handler s (xs.map (Arg.call pb))) :
    ∃ r', rpcParseReqArgs handler r s = (0, r', runCalls handler s (xs.map (Arg.call pb))) := by
  have hpos : r.pos < r.data.length := by
    by_contra hge
    rw [List.drop_of_length_le (Nat.le_of_not_lt hge)] at hr
    exact absurd hr (by simp)
  have hdata : r.data = r.data.take r.pos ++ count :: (xs.flatMap (encArg pb) ++ rest) := by
    rw [← hr, List.take_append_drop]
  have hlen : (r.data.take r.pos).length = r.pos := List.length_take_of_le hpos.le
  have hread := readerReadBytes_cons (r.data.take r.pos) (xs.flatMap (encArg pb) ++ rest) count
  rw [← hdata, hlen] at hread
  have hloop := parseLoop_accepts handler (isArgs_encArgs hpb hfit) 0
    (r.data.take r.pos ++ [count]) rest s hacc
  rw [List.append_assoc, List.singleton_append, ← hdata, List.length_append, hlen,
    List.length_map, ← hcount] at hloop
  rw [rpcParseReqArgs, hread]
  exact ⟨_, hloop⟩

/-! ## 2. `sum` -/

/-- `add`. -/
def add : Handler (BitVec 64) := fun result dt v _ =>
  match dt, v with
  | .s8, .word w | .u8, .word w | .s16, .word w | .u16, .word w
  | .s32, .word w | .u32, .word w | .s64, .word w | .u64, .word w => (result + w, false)
  | _, _ => (result, true)

/-- `"RPC call add failed!"`. -/
def addFailed : CString :=
  ⟨['R', 'P', 'C', ' ', 'c', 'a', 'l', 'l', ' ', 'a', 'd', 'd', ' ', 'f', 'a', 'i', 'l', 'e', 'd',
    '!'].map fun c => UInt8.ofNat c.toNat, by decide⟩

/-- What `sum_handler` replies, where `int64_t` is `long long`. -/
def sumReply (args : Reader) : Reply :=
  let (res, _, result) := rpcParseReqArgs add args 0
  if res = 0 then ⟨rpcOk, some (.scalar .s64 result)⟩
  else ⟨rpcErr, some (.str .s8cp addFailed)⟩

/-- `sum_handler`. -/
def sumHandler : RpcHandler := replying sumReply

/-- `"sum"`. -/
def sumName : CString := ⟨['s', 'u', 'm'].map fun c => UInt8.ofNat c.toNat, by decide⟩

/-- `"concat"`. -/
def concatName : CString :=
  ⟨['c', 'o', 'n', 'c', 'a', 't'].map fun c => UInt8.ofNat c.toNat, by decide⟩

/-- `"login"`. -/
def loginName : CString :=
  ⟨['l', 'o', 'g', 'i', 'n'].map fun c => UInt8.ofNat c.toNat, by decide⟩

/-- The handlers `server` registers; `concat` and `login` are those of the other two functions. -/
def serverHandlers (concat login : RpcHandler) : Handlers :=
  let (_, handlers) := rpcServerRegister [] sumName sumHandler
  let (_, handlers) := rpcServerRegister handlers concatName concat
  (rpcServerRegister handlers loginName login).2

/-- An integer argument: its type and its bits. -/
structure IntArg where
  type : ScalarType
  bits : BitVec (8 * type.size)

/-- The argument as the encoder gets it. -/
def IntArg.arg (x : IntArg) : Arg Empty := .scalar x.type x.bits

/-- The number the argument is. -/
def IntArg.value (x : IntArg) : Int := x.type.value x.bits

/-- **The argument keeps its value in a zeroed 64-bit word**: it fills the word, or it is not
negative. -/
def IntArg.Kept (x : IntArg) : Prop := x.type.size = 8 ∨ 0 ≤ x.value

instance (x : IntArg) : Decidable x.Kept := inferInstanceAs (Decidable (_ ∨ _))

/-- What one argument arrives as: its value, and `lost` too much. -/
theorem IntArg.split (x : IntArg) : ∃ lost k : Nat,
    (x.bits.toNat : Int) = x.value + lost + 2 ^ 64 * k ∧ lost ≤ 2 ^ 32 ∧ (lost = 0 ↔ x.Kept) := by
  obtain ⟨t, v⟩ := x
  have hlt := v.isLt
  have hint := BitVec.toInt_eq_toNat_cond v
  cases hs : t.signed with
  | false =>
    have hval : (IntArg.mk t v).value = v.toNat := by
      simp [IntArg.value, ScalarType.value, hs]
    refine ⟨0, 0, by rw [hval]; simp, by decide, ?_⟩
    simp [IntArg.Kept, hval]
  | true =>
    have hval : (IntArg.mk t v).value = v.toInt := by
      simp [IntArg.value, ScalarType.value, hs]
    by_cases hneg : v.toInt < 0
    · have hv : (v.toNat : Int) = v.toInt + (2 ^ (8 * t.size) : Nat) := by
        split at hint <;> omega
      by_cases h8 : t.size = 8
      · have hpow : 2 ^ (8 * t.size) = 2 ^ 64 := by rw [h8]
        refine ⟨0, 1, ?_, by decide, by simp [IntArg.Kept, h8]⟩
        rw [hval]
        dsimp only
        rw [hv, hpow]
        norm_num
      · refine ⟨2 ^ (8 * t.size), 0, ?_, ?_, ?_⟩
        · rw [hval]
          dsimp only
          rw [hv]
          simp
        · refine Nat.pow_le_pow_right (by decide) ?_
          revert h8
          cases t <;> decide
        · simp [IntArg.Kept, hval, h8, hneg]
    · have hv : (v.toNat : Int) = v.toInt := by
        split at hint <;> omega
      refine ⟨0, 0, by rw [hval]; dsimp only; rw [hv]; simp, by decide, ?_⟩
      simp [IntArg.Kept, hval, Int.not_lt.mp hneg]

/-- The same for a list. -/
theorem sum_split : ∀ xs : List IntArg, ∃ lost k : Nat,
    (xs.map fun x => (x.bits.toNat : Int)).sum = (xs.map IntArg.value).sum + lost + 2 ^ 64 * k ∧
      lost ≤ xs.length * 2 ^ 32 ∧ (lost = 0 ↔ ∀ x ∈ xs, x.Kept)
  | [] => ⟨0, 0, by simp, by simp, by simp⟩
  | x :: xs => by
    obtain ⟨lost, k, hsum, hle, hzero⟩ := sum_split xs
    obtain ⟨lost', k', hsum', hle', hzero'⟩ := x.split
    refine ⟨lost' + lost, k' + k, ?_, ?_, ?_⟩
    · simp only [List.map_cons, List.sum_cons]
      rw [hsum, hsum']
      push_cast
      ring
    · rw [List.length_cons]
      omega
    · rw [Nat.add_eq_zero_iff, hzero, hzero', List.forall_mem_cons]

theorem add_word (s : BitVec 64) (t : ScalarType) (w : BitVec 64) (n : Nat) :
    add s t.dt (.word w) n = (s + w, false) := by
  cases t <;> rfl

/-- What `add` sums up. -/
theorem runCalls_add : ∀ (xs : List IntArg) (s : BitVec 64),
    runCalls add s (xs.map fun x => x.arg.call Pb.none) =
      s + BitVec.ofInt 64 (xs.map fun x => (x.bits.toNat : Int)).sum
  | [], s => by simp [runCalls]
  | x :: xs, s => by
    have hword : x.bits.setWidth 64 = BitVec.ofInt 64 x.bits.toNat := by
      rw [BitVec.ofInt_natCast, ofNat_scalar]
    rw [List.map_cons, runCalls_cons]
    simp only [IntArg.arg, Arg.call]
    rw [add_word, hword]
    have ih := runCalls_add xs (s + BitVec.ofInt 64 x.bits.toNat)
    simp only [IntArg.arg, Arg.call] at ih
    rw [ih, List.map_cons, List.sum_cons, BitVec.ofInt_add, BitVec.add_assoc]

theorem accepts_add : ∀ (xs : List IntArg) (s : BitVec 64),
    Accepts add s (xs.map fun x => x.arg.call Pb.none)
  | [], _ => trivial
  | x :: xs, s => by
    refine ⟨?_, accepts_add xs _⟩
    simp only [IntArg.arg, Arg.call, Call.run, add_word]

/-- A sum of few small errors is wrong. -/
theorem ofInt_add_eq_iff {v : Int} {lost k : Nat} (h : lost < 2 ^ 64) :
    BitVec.ofInt 64 (v + lost + 2 ^ 64 * k) = BitVec.ofInt 64 v ↔ lost = 0 := by
  constructor
  · intro heq
    have hnat := congrArg BitVec.toNat heq
    simp only [BitVec.toNat_ofInt] at hnat
    omega
  · rintro rfl
    apply BitVec.eq_of_toNat_eq
    simp only [BitVec.toNat_ofInt]
    omega

theorem findHandler_sum (concat login : RpcHandler) :
    findHandler (serverHandlers concat login) sumName.bytes = some sumHandler := rfl

/-- What `sum_handler` replies to a list of integers. -/
theorem sumReply_eq {r : Reader} {xs : List IntArg}
    (hr : r.data.drop r.pos = encArgs Pb.none (xs.map IntArg.arg)) (hlen : xs.length ≤ 10) :
    sumReply r = ⟨rpcOk, some (.scalar .s64
      (BitVec.ofInt 64 (xs.map fun x => (x.bits.toNat : Int)).sum))⟩ := by
  have hcount : (UInt8.ofNat (xs.map IntArg.arg).length).toNat = (xs.map IntArg.arg).length := by
    rw [List.length_map, UInt8.toNat_ofNat']
    exact Nat.mod_eq_of_lt (by omega)
  have hfit : ∀ x ∈ xs.map IntArg.arg, x.Fits Pb.none := by
    intro x hx
    obtain ⟨y, -, rfl⟩ := List.mem_map.mp hx
    trivial
  obtain ⟨r', hrun⟩ := rpcParseReqArgs_accepts (fun m => nomatch m)
    (hr.trans (by rw [encArgs, List.append_nil])) hcount hfit (by
      rw [List.map_map]
      exact accepts_add xs 0)
  rw [sumReply, hrun]
  dsimp only
  rw [if_pos rfl, List.map_map]
  exact congrArg (fun w => Reply.mk rpcOk (some (.scalar .s64 w)))
    ((runCalls_add xs 0).trans (BitVec.zero_add _))

theorem length_encArgs_le : ∀ xs : List IntArg,
    ((xs.map IntArg.arg).flatMap (encArg Pb.none)).length ≤ 9 * xs.length
  | [] => Nat.le_refl 0
  | x :: xs => by
    have ih := length_encArgs_le xs
    have hx : (encArg Pb.none x.arg).length ≤ 9 := by
      have := size_le x.type
      simp only [IntArg.arg, encArg, encBody, List.length_cons, length_leBytes]
      omega
    rw [List.map_cons, List.flatMap_cons, List.length_append, List.length_cons]
    omega

/-- **`sum` end to end.**  A call of `sum` with at most ten integers returns their sum modulo
`2^64` exactly when none of them is a negative number of fewer than 64 bits. -/
theorem sum_iff (concat login : RpcHandler) {callSN : Nat} (hsn : callSN < 2 ^ 32)
    {xs : List IntArg} (hlen : xs.length ≤ 10) (rsp : Rsp) :
    rpcCall (serverHandlers concat login) callSN
        (rpcMakeReq Pb.none (fun _ => true) sumName (xs.map IntArg.arg)).2.buf rsp =
      (0, ⟨rpcOk, ⟨.s64, .ll (BitVec.ofInt 64 (xs.map IntArg.value).sum)⟩⟩) ↔
    ∀ x ∈ xs, x.type.size = 8 ∨ 0 ≤ x.value := by
  have hargs := length_encArgs_le xs
  have hbody : (leBytes 2 sumName.strlen ++
      (sumName.bytes ++ encArgs Pb.none (xs.map IntArg.arg))).length ≤ 65536 := by
    have hname : sumName.bytes.length = 3 := rfl
    simp only [List.length_append, length_leBytes, encArgs, List.length_cons, hname]
    omega
  have hbuf := rpcMakeReq_data Pb.none (show sumName.strlen < 2 ^ 16 by decide) (xs.map IntArg.arg)
  have hreply := sumReply_eq (r := ⟨leBytes 2 sumName.strlen ++
    (sumName.bytes ++ encArgs Pb.none (xs.map IntArg.arg)), 2 + sumName.strlen⟩) rfl hlen
  have hcall := rpcCall_delivers (findHandler_sum concat login) hsn (by decide) hbuf
    (by rw [hbuf]; exact hbody) (by
      rw [hbuf, hreply]
      intro x hx
      obtain rfl := List.mem_singleton.mp hx
      intro h
      cases h) rsp
  rw [hbuf, hreply] at hcall
  obtain ⟨⟨type, v⟩, hrun, htype, w, hw, hval⟩ := hcall
  dsimp only at htype hw
  have hword : w = BitVec.ofInt 64 (xs.map fun x => (x.bits.toNat : Int)).sum :=
    BitVec.eq_of_toInt_eq hval
  obtain ⟨lost, k, hsum, hle, hzero⟩ := sum_split xs
  rw [hrun, htype, hw, hword, hsum, show (∀ x ∈ xs, x.type.size = 8 ∨ 0 ≤ x.value) ↔
    ∀ x ∈ xs, x.Kept from Iff.rfl, ← hzero,
    ← ofInt_add_eq_iff (v := (xs.map IntArg.value).sum) (k := k) (by omega)]
  constructor
  · intro h
    have h' := congrArg (fun p => p.2.data.v) h
    exact ObjVal.ll.inj h'
  · intro h
    rw [h]
    rfl

/-- A response with nothing in it. -/
def emptyRsp : Rsp := ⟨0, ⟨.unknown, .ll 0⟩⟩

theorem sum_iff_mixed :
    rpcCall (serverHandlers (fun _ e => e) (fun _ e => e)) 7
        (rpcMakeReq Pb.none (fun _ => true) sumName
          ([⟨.s8, 5⟩, ⟨.u16, 65535⟩, ⟨.s64, -3⟩].map IntArg.arg)).2.buf emptyRsp =
      (0, ⟨rpcOk, ⟨.s64, .ll (BitVec.ofInt 64
        (([⟨.s8, 5⟩, ⟨.u16, 65535⟩, ⟨.s64, -3⟩] : List IntArg).map IntArg.value).sum)⟩⟩) :=
  (sum_iff _ _ (by decide) (by decide) _).mpr (by decide)

/-- **`sum(-1)` with an `int8_t`** is 255. -/
theorem sum_negative : ∃ x : IntArg, x.value = -1 ∧
    rpcCall (serverHandlers (fun _ e => e) (fun _ e => e)) 7
        (rpcMakeReq Pb.none (fun _ => true) sumName ([x].map IntArg.arg)).2.buf emptyRsp =
      (0, ⟨rpcOk, ⟨.s64, .ll 255⟩⟩) ∧
    (255 : BitVec 64) ≠ BitVec.ofInt 64 ([x].map IntArg.value).sum :=
  ⟨⟨.s8, -1⟩, by decide, by decide, by decide⟩

/-! ## 3. `concat` -/

/-- The string that begins at a place in memory: the bytes up to the first NUL. -/
def cstr (mem : List UInt8) : List UInt8 := mem.takeWhile (· ≠ 0)

/-- `strcat(dest, src)`, where the array at `dest` ends with the list. -/
def strcat (dest src : List UInt8) : Run (List UInt8) :=
  let joined := cstr dest ++ cstr src ++ [0]
  if joined.length ≤ dest.length then .ok (joined ++ dest.drop joined.length)
  else .error .outOfBounds

/-- `concat`; the user data is the array `result`, or the fault of a write outside it. -/
def concat : Handler (Run (List UInt8)) := fun result dt v _ =>
  match dt, v with
  | .s8p, .block s | .u8p, .block s | .s8cp, .block s | .u8cp, .block s =>
    (result >>= fun dest => strcat dest s, false)
  | _, _ => (result, true)

/-- `"RPC call concat failed!"`. -/
def concatFailed : CString :=
  ⟨['R', 'P', 'C', ' ', 'c', 'a', 'l', 'l', ' ', 'c', 'o', 'n', 'c', 'a', 't', ' ', 'f', 'a', 'i',
    'l', 'e', 'd', '!'].map fun c => UInt8.ofNat c.toNat, by decide⟩

theorem noNul_cstr (mem : List UInt8) : (0 : UInt8) ∉ cstr mem := by
  intro h
  have hne := List.mem_takeWhile_imp h
  simp at hne

/-- The string in an array, as an argument. -/
def resultString (result : List UInt8) : CString := ⟨cstr result, noNul_cstr result⟩

/-- What `concat_handler` replies; `stack` is what the 256 bytes of `result` hold before. -/
def concatReply (stack : List UInt8) (args : Reader) : Run Reply := do
  let (res, _, result) := rpcParseReqArgs concat args (Run.write stack 0 0)
  let result ← result
  if res = 0 then .ok ⟨rpcOk, some (.str .s8p (resultString result))⟩
  else .ok ⟨rpcErr, some (.str .s8cp concatFailed)⟩

/-- `concat_handler`. -/
def concatHandler (stack : List UInt8) (args : Reader) (e : Enc) : Run Enc := do
  let reply ← concatReply stack args
  .ok (replying (fun _ => reply) args e)

/-- A string argument: its type and its bytes. -/
structure StrArg where
  type : StringType
  str : CString

/-- The argument as the encoder gets it. -/
def StrArg.arg (x : StrArg) : Arg Empty := .str x.type x.str

/-- The strings one after the other. -/
def joined (xs : List StrArg) : List UInt8 := xs.flatMap fun x => x.str.bytes

theorem noNul_joined (xs : List StrArg) : (0 : UInt8) ∉ joined xs := by
  intro h
  obtain ⟨x, -, hx⟩ := List.mem_flatMap.mp h
  exact x.str.noNul hx

/-- The concatenation of the arguments. -/
def StrArg.joinedString (xs : List StrArg) : CString := ⟨joined xs, noNul_joined xs⟩

theorem cstr_append {s : List UInt8} (hs : (0 : UInt8) ∉ s) (rest : List UInt8) :
    cstr (s ++ 0 :: rest) = s := by
  rw [cstr, List.takeWhile_append_of_pos]
  · simp
  · exact fun b hb => decide_eq_true fun h => hs (h ▸ hb)

/-- **One string more** fits, or is written outside. -/
theorem strcat_eq {s t : List UInt8} (hs : (0 : UInt8) ∉ s) (ht : (0 : UInt8) ∉ t)
    (rest : List UInt8) :
    strcat (s ++ 0 :: rest) (t ++ [0]) =
      if t.length ≤ rest.length then .ok (s ++ t ++ 0 :: rest.drop t.length)
      else .error .outOfBounds := by
  have hlen : (s ++ t ++ [0]).length ≤ (s ++ 0 :: rest).length ↔ t.length ≤ rest.length := by
    simp only [List.length_append, List.length_cons, List.length_nil]
    omega
  have hdrop : (s ++ 0 :: rest).drop (s ++ t ++ [0]).length = rest.drop t.length := by
    rw [List.length_append, List.length_append, Nat.add_assoc, ← List.drop_drop, List.drop_left,
      List.length_singleton, List.drop_succ_cons]
  rw [strcat, cstr_append hs, cstr_append ht, if_congr hlen rfl rfl, hdrop, List.append_assoc,
    List.append_assoc, List.append_assoc]
  rfl

theorem concat_block (result : Run (List UInt8)) (t : StringType) (s : List UInt8) (n : Nat) :
    concat result t.dt (.block s) n = (result >>= fun dest => strcat dest s, false) := by
  cases t <;> rfl

theorem accepts_concat : ∀ (xs : List StrArg) (result : Run (List UInt8)),
    Accepts concat result (xs.map fun x => x.arg.call Pb.none)
  | [], _ => trivial
  | x :: xs, result => by
    refine ⟨?_, accepts_concat xs _⟩
    simp only [StrArg.arg, Arg.call, Call.run, concat_block]

/-- A fault stays. -/
theorem runCalls_concat_error (e : Fault) : ∀ xs : List StrArg,
    runCalls concat (.error e) (xs.map fun x => x.arg.call Pb.none) = .error e
  | [] => rfl
  | x :: xs => by
    rw [List.map_cons, runCalls_cons]
    simp only [StrArg.arg, Arg.call, concat_block, Run.error_bind]
    exact runCalls_concat_error e xs

/-- **All strings** fit, or one is written outside.  The induction is on the strings to come. -/
theorem runCalls_concat : ∀ (xs : List StrArg) {s : List UInt8} (rest : List UInt8),
    (0 : UInt8) ∉ s →
    runCalls concat (.ok (s ++ 0 :: rest)) (xs.map fun x => x.arg.call Pb.none) =
      if (joined xs).length ≤ rest.length then
        .ok (s ++ joined xs ++ 0 :: rest.drop (joined xs).length)
      else .error .outOfBounds
  | [], s, rest, _ => by simp [joined, runCalls]
  | x :: xs, s, rest, hs => by
    have hjoined : joined (x :: xs) = x.str.bytes ++ joined xs := rfl
    have hnul : (0 : UInt8) ∉ s ++ x.str.bytes := by
      rw [List.mem_append, not_or]
      exact ⟨hs, x.str.noNul⟩
    rw [List.map_cons, runCalls_cons, hjoined, List.length_append]
    simp only [StrArg.arg, Arg.call, concat_block, Run.ok_bind]
    rw [strcat_eq hs x.str.noNul]
    by_cases hfit : x.str.bytes.length ≤ rest.length
    · have ih := runCalls_concat xs (rest.drop x.str.bytes.length) hnul
      simp only [StrArg.arg, Arg.call] at ih
      rw [if_pos hfit, ih, List.length_drop, List.drop_drop, List.append_assoc s]
      by_cases hle : (joined xs).length ≤ rest.length - x.str.bytes.length
      · rw [if_pos hle, if_pos (by omega)]
      · rw [if_neg hle, if_neg (by omega)]
    · have herr := runCalls_concat_error .outOfBounds xs
      simp only [StrArg.arg, Arg.call] at herr
      rw [if_neg hfit, if_neg (by omega), herr]

/-- What `concat_handler` replies to a list of strings, whatever is on the stack. -/
theorem concatReply_eq {stack : List UInt8} (hstack : stack.length = 256) {r : Reader}
    {count : UInt8} {rest : List UInt8} {xs : List StrArg}
    (hr : r.data.drop r.pos = count :: ((xs.map StrArg.arg).flatMap (encArg Pb.none) ++ rest))
    (hcount : count.toNat = xs.length) (hfit : ∀ x ∈ xs, x.str.strlen < 2 ^ 16) :
    concatReply stack r =
      if (joined xs).length ≤ 255 then .ok ⟨rpcOk, some (.str .s8p (StrArg.joinedString xs))⟩
      else .error .outOfBounds := by
  obtain ⟨b, tail, rfl⟩ : ∃ b tail, stack = b :: tail :=
    List.exists_cons_of_length_pos (by omega)
  have htail : tail.length = 255 := by
    rw [List.length_cons] at hstack
    omega
  have hwrite : Run.write (b :: tail) 0 0 = .ok ([] ++ 0 :: tail) := Run.write_eq_ok (by simp) 0
  have hfit' : ∀ x ∈ xs.map StrArg.arg, x.Fits Pb.none := by
    intro x hx
    obtain ⟨y, hy, rfl⟩ := List.mem_map.mp hx
    exact hfit y hy
  obtain ⟨r', hrun⟩ := rpcParseReqArgs_accepts (fun m => nomatch m) hr
    (hcount.trans (List.length_map _).symm) hfit' (by
      rw [List.map_map]
      exact accepts_concat xs (Run.write (b :: tail) 0 0))
  have hcalls := runCalls_concat xs (s := []) tail (by simp)
  rw [← hwrite, htail, List.nil_append] at hcalls
  rw [List.map_map] at hrun
  rw [concatReply, hrun]
  dsimp only
  refine (congrArg (· >>= _) hcalls).trans ?_
  split
  · rw [Run.ok_bind, if_pos rfl]
    refine congrArg (fun str => Except.ok (Reply.mk rpcOk (some (.str .s8p str)))) ?_
    rw [resultString, StrArg.joinedString, CString.mk.injEq]
    exact cstr_append (noNul_joined xs) _
  · exact Run.error_bind _ _

/-- **`concat` is exact and in bounds** exactly when the strings have at most 255 bytes together.
Whatever the request is whose arguments the reader is at, and whatever the stack holds: the handler
replies with the concatenation, and otherwise it writes outside its array. -/
theorem concat_iff {args : Reader} (count : UInt8) (rest : List UInt8) {xs : List StrArg}
    (hargs : args.data.drop args.pos =
      count :: ((xs.map StrArg.arg).flatMap (encArg Pb.none) ++ rest))
    (hcount : count.toNat = xs.length) (hfit : ∀ x ∈ xs, x.str.strlen < 2 ^ 16) (e : Enc) :
    (∀ stack : List UInt8, stack.length = 256 → ∃ e', concatHandler stack args e = .ok e' ∧
      e'.buf.data = e.buf.data ++
        rpcOk :: encArgs Pb.none [.str .s8p (StrArg.joinedString xs)]) ↔
    (xs.map fun x => x.str.strlen).sum ≤ 255 := by
  have hsum : (joined xs).length = (xs.map fun x => x.str.strlen).sum := List.length_flatMap
  have hreply := fun (stack : List UInt8) (hstack : stack.length = 256) =>
    concatReply_eq hstack hargs hcount hfit
  rw [← hsum]
  constructor
  · intro hall
    obtain ⟨e', hrun, -⟩ := hall (List.replicate 256 0) List.length_replicate
    by_contra hgt
    rw [concatHandler, hreply _ List.length_replicate, if_neg hgt] at hrun
    exact absurd hrun (by simp)
  · intro hle stack hstack
    refine ⟨_, Run.bind_of_eq ((hreply stack hstack).trans (if_pos hle)) rfl, ?_⟩
    exact rpcMakeRsp_data (rpcMakeRsp_ok (fun _ => rfl) _ _ _)

/-- `n` letters. -/
def letters (n : Nat) : CString :=
  ⟨List.replicate n 97, fun h => absurd (List.eq_of_mem_replicate h) (by decide)⟩

/-- The body of the request `concat(s, t)` with strings of `m` and `n` letters. -/
def concatRequest (m n : Nat) : List UInt8 :=
  (rpcMakeReq Pb.none (fun _ => true) concatName
    ([⟨.s8cp, letters m⟩, ⟨.s8p, letters n⟩].map StrArg.arg)).2.buf.data

theorem concat_iff_short :
    ∃ e', concatHandler (List.replicate 256 0) ⟨concatRequest 2 1, 8⟩ ⟨bufferNew 256, 0⟩ = .ok e' ∧
      e'.buf.data = (bufferNew 256).data ++ rpcOk :: encArgs Pb.none
        [.str .s8p (StrArg.joinedString [⟨.s8cp, letters 2⟩, ⟨.s8p, letters 1⟩])] :=
  (concat_iff 2 [] (by decide) (by decide) (by decide) _).mpr (by decide) (List.replicate 256 0)
    List.length_replicate

/-- **255 bytes and one more.**  The server accepts the request, and the terminator is written
behind the array. -/
theorem concat_too_long :
    acceptRequest ⟨requestFrame 7 (concatRequest 255 1), []⟩ =
      some ⟨7, concatName.bytes, ⟨concatRequest 255 1, 8⟩⟩ ∧
    concatHandler (List.replicate 256 0) ⟨concatRequest 255 1, 8⟩ ⟨bufferNew 256, 0⟩ =
      .error .outOfBounds :=
  ⟨by decide +kernel, by decide +kernel⟩

end CDemo.Rpc
