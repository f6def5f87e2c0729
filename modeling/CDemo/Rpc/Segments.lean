/-
# The pieces a stream arrives in (`rpc_server.c`, `rpc_util.c`)

TCP delivers a stream of bytes, not messages, and a read may return fewer bytes than it asked for.
The bodies of requests and responses are read with `read_sock_until`, which goes on until it has
all of them.  The three words of the header are read with `rpc_read_u32`, which is one read and
gives up when it gets fewer than four bytes.  Both files have their own copy of it.

So what the peer sent is not all that counts.  `segments_iff` says what else does: only whether
the first three reads got their four bytes at once, and only when the bytes are a frame that is
accepted at all.
-/
import CDemo.Rpc.Exchange

namespace CDemo.Rpc

/-! ## 1. One read -/

/-- The plan lets the next `n` reads take four bytes each. -/
def WholeReads (n : Nat) (plan : List Nat) : Prop := ∀ k ∈ plan.take n, 4 ≤ k

instance (n : Nat) : DecidablePred (WholeReads n) :=
  fun plan => inferInstanceAs (Decidable (∀ k ∈ plan.take n, 4 ≤ k))

theorem wholeReads_nil (n : Nat) : WholeReads n [] := by simp [WholeReads]

theorem wholeReads_succ_cons {n k : Nat} {plan : List Nat} :
    WholeReads (n + 1) (k :: plan) ↔ 4 ≤ k ∧ WholeReads n plan := by
  simp [WholeReads]

theorem rpcReadU32_nil (rest : List UInt8) : rpcReadU32 ⟨rest, []⟩ =
    if 4 ≤ rest.length then some (ofLE (rest.take 4), ⟨rest.drop 4, []⟩) else none := by
  have hlen : (rest.take 4).length = 4 ↔ 4 ≤ rest.length := by
    rw [List.length_take]
    omega
  simp only [rpcReadU32, readSock, hlen, List.tail_nil]

/-- **`rpc_read_u32`** needs four bytes and a read that takes them all. -/
theorem rpcReadU32_cons (rest : List UInt8) (k : Nat) (plan : List Nat) :
    rpcReadU32 ⟨rest, k :: plan⟩ = if 4 ≤ k then
      (rpcReadU32 ⟨rest, []⟩).map fun (v, s) => (v, { s with plan := plan }) else none := by
  by_cases hk : 4 ≤ k
  · have hmin : min 4 (max 1 k) = 4 := by omega
    have hlen : (rest.take 4).length = 4 ↔ 4 ≤ rest.length := by
      rw [List.length_take]
      omega
    rw [if_pos hk, rpcReadU32_nil]
    simp only [rpcReadU32, readSock, hmin, hlen]
    by_cases hrest : 4 ≤ rest.length
    · rw [if_pos hrest, if_pos hrest]
      rfl
    · rw [if_neg hrest, if_neg hrest]
      rfl
  · have hlen : (rest.take (min 4 (max 1 k))).length ≠ 4 := by
      rw [List.length_take]
      omega
    simp only [rpcReadU32, readSock, hk, hlen, if_false]

/-- **`read_sock_until` does not depend on the pieces.**  The induction is on the rounds; each
takes at least one byte. -/
theorem readLoop_eq : ∀ (rounds n : Nat) (rest : List UInt8) (plan : List Nat), n ≤ rounds →
    (readLoop rounds n ⟨rest, plan⟩).map Prod.fst =
      if n ≤ rest.length then some (rest.take n) else none
  | _, 0, rest, plan, _ => by simp [readLoop]
  | 0, n + 1, _, _, h => absurd h (by omega)
  | rounds + 1, n + 1, rest, plan, h => by
    obtain ⟨k, hk1, hkn, hread⟩ : ∃ k, 1 ≤ k ∧ k ≤ n + 1 ∧
        readSock ⟨rest, plan⟩ (n + 1) = (rest.take k, ⟨rest.drop k, plan.tail⟩) := by
      cases plan with
      | nil => exact ⟨n + 1, by omega, le_rfl, rfl⟩
      | cons p plan => exact ⟨min (n + 1) (max 1 p), by omega, by omega, rfl⟩
    rw [readLoop, hread]
    dsimp only
    by_cases hnil : (rest.take k).length = 0
    · rw [if_pos hnil]
      rw [List.length_take] at hnil
      rw [if_neg (by omega)]
      rfl
    · have ih := readLoop_eq rounds (n + 1 - (rest.take k).length) (rest.drop k) plan.tail
        (by omega)
      rw [if_neg hnil]
      rw [List.length_take] at hnil ih ⊢
      trans ((readLoop rounds (n + 1 - min k rest.length) ⟨rest.drop k, plan.tail⟩).map
        Prod.fst).map (rest.take k ++ ·)
      · cases readLoop rounds (n + 1 - min k rest.length) ⟨rest.drop k, plan.tail⟩ <;> rfl
      rw [ih, List.length_drop]
      by_cases hle : n + 1 ≤ rest.length
      · have hmin : min k rest.length = k := by omega
        rw [hmin, if_pos (by omega), if_pos hle, Option.map_some, ← List.take_add]
        congr 2
        omega
      · rw [if_neg (by omega), if_neg hle, Option.map_none]

theorem readSockUntil_eq (rest : List UInt8) (plan : List Nat) (n : Nat) :
    (readSockUntil ⟨rest, plan⟩ n).map Prod.fst =
      if n ≤ rest.length then some (rest.take n) else none :=
  readLoop_eq n n rest plan le_rfl

/-! ## 2. Reading a header, then the rest -/

variable {γ : Type}

/-- A reader that depends on the pieces only in its first `n` reads: they must be whole, or it
fails. -/
def PlanFree (n : Nat) (fail : γ) (f : Sock → γ) : Prop :=
  ∀ rest plan, f ⟨rest, plan⟩ = if WholeReads n plan then f ⟨rest, []⟩ else fail

/-- **A word, and then the rest.** -/
theorem PlanFree.readU32 {n : Nat} {fail : γ} {k : Nat → Sock → γ}
    (hk : ∀ v, PlanFree n fail (k v)) :
    PlanFree (n + 1) fail fun s =>
      match rpcReadU32 s with
      | none => fail
      | some (v, s) => k v s := by
  intro rest plan
  cases plan with
  | nil => rw [if_pos (wholeReads_nil _)]
  | cons p plan =>
    dsimp only
    rw [rpcReadU32_cons]
    by_cases hp : 4 ≤ p
    · rw [if_pos hp, rpcReadU32_nil]
      by_cases hrest : 4 ≤ rest.length
      · simp only [if_pos hrest, wholeReads_succ_cons, hp, true_and]
        exact hk _ _ plan
      · rw [if_neg hrest]
        exact (ite_self _).symm
    · rw [if_neg hp, if_neg fun h => hp (wholeReads_succ_cons.mp h).1]

/-- A test between two reads. -/
theorem PlanFree.ite {n : Nat} {fail : γ} {f : Sock → γ} {c : Prop} [Decidable c]
    (hf : PlanFree n fail f) : PlanFree n fail fun s => if c then f s else fail := by
  intro rest plan
  dsimp only
  split
  · exact hf rest plan
  · exact (ite_self _).symm

/-- The body, and then the rest. -/
theorem match_readSockUntil (rest : List UInt8) (plan : List Nat) (len : Nat) (fail : γ)
    (k : List UInt8 → γ) :
    (match readSockUntil ⟨rest, plan⟩ len with
      | none => fail
      | some (msg, _) => k msg) = if len ≤ rest.length then k (rest.take len) else fail := by
  have heq := readSockUntil_eq rest plan len
  cases hread : readSockUntil ⟨rest, plan⟩ len with
  | none =>
    rw [hread, Option.map_none] at heq
    split at heq
    · exact absurd heq (by simp)
    · next hlen => rw [if_neg hlen]
  | some ms =>
    rw [hread, Option.map_some] at heq
    split at heq
    · next hlen =>
      rw [if_pos hlen, ← Option.some.inj heq]
    · exact absurd heq (by simp)

/-- Of the body only the bytes count. -/
theorem PlanFree.readSockUntil {fail : γ} (len : Nat) (k : List UInt8 → γ) :
    PlanFree 0 fail fun s =>
      match readSockUntil s len with
      | none => fail
      | some (msg, _) => k msg := by
  intro rest plan
  rw [if_pos (by simp [WholeReads])]
  dsimp only
  rw [match_readSockUntil, match_readSockUntil]

/-- **When the pieces do not matter.** -/
theorem PlanFree.eq_iff {n : Nat} {fail : γ} {f : Sock → γ} (hf : PlanFree n fail f)
    (rest : List UInt8) (p p' : List Nat) : f ⟨rest, p⟩ = f ⟨rest, p'⟩ ↔
      (WholeReads n p ↔ WholeReads n p') ∨ f ⟨rest, []⟩ = fail := by
  rw [hf rest p, hf rest p']
  by_cases hp : WholeReads n p <;> by_cases hp' : WholeReads n p'
  · simp [hp, hp']
  · simp [hp, hp']
  · simp [hp, hp', eq_comm]
  · simp [hp, hp']

/-! ## 3. The two ends -/

/-- `handle_client` after the header: the request, from the message. -/
def parseRequest (callSN : Nat) (msg : List UInt8) : Option Request := do
  let (bs, r) ← readerReadBytes (readerInit msg) 2
  let nameLen := ofLE bs
  guard (nameLen < 256)
  let (funcName, r) ← readerReadBytes r nameLen
  some ⟨callSN, funcName.takeWhile (· ≠ 0), r⟩

/-- `rpc_get_rsp` after the header: code and response, from the message. -/
def parseResponse (rsp : Rsp) (requireCallSN callSN : Nat) (bytes : List UInt8) : Int × Rsp :=
  match readerReadBytes (readerInit bytes) 1 with
  | none => (-1, rsp)
  | some (bs, r) =>
    let rsp := { rsp with res := bs.headD 0 }
    if requireCallSN = callSN then
      let (ret, _, data) := rpcParseReqArgs rspBaseData r rsp.data
      (ret, { rsp with data := data })
    else (-1, rsp)

theorem guard_bind {α : Type} {c : Prop} [Decidable c] (x : Unit → Option α) :
    (guard c >>= x) = if c then x () else none := by
  unfold guard
  split <;> rfl

theorem acceptRequest_eq (s : Sock) : acceptRequest s =
    match rpcReadU32 s with
    | none => none
    | some (mn, s) => if mn = magicNum then
      match rpcReadU32 s with
      | none => none
      | some (callSN, s) =>
        match rpcReadU32 s with
        | none => none
        | some (msgLen, s) => if msgLen ≠ 0 ∧ msgLen ≤ 65536 then
          match readSockUntil s msgLen with
          | none => none
          | some (msg, _) => parseRequest callSN msg
          else none
      else none := by
  unfold acceptRequest
  cases rpcReadU32 s with
  | none => rfl
  | some vs =>
    obtain ⟨mn, s⟩ := vs
    refine (guard_bind _).trans (ite_congr rfl (fun _ => ?_) fun _ => rfl)
    cases rpcReadU32 s with
    | none => rfl
    | some vs =>
      obtain ⟨callSN, s⟩ := vs
      cases h : rpcReadU32 s with
      | none => simp [h]
      | some vs =>
        obtain ⟨msgLen, s'⟩ := vs
        simp only [h, Option.bind_eq_bind, Option.bind_some]
        refine (guard_bind _).trans (ite_congr rfl (fun _ => ?_) fun _ => rfl)
        cases readSockUntil s' msgLen with
        | none => rfl
        | some ms => rfl

theorem rpcGetRsp_eq (s : Sock) (rsp : Rsp) (requireCallSN : Nat) : rpcGetRsp s rsp requireCallSN =
    match rpcReadU32 s with
    | none => (-1, rsp)
    | some (mn, s) => if mn = magicNum then
      match rpcReadU32 s with
      | none => (-1, rsp)
      | some (callSN, s) =>
        match rpcReadU32 s with
        | none => (-1, rsp)
        | some (respLen, s) =>
          match readSockUntil s respLen with
          | none => (-1, rsp)
          | some (bytes, _) => parseResponse rsp requireCallSN callSN bytes
      else (-1, rsp) := by
  unfold rpcGetRsp
  cases rpcReadU32 s with
  | none => rfl
  | some vs =>
    obtain ⟨mn, s⟩ := vs
    dsimp only
    rw [ite_not]
    rfl

/-- **`handle_client` and the pieces.** -/
theorem acceptRequest_planFree : PlanFree 3 none acceptRequest := by
  have h : acceptRequest = _ := funext acceptRequest_eq
  rw [h]
  exact .readU32 fun mn => .ite (.readU32 fun callSN => .readU32 fun msgLen =>
    .ite (.readSockUntil msgLen _))

/-- **`rpc_get_rsp` and the pieces.** -/
theorem rpcGetRsp_planFree (rsp : Rsp) (requireCallSN : Nat) :
    PlanFree 3 (-1, rsp) fun s => rpcGetRsp s rsp requireCallSN := by
  have h : (fun s => rpcGetRsp s rsp requireCallSN) = _ :=
    funext fun s => rpcGetRsp_eq s rsp requireCallSN
  rw [h]
  exact .readU32 fun mn => .ite (.readU32 fun callSN => .readU32 fun respLen =>
    .readSockUntil respLen _)

/-! ## 4. Frames -/

/-- The `i`-th byte and the three after it. -/
def word (bytes : List UInt8) (i : Nat) : Nat := ofLE ((bytes.drop i).take 4)

/-- The message behind the header, of the length the header gives. -/
def message (bytes : List UInt8) : List UInt8 := (bytes.drop 12).take (word bytes 8)

/-- A header with the magic number, and the whole message behind it. -/
def Framed (bytes : List UInt8) : Prop :=
  12 ≤ bytes.length ∧ word bytes 0 = magicNum ∧ 12 + word bytes 8 ≤ bytes.length

/-- A frame `handle_client` accepts: its length is within bounds, and it holds a name that is
short enough. -/
def RequestFrame (bytes : List UInt8) : Prop :=
  Framed bytes ∧ 2 ≤ word bytes 8 ∧ word bytes 8 ≤ 65536 ∧
    ofLE ((message bytes).take 2) < 256 ∧ 2 + ofLE ((message bytes).take 2) ≤ word bytes 8

/-- A frame that leaves a trace in the response: it has a result code, and either the number is
the one that was asked for or the code is not the one already there. -/
def ResponseFrame (bytes : List UInt8) (rsp : Rsp) (requireCallSN : Nat) : Prop :=
  Framed bytes ∧ 1 ≤ word bytes 8 ∧
    (requireCallSN = word bytes 4 ∨ (message bytes).headD 0 ≠ rsp.res)

instance : DecidablePred Framed := fun _ => inferInstanceAs (Decidable (_ ∧ _))

instance : DecidablePred RequestFrame := fun _ => inferInstanceAs (Decidable (_ ∧ _))

theorem length_message {bytes : List UInt8} (h : Framed bytes) :
    (message bytes).length = word bytes 8 := by
  obtain ⟨-, -, hlen⟩ := h
  rw [message, List.length_take, List.length_drop]
  omega

/-- **Three words and the body**, in whole reads. -/
theorem readFrame (bytes : List UInt8) (fail : γ) (c : Nat → Prop) [DecidablePred c]
    (k : Nat → List UInt8 → γ) :
    (match rpcReadU32 ⟨bytes, []⟩ with
    | none => fail
    | some (mn, s) => if mn = magicNum then
      match rpcReadU32 s with
      | none => fail
      | some (callSN, s) =>
        match rpcReadU32 s with
        | none => fail
        | some (len, s) => if c len then
          match readSockUntil s len with
          | none => fail
          | some (msg, _) => k callSN msg
          else fail
      else fail) =
    if Framed bytes ∧ c (word bytes 8) then k (word bytes 4) (message bytes) else fail := by
  rw [rpcReadU32_nil]
  by_cases h4 : 4 ≤ bytes.length
  swap
  · rw [if_neg h4, if_neg fun h => h4 (le_trans (by decide) h.1.1)]
  rw [if_pos h4]
  dsimp only
  by_cases hmn : ofLE (bytes.take 4) = magicNum
  swap
  · rw [if_neg hmn, if_neg fun h => hmn h.1.2.1]
  rw [if_pos hmn, rpcReadU32_nil, List.length_drop]
  by_cases h8 : 4 ≤ bytes.length - 4
  swap
  · rw [if_neg h8, if_neg fun h => h8 (by have := h.1.1; omega)]
  rw [if_pos h8]
  dsimp only
  rw [List.drop_drop, rpcReadU32_nil, List.length_drop]
  by_cases h12 : 4 ≤ bytes.length - (4 + 4)
  swap
  · rw [if_neg h12, if_neg fun h => h12 (by have := h.1.1; omega)]
  rw [if_pos h12]
  dsimp only
  by_cases hc : c (ofLE ((bytes.drop 8).take 4))
  swap
  · rw [if_neg hc, if_neg fun h => hc h.2]
  rw [if_pos hc, List.drop_drop, match_readSockUntil, List.length_drop]
  by_cases hlen : ofLE ((bytes.drop 8).take 4) ≤ bytes.length - 12
  · rw [if_pos hlen, if_pos]
    · rfl
    · refine ⟨⟨by omega, hmn, ?_⟩, hc⟩
      rw [word]
      omega
  · rw [if_neg hlen, if_neg]
    rintro ⟨⟨-, -, h⟩, -⟩
    rw [word] at h
    omega

/-- What the server makes of whole reads. -/
theorem parseRequest_ne_none (callSN : Nat) (msg : List UInt8) :
    parseRequest callSN msg ≠ none ↔
      2 ≤ msg.length ∧ ofLE (msg.take 2) < 256 ∧ 2 + ofLE (msg.take 2) ≤ msg.length := by
  unfold parseRequest
  by_cases h2 : 2 ≤ msg.length
  swap
  · have hread : readerReadBytes (readerInit msg) 2 = none := if_pos (by simp [readerInit]; omega)
    rw [hread]
    simp [h2]
  have hread : readerReadBytes (readerInit msg) 2 = some (msg.take 2, ⟨msg, 2⟩) :=
    if_neg (by simp [readerInit]; omega)
  rw [hread]
  simp only [Option.bind_eq_bind, Option.bind_some]
  by_cases hname : ofLE (msg.take 2) < 256
  swap
  · simp [guard, hname]
  by_cases hlen : 2 + ofLE (msg.take 2) ≤ msg.length
  · simp [guard, hname, readerReadBytes, Nat.not_lt.mpr hlen, h2, hlen]
  · simp [guard, hname, readerReadBytes, Nat.lt_of_not_le hlen, hlen]

/-- What the client makes of whole reads. -/
theorem parseResponse_eq_iff (rsp : Rsp) (requireCallSN callSN : Nat) (msg : List UInt8) :
    parseResponse rsp requireCallSN callSN msg = (-1, rsp) ↔
      ¬ (1 ≤ msg.length ∧ (requireCallSN = callSN ∨ msg.headD 0 ≠ rsp.res)) := by
  unfold parseResponse
  cases msg with
  | nil => exact ⟨fun _ h => absurd h.1 (by simp), fun _ => rfl⟩
  | cons b msg =>
    rw [show readerReadBytes (readerInit (b :: msg)) 1 = some ([b], ⟨b :: msg, 1⟩) from
      readerReadBytes_cons [] msg b]
    dsimp only [List.headD_cons]
    by_cases hsn : requireCallSN = callSN
    · rw [if_pos hsn]
      constructor
      · intro h
        exact absurd (congrArg Prod.fst h) (by dsimp only; omega)
      · intro h
        exact absurd ⟨by simp, .inl hsn⟩ h
    · rw [if_neg hsn]
      obtain ⟨res, data⟩ := rsp
      simp [hsn]

/-- `handle_client` accepts exactly the frames of requests. -/
theorem acceptRequest_eq_none_iff (bytes : List UInt8) :
    acceptRequest ⟨bytes, []⟩ = none ↔ ¬ RequestFrame bytes := by
  rw [acceptRequest_eq, readFrame bytes none (fun len => len ≠ 0 ∧ len ≤ 65536) parseRequest]
  unfold RequestFrame
  by_cases hf : Framed bytes
  swap
  · simp [hf]
  have hiff := parseRequest_ne_none (word bytes 4) (message bytes)
  rw [length_message hf] at hiff
  by_cases hlen : word bytes 8 ≠ 0 ∧ word bytes 8 ≤ 65536
  · rw [if_pos ⟨hf, hlen⟩, ← not_iff_not, not_not, ← ne_eq, hiff]
    constructor
    · rintro ⟨h2, hname, hle⟩
      exact ⟨hf, h2, hlen.2, hname, hle⟩
    · rintro ⟨-, h2, -, hname, hle⟩
      exact ⟨h2, hname, hle⟩
  · rw [if_neg fun h => hlen h.2]
    refine iff_of_true rfl ?_
    rintro ⟨-, h2, hmax, -⟩
    exact hlen ⟨by omega, hmax⟩

/-- `rpc_get_rsp` leaves the response as it was and returns `-1` exactly when no frame arrives
that leaves a trace. -/
theorem rpcGetRsp_eq_iff (bytes : List UInt8) (rsp : Rsp) (requireCallSN : Nat) :
    rpcGetRsp ⟨bytes, []⟩ rsp requireCallSN = (-1, rsp) ↔
      ¬ ResponseFrame bytes rsp requireCallSN := by
  have hframe := readFrame bytes (-1, rsp) (fun _ => True) (parseResponse rsp requireCallSN)
  simp only [if_true, and_true] at hframe
  rw [rpcGetRsp_eq, hframe]
  unfold ResponseFrame
  by_cases hf : Framed bytes
  · rw [if_pos hf, parseResponse_eq_iff, length_message hf]
    simp [hf]
  · simp [hf]

/-! ## 5. Any two ways of splitting -/

/-- **When the pieces do not matter to the outcome.**  For every stream and any two ways of
splitting it: the server accepts the same request and writes the same response, or turns both
down, exactly when the splittings agree on whether the three words of the header come in whole
reads, or the bytes are no request.  The same holds of the client and what it makes of a
response. -/
theorem segments_iff (bytes : List UInt8) (p p' : List Nat) :
    ((acceptRequest ⟨bytes, p⟩ = acceptRequest ⟨bytes, p'⟩ ∧
        ∀ handlers, handleClient handlers ⟨bytes, p⟩ = handleClient handlers ⟨bytes, p'⟩) ↔
      (WholeReads 3 p ↔ WholeReads 3 p') ∨ ¬ RequestFrame bytes) ∧
    ∀ rsp requireCallSN,
      (rpcGetRsp ⟨bytes, p⟩ rsp requireCallSN = rpcGetRsp ⟨bytes, p'⟩ rsp requireCallSN ↔
        (WholeReads 3 p ↔ WholeReads 3 p') ∨ ¬ ResponseFrame bytes rsp requireCallSN) := by
  constructor
  · rw [← acceptRequest_eq_none_iff, ← acceptRequest_planFree.eq_iff]
    refine ⟨And.left, fun h => ⟨h, fun handlers => ?_⟩⟩
    rw [handleClient, handleClient, h]
  · intro rsp requireCallSN
    rw [← rpcGetRsp_eq_iff]
    exact (rpcGetRsp_planFree rsp requireCallSN).eq_iff bytes p p'

/-- **A header in two pieces.**  The request `f()` in one piece is answered; when its first read
gets three bytes, the same request is turned down.  The client gives up on the same split. -/
theorem segments_split :
    acceptRequest requestF = some ⟨7, [102], ⟨[1, 0, 102, 0], 3⟩⟩ ∧
      acceptRequest { requestF with plan := [3, 1] } = none ∧
      handleClient (handlersOf []) requestF ≠ none ∧
      handleClient (handlersOf []) { requestF with plan := [3, 1] } = none ∧
      rpcGetRsp requestF ⟨0, ⟨.unknown, .ll 0⟩⟩ 7 ≠
        rpcGetRsp { requestF with plan := [3, 1] } ⟨0, ⟨.unknown, .ll 0⟩⟩ 7 := by
  refine ⟨by decide, by decide, ?_, ?_, by decide⟩
  · rw [handleClient, acceptRequest_requestF]
    simp
  · rw [handleClient, show acceptRequest { requestF with plan := [3, 1] } = none by decide]
    rfl

end CDemo.Rpc
