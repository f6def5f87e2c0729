/-
# The argument parser, and the round trip (`rpc_util.c`)

`rpc_parse_req_args` reads a count byte and then that many arguments, and hands each argument
to a callback.  This file embeds the reader, `parse_arg` and the loop, and compares the parser
with the encoder of `Rpc/Buffer.lean`.

The two were written apart from each other, and they agree on every tag and both shapes.  They
disagree on lengths.  A string or a message travels with a `uint16_t` length: from 65536 bytes
on the encoder drops the high part of a string's length and with it the tail of the string,
and of a message's length but not the message.  `roundTrips_iff` says that this is the only
difference: the arguments come back exactly when every string and every packed message is
shorter than 65536 bytes.
-/
import CDemo.Rpc.Buffer
import Mathlib.Data.List.Infix

namespace CDemo.Rpc

/-! ## 1. The reader -/

/-- `reader_t`; `len` is the length of `data`. -/
structure Reader where
  data : List UInt8
  pos : Nat
  deriving DecidableEq, Repr

/-- `reader_init`. -/
def readerInit (data : List UInt8) : Reader := ⟨data, 0⟩

/-- `reader_read_bytes`: the bytes and the moved reader, or nothing (and the reader stays). -/
def readerReadBytes (r : Reader) (n : Nat) : Option (List UInt8 × Reader) :=
  if r.pos + n > r.data.length then none
  else some ((r.data.drop r.pos).take n, { r with pos := r.pos + n })

/-- **Reading back what was written at the reader's position.** -/
theorem readerReadBytes_append (pre bs rest : List UInt8) {n : Nat} (h : bs.length = n) :
    readerReadBytes ⟨pre ++ (bs ++ rest), pre.length⟩ n
      = some (bs, ⟨pre ++ (bs ++ rest), pre.length + n⟩) := by
  unfold readerReadBytes
  rw [if_neg (by simp [← h])]
  simp [← h]

/-- The same for one byte. -/
theorem readerReadBytes_cons (pre rest : List UInt8) (b : UInt8) :
    readerReadBytes ⟨pre ++ b :: rest, pre.length⟩ 1
      = some ([b], ⟨pre ++ b :: rest, pre.length + 1⟩) :=
  readerReadBytes_append pre [b] rest rfl

/-! ## 2. The parser -/

/-- What the callback gets a pointer to: the zeroed 64-bit word an integer was read into, or a
NUL-terminated copy of the bytes. -/
inductive Payload where
  | word (v : BitVec 64)
  | block (bytes : List UInt8)
  deriving DecidableEq, Repr

/-- `rpc_handle_arg_t`: from the user data, the tag, the value and its length to the new user
data, and whether the argument is rejected. -/
abbrev Handler (σ : Type) := σ → DataType → Payload → Nat → σ × Bool

/-- The first `switch` of `parse_arg`. -/
def scalarLen : DataType → Nat
  | .s8 | .u8 => 1
  | .s16 | .u16 => 2
  | .s32 | .u32 => 4
  | .s64 | .u64 => 8
  | _ => 0

/-- The second `switch` of `parse_arg`. -/
def isBlock : DataType → Bool
  | .pb | .s8p | .u8p | .s8cp | .u8cp => true
  | _ => false

variable {σ : Type}

/-- The part of `parse_arg` for an integer of `len` bytes. -/
def parseScalar (handler : Handler σ) (dt : DataType) (len : Nat) (r : Reader) (s : σ) :
    Bool × Reader × σ :=
  match readerReadBytes r len with
  | none => (true, r, s)
  | some (bs, r) =>
    let (s, rejected) := handler s dt (.word (BitVec.ofNat 64 (ofLE bs))) len
    (rejected, r, s)

/-- The part of `parse_arg` for a string or a message; its `malloc(len + 1)`, whose result nobody
looks at, succeeds. -/
def parseBlock (handler : Handler σ) (dt : DataType) (r : Reader) (s : σ) : Bool × Reader × σ :=
  match readerReadBytes r 2 with
  | none => (true, r, s)
  | some (bs, r) =>
    let len := ofLE bs
    match readerReadBytes r len with
    | none => (true, r, s)
    | some (bytes, r) =>
      let (s, rejected) := handler s dt (.block (bytes ++ [0])) len
      (rejected, r, s)

/-- `parse_arg`, from the tag on. -/
def parseTagged (handler : Handler σ) (tag : UInt8) (r : Reader) (s : σ) : Bool × Reader × σ :=
  match DataType.ofCode? tag with
  | none => (true, r, s)
  | some dt =>
    if scalarLen dt > 0 then parseScalar handler dt (scalarLen dt) r s
    else if isBlock dt then parseBlock handler dt r s
    else (true, r, s)

/-- `parse_arg`: whether it failed, the reader and the user data.  The result of reading the
tag is ignored; the tag is 0 when there is no byte left. -/
def parseArg (handler : Handler σ) (r : Reader) (s : σ) : Bool × Reader × σ :=
  match readerReadBytes r 1 with
  | none => parseTagged handler 0 r s
  | some (bs, r) => parseTagged handler (bs.headD 0) r s

/-- The loop of `rpc_parse_req_args` from argument `i` on, with `n` arguments to come. -/
def parseLoop (handler : Handler σ) : Nat → Nat → Reader → σ → Nat × Reader × σ
  | _, 0, r, s => (0, r, s)
  | i, n + 1, r, s =>
    match parseArg handler r s with
    | (true, r, s) => (i + 1, r, s)
    | (false, r, s) => parseLoop handler (i + 1) n r s

/-- `rpc_parse_req_args`; the count is 0 when there is no byte left. -/
def rpcParseReqArgs (handler : Handler σ) (r : Reader) (s : σ) : Nat × Reader × σ :=
  match readerReadBytes r 1 with
  | none => parseLoop handler 0 0 r s
  | some (bs, r) => parseLoop handler 0 (bs.headD 0).toNat r s

/-! ## 3. What the round trip should be -/

variable {Msg : Type}

/-- One call of the callback. -/
structure Call where
  dt : DataType
  v : Payload
  vlen : Nat
  deriving DecidableEq, Repr

/-- The call an argument should arrive as: the same tag and exactly its bytes. -/
def Arg.call (pb : Pb Msg) : Arg Msg → Call
  | .scalar t v => ⟨t.dt, .word (v.setWidth 64), t.size⟩
  | .str t s => ⟨t.dt, .block (s.bytes ++ [0]), s.strlen⟩
  | .pb m => ⟨.pb, .block (pb.pack m ++ [0]), (pb.pack m).length⟩

/-- The callback never rejects. -/
def Accepting (handler : Handler σ) : Prop := ∀ s dt v n, (handler s dt v n).2 = false

/-- The user data after a sequence of calls. -/
def runCalls (handler : Handler σ) (s : σ) (calls : List Call) : σ :=
  calls.foldl (fun s c => (handler s c.dt c.v c.vlen).1) s

theorem runCalls_cons (handler : Handler σ) (s : σ) (c : Call) (calls : List Call) :
    runCalls handler s (c :: calls) = runCalls handler (handler s c.dt c.v c.vlen).1 calls := rfl

/-- Parsing `bytes`, whatever follows them, returns 0, makes one call for each argument in
order with the argument's tag and bytes, and stops at the end of `bytes`. -/
def RoundTrips (pb : Pb Msg) (xs : List (Arg Msg)) (bytes : List UInt8) : Prop :=
  ∀ (σ : Type) (handler : Handler σ) (s : σ) (rest : List UInt8), Accepting handler →
    rpcParseReqArgs handler (readerInit (bytes ++ rest)) s
      = (0, ⟨bytes ++ rest, bytes.length⟩, runCalls handler s (xs.map (Arg.call pb)))

/-- The length of a string or message fits the `uint16_t` it travels in. -/
def Arg.Fits (pb : Pb Msg) : Arg Msg → Prop
  | .scalar _ _ => True
  | .str _ s => s.strlen < 2 ^ 16
  | .pb m => pb.getPackedSize m < 2 ^ 16

/-! ## 4. One argument -/

/-- The call an argument does arrive as: the length modulo `2^16`, and that many bytes. -/
def Arg.arrives (pb : Pb Msg) : Arg Msg → Call
  | .scalar t v => ⟨t.dt, .word (v.setWidth 64), t.size⟩
  | .str t s => ⟨t.dt, .block (s.bytes.take (s.strlen % 2 ^ 16) ++ [0]), s.strlen % 2 ^ 16⟩
  | .pb m => ⟨.pb, .block ((pb.pack m).take ((pb.pack m).length % 2 ^ 16) ++ [0]),
      (pb.pack m).length % 2 ^ 16⟩

theorem scalarLen_dt (t : ScalarType) : scalarLen t.dt = t.size := by cases t <;> rfl

theorem size_pos (t : ScalarType) : 0 < t.size := by cases t <;> decide

theorem size_le (t : ScalarType) : t.size ≤ 8 := by cases t <;> decide

theorem ofLE_scalar (t : ScalarType) (v : BitVec (8 * t.size)) :
    ofLE (leBytes t.size v.toNat) = v.toNat := by
  refine ofLE_leBytes_of_lt ?_
  have h := v.isLt
  rwa [Nat.pow_mul] at h

theorem ofNat_scalar (t : ScalarType) (v : BitVec (8 * t.size)) :
    BitVec.ofNat 64 v.toNat = v.setWidth 64 := by
  apply BitVec.eq_of_toNat_eq
  rw [BitVec.toNat_ofNat, BitVec.toNat_setWidth]

theorem ofLE_len16 (n : Nat) : ofLE (leBytes 2 n) = n % 2 ^ 16 := ofLE_leBytes 2 n

/-- Reading a length and that many bytes. -/
theorem parseBlock_append (handler : Handler σ) (dt : DataType) (s : σ)
    (pre bytes rest : List UInt8) {n : Nat} (h : bytes.length = n % 2 ^ 16) :
    parseBlock handler dt ⟨pre ++ (leBytes 2 n ++ (bytes ++ rest)), pre.length⟩ s
      = ((handler s dt (.block (bytes ++ [0])) (n % 2 ^ 16)).2,
         ⟨pre ++ (leBytes 2 n ++ (bytes ++ rest)), pre.length + (2 + n % 2 ^ 16)⟩,
         (handler s dt (.block (bytes ++ [0])) (n % 2 ^ 16)).1) := by
  have h2 := readerReadBytes_append (pre ++ leBytes 2 n) bytes rest h
  rw [List.append_assoc, List.length_append, length_leBytes] at h2
  unfold parseBlock
  rw [readerReadBytes_append pre (leBytes 2 n) (bytes ++ rest) (length_leBytes 2 n)]
  dsimp only
  rw [ofLE_len16, h2]
  simp only [Nat.add_assoc]

/-- **One argument, from the tag on.**  The parser makes the call `Arg.arrives`, and has read
what the call carries; for a message that is too long the rest of it is still ahead. -/
theorem parseTagged_encBody (pb : Pb Msg) (handler : Handler σ) (x : Arg Msg) (s : σ)
    (pre rest : List UInt8) :
    ∃ pos, parseTagged handler x.dt.code ⟨pre ++ (encBody pb x ++ rest), pre.length⟩ s
      = ((handler s (x.arrives pb).dt (x.arrives pb).v (x.arrives pb).vlen).2,
         ⟨pre ++ (encBody pb x ++ rest), pos⟩,
         (handler s (x.arrives pb).dt (x.arrives pb).v (x.arrives pb).vlen).1) ∧
      (x.arrives pb = x.call pb → pos = pre.length + (encBody pb x).length) := by
  cases x with
  | scalar t v =>
    refine ⟨pre.length + t.size, ?_, fun _ => by simp [encBody]⟩
    unfold parseTagged
    simp only [Arg.dt, DataType.ofCode?_code, scalarLen_dt, size_pos, gt_iff_lt, if_true]
    unfold parseScalar
    rw [encBody, readerReadBytes_append pre _ rest (length_leBytes t.size v.toNat)]
    dsimp only [Arg.arrives]
    rw [ofLE_scalar, ofNat_scalar]
  | str t str =>
    have hlen : (str.bytes.take (str.strlen % 2 ^ 16)).length
        = (str.strlen % 2 ^ 16) % 2 ^ 16 := by
      rw [List.length_take, Nat.mod_mod]
      exact Nat.min_eq_left (Nat.mod_le _ _)
    have hp := parseBlock_append handler t.dt s pre _ rest hlen
    refine ⟨pre.length + (2 + str.strlen % 2 ^ 16), ?_, fun _ => ?_⟩
    · unfold parseTagged
      simp only [Arg.dt, DataType.ofCode?_code]
      rw [if_neg (by cases t <;> decide), if_pos (by cases t <;> decide), encBody,
        List.append_assoc, hp]
      simp only [Arg.arrives, Nat.mod_mod]
    · rw [encBody, List.length_append, length_leBytes, hlen, Nat.mod_mod]
  | pb m =>
    have hlen : ((pb.pack m).take ((pb.pack m).length % 2 ^ 16)).length
        = (pb.pack m).length % 2 ^ 16 := by
      rw [List.length_take]
      exact Nat.min_eq_left (Nat.mod_le _ _)
    have hp := parseBlock_append handler .pb s pre _
      ((pb.pack m).drop ((pb.pack m).length % 2 ^ 16) ++ rest) hlen
    rw [← List.append_assoc (List.take _ _), List.take_append_drop] at hp
    refine ⟨pre.length + (2 + (pb.pack m).length % 2 ^ 16), ?_, fun hcall => ?_⟩
    · unfold parseTagged
      simp only [Arg.dt, DataType.ofCode?_code]
      rw [if_neg (by decide), if_pos (by decide), encBody, List.append_assoc, hp]
      rfl
    · have hv : (pb.pack m).length % 2 ^ 16 = (pb.pack m).length := congrArg Call.vlen hcall
      rw [encBody, List.length_append, length_leBytes, hv]

/-- **One argument.** -/
theorem parseArg_encArg (pb : Pb Msg) (handler : Handler σ) (x : Arg Msg) (s : σ)
    (pre rest : List UInt8) :
    ∃ pos, parseArg handler ⟨pre ++ (encArg pb x ++ rest), pre.length⟩ s
      = ((handler s (x.arrives pb).dt (x.arrives pb).v (x.arrives pb).vlen).2,
         ⟨pre ++ (encArg pb x ++ rest), pos⟩,
         (handler s (x.arrives pb).dt (x.arrives pb).v (x.arrives pb).vlen).1) ∧
      (x.arrives pb = x.call pb → pos = pre.length + (encArg pb x).length) := by
  obtain ⟨pos, hp, hpos⟩ := parseTagged_encBody pb handler x s (pre ++ [x.dt.code]) rest
  have hassoc : pre ++ [x.dt.code] ++ (encBody pb x ++ rest) = pre ++ (encArg pb x ++ rest) := by
    simp [encArg]
  rw [hassoc, List.length_append, List.length_singleton] at hp
  refine ⟨pos, ?_, fun h => ?_⟩
  · have h1 := readerReadBytes_cons pre (encBody pb x ++ rest) x.dt.code
    unfold parseArg
    rw [encArg, List.cons_append] at hp ⊢
    rw [h1]
    exact hp
  · rw [hpos h, encArg, List.length_append, List.length_singleton, List.length_cons]
    omega

/-- An argument arrives unchanged exactly when its length fits. -/
theorem arrives_eq_call_iff {pb : Pb Msg} (hpb : pb.PackExact) (x : Arg Msg) :
    x.arrives pb = x.call pb ↔ x.Fits pb := by
  cases x with
  | scalar t v => simp [Arg.arrives, Arg.call, Arg.Fits]
  | str t s =>
    constructor
    · intro h
      have hv : s.strlen % 2 ^ 16 = s.strlen := congrArg Call.vlen h
      show s.strlen < 2 ^ 16
      rw [← hv]
      exact Nat.mod_lt _ (by decide)
    · intro h
      have hm : s.strlen % 2 ^ 16 = s.strlen := Nat.mod_eq_of_lt h
      simp only [Arg.arrives, Arg.call, hm]
      rw [List.take_of_length_le (by simp [CString.strlen])]
  | pb m =>
    constructor
    · intro h
      have hv : (pb.pack m).length % 2 ^ 16 = (pb.pack m).length := congrArg Call.vlen h
      show pb.getPackedSize m < 2 ^ 16
      rw [← hpb m, ← hv]
      exact Nat.mod_lt _ (by decide)
    · intro h
      have hm : (pb.pack m).length % 2 ^ 16 = (pb.pack m).length := by
        rw [hpb m]; exact Nat.mod_eq_of_lt h
      simp only [Arg.arrives, Arg.call, hm]
      rw [List.take_length]

/-! ## 5. The whole list -/

/-- **The arguments that fit.**  The loop makes their calls one after the other and is then at
the end of their encoding. -/
theorem parseLoop_fits {pb : Pb Msg} (hpb : pb.PackExact) {handler : Handler σ}
    (hacc : Accepting handler) :
    ∀ (xs : List (Arg Msg)) (i n : Nat) (s : σ) (pre rest : List UInt8),
      (∀ x ∈ xs, x.Fits pb) →
      parseLoop handler i (xs.length + n) ⟨pre ++ (xs.flatMap (encArg pb) ++ rest), pre.length⟩ s
        = parseLoop handler (i + xs.length) n
            ⟨pre ++ (xs.flatMap (encArg pb) ++ rest),
              pre.length + (xs.flatMap (encArg pb)).length⟩
            (runCalls handler s (xs.map (Arg.call pb)))
  | [], i, n, s, pre, rest, _ => by simp [runCalls]
  | x :: xs, i, n, s, pre, rest, h => by
    have hx : x.arrives pb = x.call pb := (arrives_eq_call_iff hpb x).mpr (h x (by simp))
    obtain ⟨pos, hp, hpos⟩ := parseArg_encArg pb handler x s pre (xs.flatMap (encArg pb) ++ rest)
    rw [hpos hx, hacc, hx] at hp
    have ih := parseLoop_fits hpb hacc xs (i + 1) n
      ((handler s (x.call pb).dt (x.call pb).v (x.call pb).vlen).1) (pre ++ encArg pb x) rest
      (fun y hy => h y (by simp [hy]))
    rw [List.append_assoc, List.length_append] at ih
    rw [List.length_cons, Nat.add_right_comm, List.flatMap_cons, List.append_assoc, parseLoop, hp]
    dsimp only
    rw [ih, List.length_append, List.map_cons, runCalls_cons, Nat.add_assoc i 1,
      Nat.add_comm 1 xs.length, Nat.add_assoc pre.length]

/-- The reading of the count. -/
theorem rpcParseReqArgs_encArgs (pb : Pb Msg) (handler : Handler σ) (s : σ)
    (xs : List (Arg Msg)) (hlen : xs.length ≤ 10) (pre rest : List UInt8) :
    rpcParseReqArgs handler ⟨pre ++ (encArgs pb xs ++ rest), pre.length⟩ s
      = parseLoop handler 0 xs.length
          ⟨pre ++ [UInt8.ofNat xs.length] ++ (xs.flatMap (encArg pb) ++ rest),
            (pre ++ [UInt8.ofNat xs.length]).length⟩ s := by
  have h1 := readerReadBytes_cons pre (xs.flatMap (encArg pb) ++ rest) (UInt8.ofNat xs.length)
  have hn : (UInt8.ofNat xs.length).toNat = xs.length := by
    simp only [UInt8.toNat_ofNat']
    exact Nat.mod_eq_of_lt (by omega)
  unfold rpcParseReqArgs
  rw [encArgs, List.cons_append, h1]
  dsimp only [List.headD_cons]
  rw [hn, List.append_assoc, List.singleton_append, List.length_append, List.length_singleton]

/-- The callback that writes every call down. -/
def record : Handler (List Call) := fun calls dt v n => (calls ++ [⟨dt, v, n⟩], false)

theorem accepting_record : Accepting record := fun _ _ _ _ => rfl

/-- Calls that were written down stay. -/
theorem parseArg_record (r : Reader) (calls : List Call) :
    calls <+: (parseArg record r calls).2.2 := by
  unfold parseArg
  split
  all_goals
    unfold parseTagged
    split
    · exact List.prefix_refl _
    · split
      · unfold parseScalar
        split
        · exact List.prefix_refl _
        · exact List.prefix_append _ _
      · split
        · unfold parseBlock
          split
          · exact List.prefix_refl _
          · dsimp only
            split
            · exact List.prefix_refl _
            · exact List.prefix_append _ _
        · exact List.prefix_refl _

theorem parseLoop_record : ∀ (n i : Nat) (r : Reader) (calls : List Call),
    calls <+: (parseLoop record i n r calls).2.2
  | 0, _, _, _ => List.prefix_refl _
  | n + 1, i, r, calls => by
    have h1 := parseArg_record r calls
    rw [parseLoop]
    split
    · rename_i heq
      rw [heq] at h1
      exact h1
    · rename_i r' calls' heq
      rw [heq] at h1
      exact h1.trans (parseLoop_record n (i + 1) r' calls')

theorem runCalls_record (calls : List Call) : ∀ (l : List Call),
    runCalls record calls l = calls ++ l
  | [] => by simp [runCalls]
  | c :: l => by
    have ih := runCalls_record (calls ++ [c]) l
    rw [List.append_assoc, List.singleton_append] at ih
    exact ih

/-- A list with a member that fails `P` splits at its first one. -/
theorem exists_first_not {α : Type} {P : α → Prop} : ∀ {l : List α}, ¬ (∀ x ∈ l, P x) →
    ∃ l₁ x l₂, l = l₁ ++ x :: l₂ ∧ (∀ y ∈ l₁, P y) ∧ ¬ P x
  | [], h => absurd (fun x hx => absurd hx (by simp)) h
  | a :: l, h => by
    by_cases ha : P a
    · have hl : ¬ ∀ x ∈ l, P x := by
        intro hl
        refine h ?_
        intro x hx
        rcases List.mem_cons.mp hx with rfl | hx
        · exact ha
        · exact hl x hx
      obtain ⟨l₁, x, l₂, he, h1, h2⟩ := exists_first_not hl
      refine ⟨a :: l₁, x, l₂, by rw [he]; rfl, ?_, h2⟩
      intro y hy
      rcases List.mem_cons.mp hy with rfl | hy
      · exact ha
      · exact h1 y hy
    · exact ⟨[], a, l, rfl, fun y hy => absurd hy (by simp), ha⟩

/-- **An argument that does not fit breaks the round trip**: its own call is already a
different one. -/
theorem not_roundTrips {pb : Pb Msg} (hpb : pb.PackExact) {xs : List (Arg Msg)}
    (hlen : xs.length ≤ 10) (h : ¬ ∀ x ∈ xs, x.Fits pb) : ¬ RoundTrips pb xs (encArgs pb xs) := by
  intro hrt
  obtain ⟨l₁, x, l₂, rfl, h1, hx⟩ := exists_first_not h
  have hne : x.arrives pb ≠ x.call pb := fun he => hx ((arrives_eq_call_iff hpb x).mp he)
  have hp := hrt (List Call) record [] [] accepting_record
  have hc := rpcParseReqArgs_encArgs pb record [] _ hlen [] []
  rw [List.nil_append, List.nil_append, List.length_nil, List.length_singleton,
    List.length_append, List.append_nil, List.append_nil, List.flatMap_append] at hc
  rw [readerInit, List.append_nil, hc, runCalls_record, List.nil_append, List.map_append,
    List.map_cons] at hp
  have hl := parseLoop_fits hpb accepting_record l₁ 0 (x :: l₂).length []
    [UInt8.ofNat (l₁ ++ x :: l₂).length] ((x :: l₂).flatMap (encArg pb)) h1
  rw [List.length_singleton] at hl
  rw [List.length_append] at hl
  rw [hl, runCalls_record, List.nil_append, List.length_cons, parseLoop, List.flatMap_cons] at hp
  -- the call of `x` is the next one written down, and everything later comes after it
  obtain ⟨pos, hx1, -⟩ := parseArg_encArg pb record x (l₁.map (Arg.call pb))
    ([UInt8.ofNat (l₁.length + (x :: l₂).length)] ++ l₁.flatMap (encArg pb))
    (l₂.flatMap (encArg pb))
  rw [List.append_assoc, List.length_append, List.length_singleton] at hx1
  rw [List.length_cons] at hx1
  rw [hx1] at hp
  have hpre := parseLoop_record l₂.length (0 + l₁.length + 1)
    ⟨[UInt8.ofNat (l₁.length + (l₂.length + 1))] ++
      (l₁.flatMap (encArg pb) ++ (encArg pb x ++ l₂.flatMap (encArg pb))), pos⟩
    (l₁.map (Arg.call pb) ++ [x.arrives pb])
  have hfin := congrArg (fun t => t.2.2) hp
  simp only [record] at hfin hpre
  rw [hfin, List.prefix_append_right_inj] at hpre
  exact hne (List.cons_prefix_cons.mp hpre).1

/-- **The round trip.**  When all the appends of `BUFFER_PUSH_ARGS` report success, the bytes
they added to the buffer parse back to the arguments exactly when every string and every
packed message is shorter than 65536 bytes. -/
theorem roundTrips_iff {pb : Pb Msg} (hpb : pb.PackExact) (mem : Mem) (e : Enc)
    (xs : List (Arg Msg)) (hlen : xs.length ≤ 10)
    (hok : ∀ r ∈ (bufferPushArgs pb mem e xs).1, r = 0) :
    ∃ bytes, (bufferPushArgs pb mem e xs).2.buf.data = e.buf.data ++ bytes ∧
      (RoundTrips pb xs bytes ↔ ∀ x ∈ xs, x.Fits pb) := by
  refine ⟨encArgs pb xs, bufferPushArgs_data hok, ?_⟩
  constructor
  · intro hrt
    by_contra h
    exact not_roundTrips hpb hlen h hrt
  · intro h σ handler s rest hacc
    have hl := parseLoop_fits hpb hacc xs 0 0 s [UInt8.ofNat xs.length] rest h
    have hc := rpcParseReqArgs_encArgs pb handler s xs hlen [] rest
    rw [List.nil_append, List.nil_append, List.length_nil, List.length_singleton] at hc
    rw [Nat.add_zero, List.length_singleton] at hl
    rw [readerInit, hc, hl, parseLoop, encArgs, List.length_cons, Nat.add_comm 1]
    rfl

/-- Messages that are their own packed bytes. -/
def Pb.raw : Pb (List UInt8) := ⟨List.length, id⟩

/-- An integer, a string and a message come back. -/
theorem roundTrips_iff_three :
    ∃ bytes, (bufferPushArgs Pb.raw (fun _ => true) ⟨bufferNew 1024, 0⟩
        [.scalar .s32 10, .str .s8cp ⟨[72, 105], by decide⟩, .pb [1, 2, 3]]).2.buf.data
          = [] ++ bytes ∧
      RoundTrips Pb.raw [.scalar .s32 10, .str .s8cp ⟨[72, 105], by decide⟩, .pb [1, 2, 3]]
        bytes := by
  obtain ⟨bytes, hb, hiff⟩ := roundTrips_iff (fun m => rfl : Pb.raw.PackExact) (fun _ => true)
    ⟨bufferNew 1024, 0⟩ [.scalar .s32 10, .str .s8cp ⟨[72, 105], by decide⟩, .pb [1, 2, 3]]
    (by decide) (bufferPushArgs_ok (fun _ => rfl) _ _)
  refine ⟨bytes, hb, hiff.mpr ?_⟩
  intro x hx
  simp only [List.mem_cons, List.not_mem_nil, or_false] at hx
  rcases hx with rfl | rfl | rfl
  · trivial
  · show (2 : Nat) < 2 ^ 16
    decide
  · show (3 : Nat) < 2 ^ 16
    decide

/-- The string of 65536 letters `a`. -/
def longString : CString :=
  ⟨List.replicate 65536 97, fun h => absurd (List.eq_of_mem_replicate h) (by decide)⟩

/-- **A string of 65536 bytes does not come back**, although every append reports success. -/
theorem not_roundTrips_longString :
    (∀ r ∈ (bufferPushArgs Pb.raw (fun _ => true) ⟨bufferNew 1024, 0⟩
        [.str .s8cp longString]).1, r = 0) ∧
      (bufferPushArgs Pb.raw (fun _ => true) ⟨bufferNew 1024, 0⟩
        [.str .s8cp longString]).2.buf.data = [] ++ encArgs Pb.raw [.str .s8cp longString] ∧
      ¬ RoundTrips Pb.raw [.str .s8cp longString] (encArgs Pb.raw [.str .s8cp longString]) := by
  have hok : ∀ r ∈ (bufferPushArgs Pb.raw (fun _ => true) ⟨bufferNew 1024, 0⟩
      [.str .s8cp longString]).1, r = 0 := bufferPushArgs_ok (fun _ => rfl) _ _
  refine ⟨hok, bufferPushArgs_data hok, not_roundTrips (fun m => rfl) (by decide) ?_⟩
  intro h
  have hlt : longString.strlen < 2 ^ 16 := h _ (List.mem_singleton_self _)
  rw [CString.strlen, longString, List.length_replicate] at hlt
  exact absurd hlt (by decide)

end CDemo.Rpc
