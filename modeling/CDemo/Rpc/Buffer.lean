/-
# The encoder (`rpc_util.c`, `rpc_c.h`)

A message is built in a growing buffer: a count byte, then for each argument a type tag and
the argument's bytes.  `buffer_append` is the only function that writes; `buffer_append_dt`
chooses the shape by the tag, and the macros `BUFFER_PUSH_ARG` and `BUFFER_PUSH_ARGS` run over
the argument list.

The macros throw away what the appends return.  The model keeps the list of these results, so
that "every append reports success" can be said, and it asks an outcome of every allocation on
the way (`Mem`, by the number of the allocation).

The macros declare `dt`, `n` and `size` of their own, so their arguments are values and never
variables of these names, which they would capture.

Messages of Protobuf-C are packed by a library that is not part of the program.  Here they
are a type `Msg` with its two functions, gathered in `Pb`.
-/
import CDemo.Lib.LittleEndian

namespace CDemo.Rpc

/-! ## 1. Types and tags -/

/-- `data_type_t`, in the order of the source. -/
inductive DataType where
  | unknown | s8 | u8 | s16 | u16 | s32 | u32 | s64 | u64
  | s8p | u8p | s16p | u16p | s32p | u32p | s64p | u64p
  | s8cp | u8cp | s16cp | u16cp | s32cp | u32cp | s64cp | u64cp
  | vp | cvp | pb
  deriving DecidableEq, Repr

/-- All of `data_type_t`, so that the value of an enumerator is its place in the list. -/
def DataType.all : List DataType :=
  [.unknown, .s8, .u8, .s16, .u16, .s32, .u32, .s64, .u64,
   .s8p, .u8p, .s16p, .u16p, .s32p, .u32p, .s64p, .u64p,
   .s8cp, .u8cp, .s16cp, .u16cp, .s32cp, .u32cp, .s64cp, .u64cp, .vp, .cvp, .pb]

/-- The value of an enumerator. -/
def DataType.code (dt : DataType) : UInt8 := UInt8.ofNat (DataType.all.idxOf dt)

/-- The enumerator a byte stands for, if any. -/
def DataType.ofCode? (b : UInt8) : Option DataType := DataType.all[b.toNat]?

@[simp] theorem DataType.ofCode?_code (dt : DataType) : DataType.ofCode? dt.code = some dt := by
  cases dt <;> rfl

/-- The eight integer types `GET_TYPE` knows: `char`, which is signed here, `unsigned char`,
`short`, `unsigned short`, `int`, `unsigned int`, `long long` and `unsigned long long`. -/
inductive ScalarType where
  | s8 | u8 | s16 | u16 | s32 | u32 | s64 | u64
  deriving DecidableEq, Repr

/-- The four string types `buffer_append_dt` knows: `char *` and `unsigned char *`, without and with
`const`. -/
inductive StringType where
  | s8p | u8p | s8cp | u8cp
  deriving DecidableEq, Repr

/-- The tag of an integer type. -/
def ScalarType.dt : ScalarType → DataType
  | .s8 => .s8 | .u8 => .u8 | .s16 => .s16 | .u16 => .u16
  | .s32 => .s32 | .u32 => .u32 | .s64 => .s64 | .u64 => .u64

/-- `sizeof`. -/
def ScalarType.size : ScalarType → Nat
  | .s8 | .u8 => 1
  | .s16 | .u16 => 2
  | .s32 | .u32 => 4
  | .s64 | .u64 => 8

/-- The tag of a string type. -/
def StringType.dt : StringType → DataType
  | .s8p => .s8p | .u8p => .u8p | .s8cp => .s8cp | .u8cp => .u8cp

/-- A NUL-terminated string: its bytes up to the terminator. -/
structure CString where
  bytes : List UInt8
  noNul : (0 : UInt8) ∉ bytes
  deriving DecidableEq, Repr

/-- `strlen`. -/
def CString.strlen (s : CString) : Nat := s.bytes.length

/-- The Protobuf-C functions the encoder calls. -/
structure Pb (Msg : Type) where
  getPackedSize : Msg → Nat
  pack : Msg → List UInt8

/-- `protobuf_c_message_pack` writes `protobuf_c_message_get_packed_size` bytes. -/
def Pb.PackExact {Msg : Type} (pb : Pb Msg) : Prop :=
  ∀ m, (pb.pack m).length = pb.getPackedSize m

/-- An argument of `BUFFER_PUSH_ARGS`: an integer as the bits of its type, a string, or a
message. -/
inductive Arg (Msg : Type) where
  | scalar (t : ScalarType) (v : BitVec (8 * t.size))
  | str (t : StringType) (s : CString)
  | pb (m : Msg)

/-- `GET_TYPE`. -/
def Arg.dt {Msg : Type} : Arg Msg → DataType
  | .scalar t _ => t.dt
  | .str t _ => t.dt
  | .pb _ => .pb

/-! ## 2. The buffer -/

/-- `buffer_t`; the `len` bytes in use are `data`. -/
structure Buffer where
  data : List UInt8
  cap : Nat
  deriving DecidableEq, Repr

/-- Whether the `n`-th allocation succeeds. -/
abbrev Mem := Nat → Bool

/-- A buffer and the number of allocations made so far. -/
structure Enc where
  buf : Buffer
  made : Nat
  deriving DecidableEq, Repr

/-- `buffer_new`, when it succeeds. -/
def bufferNew (initialCap : Nat) : Buffer := ⟨[], initialCap⟩

/-- `buffer_append`. -/
def bufferAppend (mem : Mem) (e : Enc) (src : List UInt8) : Int × Enc :=
  if e.buf.data.length + src.length > e.buf.cap then
    let newCap := e.buf.cap * 2
    let newCap := if newCap < e.buf.data.length + src.length then
      e.buf.data.length + src.length else newCap
    if mem e.made then (0, ⟨⟨e.buf.data ++ src, newCap⟩, e.made + 1⟩)
    else (-1, { e with made := e.made + 1 })
  else (0, { e with buf := ⟨e.buf.data ++ src, e.buf.cap⟩ })

/-- `buffer_append_U8`. -/
def bufferAppendU8 (mem : Mem) (e : Enc) (val : UInt8) : Int × Enc :=
  bufferAppend mem e [val]

/-- `buffer_append_U32`. -/
def bufferAppendU32 (mem : Mem) (e : Enc) (val : Nat) : Int × Enc :=
  bufferAppend mem e (leBytes 4 val)

variable {Msg : Type}

/-- `buffer_append_dt`, by the shape of the argument: the length of a string is cast to
`uint16_t` before it is used, the packed size of a message is not. -/
def bufferAppendDt (pb : Pb Msg) (mem : Mem) (e : Enc) : Arg Msg → Int × Enc
  | .str _ s =>
    let len := s.strlen % 2 ^ 16
    let (ret, e) := bufferAppend mem e (leBytes 2 len)
    if ret ≠ 0 then (ret, e) else bufferAppend mem e (s.bytes.take len)
  | .scalar t v => bufferAppend mem e (leBytes t.size v.toNat)
  | .pb m =>
    if mem e.made then
      let e := { e with made := e.made + 1 }
      let out := pb.pack m
      let res := out.length
      let (ret, e) := bufferAppend mem e (leBytes 2 res)
      if ret ≠ 0 then (ret, e) else bufferAppend mem e out
    else (-2, { e with made := e.made + 1 })

/-- `BUFFER_PUSH_ARG`, with what its two appends return. -/
def bufferPushArg (pb : Pb Msg) (mem : Mem) (e : Enc) (x : Arg Msg) : List Int × Enc :=
  let (r1, e) := bufferAppend mem e [x.dt.code]
  let (r2, e) := bufferAppendDt pb mem e x
  ([r1, r2], e)

/-- `APPLY(BUFFER_PUSH_ARG, ...)`. -/
def applyPushArg (pb : Pb Msg) (mem : Mem) : Enc → List (Arg Msg) → List Int × Enc
  | e, [] => ([], e)
  | e, x :: xs =>
    let (rs, e) := bufferPushArg pb mem e x
    let (rs', e) := applyPushArg pb mem e xs
    (rs ++ rs', e)

/-- `BUFFER_PUSH_ARGS`, with what its appends return. -/
def bufferPushArgs (pb : Pb Msg) (mem : Mem) (e : Enc) (xs : List (Arg Msg)) : List Int × Enc :=
  let (r, e) := bufferAppendU8 mem e (UInt8.ofNat xs.length)
  let (rs, e) := applyPushArg pb mem e xs
  (r :: rs, e)

/-- `RPC_MAKE_RSP`, with what its appends return. -/
def rpcMakeRsp (pb : Pb Msg) (mem : Mem) (e : Enc) (res : UInt8) (xs : List (Arg Msg)) :
    List Int × Enc :=
  let (r, e) := bufferAppendU8 mem e res
  let (rs, e) := bufferPushArgs pb mem e xs
  (r :: rs, e)

/-! ## 3. The bytes of an encoding -/

/-- The bytes `buffer_append_dt` appends. -/
def encBody (pb : Pb Msg) : Arg Msg → List UInt8
  | .scalar t v => leBytes t.size v.toNat
  | .str _ s => leBytes 2 (s.strlen % 2 ^ 16) ++ s.bytes.take (s.strlen % 2 ^ 16)
  | .pb m => leBytes 2 (pb.pack m).length ++ pb.pack m

/-- Tag and body of one argument. -/
def encArg (pb : Pb Msg) (x : Arg Msg) : List UInt8 := x.dt.code :: encBody pb x

/-- Count and arguments. -/
def encArgs (pb : Pb Msg) (xs : List (Arg Msg)) : List UInt8 :=
  UInt8.ofNat xs.length :: xs.flatMap (encArg pb)

/-- **An append that reports success has appended.** -/
theorem bufferAppend_data {mem : Mem} {e : Enc} {src : List UInt8}
    (h : (bufferAppend mem e src).1 = 0) :
    (bufferAppend mem e src).2.buf.data = e.buf.data ++ src := by
  unfold bufferAppend at h ⊢
  split at h
  · rename_i hgt
    rw [if_pos hgt]
    dsimp only at h ⊢
    split at h
    · rename_i hm
      rw [if_pos hm]
    · exact absurd h (by simp)
  · rename_i hle
    rw [if_neg hle]

/-- Appends report success as long as the allocations succeed. -/
theorem bufferAppend_ok {mem : Mem} (hm : ∀ n, mem n = true) (e : Enc) (src : List UInt8) :
    (bufferAppend mem e src).1 = 0 := by
  unfold bufferAppend
  split
  · rw [if_pos (hm _)]
  · rfl

theorem bufferAppendDt_ok {pb : Pb Msg} {mem : Mem} (hm : ∀ n, mem n = true) (e : Enc)
    (x : Arg Msg) : (bufferAppendDt pb mem e x).1 = 0 := by
  cases x with
  | scalar t v => exact bufferAppend_ok hm _ _
  | str t s =>
    simp only [bufferAppendDt]
    rw [if_neg (not_not.mpr (bufferAppend_ok hm _ _))]
    exact bufferAppend_ok hm _ _
  | pb m =>
    simp only [bufferAppendDt]
    rw [if_pos (hm _), if_neg (not_not.mpr (bufferAppend_ok hm _ _))]
    exact bufferAppend_ok hm _ _

theorem applyPushArg_ok {pb : Pb Msg} {mem : Mem} (hm : ∀ n, mem n = true) :
    ∀ (xs : List (Arg Msg)) (e : Enc), ∀ r ∈ (applyPushArg pb mem e xs).1, r = 0
  | [], e, r, hr => by simp [applyPushArg] at hr
  | x :: xs, e, r, hr => by
    simp only [applyPushArg, bufferPushArg, List.mem_append, List.mem_cons, List.not_mem_nil,
      or_false] at hr
    rcases hr with (rfl | rfl) | hr
    · exact bufferAppend_ok hm _ _
    · exact bufferAppendDt_ok hm _ _
    · exact applyPushArg_ok hm xs _ r hr

theorem bufferPushArgs_ok {pb : Pb Msg} {mem : Mem} (hm : ∀ n, mem n = true) (e : Enc)
    (xs : List (Arg Msg)) : ∀ r ∈ (bufferPushArgs pb mem e xs).1, r = 0 := by
  intro r hr
  rcases List.mem_cons.mp hr with rfl | hr
  · exact bufferAppend_ok hm _ _
  · exact applyPushArg_ok hm xs _ r hr

theorem rpcMakeRsp_ok {pb : Pb Msg} {mem : Mem} (hm : ∀ n, mem n = true) (e : Enc)
    (res : UInt8) (xs : List (Arg Msg)) : ∀ r ∈ (rpcMakeRsp pb mem e res xs).1, r = 0 := by
  intro r hr
  rcases List.mem_cons.mp hr with rfl | hr
  · exact bufferAppend_ok hm _ _
  · exact bufferPushArgs_ok hm _ xs r hr

theorem bufferAppendDt_data {pb : Pb Msg} {mem : Mem} {e : Enc} {x : Arg Msg}
    (h : (bufferAppendDt pb mem e x).1 = 0) :
    (bufferAppendDt pb mem e x).2.buf.data = e.buf.data ++ encBody pb x := by
  cases x with
  | scalar t v => exact bufferAppend_data h
  | str t s =>
    simp only [bufferAppendDt] at h ⊢
    split at h
    · rename_i hr; exact absurd h hr
    · rename_i hr
      rw [if_neg hr, bufferAppend_data h, bufferAppend_data (by simpa using hr)]
      simp [encBody, List.append_assoc]
  | pb m =>
    simp only [bufferAppendDt] at h ⊢
    split at h
    · rename_i hm
      rw [if_pos hm]
      split at h
      · rename_i hr; exact absurd h hr
      · rename_i hr
        rw [if_neg hr, bufferAppend_data h, bufferAppend_data (by simpa using hr)]
        simp [encBody, List.append_assoc]
    · exact absurd h (by simp)

theorem bufferPushArg_data {pb : Pb Msg} {mem : Mem} {e : Enc} {x : Arg Msg}
    (h : ∀ r ∈ (bufferPushArg pb mem e x).1, r = 0) :
    (bufferPushArg pb mem e x).2.buf.data = e.buf.data ++ encArg pb x := by
  have h1 : (bufferAppend mem e [x.dt.code]).1 = 0 := h _ (by simp [bufferPushArg])
  have h2 : (bufferAppendDt pb mem (bufferAppend mem e [x.dt.code]).2 x).1 = 0 :=
    h _ (by simp [bufferPushArg])
  have hd := bufferAppendDt_data h2
  rw [bufferAppend_data h1] at hd
  simpa [bufferPushArg, encArg, List.append_assoc] using hd

theorem applyPushArg_data {pb : Pb Msg} {mem : Mem} :
    ∀ (xs : List (Arg Msg)) (e : Enc), (∀ r ∈ (applyPushArg pb mem e xs).1, r = 0) →
      (applyPushArg pb mem e xs).2.buf.data = e.buf.data ++ xs.flatMap (encArg pb)
  | [], e, _ => by simp [applyPushArg]
  | x :: xs, e, h => by
    have h1 : ∀ r ∈ (bufferPushArg pb mem e x).1, r = 0 :=
      fun r hr => h r (by simp only [applyPushArg]; exact List.mem_append_left _ hr)
    have h2 : ∀ r ∈ (applyPushArg pb mem (bufferPushArg pb mem e x).2 xs).1, r = 0 :=
      fun r hr => h r (by simp only [applyPushArg]; exact List.mem_append_right _ hr)
    have hd := applyPushArg_data xs _ h2
    rw [bufferPushArg_data h1] at hd
    simpa [applyPushArg, List.append_assoc] using hd

/-- **What `BUFFER_PUSH_ARGS` appends** when all its appends report success. -/
theorem bufferPushArgs_data {pb : Pb Msg} {mem : Mem} {e : Enc} {xs : List (Arg Msg)}
    (h : ∀ r ∈ (bufferPushArgs pb mem e xs).1, r = 0) :
    (bufferPushArgs pb mem e xs).2.buf.data = e.buf.data ++ encArgs pb xs := by
  have h1 : (bufferAppendU8 mem e (UInt8.ofNat xs.length)).1 = 0 :=
    h _ (by simp [bufferPushArgs])
  have h2 : ∀ r ∈ (applyPushArg pb mem (bufferAppendU8 mem e (UInt8.ofNat xs.length)).2 xs).1,
      r = 0 := fun r hr => h r (by simp only [bufferPushArgs]; exact List.mem_cons_of_mem _ hr)
  have hd := applyPushArg_data xs _ h2
  rw [bufferAppendU8, bufferAppend_data h1] at hd
  simpa [bufferPushArgs, bufferAppendU8, encArgs, List.append_assoc] using hd

/-- **What `RPC_MAKE_RSP` appends** when all its appends report success. -/
theorem rpcMakeRsp_data {pb : Pb Msg} {mem : Mem} {e : Enc} {res : UInt8} {xs : List (Arg Msg)}
    (h : ∀ r ∈ (rpcMakeRsp pb mem e res xs).1, r = 0) :
    (rpcMakeRsp pb mem e res xs).2.buf.data = e.buf.data ++ res :: encArgs pb xs := by
  have h1 : (bufferAppendU8 mem e res).1 = 0 := h _ (by simp [rpcMakeRsp])
  have h2 : ∀ r ∈ (bufferPushArgs pb mem (bufferAppendU8 mem e res).2 xs).1, r = 0 :=
    fun r hr => h r (by simp only [rpcMakeRsp]; exact List.mem_cons_of_mem _ hr)
  have hd := bufferPushArgs_data h2
  rw [bufferAppendU8, bufferAppend_data h1] at hd
  simpa [rpcMakeRsp, bufferAppendU8, List.append_assoc] using hd

end CDemo.Rpc
