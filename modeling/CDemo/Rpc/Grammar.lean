/-
# The grammar of an argument list (`rpc_util.c`)

What `rpc_parse_req_args` reads comes from the network.  The grammar it is meant to accept is
small: a count byte, then that many arguments, each a tag with the bytes of an integer, or a tag
with a 16-bit length and that many bytes (`IsArg`, `IsArgs`).

The parser ignores the results of two of its reads and has two `switch` statements over the tag.
`rpcParseReqArgs_grammar` says that it accepts the grammar all the same, and nothing else: it
makes the calls of the arguments in order, and stops at the first one that is malformed, cut off
or rejected, with the number of that argument.

Every byte it looks at goes through `reader_read_bytes`.  Section 4 is the parser again with a
`memcpy` that may not leave the buffer; it does the same.
-/
import CDemo.Rpc.Parse
import CDemo.Lib.Run

namespace CDemo.Rpc

variable {σ : Type}

/-! ## 1. The grammar -/

/-- The tags of integers, and how many bytes follow. -/
def intTags : List (UInt8 × DataType × Nat) :=
  [(1, .s8, 1), (2, .u8, 1), (3, .s16, 2), (4, .u16, 2),
   (5, .s32, 4), (6, .u32, 4), (7, .s64, 8), (8, .u64, 8)]

/-- The tags of strings and messages. -/
def textTags : List (UInt8 × DataType) :=
  [(9, .s8p), (10, .u8p), (17, .s8cp), (18, .u8cp), (27, .pb)]

/-- **A well-formed argument**, and the call it stands for. -/
inductive IsArg : List UInt8 → Call → Prop
  | int {tag : UInt8} {dt : DataType} {payload : List UInt8}
      (htag : (tag, dt, payload.length) ∈ intTags) :
      IsArg (tag :: payload) ⟨dt, .word (BitVec.ofNat 64 (ofLE payload)), payload.length⟩
  | text {tag : UInt8} {dt : DataType} {len payload : List UInt8} (htag : (tag, dt) ∈ textTags)
      (hlen : len.length = 2) (hpay : ofLE len = payload.length) :
      IsArg (tag :: (len ++ payload)) ⟨dt, .block (payload ++ [0]), payload.length⟩

/-- **A sequence of well-formed arguments.** -/
inductive IsArgs : List UInt8 → List Call → Prop
  | nil : IsArgs [] []
  | cons {b bs : List UInt8} {c : Call} {cs : List Call} (head : IsArg b c) (tail : IsArgs bs cs) :
      IsArgs (b ++ bs) (c :: cs)

/-- One call of the handler. -/
def Call.run (c : Call) (handler : Handler σ) (s : σ) : σ × Bool := handler s c.dt c.v c.vlen

/-- The handler accepts the calls, one after the other. -/
def Accepts (handler : Handler σ) : σ → List Call → Prop
  | _, [] => True
  | s, c :: cs => (c.run handler s).2 = false ∧ Accepts handler (c.run handler s).1 cs

/-- **What is accepted**: nothing at all, or a count and that many arguments. -/
def InGrammar (handler : Handler σ) (s : σ) (left : List UInt8) : Prop :=
  left = [] ∨ ∃ (count : UInt8) (bytes rest : List UInt8) (calls : List Call),
    left = count :: (bytes ++ rest) ∧ IsArgs bytes calls ∧ calls.length = count.toNat ∧
      Accepts handler s calls

/-! ## 2. The two `switch` statements -/

theorem DataType.code_of_ofCode? {tag : UInt8} {dt : DataType}
    (h : DataType.ofCode? tag = some dt) :
    dt.code = tag := by
  obtain ⟨hlt, hget⟩ := List.getElem?_eq_some_iff.mp h
  have hnodup : DataType.all.Nodup := by decide
  rw [DataType.code, ← hget, hnodup.idxOf_getElem, UInt8.ofNat_toNat]

/-- The first `switch` knows the tags of integers. -/
theorem mem_intTags_iff {tag : UInt8} {dt : DataType} {n : Nat} :
    (tag, dt, n) ∈ intTags ↔ DataType.ofCode? tag = some dt ∧ scalarLen dt = n ∧ 0 < n := by
  constructor
  · intro h
    have hall : ∀ e ∈ intTags,
        DataType.ofCode? e.1 = some e.2.1 ∧ scalarLen e.2.1 = e.2.2 ∧ 0 < e.2.2 := by decide
    exact hall _ h
  · rintro ⟨htag, rfl, hpos⟩
    rw [← DataType.code_of_ofCode? htag]
    revert hpos
    cases dt <;> decide

/-- The second one knows those of strings and messages. -/
theorem mem_textTags_iff {tag : UInt8} {dt : DataType} :
    (tag, dt) ∈ textTags ↔ DataType.ofCode? tag = some dt ∧ isBlock dt = true := by
  constructor
  · intro h
    have hall : ∀ e ∈ textTags, DataType.ofCode? e.1 = some e.2 ∧ isBlock e.2 = true := by decide
    exact hall _ h
  · rintro ⟨htag, hblock⟩
    rw [← DataType.code_of_ofCode? htag]
    revert hblock
    cases dt <;> decide

theorem scalarLen_of_isBlock {dt : DataType} (h : isBlock dt = true) : scalarLen dt = 0 := by
  revert h
  cases dt <;> decide

/-- **What an argument looks like from its tag on.** -/
theorem isArg_cons_iff {tag : UInt8} {dt : DataType} {body : List UInt8} {c : Call}
    (htag : DataType.ofCode? tag = some dt) :
    IsArg (tag :: body) c ↔
      (0 < scalarLen dt ∧ body.length = scalarLen dt ∧
        c = ⟨dt, .word (BitVec.ofNat 64 (ofLE body)), body.length⟩) ∨
      (isBlock dt = true ∧ ∃ len payload, body = len ++ payload ∧ len.length = 2 ∧
        ofLE len = payload.length ∧ c = ⟨dt, .block (payload ++ [0]), payload.length⟩) := by
  constructor
  · intro h
    cases h with
    | @int _ dt' payload h =>
      obtain ⟨htag', hlen, hpos⟩ := mem_intTags_iff.mp h
      obtain rfl := Option.some.inj (htag.symm.trans htag')
      exact .inl ⟨hlen ▸ hpos, hlen.symm, rfl⟩
    | @text _ dt' len payload h hlen hpay =>
      obtain ⟨htag', hblock⟩ := mem_textTags_iff.mp h
      obtain rfl := Option.some.inj (htag.symm.trans htag')
      exact .inr ⟨hblock, len, payload, rfl, hlen, hpay, rfl⟩
  · rintro (⟨hpos, hlen, rfl⟩ | ⟨hblock, len, payload, rfl, hlen, hpay, rfl⟩)
    · exact .int (mem_intTags_iff.mpr ⟨htag, hlen.symm, hlen ▸ hpos⟩)
    · exact .text (mem_textTags_iff.mpr ⟨htag, hblock⟩) hlen hpay

/-! ## 3. One argument -/

/-- No well-formed argument stands at the beginning of `left`. -/
def NoArg (left : List UInt8) : Prop := ∀ b c rest, left = b ++ rest → ¬ IsArg b c

theorem noArg_nil : NoArg [] := by
  rintro b c rest h hb
  obtain ⟨rfl, -⟩ := List.append_eq_nil_iff.mp h.symm
  cases hb

/-- A tag that is there, but no argument behind it. -/
theorem noArg_cons {tag : UInt8} {body : List UInt8}
    (h : ∀ pre c rest, body = pre ++ rest → ¬ IsArg (tag :: pre) c) : NoArg (tag :: body) := by
  rintro b c rest heq hb
  cases b with
  | nil => cases hb
  | cons tag' pre =>
    rw [List.cons_append, List.cons.injEq] at heq
    obtain ⟨rfl, heq⟩ := heq
    exact h pre c rest heq hb

/-- Reading more than there is. -/
theorem readerReadBytes_short (pre left : List UInt8) {n : Nat} (h : left.length < n) :
    readerReadBytes ⟨pre ++ left, pre.length⟩ n = none := by
  rw [readerReadBytes, if_pos]
  rw [List.length_append]
  dsimp only
  omega

/-- Bytes of which there are enough. -/
theorem exists_take {left : List UInt8} {n : Nat} (h : n ≤ left.length) :
    ∃ bs rest, left = bs ++ rest ∧ bs.length = n :=
  ⟨left.take n, left.drop n, (List.take_append_drop n left).symm, List.length_take_of_le h⟩

/-- What `parse_arg` did at `left`, behind `pre`: it made the call of the argument that stands
there, or there is none, and it failed without a call. -/
def ParsesArg (handler : Handler σ) (pre left : List UInt8) (s : σ) (p : Bool × Reader × σ) :
    Prop :=
  (∃ b c rest, left = b ++ rest ∧ IsArg b c ∧
    p = ((c.run handler s).2, ⟨pre ++ left, pre.length + b.length⟩, (c.run handler s).1)) ∨
  (NoArg left ∧ ∃ pos ≤ pre.length + left.length, p = (true, ⟨pre ++ left, pos⟩, s))

section

variable (handler : Handler σ) (s : σ) (pre : List UInt8) {tag : UInt8} {dt : DataType}
  {body : List UInt8}

theorem parseScalar_parses (htag : DataType.ofCode? tag = some dt) (hpos : 0 < scalarLen dt) :
    ParsesArg handler pre (tag :: body) s
      (parseScalar handler dt (scalarLen dt) ⟨pre ++ tag :: body, pre.length + 1⟩ s) := by
  have hassoc : pre ++ tag :: body = (pre ++ [tag]) ++ body := by simp
  have hlen : pre.length + 1 = (pre ++ [tag]).length := by simp
  have hblock : ¬ isBlock dt = true := fun h => by
    rw [scalarLen_of_isBlock h] at hpos
    exact absurd hpos (Nat.lt_irrefl 0)
  rw [parseScalar, hassoc, hlen]
  by_cases hle : scalarLen dt ≤ body.length
  · obtain ⟨bs, rest, rfl, hbs⟩ := exists_take hle
    rw [readerReadBytes_append (pre ++ [tag]) bs rest hbs]
    refine .inl ⟨tag :: bs, ⟨dt, .word (BitVec.ofNat 64 (ofLE bs)), bs.length⟩, rest, rfl,
      (isArg_cons_iff htag).mpr (.inl ⟨hpos, hbs, rfl⟩), ?_⟩
    rw [hassoc, Call.run, hbs]
    simp only [List.length_append, List.length_cons, List.length_nil, hbs]
    congr 3
    omega
  · rw [readerReadBytes_short (pre ++ [tag]) body (Nat.lt_of_not_le hle)]
    refine .inr ⟨noArg_cons ?_, pre.length + 1, by simp, by rw [hassoc, hlen]⟩
    rintro b c rest rfl hb
    rcases (isArg_cons_iff htag).mp hb with ⟨-, hbl, -⟩ | ⟨h, -⟩
    · rw [List.length_append] at hle
      omega
    · exact hblock h

theorem parseBlock_parses (htag : DataType.ofCode? tag = some dt) (hblock : isBlock dt = true) :
    ParsesArg handler pre (tag :: body) s
      (parseBlock handler dt ⟨pre ++ tag :: body, pre.length + 1⟩ s) := by
  have hassoc : pre ++ tag :: body = (pre ++ [tag]) ++ body := by simp
  have hlen : pre.length + 1 = (pre ++ [tag]).length := by simp
  have hscalar := scalarLen_of_isBlock hblock
  rw [parseBlock, hassoc, hlen]
  by_cases hle : 2 ≤ body.length
  swap
  · rw [readerReadBytes_short (pre ++ [tag]) body (Nat.lt_of_not_le hle)]
    refine .inr ⟨noArg_cons ?_, pre.length + 1, by simp, by rw [hassoc, hlen]⟩
    rintro b c rest rfl hb
    rcases (isArg_cons_iff htag).mp hb with ⟨h, -⟩ | ⟨-, len, payload, rfl, hl, -⟩
    · omega
    · simp only [List.length_append] at hle
      omega
  obtain ⟨len, text, rfl, hl⟩ := exists_take hle
  rw [readerReadBytes_append (pre ++ [tag]) len text hl]
  dsimp only
  have hassoc' : pre ++ [tag] ++ (len ++ text) = (pre ++ [tag] ++ len) ++ text := by simp
  have hlen' : (pre ++ [tag]).length + 2 = (pre ++ [tag] ++ len).length := by
    simp [hl]
  rw [hassoc', hlen']
  by_cases hle' : ofLE len ≤ text.length
  · obtain ⟨payload, rest, rfl, hp⟩ := exists_take hle'
    rw [readerReadBytes_append (pre ++ [tag] ++ len) payload rest hp]
    refine .inl ⟨tag :: (len ++ payload), ⟨dt, .block (payload ++ [0]), payload.length⟩, rest,
      by simp, (isArg_cons_iff htag).mpr (.inr ⟨hblock, len, payload, rfl, hl, hp.symm, rfl⟩), ?_⟩
    rw [hassoc, hassoc', Call.run, hp]
    simp only [List.length_append, List.length_cons, List.length_nil, hp, hl]
    congr 3
    omega
  · rw [readerReadBytes_short (pre ++ [tag] ++ len) text (Nat.lt_of_not_le hle')]
    refine .inr ⟨noArg_cons ?_, pre.length + 3, ?_, ?_⟩
    · rintro b c rest heq hb
      rcases (isArg_cons_iff htag).mp hb with ⟨h, -⟩ | ⟨-, len', payload, rfl, hl', hp', -⟩
      · omega
      · rw [List.append_assoc] at heq
        obtain ⟨rfl, rfl⟩ := List.append_inj heq (hl.trans hl'.symm)
        rw [List.length_append] at hle'
        omega
    · simp only [List.length_cons, List.length_append, hl]
      omega
    · rw [hassoc, hassoc']
      simp [hl]

/-- **`parse_arg` reads one argument of the grammar.** -/
theorem parseArg_parses (left : List UInt8) :
    ParsesArg handler pre left s (parseArg handler ⟨pre ++ left, pre.length⟩ s) := by
  cases left with
  | nil =>
    rw [parseArg, readerReadBytes_short pre [] (by decide)]
    exact .inr ⟨noArg_nil, pre.length, Nat.le_add_right _ _, rfl⟩
  | cons tag body =>
    rw [parseArg, readerReadBytes_cons pre body tag]
    dsimp only [List.headD_cons]
    have hle : pre.length + 1 ≤ pre.length + (tag :: body).length := by simp
    rw [parseTagged]
    cases htag : DataType.ofCode? tag with
    | none =>
      refine .inr ⟨noArg_cons ?_, _, hle, rfl⟩
      rintro b c rest - hb
      cases hb with
      | int h => rw [(mem_intTags_iff.mp h).1] at htag; cases htag
      | text h => rw [(mem_textTags_iff.mp h).1] at htag; cases htag
    | some dt =>
      dsimp only
      by_cases hpos : scalarLen dt > 0
      · rw [if_pos hpos]
        exact parseScalar_parses handler s pre htag hpos
      rw [if_neg hpos]
      by_cases hblock : isBlock dt = true
      · rw [if_pos hblock]
        exact parseBlock_parses handler s pre htag hblock
      rw [if_neg hblock]
      refine .inr ⟨noArg_cons ?_, _, hle, rfl⟩
      rintro b c rest - hb
      rcases (isArg_cons_iff htag).mp hb with ⟨h, -⟩ | ⟨h, -⟩
      · exact hpos h
      · exact hblock h

end

/-- **No argument is the beginning of another one.** -/
theorem IsArg.unique {b b' r r' : List UInt8} {c c' : Call} (hb : IsArg b c) (hb' : IsArg b' c')
    (h : b ++ r = b' ++ r') : b = b' ∧ c = c' := by
  cases hb with
  | @int tag dt payload htag =>
    have hcode := (mem_intTags_iff.mp htag).1
    cases b' with
    | nil => cases hb'
    | cons tag' body =>
      rw [List.cons_append, List.cons_append, List.cons.injEq] at h
      obtain ⟨rfl, h⟩ := h
      obtain ⟨-, hlen, hpos⟩ := mem_intTags_iff.mp htag
      rcases (isArg_cons_iff hcode).mp hb' with ⟨-, hl, rfl⟩ | ⟨hblock, -⟩
      · obtain ⟨rfl, -⟩ := List.append_inj h (hlen.symm.trans hl.symm)
        exact ⟨rfl, rfl⟩
      · rw [scalarLen_of_isBlock hblock] at hlen
        omega
  | @text tag dt len payload htag hlen hpay =>
    obtain ⟨hcode, hblock⟩ := mem_textTags_iff.mp htag
    cases b' with
    | nil => cases hb'
    | cons tag' body =>
      rw [List.cons_append, List.cons_append, List.cons.injEq] at h
      obtain ⟨rfl, h⟩ := h
      rcases (isArg_cons_iff hcode).mp hb' with ⟨hpos, -⟩ | ⟨-, len', payload', rfl, hl, hp, rfl⟩
      · rw [scalarLen_of_isBlock hblock] at hpos
        exact absurd hpos (Nat.lt_irrefl 0)
      · rw [List.append_assoc, List.append_assoc] at h
        obtain ⟨rfl, hrest⟩ := List.append_inj h (hlen.trans hl.symm)
        obtain ⟨rfl, -⟩ := List.append_inj hrest (hpay.symm.trans hp)
        exact ⟨rfl, rfl⟩

/-! ## 4. The whole list -/

/-- **How `rpc_parse_req_args` ends**, with `n` arguments to come from number `i` on. -/
inductive Outcome (handler : Handler σ) (pre left : List UInt8) (s : σ) (i n : Nat) :
    Nat × Reader × σ → Prop
  /-- All arguments are there, and their calls were made. -/
  | accepted (bytes rest : List UInt8) (calls : List Call) (hleft : left = bytes ++ rest)
      (hargs : IsArgs bytes calls) (hcount : calls.length = n) (hacc : Accepts handler s calls) :
      Outcome handler pre left s i n
        (0, ⟨pre ++ left, pre.length + bytes.length⟩, runCalls handler s calls)
  /-- Behind some arguments there is no further one. -/
  | malformed (bytes rest : List UInt8) (calls : List Call) (pos : Nat)
      (hleft : left = bytes ++ rest) (hargs : IsArgs bytes calls) (hcount : calls.length < n)
      (hacc : Accepts handler s calls) (hnone : NoArg rest)
      (hpos : pos ≤ pre.length + left.length) :
      Outcome handler pre left s i n
        (i + calls.length + 1, ⟨pre ++ left, pos⟩, runCalls handler s calls)
  /-- Behind some arguments there is one that the handler rejects. -/
  | rejected (bytes b rest : List UInt8) (calls : List Call) (c : Call)
      (hleft : left = bytes ++ (b ++ rest)) (hargs : IsArgs bytes calls)
      (hcount : calls.length < n) (hacc : Accepts handler s calls) (harg : IsArg b c)
      (hrej : (c.run handler (runCalls handler s calls)).2 = true) :
      Outcome handler pre left s i n
        (i + calls.length + 1, ⟨pre ++ left, pre.length + (bytes ++ b).length⟩,
          runCalls handler s (calls ++ [c]))

section

variable {handler : Handler σ}

/-- An argument in front of what was read. -/
theorem Outcome.cons {pre b left : List UInt8} {s : σ} {i n : Nat} {c : Call}
    {p : Nat × Reader × σ} (hb : IsArg b c) (hacc : (c.run handler s).2 = false)
    (h : Outcome handler (pre ++ b) left (c.run handler s).1 (i + 1) n p) :
    Outcome handler pre (b ++ left) s i (n + 1) p := by
  have hassoc : ∀ l : List UInt8, pre ++ b ++ l = pre ++ (b ++ l) :=
    fun l => List.append_assoc _ _ _
  have hindex : ∀ k : Nat, i + 1 + k + 1 = i + (k + 1) + 1 := by omega
  have hplace : ∀ l : List UInt8, (pre ++ b).length + l.length = pre.length + (b ++ l).length := by
    intro l
    rw [List.length_append, List.length_append, Nat.add_assoc]
  cases h with
  | accepted bytes rest calls hleft hargs hcount hacc' =>
    rw [hassoc, hplace]
    exact .accepted (b ++ bytes) rest (c :: calls) (by rw [hleft, List.append_assoc])
      (.cons hb hargs) (congrArg Nat.succ hcount) ⟨hacc, hacc'⟩
  | malformed bytes rest calls pos hleft hargs hcount hacc' hnone hpos =>
    rw [hassoc, hindex]
    exact .malformed (b ++ bytes) rest (c :: calls) pos (by rw [hleft, List.append_assoc])
      (.cons hb hargs) (Nat.succ_lt_succ hcount) ⟨hacc, hacc'⟩ hnone (hplace left ▸ hpos)
  | rejected bytes b' rest calls c' hleft hargs hcount hacc' harg hrej =>
    rw [hassoc, hindex, hplace, ← List.append_assoc b]
    exact .rejected (b ++ bytes) b' rest (c :: calls) c' (by rw [hleft, List.append_assoc])
      (.cons hb hargs) (Nat.succ_lt_succ hcount) ⟨hacc, hacc'⟩ harg hrej

/-- **Every run of the loop** ends in one of the three ways.  The induction is on the number of
arguments to come; one step is `parseArg_parses`. -/
theorem parseLoop_outcome (handler : Handler σ) : ∀ (n i : Nat) (pre left : List UInt8) (s : σ),
    Outcome handler pre left s i n (parseLoop handler i n ⟨pre ++ left, pre.length⟩ s)
  | 0, i, pre, left, s => .accepted [] left [] rfl .nil rfl trivial
  | n + 1, i, pre, left, s => by
    rw [parseLoop]
    rcases parseArg_parses handler s pre left with
      ⟨b, c, rest, rfl, hb, heq⟩ | ⟨hnone, pos, hpos, heq⟩
    · rw [heq]
      cases hrej : (c.run handler s).2 with
      | true => exact .rejected [] b rest [] c rfl .nil (Nat.succ_pos n) trivial hb hrej
      | false =>
        dsimp only
        have ih := parseLoop_outcome handler n (i + 1) (pre ++ b) rest (c.run handler s).1
        rw [List.append_assoc, List.length_append] at ih
        exact ih.cons hb hrej
    · rw [heq]
      exact .malformed [] left [] pos rfl .nil (Nat.succ_pos n) trivial hnone hpos

/-- **Arguments of the grammar are accepted.** -/
theorem parseLoop_accepts (handler : Handler σ) {bytes : List UInt8} {calls : List Call}
    (hargs : IsArgs bytes calls) :
    ∀ (i : Nat) (pre rest : List UInt8) (s : σ), Accepts handler s calls →
      parseLoop handler i calls.length ⟨pre ++ (bytes ++ rest), pre.length⟩ s =
        (0, ⟨pre ++ (bytes ++ rest), pre.length + bytes.length⟩, runCalls handler s calls) := by
  induction hargs with
  | nil => exact fun _ _ _ _ _ => rfl
  | @cons b bs c cs hb _ ih =>
    rintro i pre rest s ⟨hacc, haccs⟩
    rw [List.length_cons, parseLoop, List.append_assoc]
    rcases parseArg_parses handler s pre (b ++ (bs ++ rest)) with
      ⟨b', c', rest', heq, hb', hrun⟩ | ⟨hnone, -⟩
    · obtain ⟨rfl, rfl⟩ := hb.unique hb' heq
      rw [hrun, hacc]
      dsimp only
      have h := ih (i + 1) (pre ++ b) rest _ haccs
      rw [List.append_assoc, List.length_append, Nat.add_assoc] at h
      rw [h, List.length_append, runCalls_cons]
      rfl
    · exact absurd hb (hnone b c _ rfl)

/-- What the loop returns is never outside the buffer. -/
theorem Outcome.pos_le {pre left : List UInt8} {s : σ} {i n : Nat} {p : Nat × Reader × σ}
    (h : Outcome handler pre left s i n p) :
    p.2.1.data = pre ++ left ∧ p.2.1.pos ≤ (pre ++ left).length := by
  cases h with
  | accepted bytes rest calls hleft =>
    refine ⟨rfl, ?_⟩
    simp only [hleft, List.length_append]
    omega
  | malformed bytes rest calls pos hleft hargs hcount hacc hnone hpos =>
    exact ⟨rfl, hpos.trans_eq List.length_append.symm⟩
  | rejected bytes b rest calls c hleft =>
    refine ⟨rfl, ?_⟩
    simp only [hleft, List.length_append]
    omega

end

/-! ## 5. No byte outside the buffer -/

/-- `memcpy` from the reader's buffer; bytes outside it may not be read. -/
def memcpyIn (r : Reader) (n : Nat) : Run (List UInt8) :=
  if r.pos + n ≤ r.data.length then .ok ((r.data.drop r.pos).take n) else .error .outOfBounds

/-- `reader_read_bytes`, with that `memcpy`. -/
def readerReadBytesIn (r : Reader) (n : Nat) : Run (Option (List UInt8 × Reader)) :=
  if r.pos + n > r.data.length then .ok none
  else do
    let bs ← memcpyIn r n
    .ok (some (bs, { r with pos := r.pos + n }))

/-- `parse_arg`, with that `memcpy`. -/
def parseArgIn (handler : Handler σ) (r : Reader) (s : σ) : Run (Bool × Reader × σ) := do
  let tag ← readerReadBytesIn r 1
  let (tag, r) := match tag with
    | none => (0, r)
    | some (bs, r) => (bs.headD 0, r)
  match DataType.ofCode? tag with
  | none => .ok (true, r, s)
  | some dt =>
    if scalarLen dt > 0 then do
      match ← readerReadBytesIn r (scalarLen dt) with
      | none => .ok (true, r, s)
      | some (bs, r) =>
        let (s, rejected) := handler s dt (.word (BitVec.ofNat 64 (ofLE bs))) (scalarLen dt)
        .ok (rejected, r, s)
    else if isBlock dt then do
      match ← readerReadBytesIn r 2 with
      | none => .ok (true, r, s)
      | some (bs, r) =>
        match ← readerReadBytesIn r (ofLE bs) with
        | none => .ok (true, r, s)
        | some (bytes, r) =>
          let (s, rejected) := handler s dt (.block (bytes ++ [0])) (ofLE bs)
          .ok (rejected, r, s)
    else .ok (true, r, s)

/-- The loop of `rpc_parse_req_args`, with that `memcpy`. -/
def parseLoopIn (handler : Handler σ) : Nat → Nat → Reader → σ → Run (Nat × Reader × σ)
  | _, 0, r, s => .ok (0, r, s)
  | i, n + 1, r, s => do
    match ← parseArgIn handler r s with
    | (true, r, s) => .ok (i + 1, r, s)
    | (false, r, s) => parseLoopIn handler (i + 1) n r s

/-- `rpc_parse_req_args`, with that `memcpy`. -/
def rpcParseReqArgsIn (handler : Handler σ) (r : Reader) (s : σ) : Run (Nat × Reader × σ) := do
  match ← readerReadBytesIn r 1 with
  | none => parseLoopIn handler 0 0 r s
  | some (bs, r) => parseLoopIn handler 0 (bs.headD 0).toNat r s

theorem readerReadBytesIn_eq (r : Reader) (n : Nat) :
    readerReadBytesIn r n = .ok (readerReadBytes r n) := by
  rw [readerReadBytesIn, readerReadBytes]
  split
  · rfl
  · next h => rw [memcpyIn, if_pos (Nat.le_of_not_lt h), Run.ok_bind]

theorem parseArgIn_eq (handler : Handler σ) (r : Reader) (s : σ) :
    parseArgIn handler r s = .ok (parseArg handler r s) := by
  rw [parseArgIn, parseArg, readerReadBytesIn_eq, Run.ok_bind]
  cases readerReadBytes r 1 with
  | none => rfl
  | some p =>
    dsimp only
    rw [parseTagged]
    cases DataType.ofCode? (p.1.headD 0) with
    | none => rfl
    | some dt =>
      dsimp only
      split
      · rw [parseScalar, readerReadBytesIn_eq, Run.ok_bind]
        cases readerReadBytes p.2 (scalarLen dt) <;> rfl
      · split
        · rw [parseBlock, readerReadBytesIn_eq, Run.ok_bind]
          cases readerReadBytes p.2 2 with
          | none => rfl
          | some q =>
            dsimp only
            rw [readerReadBytesIn_eq, Run.ok_bind]
            cases readerReadBytes q.2 (ofLE q.1) <;> rfl
        · rfl

theorem parseLoopIn_eq (handler : Handler σ) : ∀ (n i : Nat) (r : Reader) (s : σ),
    parseLoopIn handler i n r s = .ok (parseLoop handler i n r s)
  | 0, _, _, _ => rfl
  | n + 1, i, r, s => by
    rw [parseLoopIn, parseLoop, parseArgIn_eq, Run.ok_bind]
    rcases parseArg handler r s with ⟨_ | _, r', s'⟩
    · exact parseLoopIn_eq handler n (i + 1) r' s'
    · rfl

/-- **The parser reads no byte outside the buffer.** -/
theorem rpcParseReqArgsIn_eq (handler : Handler σ) (r : Reader) (s : σ) :
    rpcParseReqArgsIn handler r s = .ok (rpcParseReqArgs handler r s) := by
  rw [rpcParseReqArgsIn, rpcParseReqArgs, readerReadBytesIn_eq, Run.ok_bind]
  cases readerReadBytes r 1 with
  | none => rfl
  | some p => exact parseLoopIn_eq handler _ 0 _ s

/-! ## 6. The parser and the grammar -/

/-- What `rpc_parse_req_args` did: there was nothing to read, or it read a count and then as many
arguments as it could. -/
def Parsed (handler : Handler σ) (r : Reader) (s : σ) (p : Nat × Reader × σ) : Prop :=
  (r.data.drop r.pos = [] ∧ p = (0, r, s)) ∨
  ∃ (count : UInt8) (left : List UInt8), r.data.drop r.pos = count :: left ∧
    Outcome handler (r.data.take r.pos ++ [count]) left s 0 count.toNat p

/-- **The parser accepts exactly its grammar.**  It returns 0 exactly on the grammar, it ends in
one of the ways of `Parsed`, its position stays within the buffer, and no byte outside the buffer
is read. -/
theorem rpcParseReqArgs_grammar (handler : Handler σ) (r : Reader) (s : σ)
    (hr : r.pos ≤ r.data.length) :
    ((rpcParseReqArgs handler r s).1 = 0 ↔ InGrammar handler s (r.data.drop r.pos)) ∧
    Parsed handler r s (rpcParseReqArgs handler r s) ∧
    (rpcParseReqArgs handler r s).2.1.data = r.data ∧
    (rpcParseReqArgs handler r s).2.1.pos ≤ r.data.length ∧
    rpcParseReqArgsIn handler r s = .ok (rpcParseReqArgs handler r s) := by
  have hin := rpcParseReqArgsIn_eq handler r s
  have hlen : (r.data.take r.pos).length = r.pos := List.length_take_of_le hr
  have hdata := List.take_append_drop r.pos r.data
  cases hleft : r.data.drop r.pos with
  | nil =>
    have hrun : rpcParseReqArgs handler r s = (0, r, s) := by
      have hshort := readerReadBytes_short (r.data.take r.pos) [] (n := 1) (by decide)
      rw [← hleft, hdata, hlen] at hshort
      rw [rpcParseReqArgs, hshort]
      rfl
    rw [hrun]
    exact ⟨⟨fun _ => .inl rfl, fun _ => rfl⟩, .inl ⟨hleft, rfl⟩, rfl, hr, hrun ▸ hin⟩
  | cons count left =>
    rw [hleft] at hdata
    have hsplit : r.data = (r.data.take r.pos ++ [count]) ++ left := by
      rw [List.append_assoc, List.singleton_append, hdata]
    have hrun : rpcParseReqArgs handler r s = parseLoop handler 0 count.toNat
        ⟨(r.data.take r.pos ++ [count]) ++ left, (r.data.take r.pos ++ [count]).length⟩ s := by
      have hread := readerReadBytes_cons (r.data.take r.pos) left count
      rw [hdata, hlen] at hread
      rw [rpcParseReqArgs, hread, ← hsplit, List.length_append, hlen]
      rfl
    have hout := parseLoop_outcome handler count.toNat 0 (r.data.take r.pos ++ [count]) left s
    rw [← hrun] at hout
    obtain ⟨hd, hp⟩ := hout.pos_le
    rw [← hsplit] at hd hp
    refine ⟨⟨fun h0 => ?_, ?_⟩, .inr ⟨count, left, hleft, hout⟩, hd, hp, hin⟩
    · cases hp' : rpcParseReqArgs handler r s with
      | mk code rest =>
        rw [hp'] at hout h0
        cases hout with
        | accepted bytes rest calls hl hargs hcount hacc =>
          exact .inr ⟨count, bytes, rest, calls, by rw [hl], hargs, hcount, hacc⟩
        | malformed => exact absurd h0 (by simp)
        | rejected => exact absurd h0 (by simp)
    · rintro (h | ⟨count', bytes, rest, calls, h, hargs, hcount, hacc⟩)
      · exact absurd h (by simp)
      · rw [List.cons.injEq] at h
        obtain ⟨rfl, rfl⟩ := h
        rw [hrun, ← hcount, parseLoop_accepts handler hargs 0 _ rest s hacc]

/-- Two arguments, then one whose length leads past the end. -/
def cutOff : Reader := ⟨[3, 2, 7, 9, 1, 0, 65, 17, 5, 0, 66], 0⟩

theorem rpcParseReqArgs_grammar_cutOff :
    ((rpcParseReqArgs record cutOff []).1 = 0 ↔ InGrammar record [] (cutOff.data.drop 0)) ∧
    Parsed record cutOff [] (rpcParseReqArgs record cutOff []) ∧
    (rpcParseReqArgs record cutOff []).2.1.data = cutOff.data ∧
    (rpcParseReqArgs record cutOff []).2.1.pos ≤ cutOff.data.length ∧
    rpcParseReqArgsIn record cutOff [] = .ok (rpcParseReqArgs record cutOff []) :=
  rpcParseReqArgs_grammar record cutOff [] (by decide)

/-- It stops at the third one, with the calls of the first two. -/
example : rpcParseReqArgs record cutOff [] =
    (3, ⟨cutOff.data, 10⟩, [⟨.u8, .word 7, 1⟩, ⟨.s8p, .block [65, 0], 1⟩]) := by decide

end CDemo.Rpc
