/-
# The asynchronous server (`grpc-c/server.c`)

The server asks its completion queue for one call at a time.  What it waits for has a tag, a block
of its own, that comes back with the event: one for the next call, and one for every reply that is
on its way.  In which order the events come is not for the server to say.

The library is not part of the source; neither is the generated code that unpacks a request, a
parameter here.  Of the library this uses what its interface promises: a tag that was accepted comes
back once, with the queue's events in any order, and a call that arrives is a reference of the
server's.  The source does not test what `calloc` returns, and here it succeeds.

`Greeter` is what the server is for: whether it waits for a call, how many replies are on their way,
and what was replied.  `server_account` says that the tags and the calls are those and no others,
after every order of events and whatever fails on the way.  What the server does not survive is a
failed request for the next call: it never asks again (`accepts_iff`).
-/
import CDemo.Lib.Ledger
import CDemo.Lib.Trace
import Mathlib.Logic.Function.Basic

namespace CDemo.Grpc

/-! ## 1. The data -/

/-- `tag_type`. -/
inductive TagType where
  | newCall
  | finish
  deriving DecidableEq, Repr

/-- `server_tag`; the library sets `call` when a call arrives. -/
structure Tag where
  type : TagType
  call : Option Nat
  deriving DecidableEq, Repr

/-- The server in its loop: the tags, those that the queue has still to hand out, the calls the
server has a reference to, and the messages that were sent, the oldest first. -/
structure Server where
  running : Bool
  heap : Ledger
  tag : Nat → Tag
  pending : List Nat
  calls : Ledger
  replies : List (List UInt8)

/-- A string literal. -/
def ascii (s : String) : List UInt8 := s.toList.map fun c => UInt8.ofNat c.toNat

/-- What `%s` prints. -/
def cString (bytes : List UInt8) : List UInt8 := bytes.takeWhile (· ≠ 0)

/-- `"Hello, %s!"` -/
def hello (name : List UInt8) : List UInt8 := ascii "Hello, " ++ (name ++ ascii "!")

/-- The message of a reply, in a buffer of 256 bytes; the request or its name may be `NULL`. -/
def greeting (request : Option (Option (List UInt8))) : List UInt8 :=
  (hello (cString (request.join.getD (ascii "unknown")))).take 255

/-! ## 2. The functions -/

/-- `calloc` of a tag, and what is stored in it. -/
def newTag (s : Server) (tag : Tag) : Nat × Server :=
  let (t, heap) := s.heap.alloc
  (t, { s with heap := heap, tag := Function.update s.tag t tag })

/-- `request_new_call`; `ok` says whether the library accepts the tag. -/
def requestNewCall (s : Server) (ok : Bool) : Run Server :=
  let (t, s) := newTag s ⟨.newCall, none⟩
  if ok then .ok { s with pending := t :: s.pending }
  else do
    let heap ← s.heap.free t
    .ok { s with heap := heap }

/-- `grpc_call_unref`. -/
def unref (s : Server) : Option Nat → Run Server
  | none => .error .nullPointer
  | some call => do
    let calls ← s.calls.free call
    .ok { s with calls := calls }

/-- The batch of `handle_new_call`. -/
def startBatch (s : Server) (f : Nat) (message : List UInt8) (ok : Bool) : Run Server :=
  if ok then .ok { s with pending := f :: s.pending, replies := s.replies ++ [message] }
  else do
    let s ← unref s (s.tag f).call
    let heap ← s.heap.free f
    .ok { s with heap := heap }

section

variable (unpack : List UInt8 → Option (Option (List UInt8)))

/-- The request of a payload; `reader` says whether it could be read. -/
def unpacked (payload : Option (List UInt8)) (reader : Bool) : Option (Option (List UInt8)) :=
  match payload with
  | some bytes => if reader then unpack bytes else none
  | none => none

/-- `handle_new_call`. -/
def handleNewCall (s : Server) (t : Nat) (payload : Option (List UInt8)) (reader batch : Bool) :
    Run Server := do
  let (f, s) := newTag s ⟨.finish, (s.tag t).call⟩
  let s ← startBatch s f (greeting (unpacked unpack payload reader)) batch
  let heap ← s.heap.free t
  .ok { s with heap := heap }

/-- The loop of `main`, from an event with a tag to the next. -/
def serve (s : Server) (t : Nat) (success : Bool) (payload : Option (List UInt8))
    (reader batch next : Bool) : Run Server := do
  s.heap.touch t
  match (s.tag t).type with
  | .newCall =>
    if success then
      let s ← handleNewCall unpack s t payload reader batch
      requestNewCall s next
    else
      let heap ← s.heap.free t
      .ok { s with heap := heap, running := false }
  | .finish =>
    let s ← unref s (s.tag t).call
    let heap ← s.heap.free t
    .ok { s with heap := heap }

/-! ## 3. The runs -/

/-- What the library does when it hands out a tag: with a call, there is a new reference. -/
def deliver (s : Server) (t : Nat) (success : Bool) : Server :=
  let s := { s with pending := s.pending.erase t }
  if (s.tag t).type = .newCall ∧ success = true then
    let (call, calls) := s.calls.alloc
    { s with calls := calls, tag := Function.update s.tag t ⟨.newCall, some call⟩ }
  else s

/-- A call arrived, with its payload and what the library then accepted; waiting for one failed; or
a reply was sent. -/
inductive Event where
  | arrived (payload : Option (List UInt8)) (reader batch next : Bool)
  | refused
  | finished (success : Bool)
  deriving DecidableEq, Repr

/-- Whether the library goes on waiting for a call. -/
def Event.accepts : Event → Bool
  | .arrived _ _ _ next => next
  | .refused => false
  | .finished _ => true

/-- The queue hands out a tag.  A queue that nobody has shut down says nothing else but that nothing
came in time. -/
inductive Step : Server → Event → Server → Prop
  | arrived {s s' : Server} {t : Nat} {payload : Option (List UInt8)} {reader batch next : Bool} :
      s.running = true → t ∈ s.pending → (s.tag t).type = .newCall →
      serve unpack (deliver s t true) t true payload reader batch next = .ok s' →
      Step s (.arrived payload reader batch next) s'
  | refused {s s' : Server} {t : Nat} {payload : Option (List UInt8)} {reader batch next : Bool} :
      s.running = true → t ∈ s.pending → (s.tag t).type = .newCall →
      serve unpack (deliver s t false) t false payload reader batch next = .ok s' →
      Step s .refused s'
  | finished {s s' : Server} {t : Nat} {success : Bool} {payload : Option (List UInt8)}
      {reader batch next : Bool} :
      s.running = true → t ∈ s.pending → (s.tag t).type = .finish →
      serve unpack (deliver s t success) t success payload reader batch next = .ok s' →
      Step s (.finished success) s'

/-- The server before its first request. -/
def idle : Server where
  running := true
  heap := ⟨[], 0⟩
  tag := fun _ => ⟨.newCall, none⟩
  pending := []
  calls := ⟨[], 0⟩
  replies := []

/-- `main`, after the events of the history; `ok` is about the first request. -/
def Reached (ok : Bool) (history : List Event) (s : Server) : Prop :=
  ∃ s₀, requestNewCall idle ok = .ok s₀ ∧ Trace (Step unpack) s₀ history s

/-! ## 4. What the server is for -/

/-- Whether the loop runs and the server waits for a call, the replies on their way, and all
replies. -/
structure Greeter where
  running : Bool
  accepting : Bool
  unfinished : Nat
  replies : List (List UInt8)
  deriving DecidableEq, Repr

def Greeter.start (ok : Bool) : Greeter := ⟨true, ok, 0, []⟩

/-- One more reply is on its way, if the library takes it. -/
def Greeter.reply (g : Greeter) (batch : Bool) (message : List UInt8) : Greeter :=
  if batch then
    { g with unfinished := g.unfinished + 1, replies := g.replies ++ [message] }
  else g

def Greeter.next : Event → Greeter → Greeter
  | .arrived payload reader batch next, g =>
    { g.reply batch (greeting (unpacked unpack payload reader)) with accepting := next }
  | .refused, g => { g with running := false, accepting := false }
  | .finished _, g => { g with unfinished := g.unfinished - 1 }

end

/-! ## 5. The account -/

/-- **The invariant**: the allocated tags are those in the queue and those in the hands of the
running function, at most one of the first for a new call, and the others with a call each; there
are no other calls, but for those in the function's hands. -/
structure Serving (s : Server) (g : Greeter) (news : List Nat) (fins : List (Nat × Nat))
    (tags calls : List Nat) : Prop where
  running : s.running = g.running
  heap : s.heap.Owns (tags ++ s.pending) []
  pending : s.pending.Perm (news ++ fins.map Prod.fst)
  new_tag : ∀ t ∈ news, (s.tag t).type = .newCall
  accepting : news.length = if g.accepting then 1 else 0
  finish_tag : ∀ p ∈ fins, s.tag p.1 = ⟨.finish, some p.2⟩
  calls : s.calls.Owns (calls ++ fins.map Prod.snd) []
  unfinished : fins.length = g.unfinished
  replies : s.replies = g.replies

section Account

variable {s s' : Server} {g : Greeter} {news tags calls : List Nat} {fins : List (Nat × Nat)}
  {t : Nat}

/-- A tag of the account is not the next one to be allocated. -/
theorem Serving.ne_next (h : Serving s g news fins tags calls) (ht : t ∈ tags ++ s.pending) :
    t ≠ s.heap.next := by
  have hlive := h.heap.perm.mem_iff.mpr (List.mem_append_left [] ht)
  exact Nat.ne_of_lt (h.heap.fresh t hlive)

theorem Serving.mem_news (h : Serving s g news fins tags calls) (ht : t ∈ news) :
    t ∈ tags ++ s.pending :=
  List.mem_append_right tags (h.pending.mem_iff.mpr (List.mem_append_left _ ht))

theorem Serving.mem_fins (h : Serving s g news fins tags calls) {p : Nat × Nat} (hp : p ∈ fins) :
    p.1 ∈ tags ++ s.pending :=
  List.mem_append_right tags
    (h.pending.mem_iff.mpr (List.mem_append_right news (List.mem_map_of_mem hp)))

theorem newTag_self (s : Server) (tag : Tag) : (newTag s tag).2.tag s.heap.next = tag :=
  Function.update_self ..

theorem newTag_of_ne (tag : Tag) (ht : t ≠ s.heap.next) : (newTag s tag).2.tag t = s.tag t :=
  Function.update_of_ne ht ..

/-- **A new tag** is in the hands of the function. -/
theorem Serving.newTag (h : Serving s g news fins tags calls) (tag : Tag) :
    Serving (newTag s tag).2 g news fins (s.heap.next :: tags) calls where
  running := h.running
  heap := h.heap.alloc
  pending := h.pending
  new_tag := by
    intro t ht
    rw [newTag_of_ne tag (h.ne_next (h.mem_news ht))]
    exact h.new_tag t ht
  accepting := h.accepting
  finish_tag := by
    intro p hp
    rw [newTag_of_ne tag (h.ne_next (h.mem_fins hp))]
    exact h.finish_tag p hp
  calls := h.calls
  unfinished := h.unfinished
  replies := h.replies

/-- **A tag in the function's hands can be released.** -/
theorem Serving.free (h : Serving s g news fins (t :: tags) calls) :
    ∃ heap, s.heap.free t = .ok heap ∧
      Serving { s with heap := heap } g news fins tags calls := by
  obtain ⟨heap, hfree, hown⟩ := h.heap.free
  exact ⟨heap, hfree, { h with heap := hown }⟩

/-- **And so can a call.** -/
theorem Serving.unref {call : Nat} (h : Serving s g news fins tags (call :: calls)) :
    ∃ s', unref s (some call) = .ok s' ∧ s'.heap = s.heap ∧ s'.pending = s.pending ∧
      Serving s' g news fins tags calls := by
  obtain ⟨cs, hfree, hown⟩ := h.calls.free
  exact ⟨_, Run.bind_of_eq hfree rfl, rfl, rfl, { h with calls := hown }⟩

/-- **Asking for the next call.** -/
theorem requestNewCall_ok (h : Serving s g [] fins tags calls) (ok : Bool) :
    ∃ s' news', requestNewCall s ok = .ok s' ∧
      Serving s' { g with accepting := ok } news' fins tags calls := by
  have hnew := h.newTag ⟨.newCall, none⟩
  cases ok with
  | true =>
    refine ⟨_, [s.heap.next], rfl, { hnew with
      heap := hnew.heap.congr List.perm_middle.symm
      pending := h.pending.cons s.heap.next
      new_tag := ?_
      accepting := rfl }⟩
    intro t ht
    rw [List.mem_singleton.mp ht]
    exact congrArg Tag.type (newTag_self s _)
  | false =>
    obtain ⟨heap, hfree, h'⟩ := hnew.free
    exact ⟨_, [], Run.bind_of_eq hfree rfl, { h' with accepting := rfl }⟩

/-- **The batch** makes a call and its new tag those of a reply on its way, or releases both. -/
theorem startBatch_ok {f call : Nat} (h : Serving s g news fins (f :: tags) (call :: calls))
    (hf : s.tag f = ⟨.finish, some call⟩) (message : List UInt8) (batch : Bool) :
    ∃ s' fins', startBatch s f message batch = .ok s' ∧
      Serving s' (g.reply batch message) news fins' tags calls := by
  cases batch with
  | true =>
    refine ⟨_, (f, call) :: fins, rfl, { h with
      heap := h.heap.congr List.perm_middle.symm
      pending := (h.pending.cons f).trans List.perm_middle.symm
      finish_tag := ?_
      calls := h.calls.congr List.perm_middle.symm
      unfinished := congrArg (· + 1) h.unfinished
      replies := congrArg (· ++ [message]) h.replies }⟩
    intro p hp
    rcases List.mem_cons.mp hp with rfl | hp
    · exact hf
    · exact h.finish_tag p hp
  | false =>
    obtain ⟨s₁, hunref, -, -, h₁⟩ := h.unref
    obtain ⟨heap, hfree, h₂⟩ := h₁.free
    refine ⟨_, fins, ?_, h₂⟩
    rw [startBatch, hf]
    exact Run.bind_of_eq hunref (Run.bind_of_eq hfree rfl)

variable (unpack : List UInt8 → Option (Option (List UInt8)))

/-- **A call that arrived** is replied to or released, and its tag with it. -/
theorem handleNewCall_ok {call : Nat} (h : Serving s g news fins (t :: tags) (call :: calls))
    (ht : (s.tag t).call = some call) (payload : Option (List UInt8)) (reader batch : Bool) :
    ∃ s' fins', handleNewCall unpack s t payload reader batch = .ok s' ∧
      Serving s' (g.reply batch (greeting (unpacked unpack payload reader))) news fins' tags
        calls := by
  have hself : (newTag s ⟨.finish, (s.tag t).call⟩).2.tag s.heap.next = ⟨.finish, some call⟩ := by
    rw [newTag_self, ht]
  obtain ⟨s₁, fins', hbatch, h₁⟩ := startBatch_ok (h.newTag ⟨.finish, (s.tag t).call⟩) hself
    (greeting (unpacked unpack payload reader)) batch
  obtain ⟨heap, hfree, h₂⟩ := h₁.free
  exact ⟨_, fins', Run.bind_of_eq hbatch (Run.bind_of_eq hfree rfl), h₂⟩

/-! ## 6. One event -/

/-- What waits for a call is the one tag for it. -/
theorem Serving.news_eq (h : Serving s g news fins tags calls) (ht : t ∈ s.pending)
    (htype : (s.tag t).type = .newCall) : news = [t] ∧ g.accepting = true := by
  have hmem : t ∈ news := by
    rcases List.mem_append.mp (h.pending.mem_iff.mp ht) with hmem | hmem
    · exact hmem
    · obtain ⟨p, hp, rfl⟩ := List.mem_map.mp hmem
      rw [h.finish_tag p hp] at htype
      exact absurd htype (by simp)
  have hlen := h.accepting
  cases hacc : g.accepting with
  | false =>
    rw [hacc] at hlen
    rw [List.eq_nil_of_length_eq_zero hlen] at hmem
    exact absurd hmem (List.not_mem_nil)
  | true =>
    rw [hacc] at hlen
    obtain ⟨u, rfl⟩ := List.length_eq_one_iff.mp hlen
    exact ⟨by rw [List.mem_singleton.mp hmem], rfl⟩

/-- The tag of a reply has its call. -/
theorem Serving.mem_fins_of_finish (h : Serving s g news fins tags calls) (ht : t ∈ s.pending)
    (htype : (s.tag t).type = .finish) : ∃ call, (t, call) ∈ fins := by
  rcases List.mem_append.mp (h.pending.mem_iff.mp ht) with hmem | hmem
  · rw [h.new_tag t hmem] at htype
    exact absurd htype (by simp)
  · obtain ⟨p, hp, rfl⟩ := List.mem_map.mp hmem
    exact ⟨p.2, hp⟩

theorem Serving.nodup (h : Serving s g news fins [] []) : (news ++ fins.map Prod.fst).Nodup :=
  h.pending.nodup_iff.mp h.heap.nodup_owned

/-- A tag that the queue hands out is in the hands of the loop. -/
theorem Serving.heap_erase (h : Serving s g news fins [] []) (ht : t ∈ s.pending) :
    s.heap.Owns (t :: s.pending.erase t) [] :=
  h.heap.congr (List.perm_cons_erase ht)

theorem Serving.mem_pending_new (h : Serving s g [t] fins [] []) : t ∈ s.pending :=
  h.pending.mem_iff.mpr (List.mem_cons_self ..)

theorem Serving.pending_new (h : Serving s g [t] fins [] []) :
    (s.pending.erase t).Perm (fins.map Prod.fst) := by
  have hperm := h.pending.erase t
  rw [List.singleton_append, List.erase_cons_head] at hperm
  exact hperm

/-- **Waiting for a call fails.** -/
theorem Serving.deliver_failed (h : Serving s g [t] fins [] []) :
    Serving (deliver s t false) { g with accepting := false } [] fins [t] [] := by
  have hdeliver : deliver s t false = { s with pending := s.pending.erase t } :=
    if_neg fun hand => absurd hand.2 (by simp)
  rw [hdeliver]
  exact { h with
    heap := h.heap_erase h.mem_pending_new
    pending := h.pending_new
    new_tag := fun _ hmem => absurd hmem List.not_mem_nil
    accepting := rfl }

/-- **A call arrives.** -/
theorem Serving.deliver_call (h : Serving s g [t] fins [] []) :
    Serving (deliver s t true) { g with accepting := false } [] fins [t] [s.calls.next] ∧
      (deliver s t true).tag t = ⟨.newCall, some s.calls.next⟩ := by
  have htype := h.new_tag t (List.mem_singleton_self t)
  have hdeliver : deliver s t true = { s with
      pending := s.pending.erase t
      calls := s.calls.alloc.2
      tag := Function.update s.tag t ⟨.newCall, some s.calls.next⟩ } := if_pos ⟨htype, rfl⟩
  rw [hdeliver]
  refine ⟨{ h with
    heap := h.heap_erase h.mem_pending_new
    pending := h.pending_new
    new_tag := fun _ hmem => absurd hmem List.not_mem_nil
    accepting := rfl
    finish_tag := ?_
    calls := h.calls.alloc }, Function.update_self ..⟩
  intro p hp
  have hne : p.1 ≠ t := by
    intro heq
    exact (List.nodup_cons.mp h.nodup).1 (heq ▸ List.mem_map_of_mem hp)
  exact (Function.update_of_ne hne ..).trans (h.finish_tag p hp)

/-- **A reply was sent**, or could not be. -/
theorem Serving.deliver_finish {call : Nat} (h : Serving s g news fins [] [])
    (hmem : (t, call) ∈ fins) (success : Bool) :
    Serving (deliver s t success) { g with unfinished := g.unfinished - 1 } news
      (fins.erase (t, call)) [t] [call] ∧ (deliver s t success).tag t = ⟨.finish, some call⟩ := by
  have htag : s.tag t = ⟨.finish, some call⟩ := h.finish_tag _ hmem
  have hdeliver : deliver s t success = { s with pending := s.pending.erase t } := by
    refine if_neg fun hand => ?_
    rw [htag] at hand
    exact absurd hand.1 (by simp)
  have hfins := List.perm_cons_erase hmem
  have htags := hfins.map Prod.fst
  rw [hdeliver]
  refine ⟨{ h with
    heap := h.heap_erase (h.mem_fins hmem)
    pending := ?_
    finish_tag := fun p hp => h.finish_tag p (List.mem_of_mem_erase hp)
    calls := h.calls.congr (hfins.map Prod.snd)
    unfinished := ?_ }, htag⟩
  · have hperm := (h.pending.trans ((htags.append_left news).trans List.perm_middle)).erase t
    rw [List.erase_cons_head] at hperm
    exact hperm
  · rw [List.length_erase_of_mem hmem, h.unfinished]

/-- The loop frees what it was handed. -/
theorem serve_arrived (h : Serving s g [t] fins [] []) (payload : Option (List UInt8))
    (reader batch next : Bool) :
    ∃ s' news' fins', serve unpack (deliver s t true) t true payload reader batch next = .ok s' ∧
      Serving s' (Greeter.next unpack (.arrived payload reader batch next) g) news' fins' []
        [] := by
  obtain ⟨h₁, htag⟩ := h.deliver_call
  obtain ⟨s₂, fins', hhandle, h₂⟩ :=
    handleNewCall_ok unpack h₁ (congrArg Tag.call htag) payload reader batch
  obtain ⟨s₃, news', hrequest, h₃⟩ := requestNewCall_ok h₂ next
  refine ⟨s₃, news', fins', ?_, ?_⟩
  · rw [serve, h₁.heap.touch (List.mem_cons_self ..), Run.ok_bind, htag]
    exact Run.bind_of_eq hhandle hrequest
  · have hnext : Greeter.next unpack (.arrived payload reader batch next) g =
        { ({ g with accepting := false } : Greeter).reply batch
          (greeting (unpacked unpack payload reader)) with accepting := next } := by
      cases batch with
      | true => rfl
      | false => rfl
    rw [hnext]
    exact h₃

theorem serve_refused (h : Serving s g [t] fins [] []) (payload : Option (List UInt8))
    (reader batch next : Bool) :
    ∃ s', serve unpack (deliver s t false) t false payload reader batch next = .ok s' ∧
      Serving s' (Greeter.next unpack .refused g) [] fins [] [] := by
  have h₁ := h.deliver_failed
  obtain ⟨heap, hfree, h₂⟩ := h₁.free
  have htype : ((deliver s t false).tag t).type = .newCall := by
    rw [deliver, if_neg fun hand => absurd hand.2 (by simp)]
    exact h.new_tag t (List.mem_singleton_self t)
  refine ⟨{ deliver s t false with heap := heap, running := false }, ?_,
    { h₂ with running := rfl }⟩
  rw [serve, h₁.heap.touch (List.mem_cons_self ..), Run.ok_bind, htype]
  exact Run.bind_of_eq hfree rfl

theorem serve_finished {call : Nat} (h : Serving s g news fins [] []) (hmem : (t, call) ∈ fins)
    (success : Bool) (payload : Option (List UInt8)) (reader batch next : Bool) :
    ∃ s' fins', serve unpack (deliver s t success) t success payload reader batch next = .ok s' ∧
      Serving s' (Greeter.next unpack (.finished success) g) news fins' [] [] := by
  obtain ⟨h₁, htag⟩ := h.deliver_finish hmem success
  obtain ⟨s₂, hunref, hheap, -, h₂⟩ := h₁.unref
  obtain ⟨heap, hfree, h₃⟩ := h₂.free
  refine ⟨_, _, ?_, h₃⟩
  rw [serve, h₁.heap.touch (List.mem_cons_self ..), Run.ok_bind, htag]
  exact Run.bind_of_eq hunref (Run.bind_of_eq hfree rfl)

/-! ## 7. The runs -/

/-- **Whatever the queue hands out**, the loop comes to the next event. -/
theorem Serving.serves (h : Serving s g news fins [] []) (ht : t ∈ s.pending) (success : Bool)
    (payload : Option (List UInt8)) (reader batch next : Bool) :
    ∃ s', serve unpack (deliver s t success) t success payload reader batch next = .ok s' := by
  cases htype : (s.tag t).type with
  | newCall =>
    obtain ⟨rfl, -⟩ := h.news_eq ht htype
    cases success with
    | true =>
      obtain ⟨s', -, -, hserve, -⟩ := serve_arrived unpack h payload reader batch next
      exact ⟨s', hserve⟩
    | false =>
      obtain ⟨s', hserve, -⟩ := serve_refused unpack h payload reader batch next
      exact ⟨s', hserve⟩
  | finish =>
    obtain ⟨call, hmem⟩ := h.mem_fins_of_finish ht htype
    obtain ⟨s', -, hserve, -⟩ := serve_finished unpack h hmem success payload reader batch next
    exact ⟨s', hserve⟩

/-- **One event**: the account is kept, and a new call arrives only while one is waited for. -/
theorem Serving.step {e : Event} (h : Serving s g news fins [] []) (hst : Step unpack s e s') :
    (∃ news' fins', Serving s' (Greeter.next unpack e g) news' fins' [] []) ∧
      (Greeter.next unpack e g).accepting = (g.accepting && e.accepts) := by
  cases hst with
  | @arrived _ t payload reader batch next hrun ht htype hserve =>
    obtain ⟨rfl, hacc⟩ := h.news_eq ht htype
    obtain ⟨s₁, news', fins', hserve', h'⟩ := serve_arrived unpack h payload reader batch next
    obtain rfl := Except.ok.inj (hserve.symm.trans hserve')
    rw [hacc]
    exact ⟨⟨news', fins', h'⟩, rfl⟩
  | @refused _ t payload reader batch next hrun ht htype hserve =>
    obtain ⟨rfl, -⟩ := h.news_eq ht htype
    obtain ⟨s₁, hserve', h'⟩ := serve_refused unpack h payload reader batch next
    obtain rfl := Except.ok.inj (hserve.symm.trans hserve')
    exact ⟨⟨[], fins, h'⟩, (Bool.and_false _).symm⟩
  | @finished _ t success payload reader batch next hrun ht htype hserve =>
    obtain ⟨call, hmem⟩ := h.mem_fins_of_finish ht htype
    obtain ⟨s₁, fins', hserve', h'⟩ :=
      serve_finished unpack h hmem success payload reader batch next
    obtain rfl := Except.ok.inj (hserve.symm.trans hserve')
    exact ⟨⟨news, fins', h'⟩, (Bool.and_true _).symm⟩

theorem serving_idle : Serving idle ⟨true, false, 0, []⟩ [] [] [] [] where
  running := rfl
  heap := ⟨.nil, .nil, fun _ hmem => absurd hmem List.not_mem_nil⟩
  pending := .nil
  new_tag := fun _ hmem => absurd hmem List.not_mem_nil
  accepting := rfl
  finish_tag := fun _ hmem => absurd hmem List.not_mem_nil
  calls := ⟨.nil, .nil, fun _ hmem => absurd hmem List.not_mem_nil⟩
  unfinished := rfl
  replies := rfl

/-- **Every history** keeps the account. -/
theorem Reached.serving {ok : Bool} {history : List Event} (h : Reached unpack ok history s) :
    (∃ news fins,
      Serving s (history.foldr (Greeter.next unpack) (Greeter.start ok)) news fins [] []) ∧
      (history.foldr (Greeter.next unpack) (Greeter.start ok)).accepting =
        (ok && history.all Event.accepts) := by
  obtain ⟨s₀, hstart, htrace⟩ := h
  induction htrace with
  | start =>
    obtain ⟨s₁, news, hstart', h₁⟩ := requestNewCall_ok serving_idle ok
    obtain rfl := Except.ok.inj (hstart.symm.trans hstart')
    exact ⟨⟨news, [], h₁⟩, (Bool.and_true ok).symm⟩
  | @call history t u e htrace hst ih =>
    obtain ⟨⟨news, fins, h₁⟩, hacc⟩ := ih
    obtain ⟨h₂, hacc'⟩ := h₁.step unpack hst
    refine ⟨h₂, hacc'.trans ?_⟩
    rw [hacc, List.all_cons, Bool.and_assoc, Bool.and_comm e.accepts]

/-- The calls of the replies on their way, by the tags in the queue. -/
def Server.replying (s : Server) : List (Option Nat) :=
  (s.pending.filter fun t => decide ((s.tag t).type = .finish)).map fun t => (s.tag t).call

/-- **The calls that are held are those of the replies on their way.** -/
theorem Serving.calls_perm (h : Serving s g news fins [] []) :
    (s.calls.live.map some).Perm s.replying := by
  have hheld := h.calls.perm
  rw [List.nil_append, List.append_nil] at hheld
  have hnews : news.filter (fun t => decide ((s.tag t).type = .finish)) = [] := by
    refine List.filter_eq_nil_iff.mpr fun t ht => ?_
    rw [h.new_tag t ht]
    decide
  have hfins : (fins.map Prod.fst).filter (fun t => decide ((s.tag t).type = .finish)) =
      fins.map Prod.fst := by
    refine List.filter_eq_self.mpr fun t ht => ?_
    obtain ⟨p, hp, rfl⟩ := List.mem_map.mp ht
    exact decide_eq_true (congrArg Tag.type (h.finish_tag p hp))
  have htags := h.pending.filter fun t => decide ((s.tag t).type = .finish)
  rw [List.filter_append, hnews, hfins, List.nil_append] at htags
  have hcalls : (fins.map Prod.fst).map (fun t => (s.tag t).call) =
      (fins.map Prod.snd).map some := by
    rw [List.map_map, List.map_map]
    refine List.map_congr_left fun p hp => ?_
    exact congrArg Tag.call (h.finish_tag p hp)
  have hreplying := htags.map fun t => (s.tag t).call
  rw [hcalls] at hreplying
  exact (hheld.map some).trans hreplying.symm

/-- **The account of the server.**  After every history of events, in any order and with any
failures, the tags that are allocated are those in the queue: one for each reply on its way, and one
more while a call is waited for.  The calls that are held are those of the replies on their way, and
what was sent is the greeting of every call that arrived and could be replied to, in this order.
Whatever the queue hands out next, the loop serves it; what is in the queue when the loop has ended
stays allocated. -/
theorem server_account {ok : Bool} {history : List Event} (h : Reached unpack ok history s) :
    s.heap.live.Perm s.pending ∧ s.pending.Nodup ∧
      s.pending.length =
        (history.foldr (Greeter.next unpack) (Greeter.start ok)).unfinished +
          (if (history.foldr (Greeter.next unpack) (Greeter.start ok)).accepting then 1 else 0) ∧
      s.calls.live.length =
        (history.foldr (Greeter.next unpack) (Greeter.start ok)).unfinished ∧
      (s.calls.live.map some).Perm s.replying ∧
      s.replies = (history.foldr (Greeter.next unpack) (Greeter.start ok)).replies ∧
      ∀ t ∈ s.pending, ∀ success payload reader batch next, ∃ s',
        serve unpack (deliver s t success) t success payload reader batch next = .ok s' := by
  obtain ⟨⟨news, fins, hserving⟩, -⟩ := h.serving unpack
  refine ⟨?_, hserving.heap.nodup_owned, ?_, ?_, hserving.calls_perm, hserving.replies, ?_⟩
  · have hperm := hserving.heap.perm
    rw [List.nil_append, List.append_nil] at hperm
    exact hperm
  · rw [hserving.pending.length_eq, List.length_append, List.length_map, hserving.unfinished,
      hserving.accepting, Nat.add_comm]
  · rw [hserving.calls.length, List.nil_append, List.length_map, hserving.unfinished]
    rfl
  · intro t ht success payload reader batch next
    exact hserving.serves unpack ht success payload reader batch next

/-- A first call, after which no other is accepted. -/
theorem reached_deaf : ∃ s, Reached (fun bytes => some (some bytes)) true
    [.arrived (some (ascii "x")) true true false] s :=
  ⟨_, _, rfl, .call .start (.arrived (t := 0) rfl (List.mem_singleton_self 0) rfl rfl)⟩

theorem server_account_deaf : ∃ s, Reached (fun bytes => some (some bytes)) true
    [.arrived (some (ascii "x")) true true false] s ∧ s.pending.length = 1 ∧
      s.calls.live.length = 1 ∧ s.replies = [ascii "Hello, x!"] := by
  obtain ⟨s, h⟩ := reached_deaf
  have hall := server_account _ h
  exact ⟨s, h, hall.2.2.1, hall.2.2.2.1, hall.2.2.2.2.2.1⟩

/-- A call can arrive exactly while the loop runs and waits for one. -/
theorem Serving.arrives_iff (h : Serving s g news fins [] []) (payload : Option (List UInt8))
    (reader batch next : Bool) :
    (∃ s', Step unpack s (.arrived payload reader batch next) s') ↔
      g.running = true ∧ g.accepting = true := by
  constructor
  · rintro ⟨s', hst⟩
    cases hst with
    | arrived hrun ht htype hserve =>
      exact ⟨h.running.symm.trans hrun, (h.news_eq ht htype).2⟩
  · rintro ⟨hrun, hacc⟩
    have hlen := h.accepting
    rw [hacc] at hlen
    obtain ⟨t, rfl⟩ := List.length_eq_one_iff.mp hlen
    obtain ⟨s', -, -, hserve, -⟩ := serve_arrived unpack h payload reader batch next
    exact ⟨s', .arrived (h.running.trans hrun) h.mem_pending_new
      (h.new_tag t (List.mem_singleton_self t)) hserve⟩

/-- Only a failed wait ends the loop. -/
theorem running_foldr (ok : Bool) (history : List Event) :
    (history.foldr (Greeter.next unpack) (Greeter.start ok)).running = true ↔
      Event.refused ∉ history := by
  induction history with
  | nil => simp [Greeter.start]
  | cons e history ih =>
    rw [List.foldr_cons, List.mem_cons, not_or, ← ih]
    cases e with
    | arrived payload reader batch next =>
      cases batch with
      | true => simp [Greeter.next, Greeter.reply]
      | false => simp [Greeter.next, Greeter.reply]
    | refused => simp [Greeter.next]
    | finished success => simp [Greeter.next]

/-- **When the server takes another call.**  One can arrive exactly if every request for one was
accepted, the first included, and no wait for one has failed.  A failed wait ends the loop, and
nothing else does: a server whose request failed goes on and never takes a call again. -/
theorem accepts_iff {ok : Bool} {history : List Event} (h : Reached unpack ok history s)
    (payload : Option (List UInt8)) (reader batch next : Bool) :
    ((∃ s', Step unpack s (.arrived payload reader batch next) s') ↔
        ok = true ∧ ∀ e ∈ history, e.accepts = true) ∧
      (s.running = true ↔ Event.refused ∉ history) := by
  obtain ⟨⟨news, fins, hserving⟩, hacc⟩ := h.serving unpack
  refine ⟨?_, hserving.running ▸ running_foldr unpack ok history⟩
  rw [hserving.arrives_iff unpack, hacc, running_foldr, Bool.and_eq_true, List.all_eq_true]
  constructor
  · intro hand
    exact hand.2
  · rintro ⟨hok, hall⟩
    exact ⟨fun hmem => absurd (hall _ hmem) (by simp [Event.accepts]), hok, hall⟩

theorem accepts_iff_deaf : ∃ s, Reached (fun bytes => some (some bytes)) true
    [.arrived (some (ascii "x")) true true false] s ∧ s.running = true ∧
      ¬ ∃ s', Step (fun bytes => some (some bytes)) s (.arrived none true true true) s' := by
  obtain ⟨s, h⟩ := reached_deaf
  have hall := accepts_iff _ h none true true true
  refine ⟨s, h, hall.2.mpr (by simp), fun hstep => ?_⟩
  have haccepts := (hall.1.mp hstep).2 _ (List.mem_singleton_self _)
  exact absurd haccepts (by simp [Event.accepts])

end Account

end CDemo.Grpc
