/-
# Runs that may stop

A C function has ways to go wrong that its return value does not show: it touches a word of
memory it does not own, an `assert` on its path fails, it follows a null pointer, it uses an
object nobody constructed.  The models of this development keep all of them visible.  Every
function that can stop is a `Run`, and a `Run` that stops says why.

Only what the proofs use is here: how a sequence of two runs returns, how an `assert`
returns, and how one cell of an array is read and written.
-/
import Mathlib.Logic.Basic
import Mathlib.Tactic.Common

namespace CDemo

/-- Why a run stopped before it returned. -/
inductive Fault where
  /-- a read or a write outside the block the pointer belongs to -/
  | outOfBounds
  /-- an `assert` whose condition is false -/
  | assertFailed
  /-- a null pointer is followed -/
  | nullPointer
  /-- a variable or an object is read that nothing was stored in -/
  | uninitialised
  /-- an allocation that cannot succeed -/
  | noMemory
  /-- a loop used up the rounds the model grants it -/
  | noReturn
  deriving DecidableEq, Repr

/-- A computation that returns a value or stops with a fault. -/
abbrev Run (α : Type) := Except Fault α

namespace Run

variable {α β : Type}

/-- `assert(p)`. -/
def assert (p : Bool) : Run Unit := if p then .ok () else .error .assertFailed

/-- `l[i]` as an array access: outside the array the run stops. -/
def read (l : List α) (i : Nat) : Run α :=
  match l[i]? with
  | some a => .ok a
  | none => .error .outOfBounds

/-- `l[i] = a` as an array access. -/
def write (l : List α) (i : Nat) (a : α) : Run (List α) :=
  if i < l.length then .ok (l.set i a) else .error .outOfBounds

/-- The object in a cell that may hold none. -/
def object : Option α → Run α
  | some a => .ok a
  | none => .error .uninitialised

/-- The run returns, and what it returns satisfies `P`. -/
def Returns (x : Run α) (P : α → Prop) : Prop := ∃ a, x = .ok a ∧ P a

instance (P : α → Prop) [DecidablePred P] : ∀ x : Run α, Decidable (Returns x P)
  | .ok a => decidable_of_iff (P a) ⟨fun h => ⟨a, rfl, h⟩, fun ⟨_, h, hp⟩ => by cases h; exact hp⟩
  | .error _ => isFalse fun ⟨_, h, _⟩ => nomatch h

/-- If the run stops before it returns, the reason satisfies `P`. -/
def FailsOnly (x : Run α) (P : Fault → Prop) : Prop := ∀ e, x = .error e → P e

/-- Where the first run returns, the second one returns the same. -/
def Agrees (x y : Run α) : Prop := ∀ a, x = .ok a → y = .ok a

/-- If the run returns, what it returns satisfies `P`. -/
def Yields (x : Run α) (P : α → Prop) : Prop := ∀ a, x = .ok a → P a

@[simp] theorem assert_true : assert true = .ok () := rfl

@[simp] theorem assert_false : assert false = .error .assertFailed := rfl

@[simp] theorem ok_bind (a : α) (f : α → Run β) : ((.ok a : Run α) >>= f) = f a := rfl

@[simp] theorem error_bind (e : Fault) (f : α → Run β) :
    ((.error e : Run α) >>= f) = .error e := rfl

@[simp] theorem pure_eq_ok (a : α) : (pure a : Run α) = .ok a := rfl

@[simp] theorem returns_ok {a : α} {P : α → Prop} : Returns (.ok a) P ↔ P a := by
  simp [Returns]

@[simp] theorem not_returns_error {e : Fault} {P : α → Prop} : ¬ Returns (.error e) P := by
  simp [Returns]

theorem read_eq_ok {l : List α} {i : Nat} {a : α} (h : l[i]? = some a) :
    read l i = .ok a := by
  simp [read, h]

theorem read_ok {l : List α} {i : Nat} {a : α} (h : read l i = .ok a) : l[i]? = some a := by
  rw [read] at h
  split at h
  · next hb => exact hb.trans (congrArg some (Except.ok.inj h))
  · exact absurd h (by simp)

theorem write_eq_ok {l : List α} {i : Nat} (h : i < l.length) (a : α) :
    write l i a = .ok (l.set i a) := by
  simp [write, h]

@[simp] theorem object_some (a : α) : object (some a) = .ok a := rfl

@[simp] theorem object_none : object (none : Option α) = .error .uninitialised := rfl

/-- A sequence returns exactly when its first part does and its second part does from
there. -/
theorem bind_eq_ok_iff {x : Run α} {f : α → Run β} {b : β} :
    (x >>= f) = .ok b ↔ ∃ a, x = .ok a ∧ f a = .ok b := by
  cases x with
  | error e => simp
  | ok a => simp

/-- One step of a run that returns. -/
theorem bind_of_eq {x : Run α} {f : α → Run β} {a : α} {r : Run β} (h : x = .ok a)
    (hr : f a = r) : (x >>= f) = r := by
  rw [h]
  exact hr

theorem returns_map {x : Run α} {f : α → β} {P : β → Prop} :
    Returns (x >>= fun a => .ok (f a)) P ↔ Returns x (fun a => P (f a)) := by
  cases x with
  | error e => simp
  | ok a => simp

theorem returns_congr {x : Run α} {P Q : α → Prop} (h : ∀ a, P a ↔ Q a) :
    Returns x P ↔ Returns x Q := by
  simp only [Returns, h]

theorem Yields.ok {a : α} {P : α → Prop} (h : P a) : Yields (.ok a) P := by
  intro b hb
  rw [← Except.ok.inj hb]
  exact h

theorem Yields.error {e : Fault} {P : α → Prop} : Yields (.error e) P := fun _ h => nomatch h

/-- Only what comes last decides. -/
theorem Yields.bind {x : Run α} {f : α → Run β} {P : β → Prop}
    (h : ∀ a, x = .ok a → Yields (f a) P) : Yields (x >>= f) P := by
  intro b hb
  obtain ⟨a, ha, hb⟩ := bind_eq_ok_iff.mp hb
  exact h a ha b hb

theorem Agrees.refl (x : Run α) : Agrees x x := fun _ h => h

/-- Two sequences agree if their first parts do, and their second parts from there. -/
theorem Agrees.bind {x y : Run α} {f g : α → Run β} (hx : Agrees x y)
    (hf : ∀ a, Agrees (f a) (g a)) : Agrees (x >>= f) (y >>= g) := by
  intro b hb
  obtain ⟨a, ha, hb⟩ := bind_eq_ok_iff.mp hb
  exact bind_of_eq (hx a ha) (hf a b hb)

theorem FailsOnly.ok {a : α} {P : Fault → Prop} : FailsOnly (.ok a) P := fun _ h => nomatch h

theorem FailsOnly.error {e : Fault} {P : Fault → Prop} (h : P e) :
    FailsOnly (.error e : Run α) P := by
  intro e' he
  rw [← Except.error.inj he]
  exact h

/-- A sequence stops where its first part does, or where its second part does from there. -/
theorem FailsOnly.bind {x : Run α} {f : α → Run β} {P : Fault → Prop} (hx : FailsOnly x P)
    (hf : ∀ a, x = .ok a → FailsOnly (f a) P) : FailsOnly (x >>= f) P := by
  intro e he
  cases hx' : x with
  | error e' =>
    rw [hx', error_bind] at he
    exact hx e (hx'.trans (congrArg Except.error (Except.error.inj he)))
  | ok a =>
    rw [hx', ok_bind] at he
    exact hf a hx' e he

theorem assert_ok {p : Bool} {u : Unit} (h : assert p = .ok u) : p = true := by
  cases p with
  | false => exact absurd h (by simp)
  | true => rfl

end Run

end CDemo
