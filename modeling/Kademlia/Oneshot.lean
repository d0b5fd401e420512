import Mathlib

/-!
# Channels for one value

A channel carries at most one value from a sender to a receiver, each of which
may go away first. A receiver that waits sees the value, or that the sender
went away without one; a sender that sends learns whether a receiver was still
there.

Sending uses the sender up, so that a channel is in one of few states: nothing
sent and both ends there, a value sent, or an end gone. The two lemmas on
`poll` say which of these a receiver can tell apart.
-/

variable {α : Type}

/-- **A channel for one value.** -/
structure Oneshot (α : Type) where
  /-- What was sent and not dropped. -/
  value : Option α
  /-- Whether there is still a sender. -/
  hasSender : Bool
  /-- Whether there is still a receiver. -/
  hasReceiver : Bool
deriving DecidableEq

namespace Oneshot

/-- A new channel. -/
def channel : Oneshot α := ⟨none, true, true⟩

/-- Send a value, which uses the sender up. Without a receiver the value is
lost. -/
def send (c : Oneshot α) (a : α) : Bool × Oneshot α :=
  if c.hasReceiver then (true, ⟨some a, false, true⟩) else (false, { c with hasSender := false })

/-- The sender goes away. -/
def dropSender (c : Oneshot α) : Oneshot α := { c with hasSender := false }

/-- The receiver goes away. -/
def dropReceiver (c : Oneshot α) : Oneshot α := { c with hasReceiver := false }

/-- What the receiver sees: nothing yet, the value, or that there will be
none. -/
def poll (c : Oneshot α) : Option (Option α) :=
  match c.value with
  | some a => some (some a)
  | none => if c.hasSender then none else some none

theorem poll_eq_value_iff {c : Oneshot α} {a : α} :
    c.poll = some (some a) ↔ c.value = some a := by
  unfold poll
  cases c.value with
  | none => cases c.hasSender <;> simp
  | some b => simp

theorem poll_eq_closed_iff {c : Oneshot α} :
    c.poll = some none ↔ c.value = none ∧ c.hasSender = false := by
  unfold poll
  cases c.value with
  | none => cases c.hasSender <;> simp
  | some b => simp

theorem value_send (c : Oneshot α) (a : α) :
    (c.send a).2.value = if c.hasReceiver then some a else c.value := by
  unfold send
  split <;> rfl

@[simp] theorem hasSender_send (c : Oneshot α) (a : α) : (c.send a).2.hasSender = false := by
  unfold send
  split <;> rfl

@[simp] theorem hasReceiver_send (c : Oneshot α) (a : α) :
    (c.send a).2.hasReceiver = c.hasReceiver := by
  unfold send
  split
  · next h => exact h.symm
  · rfl

end Oneshot
