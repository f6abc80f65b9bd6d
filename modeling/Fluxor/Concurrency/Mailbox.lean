import Mathlib.Data.List.Basic

/-!
# The bounded mailbox

`boundedMailbox` of `pkg/core/concurrency/mailbox_impl.go`: a channel of fixed
capacity with a closed flag. Each operation here is one call of the source.
The flag is tested before the channel, so a closed mailbox refuses to receive
even while messages are left in it.
-/

namespace Fluxor.Concurrency

inductive MailboxError
  | closed | full
  deriving DecidableEq

/-- The two values `ctx.Err()` takes once a context has ended. -/
inductive ContextError
  | canceled | deadlineExceeded
  deriving DecidableEq

/-- A mailbox never holds more messages than its capacity. -/
structure Mailbox (μ : Type*) where
  queue : List μ
  capacity : ℕ
  closed : Bool
  bounded : queue.length ≤ capacity

namespace Mailbox

variable {μ : Type*}

/-- `NewBoundedMailbox`; a capacity that is not positive fails fast. -/
def newBoundedMailbox (capacity : ℕ) : Option (Mailbox μ) :=
  if capacity ≤ 0 then none
  else some ⟨[], capacity, false, Nat.zero_le capacity⟩

variable (mb : Mailbox μ) (msg : μ)

def push (h : mb.queue.length < mb.capacity) : Mailbox μ where
  queue := mb.queue ++ [msg]
  capacity := mb.capacity
  closed := mb.closed
  bounded := by
    rwa [List.length_append, List.length_singleton]

/-- `Send`: refuse when closed, enqueue when there is room, else report a full
mailbox. -/
def send : Except MailboxError (Mailbox μ) :=
  if mb.closed then .error .closed
  else if h : mb.queue.length < mb.capacity then .ok (mb.push msg h)
  else .error .full

/-- `TryReceive`: the oldest message, or nothing when the mailbox is empty. -/
def tryReceive : Except MailboxError (Option (μ × Mailbox μ)) :=
  if mb.closed then .error .closed
  else match h : mb.queue with
    | [] => .ok none
    | msg :: rest =>
      .ok (some (msg, { mb with
        queue := rest
        bounded := by
          have := mb.bounded
          rw [h, List.length_cons] at this
          omega }))

def close : Mailbox μ := { mb with closed := true }

theorem send_cases : (mb.closed = true ∧ mb.send msg = .error .closed) ∨
      (mb.closed = false ∧ mb.capacity ≤ mb.queue.length ∧ mb.send msg = .error .full) ∨
      (mb.closed = false ∧ mb.queue.length < mb.capacity ∧
        ∃ mb', mb.send msg = .ok mb' ∧ mb'.closed = false ∧
          mb'.queue = mb.queue ++ [msg] ∧ mb'.capacity = mb.capacity) := by
  cases hclosed : mb.closed with
  | true => exact Or.inl ⟨rfl, by simp [send, hclosed]⟩
  | false =>
    by_cases hroom : mb.queue.length < mb.capacity
    · refine Or.inr (Or.inr ⟨rfl, hroom, mb.push msg hroom, ?_, hclosed, rfl, rfl⟩)
      simp [send, hclosed, hroom]
    · exact Or.inr (Or.inl ⟨rfl, Nat.le_of_not_lt hroom, by simp [send, hclosed, hroom]⟩)

theorem send_closed_of_ok {mb mb' : Mailbox μ} {msg : μ} (h : mb.send msg = .ok mb') :
    mb'.closed = mb.closed := by
  rcases send_cases mb msg with ⟨-, he⟩ | ⟨-, -, he⟩ | ⟨ho, -, mb'', he, hc, -⟩
  · rw [he] at h
    cases h
  · rw [he] at h
    cases h
  · rw [he] at h
    cases h
    rw [hc, ho]

theorem tryReceive_closed_of_ok {mb mb' : Mailbox μ} {msg : μ}
    (h : mb.tryReceive = .ok (some (msg, mb'))) : mb'.closed = mb.closed := by
  rw [tryReceive] at h
  split at h
  · cases h
  · split at h
    · cases h
    · cases h
      rfl

end Mailbox
end Fluxor.Concurrency
