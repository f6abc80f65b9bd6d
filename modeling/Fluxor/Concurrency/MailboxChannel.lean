import Fluxor.Concurrency.Mailbox
import Fluxor.Concurrency.TaskQueue

/-!
# The bounded mailbox under concurrent calls

`boundedMailbox` of `pkg/core/concurrency/mailbox_impl.go`, with each atomic
operation and each channel operation as a step of its own: `Close` sets the closed
flag and then closes the channel, and `Send` tests the one and then sends on the
other.
-/

namespace Fluxor.Concurrency

open Goroutines Transition

structure MailboxChannel (μ : Type*) where
  capacity : ℕ
  ch : List μ := []
  chanClosed : Bool := false
  closed : Bool := false
  size : ℤ := 0
  panic : Option Panic := none

namespace MailboxChannel

variable {μ : Type*}

inductive Send
  | called | selecting | sent
  | returned (r : Except MailboxError Unit)
  deriving DecidableEq

inductive ReceiveError
  | mailbox (e : MailboxError)
  | context (e : ContextError)

inductive Receive (μ : Type*)
  | called | selecting
  | received (msg : μ)
  | returned (r : Except ReceiveError μ)

inductive TryReceive (μ : Type*)
  | called | selecting
  | received (msg : μ)
  | returned (r : Except MailboxError (Option μ))

inductive Close
  | called | closing | returned
  deriving DecidableEq

inductive Thread (μ : Type*)
  | send (msg : μ) (stage : Send)
  | receive (stage : Receive μ)
  | tryReceive (stage : TryReceive μ)
  | close (stage : Close)

def newBoundedMailbox (μ : Type*) (capacity : ℕ) : Option (Config (MailboxChannel μ) (Thread μ)) :=
  if capacity ≤ 0 then none else some ⟨{ capacity := capacity }, []⟩

variable (mb : MailboxChannel μ)

/-- `Send`: the flag is tested, then the channel is tried. -/
def sendNext (msg : μ) : Send → Branch → Option (MailboxChannel μ × Send)
  | .called, .next =>
    if mb.closed then some (mb, .returned (.error .closed))
    else some (mb, .selecting)
  | .selecting, .channel =>
    if mb.chanClosed then
      some ({ mb with panic := some .sendOnClosed }, .selecting)
    else if mb.ch.length < mb.capacity then
      some ({ mb with ch := mb.ch ++ [msg] }, .sent)
    else none
  | .selecting, .default =>
    if mb.chanClosed = false ∧ mb.capacity ≤ mb.ch.length then
      some (mb, .returned (.error .full))
    else none
  | .sent, .next => some ({ mb with size := mb.size + 1 }, .returned (.ok ()))
  | _, _ => none

def receiveNext : Receive μ → Branch → Option (MailboxChannel μ × Receive μ)
  | .called, .next =>
    if mb.closed then some (mb, .returned (.error (.mailbox .closed)))
    else some (mb, .selecting)
  | .selecting, .channel =>
    match mb.ch with
    | msg :: rest => some ({ mb with ch := rest }, .received msg)
    | [] =>
      if mb.chanClosed then
        some (mb, .returned (.error (.mailbox .closed)))
      else none
  | .selecting, .done => some (mb, .returned (.error (.context .canceled)))
  | .selecting, .after => some (mb, .returned (.error (.context .deadlineExceeded)))
  | .received msg, .next => some ({ mb with size := mb.size - 1 }, .returned (.ok msg))
  | _, _ => none

def tryReceiveNext : TryReceive μ → Branch → Option (MailboxChannel μ × TryReceive μ)
  | .called, .next =>
    if mb.closed then some (mb, .returned (.error .closed))
    else some (mb, .selecting)
  | .selecting, .channel =>
    match mb.ch with
    | msg :: rest => some ({ mb with ch := rest }, .received msg)
    | [] =>
      if mb.chanClosed then some (mb, .returned (.error .closed))
      else none
  | .selecting, .default =>
    if mb.ch = [] ∧ mb.chanClosed = false then
      some (mb, .returned (.ok none))
    else none
  | .received msg, .next => some ({ mb with size := mb.size - 1 }, .returned (.ok (some msg)))
  | _, _ => none

/-- `Close`: the first call closes the channel. -/
def closeNext : Close → Branch → Option (MailboxChannel μ × Close)
  | .called, .next =>
    if mb.closed then some (mb, .returned)
    else some ({ mb with closed := true }, .closing)
  | .closing, .next =>
    if mb.chanClosed then
      some ({ mb with panic := some .closeOfClosed }, .returned)
    else some ({ mb with chanClosed := true }, .returned)
  | _, _ => none

def next (_ : ℕ) (t : Thread μ) (b : Branch) : Option (Outcome (MailboxChannel μ) (Thread μ)) :=
  if mb.panic.isSome then none
  else
    match t with
    | .send msg stage => (mb.sendNext msg stage b).map fun (mb, stage) => ⟨mb, .send msg stage, []⟩
    | .receive stage => (mb.receiveNext stage b).map fun (mb, stage) => ⟨mb, .receive stage, []⟩
    | .tryReceive stage =>
      (mb.tryReceiveNext stage b).map fun (mb, stage) => ⟨mb, .tryReceive stage, []⟩
    | .close stage => (mb.closeNext stage b).map fun (mb, stage) => ⟨mb, .close stage, []⟩

def entry : Thread μ → Bool
  | .send _ .called => true
  | .receive .called => true
  | .tryReceive .called => true
  | .close .called => true
  | _ => false

def code (μ : Type*) : Code (MailboxChannel μ) (Thread μ) Branch := ⟨next, entry⟩

/-- The steps, apart from the details of the receiving calls. -/
inductive Step (mb : MailboxChannel μ) : Thread μ → MailboxChannel μ → Thread μ → Prop
  | pass {msg} (h : mb.closed = false) : Step mb (.send msg .called) mb (.send msg .selecting)
  | panic {msg} (h : mb.chanClosed = true) :
      Step mb (.send msg .selecting) { mb with panic := some .sendOnClosed } (.send msg .selecting)
  | send {msg} (h : mb.chanClosed = false) (hroom : mb.ch.length < mb.capacity) :
      Step mb (.send msg .selecting) { mb with ch := mb.ch ++ [msg] } (.send msg .sent)
  | count {msg} : Step mb (.send msg .sent) { mb with size := mb.size + 1 }
      (.send msg (.returned (.ok ())))
  | refuse {msg st e} : Step mb (.send msg st) mb (.send msg (.returned (.error e)))
  | receive {st st' ch size} : Step mb (.receive st)
      { mb with ch := ch, size := size } (.receive st')
  | tryReceive {st st' ch size} : Step mb (.tryReceive st)
      { mb with ch := ch, size := size } (.tryReceive st')
  | again (h : mb.closed = true) : Step mb (.close .called) mb (.close .returned)
  | shut (h : mb.closed = false) :
      Step mb (.close .called) { mb with closed := true } (.close .closing)
  | closeTwice (h : mb.chanClosed = true) :
      Step mb (.close .closing) { mb with panic := some .closeOfClosed } (.close .returned)
  | close (h : mb.chanClosed = false) :
      Step mb (.close .closing) { mb with chanClosed := true } (.close .returned)

section Inversion

variable {mb mb' : MailboxChannel μ} {i : ℕ} {b : Branch}

open MailboxChannel

theorem step_of_sendNext {msg : μ} {st st' : Send} (h : mb.sendNext msg st b = some (mb', st')) :
    Step mb (.send msg st) mb' (.send msg st') := by
  revert h
  fun_cases sendNext mb msg st b <;> intro h <;> cases h
  case case1 | case6 => exact .refuse
  case case2 hclosed => exact .pass (by simpa using hclosed)
  case case3 hclosed => exact .panic hclosed
  case case4 hclosed hroom => exact .send (by simpa using hclosed) hroom
  case case8 => exact .count

theorem step_of_receiveNext {st st' : Receive μ} (h : mb.receiveNext st b = some (mb', st')) :
    Step mb (.receive st) mb' (.receive st') := by
  revert h
  fun_cases receiveNext mb st b <;> intro h <;> cases h <;>
    exact .receive

theorem step_of_tryReceiveNext {st st' : TryReceive μ}
    (h : mb.tryReceiveNext st b = some (mb', st')) :
    Step mb (.tryReceive st) mb' (.tryReceive st') := by
  revert h
  fun_cases tryReceiveNext mb st b <;> intro h <;> cases h <;>
    exact .tryReceive

theorem step_of_closeNext {st st' : Close} (h : mb.closeNext st b = some (mb', st')) :
    Step mb (.close st) mb' (.close st') := by
  revert h
  fun_cases closeNext mb st b <;> intro h <;> cases h
  case case1 hclosed => exact .again hclosed
  case case2 hclosed => exact .shut (by simpa using hclosed)
  case case3 hclosed => exact .closeTwice hclosed
  case case4 hclosed => exact .close (by simpa using hclosed)

theorem step_of_next {t : Thread μ} {o : Outcome (MailboxChannel μ) (Thread μ)}
    (h : mb.next i t b = some o) :
    mb.panic = none ∧ o.started = [] ∧ Step mb t o.shared o.thread := by
  unfold next at h
  split at h
  · cases h
  next hpanic =>
    refine ⟨by simpa using hpanic, ?_⟩
    cases t <;> obtain ⟨⟨mb', st'⟩, hst, rfl⟩ := Option.map_eq_some_iff.mp h
    case send => exact ⟨rfl, step_of_sendNext hst⟩
    case receive => exact ⟨rfl, step_of_receiveNext hst⟩
    case tryReceive => exact ⟨rfl, step_of_tryReceiveNext hst⟩
    case close => exact ⟨rfl, step_of_closeNext hst⟩

end Inversion

end MailboxChannel

end Fluxor.Concurrency
