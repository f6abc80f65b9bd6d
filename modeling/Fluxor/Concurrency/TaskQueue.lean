import Fluxor.Support.Goroutines

/-!
# The task queue of the executor and the worker pool

`defaultExecutor` and `defaultWorkerPool` share a buffered channel of tasks, a
context that is cancelled on the way out, a wait group, three counters, the loop of
a worker, the `select` of `Submit` and the loop of `SubmitBatch`. They differ in the
flag that is tested before a send and in whether a lock is held over the send.

Every atomic, channel or lock operation is a step of its own. A send on a closed
channel, and a second close, panic; after a panic nothing moves.
-/

namespace Fluxor.Concurrency

open Goroutines

/-- A submitted task, named by its call and its position among the tasks of that call. -/
structure Ticket where
  (call pos : ℕ)
  deriving DecidableEq

inductive Panic
  | sendOnClosed | closeOfClosed
  deriving DecidableEq

/-- The errors of the submitting calls: `task cannot be nil`, `timeout must be
positive`, `executor is closed` or `worker pool is not running`, the error of
the context, `ErrMailboxFull` and `submit timeout after`. -/
inductive SubmitError
  | nilTask | timeoutNotPositive | notRunning | context | full
  | timedOut (timeout : ℤ)
  deriving DecidableEq

/-- `accepted` and `executed` are histories: the tasks sent, and those whose
`Execute` has returned. -/
structure TaskQueue where
  queueSize : ℕ
  taskChan : List Ticket := []
  chanClosed : Bool := false
  cancelled : Bool := false
  wg : ℕ := 0
  queuedTasks : ℤ := 0
  completedTasks : ℤ := 0
  rejectedTasks : ℤ := 0
  accepted : List Ticket := []
  executed : List Ticket := []
  panic : Option Panic := none

/-- A worker: in its `select`, with a task it has received, in `Execute`, after
`Execute`, or returned. -/
inductive Worker
  | idle
  | received (k : Ticket)
  | executing (k : Ticket)
  | finishing | exited
  deriving DecidableEq

namespace TaskQueue

variable (q : TaskQueue)

/-- A channel send in a `select`: blocked when the buffer is full, a panic when
the channel is closed. -/
def send (k : Ticket) : Option TaskQueue :=
  if q.chanClosed then some { q with panic := some .sendOnClosed }
  else if q.taskChan.length < q.queueSize then
    some { q with
      taskChan := q.taskChan ++ [k]
      accepted := q.accepted ++ [k] }
  else none

def blocked : Bool :=
  !q.chanClosed && decide (q.queueSize ≤ q.taskChan.length) && !q.cancelled

def close : TaskQueue :=
  if q.chanClosed then { q with panic := some .closeOfClosed }
  else { q with chanClosed := true }

def countQueued (n : ℤ) : TaskQueue :=
  { q with queuedTasks := q.queuedTasks + n }

def countRejected (n : ℤ) : TaskQueue :=
  { q with rejectedTasks := q.rejectedTasks + n }

def exit : TaskQueue := { q with wg := q.wg - 1 }

/-- The loop of `worker`. When a task is queued or the channel is closed and the
context is cancelled, `select` may take either case. -/
def worker : Worker → Branch → Option (TaskQueue × Worker)
  | .idle, .channel =>
    match q.taskChan with
    | k :: rest => some ({ q with taskChan := rest }, .received k)
    | [] => if q.chanClosed then some (q.exit, .exited) else none
  | .idle, .done => if q.cancelled then some (q.exit, .exited) else none
  | .received k, .next => some (q.countQueued (-1), .executing k)
  | .executing k, .next => some ({ q with executed := q.executed ++ [k] }, .finishing)
  | .finishing, .next => some ({ q with completedTasks := q.completedTasks + 1 }, .idle)
  | _, _ => none

variable {q q' : TaskQueue} {k : Ticket}

theorem send_cases (h : q.send k = some q') :
    q.chanClosed = true ∧ q' = { q with panic := some .sendOnClosed } ∨
      q.chanClosed = false ∧ q' = { q with
        taskChan := q.taskChan ++ [k]
        accepted := q.accepted ++ [k] } := by
  unfold send at h
  split at h
  next hclosed => exact .inl ⟨hclosed, (Option.some.inj h).symm⟩
  next hclosed =>
    split at h
    · exact .inr ⟨by simpa using hclosed, (Option.some.inj h).symm⟩
    · cases h

inductive WorkerStep (q : TaskQueue) : Branch → Worker → TaskQueue → Worker → Prop
  | receive {k : Ticket} {rest} (h : q.taskChan = k :: rest) :
      WorkerStep q .channel .idle { q with taskChan := rest } (.received k)
  | closed (h : q.taskChan = []) (hclosed : q.chanClosed = true) :
      WorkerStep q .channel .idle q.exit .exited
  | done (h : q.cancelled = true) : WorkerStep q .done .idle q.exit .exited
  | count {k : Ticket} : WorkerStep q .next (.received k) (q.countQueued (-1)) (.executing k)
  | execute {k : Ticket} : WorkerStep q .next (.executing k)
      { q with executed := q.executed ++ [k] } .finishing
  | finish : WorkerStep q .next .finishing { q with completedTasks := q.completedTasks + 1 } .idle

theorem workerStep_of_worker {w w' : Worker} {b : Branch} (h : q.worker w b = some (q', w')) :
    q.WorkerStep b w q' w' := by
  revert h
  fun_cases TaskQueue.worker q w b <;> intro h <;> cases h
  case case1 k rest hchan => exact .receive hchan
  case case2 hchan hclosed => exact .closed hchan hclosed
  case case4 hcancelled => exact .done hcancelled
  case case6 => exact .count
  case case7 => exact .execute
  case case8 => exact .finish

theorem send_flags (h : q.send k = some q') :
    q'.cancelled = q.cancelled ∧ q'.chanClosed = q.chanClosed := by
  rcases send_cases h with ⟨-, rfl⟩ | ⟨-, rfl⟩ <;> exact ⟨rfl, rfl⟩

theorem WorkerStep.flags {w w' : Worker} {b : Branch} (h : q.WorkerStep b w q' w') :
    q'.cancelled = q.cancelled ∧ q'.chanClosed = q.chanClosed := by
  cases h <;> exact ⟨rfl, rfl⟩

theorem close_cases (q : TaskQueue) :
    q.close = { q with panic := some .closeOfClosed } ∨
      q.close = { q with chanClosed := true } := by
  unfold close
  split
  · exact .inl rfl
  · exact .inr rfl

theorem close_cancelled (q : TaskQueue) : q.close.cancelled = q.cancelled := by
  rcases q.close_cases with h | h <;> rw [h]

end TaskQueue

/-- A call of `SubmitBatch` is before its test of the flag, at the task `pos` with
`submitted` tasks sent, after the send of the task `pos`, about to count `n`
rejected tasks, or back. -/
inductive Batch
  | called
  | sending (pos submitted : ℕ)
  | counting (pos submitted : ℕ)
  | rejecting (n : ℤ) (e : SubmitError)
  | returned (r : Except SubmitError Unit)
  deriving DecidableEq

/-- `SubmitBatch`, the call `i`, where `running` is the flag as read. No lock is
held between the test and the sends. -/
def Batch.next {τ : Type*} (tasks : List (Option τ)) (running : Bool)
    (q : TaskQueue) (i : ℕ) : Batch → Branch → Option (TaskQueue × Batch)
  | .called, .next =>
    if tasks = [] then some (q, .returned (.ok ()))
    else if running then some (q, .sending 0 0)
    else some (q, .returned (.error .notRunning))
  | .sending pos submitted, b =>
    match tasks[pos]?, b with
    | none, .next => some (q, .returned (.ok ()))
    | some none, .next => some (q, .sending (pos + 1) submitted)
    | some (some _), .channel => (q.send ⟨i, pos⟩).map fun q => (q, .counting pos submitted)
    | some (some _), .done =>
      if q.cancelled then
        some (q, .rejecting (tasks.length - submitted) .context)
      else none
    | some (some _), .default =>
      if q.blocked then
        some (q, .rejecting (tasks.length - submitted) .full)
      else none
    | _, _ => none
  | .counting pos submitted, .next => some (q.countQueued 1, .sending (pos + 1) (submitted + 1))
  | .rejecting n e, .next => some (q.countRejected n, .returned (.error e))
  | _, _ => none

inductive Batch.Step (i : ℕ) (running : Bool) (q : TaskQueue) : Batch → TaskQueue → Batch → Prop
  | refuse {r} : Step i running q .called q (.returned r)
  | enter (h : running = true) : Step i running q .called q (.sending 0 0)
  | skip {pos n} : Step i running q (.sending pos n) q (.sending (pos + 1) n)
  | send {pos n q'} (h : q.send ⟨i, pos⟩ = some q') :
      Step i running q (.sending pos n) q' (.counting pos n)
  | count {pos n} : Step i running q (.counting pos n) (q.countQueued 1)
      (.sending (pos + 1) (n + 1))
  | reject {pos n m e} : Step i running q (.sending pos n) q (.rejecting m e)
  | countRejected {m e} : Step i running q (.rejecting m e)
      (q.countRejected m) (.returned (.error e))
  | finish {pos n} : Step i running q (.sending pos n) q (.returned (.ok ()))

theorem Batch.step_of_next {τ : Type*} {tasks : List (Option τ)} {running : Bool}
    {q q' : TaskQueue} {i : ℕ} {st st' : Batch} {b : Branch}
    (h : st.next tasks running q i b = some (q', st')) : Batch.Step i running q st q' st' := by
  revert h
  fun_cases Batch.next tasks running q i st b <;> intro h
  case case6 =>
    obtain ⟨q'', hq, hpair⟩ := Option.map_eq_some_iff.mp h
    cases hpair
    exact .send hq
  all_goals cases h
  case case1 | case3 => exact .refuse
  case case2 hrunning => exact .enter hrunning
  case case4 => exact .finish
  case case5 => exact .skip
  case case7 | case9 => exact .reject
  case case12 => exact .count
  case case13 => exact .countRejected

theorem Batch.Step.flags {i : ℕ} {running : Bool} {q q' : TaskQueue} {st st' : Batch}
    (h : Batch.Step i running q st q' st') :
    q'.cancelled = q.cancelled ∧ q'.chanClosed = q.chanClosed := by
  cases h with
  | send hsend => exact TaskQueue.send_flags hsend
  | _ => exact ⟨rfl, rfl⟩

end Fluxor.Concurrency
