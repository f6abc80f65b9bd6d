import Fluxor.Concurrency.Mailbox
import Fluxor.Concurrency.TaskQueue

/-!
# The executor

`defaultExecutor` of `pkg/core/concurrency/executor_impl.go`. `Submit` and
`SubmitWithTimeout` hold the read side of `shutdownMu` from before the test of the
closed flag on; `Shutdown` sets the flag, takes the write side, cancels the context,
closes the channel, and waits for the workers. `SubmitBatch` takes no lock.
-/

namespace Fluxor.Concurrency

open Goroutines Transition

variable {τ : Type*}

/-- `writer` is set from the announcement of a `Lock`, which keeps new readers out,
to its `Unlock`. -/
structure Executor where
  queue : TaskQueue
  closed : Bool := false
  readers : ℕ := 0
  writer : Bool := false

inductive Submit
  | called | locking | checking | selecting | sent
  | rejected (e : SubmitError)
  | unlocking (r : Except SubmitError Unit)
  | returned (r : Except SubmitError Unit)
  deriving DecidableEq

/-- A call of `Shutdown` returns nil or the error of its own context. -/
inductive Shutdown
  | called | locking | draining | locked | closing | unlocking | waiting
  | returned (err : Option ContextError)
  deriving DecidableEq

namespace Executor

inductive Thread (τ : Type*)
  | worker (w : Worker)
  | submit (task : Option τ) (timeout : Option ℤ) (stage : Submit)
  | submitBatch (tasks : List (Option τ)) (stage : Batch)
  | shutdown (stage : Shutdown)
  deriving DecidableEq

/-- `NewExecutor`: fewer than one worker means one, a queue size below one means
100. -/
def newExecutor (τ : Type*) (workers queueSize : ℤ) : Config Executor (Thread τ) where
  shared :=
    { queue :=
        { queueSize := if queueSize < 1 then 100 else queueSize.toNat
          wg := if workers < 1 then 1 else workers.toNat } }
  threads := List.replicate (if workers < 1 then 1 else workers.toNat) (.worker .idle)

def submit (task : Option τ) : Thread τ := .submit task none .called

def submitWithTimeout (task : Option τ) (timeout : ℤ) : Thread τ :=
  .submit task (some timeout) .called

def submitBatch (tasks : List (Option τ)) : Thread τ := .submitBatch tasks .called

def shutdown : Thread τ := .shutdown .called

/-- `Submit`, or with a timeout `SubmitWithTimeout`: the first has a `default` case
in its `select`, the second a timer. -/
def submitNext (e : Executor) (i : ℕ) (task : Option τ) (timeout : Option ℤ) :
    Submit → Branch → Option (Executor × Submit)
  | .called, .next =>
    if task.isNone then some (e, .returned (.error .nilTask))
    else if timeout.any (· ≤ 0) then
      some (e, .returned (.error .timeoutNotPositive))
    else some (e, .locking)
  | .locking, .next =>
    if e.writer then none
    else some ({ e with readers := e.readers + 1 }, .checking)
  | .checking, .next =>
    if e.closed then some (e, .unlocking (.error .notRunning))
    else some (e, .selecting)
  | .selecting, .channel => (e.queue.send ⟨i, 0⟩).map fun q => ({ e with queue := q }, .sent)
  | .selecting, .done =>
    if e.queue.cancelled then some (e, .unlocking (.error .context))
    else none
  | .selecting, .after => timeout.map fun d => (e, .rejected (.timedOut d))
  | .selecting, .default =>
    if timeout.isNone && e.queue.blocked then some (e, .rejected .full)
    else none
  | .sent, .next => some ({ e with queue := e.queue.countQueued 1 }, .unlocking (.ok ()))
  | .rejected err, .next =>
    some ({ e with queue := e.queue.countRejected 1 }, .unlocking (.error err))
  | .unlocking r, .next => some ({ e with readers := e.readers - 1 }, .returned r)
  | _, _ => none

/-- `Shutdown`. Only the first call gets past the flag; its last `select` waits for
the workers or for the context of the call. -/
def shutdownNext (e : Executor) : Shutdown → Branch → Option (Executor × Shutdown)
  | .called, .next =>
    if e.closed then some (e, .returned none)
    else some ({ e with closed := true }, .locking)
  | .locking, .next => some ({ e with writer := true }, .draining)
  | .draining, .next => if e.readers = 0 then some (e, .locked) else none
  | .locked, .next => some ({ e with queue := { e.queue with cancelled := true } }, .closing)
  | .closing, .next => some ({ e with queue := e.queue.close }, .unlocking)
  | .unlocking, .next => some ({ e with writer := false }, .waiting)
  | .waiting, .channel => if e.queue.wg = 0 then some (e, .returned none) else none
  | .waiting, .done => some (e, .returned (some .canceled))
  | .waiting, .after => some (e, .returned (some .deadlineExceeded))
  | _, _ => none

def next (e : Executor) (i : ℕ) (t : Thread τ) (b : Branch) :
    Option (Outcome Executor (Thread τ)) :=
  if e.queue.panic.isSome then none
  else
    match t with
    | .worker w => (e.queue.worker w b).map fun (q, w) => ⟨{ e with queue := q }, .worker w, []⟩
    | .submit task timeout stage =>
      (e.submitNext i task timeout stage b).map fun (e, stage) =>
        ⟨e, .submit task timeout stage, []⟩
    | .submitBatch tasks stage =>
      (stage.next tasks (!e.closed) e.queue i b).map fun (q, stage) =>
        ⟨{ e with queue := q }, .submitBatch tasks stage, []⟩
    | .shutdown stage => (e.shutdownNext stage b).map fun (e, stage) => ⟨e, .shutdown stage, []⟩

def entry : Thread τ → Bool
  | .worker _ => false
  | .submit _ _ stage => stage = .called
  | .submitBatch _ stage => stage = .called
  | .shutdown stage => stage = .called

def code (τ : Type*) : Code Executor (Thread τ) Branch := ⟨next, entry⟩

inductive SubmitStep (i : ℕ) (e : Executor) : Submit → Executor → Submit → Prop
  | refuse {err} : SubmitStep i e .called e (.returned (.error err))
  | enter : SubmitStep i e .called e .locking
  | rlock (h : e.writer = false) :
      SubmitStep i e .locking { e with readers := e.readers + 1 } .checking
  | shut (h : e.closed = true) : SubmitStep i e .checking e (.unlocking (.error .notRunning))
  | pass (h : e.closed = false) : SubmitStep i e .checking e .selecting
  | send {q} (h : e.queue.send ⟨i, 0⟩ = some q) :
      SubmitStep i e .selecting { e with queue := q } .sent
  | context : SubmitStep i e .selecting e (.unlocking (.error .context))
  | reject {err} : SubmitStep i e .selecting e (.rejected err)
  | count : SubmitStep i e .sent { e with queue := e.queue.countQueued 1 } (.unlocking (.ok ()))
  | countRejected {err} : SubmitStep i e (.rejected err)
      { e with queue := e.queue.countRejected 1 } (.unlocking (.error err))
  | runlock {r} : SubmitStep i e (.unlocking r) { e with readers := e.readers - 1 } (.returned r)

variable {e : Executor} {b : Branch}

theorem submitStep_of_submitNext {e' : Executor} {i : ℕ} {task : Option τ} {timeout : Option ℤ}
    {st st' : Submit} (h : e.submitNext i task timeout st b = some (e', st')) :
    e.SubmitStep i st e' st' := by
  revert h
  fun_cases Executor.submitNext e i task timeout st b <;> intro h
  case case8 =>
    obtain ⟨q, hq, hpair⟩ := Option.map_eq_some_iff.mp h
    cases hpair
    exact .send hq
  case case11 =>
    obtain ⟨d, -, hpair⟩ := Option.map_eq_some_iff.mp h
    cases hpair
    exact .reject
  all_goals cases h
  case case1 | case2 => exact .refuse
  case case3 => exact .enter
  case case5 hwriter => exact .rlock (by simpa using hwriter)
  case case6 hclosed => exact .shut hclosed
  case case7 hclosed => exact .pass (by simpa using hclosed)
  case case9 => exact .context
  case case12 => exact .reject
  case case14 => exact .count
  case case15 => exact .countRejected
  case case16 => exact .runlock

inductive ShutdownStep (e : Executor) : Shutdown → Executor → Shutdown → Prop
  | again (h : e.closed = true) : ShutdownStep e .called e (.returned none)
  | shut (h : e.closed = false) : ShutdownStep e .called { e with closed := true } .locking
  | announce : ShutdownStep e .locking { e with writer := true } .draining
  | lock (h : e.readers = 0) : ShutdownStep e .draining e .locked
  | cancel : ShutdownStep e .locked { e with queue := { e.queue with cancelled := true } } .closing
  | close : ShutdownStep e .closing { e with queue := e.queue.close } .unlocking
  | unlock : ShutdownStep e .unlocking { e with writer := false } .waiting
  | drained (h : e.queue.wg = 0) : ShutdownStep e .waiting e (.returned none)
  | expire {err} : ShutdownStep e .waiting e (.returned (some err))

theorem shutdownStep_of_shutdownNext {e' : Executor} {st st' : Shutdown}
    (h : e.shutdownNext st b = some (e', st')) : e.ShutdownStep st e' st' := by
  revert h
  fun_cases Executor.shutdownNext e st b <;> intro h <;> cases h
  case case1 hclosed => exact .again hclosed
  case case2 hclosed => exact .shut (by simpa using hclosed)
  case case3 => exact .announce
  case case4 hreaders => exact .lock hreaders
  case case6 => exact .cancel
  case case7 => exact .close
  case case8 => exact .unlock
  case case9 hwg => exact .drained hwg
  case case11 | case12 => exact .expire

inductive Step (i : ℕ) (b : Branch) (e : Executor) : Thread τ → Executor → Thread τ → Prop
  | worker {w q w'} (h : e.queue.WorkerStep b w q w') :
      Step i b e (.worker w) { e with queue := q } (.worker w')
  | submit {task timeout st e' st'} (h : e.SubmitStep i st e' st') :
      Step i b e (.submit task timeout st) e' (.submit task timeout st')
  | submitBatch {tasks st q st'} (h : Batch.Step i (!e.closed) e.queue st q st') :
      Step i b e (.submitBatch tasks st) { e with queue := q } (.submitBatch tasks st')
  | shutdown {st e' st'} (h : e.ShutdownStep st e' st') :
      Step i b e (.shutdown st) e' (.shutdown st')

theorem step_of_next {i : ℕ} {t : Thread τ} {o : Outcome Executor (Thread τ)}
    (h : e.next i t b = some o) :
    e.queue.panic = none ∧ o.started = [] ∧ Step i b e t o.shared o.thread := by
  unfold Executor.next at h
  split at h
  · cases h
  next hpanic =>
    refine ⟨by simpa using hpanic, ?_⟩
    cases t <;> obtain ⟨⟨e', st'⟩, hst, rfl⟩ := Option.map_eq_some_iff.mp h
    case worker => exact ⟨rfl, .worker (TaskQueue.workerStep_of_worker hst)⟩
    case submit => exact ⟨rfl, .submit (submitStep_of_submitNext hst)⟩
    case submitBatch => exact ⟨rfl, .submitBatch (Batch.step_of_next hst)⟩
    case shutdown => exact ⟨rfl, .shutdown (shutdownStep_of_shutdownNext hst)⟩

end Executor

end Fluxor.Concurrency
