import Fluxor.Concurrency.Mailbox
import Fluxor.Concurrency.TaskQueue

/-!
# The worker pool

`defaultWorkerPool` of `pkg/core/concurrency/workerpool_impl.go`. `Submit` and
`SubmitBatch` test the running flag and then send, with no lock held; `Stop`
clears the flag, cancels the context and closes the channel.

Nothing keeps `Start` from being called after `Stop`: it sets the flag again,
while the channel stays closed.
-/

namespace Fluxor.Concurrency

open Goroutines Transition

variable {τ : Type*}

structure WorkerPool where
  workers : ℕ
  queue : TaskQueue
  running : Bool := false

namespace WorkerPool

inductive Submit
  | called | selecting | sent | rejected
  | returned (r : Except SubmitError Unit)
  deriving DecidableEq

/-- Where a call of `Start` is. It fails when the pool is running. -/
inductive Start
  | called | starting
  | returned (ok : Bool)
  deriving DecidableEq

/-- Where a call of `Stop` is. It returns nil or the error of its own
context. -/
inductive Stop
  | called | cancelling | closing | waiting
  | returned (err : Option ContextError)
  deriving DecidableEq

inductive Thread (τ : Type*)
  | worker (w : Worker)
  | submit (task : Option τ) (stage : Submit)
  | submitBatch (tasks : List (Option τ)) (stage : Batch)
  | start (stage : Start)
  | stop (stage : Stop)

/-- `NewWorkerPool`, with the defaults of the executor. -/
def newWorkerPool (τ : Type*) (workers queueSize : ℤ) : Config WorkerPool (Thread τ) where
  shared :=
    { workers := if workers < 1 then 1 else workers.toNat
      queue :=
        { queueSize := if queueSize < 1 then 100 else queueSize.toNat } }
  threads := []

variable (p : WorkerPool)

def submitNext (i : ℕ) (task : Option τ) : Submit → Branch → Option (WorkerPool × Submit)
  | .called, .next =>
    if task.isNone then some (p, .returned (.error .nilTask))
    else if p.running then some (p, .selecting)
    else some (p, .returned (.error .notRunning))
  | .selecting, .channel => (p.queue.send ⟨i, 0⟩).map fun q => ({ p with queue := q }, .sent)
  | .selecting, .done =>
    if p.queue.cancelled then some (p, .returned (.error .context))
    else none
  | .selecting, .default => if p.queue.blocked then some (p, .rejected) else none
  | .sent, .next => some ({ p with queue := p.queue.countQueued 1 }, .returned (.ok ()))
  | .rejected, .next => some ({ p with queue := p.queue.countRejected 1 }, .returned (.error .full))
  | _, _ => none

/-- `Start`; the last component is the number of workers it starts. -/
def startNext : Start → Branch → Option (WorkerPool × Start × ℕ)
  | .called, .next =>
    if p.running then some (p, .returned false, 0)
    else some ({ p with running := true }, .starting, 0)
  | .starting, .next =>
    some ({ p with queue := { p.queue with wg := p.queue.wg + p.workers } },
      .returned true, p.workers)
  | _, _ => none

def stopNext : Stop → Branch → Option (WorkerPool × Stop)
  | .called, .next =>
    if p.running then some ({ p with running := false }, .cancelling)
    else some (p, .returned none)
  | .cancelling, .next => some ({ p with queue := { p.queue with cancelled := true } }, .closing)
  | .closing, .next => some ({ p with queue := p.queue.close }, .waiting)
  | .waiting, .channel => if p.queue.wg = 0 then some (p, .returned none) else none
  | .waiting, .done => some (p, .returned (some .canceled))
  | .waiting, .after => some (p, .returned (some .deadlineExceeded))
  | _, _ => none

def next (i : ℕ) (t : Thread τ) (b : Branch) : Option (Outcome WorkerPool (Thread τ)) :=
  if p.queue.panic.isSome then none
  else
    match t with
    | .worker w => (p.queue.worker w b).map fun (q, w) => ⟨{ p with queue := q }, .worker w, []⟩
    | .submit task stage =>
      (p.submitNext i task stage b).map fun (p, stage) => ⟨p, .submit task stage, []⟩
    | .submitBatch tasks stage =>
      (stage.next tasks p.running p.queue i b).map fun (q, stage) =>
        ⟨{ p with queue := q }, .submitBatch tasks stage, []⟩
    | .start stage =>
      (p.startNext stage b).map fun (p, stage, n) =>
        ⟨p, .start stage, List.replicate n (.worker .idle)⟩
    | .stop stage => (p.stopNext stage b).map fun (p, stage) => ⟨p, .stop stage, []⟩

def entry : Thread τ → Bool
  | .worker _ => false
  | .submit _ stage => stage = .called
  | .submitBatch _ stage => stage = .called
  | .start stage => stage = .called
  | .stop stage => stage = .called

def code (τ : Type*) : Code WorkerPool (Thread τ) Branch := ⟨next, entry⟩

inductive Step (i : ℕ) (b : Branch) (p : WorkerPool) :
    Thread τ → WorkerPool → Thread τ → List (Thread τ) → Prop
  | worker {w q w'} (h : p.queue.WorkerStep b w q w') :
      Step i b p (.worker w) { p with queue := q } (.worker w') []
  | refuse {task r} : Step i b p (.submit task .called) p (.submit task (.returned r)) []
  | pass {task} (h : p.running = true) :
      Step i b p (.submit task .called) p (.submit task .selecting) []
  | send {task q} (h : p.queue.send ⟨i, 0⟩ = some q) :
      Step i b p (.submit task .selecting) { p with queue := q } (.submit task .sent) []
  | context {task r} : Step i b p (.submit task .selecting) p (.submit task (.returned r)) []
  | reject {task} : Step i b p (.submit task .selecting) p (.submit task .rejected) []
  | count {task} : Step i b p (.submit task .sent) { p with queue := p.queue.countQueued 1 }
      (.submit task (.returned (.ok ()))) []
  | countRejected {task r} : Step i b p (.submit task .rejected)
      { p with queue := p.queue.countRejected 1 }
      (.submit task (.returned r)) []
  | submitBatch {tasks st q st'} (h : Batch.Step i p.running p.queue st q st') :
      Step i b p (.submitBatch tasks st) { p with queue := q } (.submitBatch tasks st') []
  | isRunning (h : p.running = true) : Step i b p (.start .called) p (.start (.returned false)) []
  | start (h : p.running = false) :
      Step i b p (.start .called) { p with running := true } (.start .starting) []
  | started : Step i b p (.start .starting)
      { p with queue := { p.queue with wg := p.queue.wg + p.workers } }
      (.start (.returned true)) (List.replicate p.workers (.worker .idle))
  | isStopped (h : p.running = false) : Step i b p (.stop .called) p (.stop (.returned none)) []
  | stop (h : p.running = true) :
      Step i b p (.stop .called) { p with running := false } (.stop .cancelling) []
  | cancel : Step i b p (.stop .cancelling) { p with queue := { p.queue with cancelled := true } }
      (.stop .closing) []
  | close : Step i b p (.stop .closing) { p with queue := p.queue.close } (.stop .waiting) []
  | finish {err} : Step i b p (.stop .waiting) p (.stop (.returned err)) []

section Inversion

variable {p p' : WorkerPool} {i : ℕ} {b : Branch}

theorem step_of_submitNext {task : Option τ} {st st' : Submit}
    (h : p.submitNext i task st b = some (p', st')) :
    Step i b p (.submit task st) p' (.submit task st') [] := by
  revert h
  fun_cases WorkerPool.submitNext p i task st b <;> intro h
  case case4 =>
    obtain ⟨q, hq, hpair⟩ := Option.map_eq_some_iff.mp h
    cases hpair
    exact .send hq
  all_goals cases h
  case case1 | case3 => exact .refuse
  case case2 hrunning => exact .pass hrunning
  case case5 => exact .context
  case case7 => exact .reject
  case case9 => exact .count
  case case10 => exact .countRejected

theorem step_of_startNext {st st' : Start} {n : ℕ} (h : p.startNext st b = some (p', st', n)) :
    Step i b p (.start st : Thread τ) p' (.start st') (List.replicate n (.worker .idle)) := by
  revert h
  fun_cases WorkerPool.startNext p st b <;> intro h <;> cases h
  case case1 hrunning => exact .isRunning hrunning
  case case2 hrunning => exact .start (by simpa using hrunning)
  case case3 => exact .started

theorem step_of_stopNext {st st' : Stop} (h : p.stopNext st b = some (p', st')) :
    Step i b p (.stop st : Thread τ) p' (.stop st') [] := by
  revert h
  fun_cases WorkerPool.stopNext p st b <;> intro h <;> cases h
  case case1 hrunning => exact .stop hrunning
  case case2 hrunning => exact .isStopped (by simpa using hrunning)
  case case3 => exact .cancel
  case case4 => exact .close
  case case5 | case7 | case8 => exact .finish

theorem step_of_next {t : Thread τ} {o : Outcome WorkerPool (Thread τ)}
    (h : p.next i t b = some o) :
    p.queue.panic = none ∧ Step i b p t o.shared o.thread o.started := by
  unfold WorkerPool.next at h
  split at h
  · cases h
  next hpanic =>
    refine ⟨by simpa using hpanic, ?_⟩
    cases t <;> obtain ⟨⟨p', st'⟩, hst, rfl⟩ := Option.map_eq_some_iff.mp h
    case worker => exact .worker (TaskQueue.workerStep_of_worker hst)
    case submit => exact step_of_submitNext hst
    case submitBatch => exact .submitBatch (Batch.step_of_next hst)
    case start => exact step_of_startNext hst
    case stop => exact step_of_stopNext hst

end Inversion

end WorkerPool

end Fluxor.Concurrency
