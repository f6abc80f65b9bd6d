import Fluxor.Scheduler.Cron

/-!
# The task scheduler

The scheduler keeps entries with the time of their next run. Every second its loop
looks at each entry once, and starts a goroutine for an entry that is due; the
goroutine executes the task and only then moves or clears the time of the next run.

Taking the snapshot of the entries, looking at one entry, and each critical section
of a goroutine are steps of their own. Goroutines that have returned stay in the
list, the history of what was started. Ids, times and the order of a snapshot are
arguments of the steps.
-/

namespace Fluxor.Scheduler

open Support GoTime

/-! ## Schedule specifications -/

/-- A schedule specification. Intervals and delays are positive. -/
inductive ScheduleSpec
  | cron (cron : Option CronSchedule)
  | interval (interval : ℤ) (pos : 0 < interval)
  | delay (delay : ℤ) (pos : 0 < delay) (used : Bool)

namespace ScheduleSpec

/-- The next execution time from `t`, and the specification after the call. -/
def next (t : ℤ) : ScheduleSpec → ℤ × ScheduleSpec
  | .cron none => (zeroTime, .cron none)
  | .cron (some cs) => (cs.next t, .cron (some cs))
  | .interval d pos => (t + d, .interval d pos)
  | .delay d pos false => (t + d, .delay d pos true)
  | .delay d pos true => (zeroTime, .delay d pos true)

def isRecurring : ScheduleSpec → Bool
  | .cron _ => true
  | .interval _ _ => true
  | .delay _ _ _ => false

def isNew : ScheduleSpec → Bool
  | .delay _ _ used => !used
  | _ => true

theorem next_gt {spec : ScheduleSpec} (h : spec.isRecurring) (t : ℤ) :
    (spec.next t).1 = zeroTime ∨ t < (spec.next t).1 := by
  cases spec with
  | cron cron =>
    cases cron with
    | none => exact .inl rfl
    | some cs => exact (cs.next_cases t).imp_right CronSchedule.IsNext.after
  | interval interval pos => exact .inr (lt_add_of_pos_right t pos)
  | delay => cases h

end ScheduleSpec

/-! ## State -/

structure Entry where
  spec : ScheduleSpec
  nextRun : ℤ
  lastRun : ℤ := zeroTime
  runCount : ℕ := 0

/-- A goroutine of `executeTask` is not yet running, in `Execute`, after the update
of `nextRun`, or back. -/
inductive Stage
  | spawned | executing | updated | returned
  deriving DecidableEq

/-- A goroutine of `executeTask`, with the `nextRun` for which it was
started. -/
structure Worker where
  entry : ℕ
  (now due : ℤ)
  stage : Stage := .spawned

def Worker.inFlight (w : Worker) : Bool :=
  w.stage = .spawned ∨ w.stage = .executing

/-- The scheduler loop: `scanning` goes through the rest of a snapshot. -/
inductive Loop
  | notStarted | idle
  | scanning (now : ℤ) (rest : List ℕ)
  | exited
  deriving DecidableEq

structure TaskScheduler where
  specs : ℕ → Option ScheduleSpec := fun _ => none
  entries : ℕ → Option Entry := fun _ => none
  tasks : List ℕ := []
  workers : List Worker := []
  loop : Loop := .notStarted
  stopped : Bool := false

inductive Action
  | construct (spec : ℕ) (value : ScheduleSpec)
  | schedule (id spec : ℕ) (now : ℤ)
  | unschedule (id : ℕ)
  | start | stop
  | tick (now : ℤ)
  | test (id : ℕ)
  | scanned | exit
  | execute (w : ℕ)
  | update (w : ℕ)
  | remove (w : ℕ)

namespace TaskScheduler

/-! ## Steps -/

variable (s : TaskScheduler)

/-- A new specification; `Schedule` may be called with it several times. -/
def construct (spec : ℕ) (value : ScheduleSpec) : Option TaskScheduler :=
  if s.specs spec = none ∧ value.isNew then
    some { s with specs := Function.update s.specs spec (some value) }
  else none

/-- `Schedule` with a fresh id; it fails after a stop. -/
def schedule (id spec : ℕ) (now : ℤ) : Option TaskScheduler :=
  if s.stopped then some s
  else
    match s.entries id, s.specs spec with
    | none, some value =>
      let (nextRun, value) := value.next now
      some { s with
        specs := Function.update s.specs spec (some value)
        entries := Function.update s.entries id (some { spec := value, nextRun := nextRun })
        tasks := s.tasks ++ [id] }
    | _, _ => none

/-- `Unschedule`; an unknown id is an error and changes nothing. -/
def unschedule (id : ℕ) : TaskScheduler :=
  { s with tasks := s.tasks.filter (· ≠ id) }

/-- `Start`; it fails if the scheduler was started or stopped before. -/
def start : TaskScheduler :=
  if s.loop = .notStarted ∧ s.stopped = false then { s with loop := .idle }
  else s

def stop : TaskScheduler := { s with stopped := true }

/-- The loop receives a tick and takes a snapshot of the entries. -/
def tick (now : ℤ) : Option TaskScheduler :=
  if s.loop = .idle then some { s with loop := .scanning now s.tasks }
  else none

/-- The loop looks at one entry and starts a goroutine if it is due. -/
def test (id : ℕ) : Option TaskScheduler :=
  match s.loop, s.entries id with
  | .scanning now rest, some e =>
    if id ∈ rest then
      let s := { s with loop := .scanning now (rest.erase id) }
      if e.nextRun ≠ zeroTime ∧ e.nextRun ≤ now then
        some { s with
          workers := s.workers ++ [⟨id, now, e.nextRun, .spawned⟩] }
      else some s
    else none
  | _, _ => none

def scanned : Option TaskScheduler :=
  match s.loop with
  | .scanning _ [] => some { s with loop := .idle }
  | _ => none

def exit : Option TaskScheduler :=
  if s.loop = .idle then some { s with loop := .exited } else none

def setStage (w : ℕ) (stage : Stage) : TaskScheduler :=
  { s with workers := s.workers.modify w fun wk => { wk with stage := stage } }

def setEntry (id : ℕ) (e : Entry) : TaskScheduler :=
  { s with entries := Function.update s.entries id (some e) }

/-- The goroutine counts the run and calls `Execute`. -/
def execute (w : ℕ) (wk : Worker) (e : Entry) : TaskScheduler :=
  (s.setEntry wk.entry { e with lastRun := wk.now, runCount := e.runCount + 1 }).setStage w
      .executing

/-- `Execute` has returned; the goroutine moves or clears `nextRun`. -/
def update (w : ℕ) (wk : Worker) (e : Entry) : TaskScheduler :=
  (s.setEntry wk.entry { e with
    nextRun := if e.spec.isRecurring then (e.spec.next wk.now).1
      else zeroTime }).setStage w .updated

def remove (w : ℕ) (wk : Worker) (e : Entry) : TaskScheduler :=
  (if e.spec.isRecurring then s else s.unschedule wk.entry).setStage w .returned

/-- A step of a goroutine that is at the given stage. -/
def workerStep (w : ℕ) (stage : Stage)
    (f : Worker → Entry → TaskScheduler) : Option TaskScheduler :=
  match s.workers[w]? with
  | none => none
  | some wk =>
    match s.entries wk.entry with
    | none => none
    | some e => if wk.stage = stage then some (f wk e) else none

def step : Action → Option TaskScheduler
  | .construct spec value => s.construct spec value
  | .schedule id spec now => s.schedule id spec now
  | .unschedule id => some (s.unschedule id)
  | .start => some s.start
  | .stop => some s.stop
  | .tick now => s.tick now
  | .test id => s.test id
  | .scanned => s.scanned
  | .exit => s.exit
  | .execute w => s.workerStep w .spawned (s.execute w)
  | .update w => s.workerStep w .executing (s.update w)
  | .remove w => s.workerStep w .updated (s.remove w)

/-! ## Executions -/

/-- The `nextRun` values for which a task was executed, one for each call of
its `Execute`. -/
def executions (id : ℕ) : List ℤ :=
  (s.workers.filter fun w => w.entry = id ∧ w.stage ≠ .spawned).map Worker.due

end TaskScheduler

end Fluxor.Scheduler
