import Fluxor.Support.Goroutines

/-!
# The bulkhead

`bulkheadManager` of `pkg/core/resilience/bulkhead`: calls of `Execute` from any
number of goroutines, the queue processor, `Stop`, and contexts that end at any
time. Each channel operation, each `select` and each atomic addition is a step;
the `go` statement of the processor belongs to the `select` before it.

The function of a call returns when it likes and what it likes, and the queue
timeout may run out at any time. Left out are the callbacks and the statistics
other than the three totals, which are natural numbers here.
-/

namespace Fluxor.Resilience.Bulkhead

open Goroutines Function Option

structure Settings where
  maxConcurrency : ℤ := 10
  maxQueueSize : ℤ := 0
  queueTimeout : ℤ := 0

variable (cfg : Settings)

/-- The capacity of the semaphore that `NewManagerWithConfig` makes. -/
def Settings.slots : ℕ :=
  if cfg.maxConcurrency ≤ 0 then 10 else cfg.maxConcurrency.toNat

/-- The capacity of the queue; there is none if it is zero. -/
def Settings.places : ℕ :=
  if cfg.maxQueueSize < 0 then 0 else cfg.maxQueueSize.toNat

theorem Settings.slots_pos : 0 < cfg.slots := by
  rw [slots]
  split <;> omega

/-! ## Errors -/

inductive ErrCode
  | bulkheadFull | nilContext | nilFunction | contextCanceled | contextTimeout
  deriving DecidableEq

structure Error where
  code : ErrCode
  message : String
  deriving DecidableEq

inductive Cause
  | deadlineExceeded | canceled
  deriving DecidableEq

/-- What a call returns whose context has ended; `place` tells where. -/
def contextError (place : String) : Cause → Error
  | .deadlineExceeded => ⟨.contextTimeout,
      "context timeout" ++ place ++ ": context deadline exceeded"⟩
  | .canceled => ⟨.contextCanceled, "context cancelled" ++ place ++ ": context canceled"⟩

def bulkheadFull : Error :=
  ⟨.bulkheadFull, "bulkhead full (max concurrency: " ++ toString cfg.slots ++ ")"⟩

def queueFull : Error :=
  ⟨.bulkheadFull, "bulkhead and queue full (max concurrency: " ++ toString cfg.slots ++
      ", max queue: " ++ toString cfg.places ++ ")"⟩

/-- The answers of the processor when the queue timeout has run out, the context has
ended, or the manager is stopped. -/
def queueTimeout : Error :=
  ⟨.contextTimeout, "queue timeout while waiting for bulkhead slot"⟩

def cancelledInQueue : Error :=
  ⟨.contextCanceled, "context cancelled while waiting for bulkhead slot"⟩

def bulkheadStopped : Error := ⟨.bulkheadFull, "bulkhead stopped"⟩

/-- What `Execute` returns: the result of the function, or an error of the
bulkhead. -/
inductive Verdict (ε : Type*)
  | ran (err : Option ε)
  | refused (e : Error)
  deriving DecidableEq

/-! ## The state -/

/-- The function of call `caller` is called, and returns. -/
inductive Event (ε : Type*)
  | began (caller : ℕ)
  | ended (caller : ℕ) (err : Option ε)
  deriving DecidableEq

def Event.caller {ε : Type*} : Event ε → ℕ
  | .began caller | .ended caller _ => caller

/-- `bulkheadManager`, the result channels of the calls, and the contexts that have
ended. A call is known by its goroutine. `stopped` and `finished` tell whether
`stopChan` and `doneChan` are closed; `history` records what has happened to the
functions. -/
structure Manager (ε : Type*) where
  semaphore : ℕ := 0
  queue : List ℕ := []
  results : ℕ → Option (Verdict ε) := fun _ => none
  ended : ℕ → Option Cause := fun _ => none
  stopped : Bool := false
  finished : Bool := false
  totalExecutions : ℕ := 0
  totalAccepted : ℕ := 0
  totalRejected : ℕ := 0
  history : List (Event ε) := []

inductive Work (ε : Type*)
  | accepting | running
  | sending (err : Option ε)
  | releasing (err : Option ε)
  | returned (err : Option ε)
  deriving DecidableEq

inductive Args
  | valid | nilContext | nilFunction
  deriving DecidableEq

inductive Call (ε : Type*)
  | called | choosing | queueing
  | executing (work : Work ε)
  | waiting
  | rejecting (e : Error)
  | returned (v : Verdict ε)
  deriving DecidableEq

/-- Where `queueProcessor` is; `stop` tells whether it returns after its
answer. -/
inductive Processor
  | selecting
  | holding (caller : ℕ)
  | rejecting (caller : ℕ) (e : Error) (stop : Bool)
  | answering (caller : ℕ) (e : Error) (stop : Bool)
  | closing | returned
  deriving DecidableEq

inductive Stop
  | called | closing | waiting | returned | panicked
  deriving DecidableEq

/-- `runner` is the goroutine that the processor starts for a call. -/
inductive Thread (ε : Type*)
  | call (args : Args) (st : Call ε)
  | processor (st : Processor)
  | runner (caller : ℕ) (work : Work ε)
  | stop (st : Stop)
  | expire (caller : ℕ) (cause : Cause) (ended : Bool)
  deriving DecidableEq

/-- The only way to go on, a case of a `select`, or what the function
returns. -/
inductive Choice (ε : Type*)
  | go | acquire | send | receive | done | timeout | stop | default
  | returns (err : Option ε)

variable {ε : Type*}

namespace Manager

def answer (m : Manager ε) (caller : ℕ) (v : Verdict ε) : Manager ε :=
  { m with
    results := update m.results caller ((m.results caller).or (some v)) }

def workNext (m : Manager ε) (caller : ℕ) (channel : Bool) :
    Work ε → Choice ε → Option (Manager ε × Work ε)
  | .accepting, .go =>
    some ({ m with
      totalAccepted := m.totalAccepted + 1
      history := m.history ++ [Event.began caller] }, .running)
  | .running, .returns err =>
    some ({ m with history := m.history ++ [Event.ended caller err] },
      if channel then .sending err else .releasing err)
  | .sending err, .go => some (m.answer caller (.ran err), .releasing err)
  | .releasing err, .go =>
    if m.semaphore = 0 then none
    else some ({ m with semaphore := m.semaphore - 1 }, .returned err)
  | _, _ => none

def afterWork : Work ε → Call ε
  | .returned err => .returned (.ran err)
  | work => .executing work

/-- `ExecuteWithConfig`, with `executeWithQueue` or, if there is no queue, `executeWithoutQueue`. -/
def callNext (cfg : Settings) (m : Manager ε) (i : ℕ) (args : Args) :
    Call ε → Choice ε → Option (Manager ε × Call ε)
  | .called, .go =>
    match args with
    | .nilContext => some (m, .returned (.refused ⟨.nilContext, "context cannot be nil"⟩))
    | .nilFunction => some (m, .returned (.refused ⟨.nilFunction, "function cannot be nil"⟩))
    | .valid => some ({ m with totalExecutions := m.totalExecutions + 1 }, .choosing)
  | .choosing, .acquire =>
    if m.semaphore < cfg.slots then
      some ({ m with semaphore := m.semaphore + 1 }, .executing .accepting)
    else none
  | .choosing, .done => (m.ended i).map fun cause => (m, .rejecting (contextError "" cause))
  | .choosing, .default =>
    if m.semaphore < cfg.slots then none
    else if (m.ended i).isSome then none
    else if 0 < cfg.places then some (m, .queueing)
    else some (m, .rejecting (bulkheadFull cfg))
  | .queueing, .send =>
    if m.queue.length < cfg.places then
      some ({ m with queue := m.queue ++ [i] }, .waiting)
    else none
  | .queueing, .default =>
    if m.queue.length < cfg.places then none
    else some (m, .rejecting (queueFull cfg))
  | .executing work, choice =>
    (m.workNext i false work choice).map fun (m, work) => (m, afterWork work)
  | .waiting, .receive =>
    (m.results i).map fun v => ({ m with results := update m.results i none }, .returned v)
  | .waiting, .done =>
    (m.ended i).map fun cause =>
      (m, .rejecting (contextError " while queued" cause))
  | .rejecting e, .go =>
    some ({ m with totalRejected := m.totalRejected + 1 }, .returned (.refused e))
  | _, _ => none

def processorNext (cfg : Settings) (m : Manager ε) :
    Processor → Choice ε → Option (Manager ε × Processor × List (Thread ε))
  | .selecting, .stop => if m.stopped then some (m, .closing, []) else none
  | .selecting, .receive =>
    match m.queue with
    | [] => none
    | caller :: rest => some ({ m with queue := rest }, .holding caller, [])
  | .holding caller, .acquire =>
    if m.semaphore < cfg.slots then
      some ({ m with semaphore := m.semaphore + 1 }, .selecting, [.runner caller .accepting])
    else none
  | .holding caller, .timeout =>
    if 0 < cfg.queueTimeout then
      some (m, .rejecting caller queueTimeout false, [])
    else none
  | .holding caller, .done =>
    if (m.ended caller).isSome then
      some (m, .rejecting caller cancelledInQueue false, [])
    else none
  | .holding caller, .stop =>
    if m.stopped then some (m, .rejecting caller bulkheadStopped true, [])
    else none
  | .rejecting caller e stop, .go =>
    some ({ m with totalRejected := m.totalRejected + 1 }, .answering caller e stop, [])
  | .answering caller e stop, .go =>
    some (m.answer caller (.refused e), if stop then .closing else .selecting, [])
  | .closing, .go => some ({ m with finished := true }, .returned, [])
  | _, _ => none

/-- `Stop`; a channel that is closed twice is a panic. -/
def stopNext (m : Manager ε) : Stop → Option (Manager ε × Stop)
  | .called => some (m, if m.stopped then .returned else .closing)
  | .closing =>
    if m.stopped then some (m, .panicked)
    else some ({ m with stopped := true }, .waiting)
  | .waiting => if m.finished then some (m, .returned) else none
  | .returned | .panicked => none

/-! ## The program -/

def next (cfg : Settings) (m : Manager ε) (i : ℕ) (t : Thread ε)
    (choice : Choice ε) : Option (Outcome (Manager ε) (Thread ε)) :=
  match t with
  | .call args st => (m.callNext cfg i args st choice).map fun (m, st) => ⟨m, .call args st, []⟩
  | .processor st =>
    (m.processorNext cfg st choice).map fun (m, st, started) => ⟨m, .processor st, started⟩
  | .runner caller work =>
    (m.workNext caller true work choice).map fun (m, work) => ⟨m, .runner caller work, []⟩
  | .stop st => (m.stopNext st).map fun (m, st) => ⟨m, .stop st, []⟩
  | .expire caller cause false =>
    some ⟨{ m with
      ended := update m.ended caller
        ((m.ended caller).or (some cause)) }, .expire caller cause true, []⟩
  | .expire _ _ true => none

def entry : Thread ε → Bool
  | .call _ .called | .stop .called | .expire _ _ false => true
  | _ => false

end Manager

def code (ε : Type*) : Code (Manager ε) (Thread ε) (Choice ε) := ⟨Manager.next cfg, Manager.entry⟩

/-- `NewManagerWithConfig`: without a queue there is no processor, and `doneChan` is closed. -/
def start (ε : Type*) : Config (Manager ε) (Thread ε) :=
  if 0 < cfg.places then ⟨{}, [.processor .selecting]⟩
  else ⟨{ finished := true }, []⟩

/-! ## The steps -/

inductive WorkStep (m : Manager ε) (caller : ℕ) (channel : Bool) :
    Work ε → Manager ε → Work ε → Prop
  | accept : WorkStep m caller channel .accepting { m with
        totalAccepted := m.totalAccepted + 1
        history := m.history ++ [Event.began caller] } .running
  | finish {err} : WorkStep m caller channel .running
      { m with history := m.history ++ [Event.ended caller err] }
      (if channel then .sending err else .releasing err)
  | send {err} : WorkStep m caller channel (.sending err)
      (m.answer caller (.ran err)) (.releasing err)
  | release {err} (h : m.semaphore ≠ 0) : WorkStep m caller channel (.releasing err)
        { m with semaphore := m.semaphore - 1 } (.returned err)

variable {m m' : Manager ε} {choice : Choice ε}

theorem workStep_of_workNext {caller : ℕ} {channel : Bool} {work work' : Work ε}
    (h : m.workNext caller channel work choice = some (m', work')) :
    WorkStep m caller channel work m' work' := by
  revert h
  fun_cases Manager.workNext m caller channel work choice <;> intro h <;>
    cases h
  case case1 => exact .accept
  case case2 => exact .finish
  case case3 => exact .send
  case case5 hsemaphore => exact .release hsemaphore

inductive CallStep (cfg : Settings) (m : Manager ε) (i : ℕ) (choice : Choice ε) :
    Call ε → Manager ε → Call ε → Prop
  | refuse {e} : CallStep cfg m i choice .called m (.returned (.refused e))
  | enter : CallStep cfg m i choice .called
      { m with totalExecutions := m.totalExecutions + 1 } .choosing
  | acquire (h : m.semaphore < cfg.slots) : CallStep cfg m i choice .choosing
      { m with semaphore := m.semaphore + 1 } (.executing .accepting)
  | reject {e} : CallStep cfg m i choice .choosing m (.rejecting e)
  | full (h : 0 < cfg.places) : CallStep cfg m i choice .choosing m .queueing
  | enqueue (hchoice : choice = .send) (h : m.queue.length < cfg.places) :
      CallStep cfg m i choice .queueing { m with queue := m.queue ++ [i] } .waiting
  | queueFull {e} : CallStep cfg m i choice .queueing m (.rejecting e)
  | work {work m' work'} (h : WorkStep m i false work m' work') :
      CallStep cfg m i choice (.executing work) m' (Manager.afterWork work')
  | receive {v} (h : m.results i = some v) : CallStep cfg m i choice .waiting
      { m with results := update m.results i none } (.returned v)
  | cancel {e} (h : m.ended i ≠ none) : CallStep cfg m i choice .waiting m (.rejecting e)
  | rejected {e} : CallStep cfg m i choice (.rejecting e)
      { m with totalRejected := m.totalRejected + 1 } (.returned (.refused e))

variable {cfg : Settings}

theorem callStep_of_callNext {i : ℕ} {args : Args} {st st' : Call ε}
    (h : m.callNext cfg i args st choice = some (m', st')) : CallStep cfg m i choice st m' st' := by
  revert h
  fun_cases Manager.callNext cfg m i args st choice <;> intro h
  case case6 =>
    obtain ⟨cause, -, heq⟩ := map_eq_some_iff.mp h
    cases heq
    exact .reject
  case case15 =>
    obtain ⟨⟨m', work'⟩, hwork, heq⟩ := map_eq_some_iff.mp h
    cases heq
    exact .work (workStep_of_workNext hwork)
  case case16 =>
    obtain ⟨v, hv, heq⟩ := map_eq_some_iff.mp h
    cases heq
    exact .receive hv
  case case17 =>
    obtain ⟨cause, hcause, heq⟩ := map_eq_some_iff.mp h
    cases heq
    refine .cancel ?_
    rw [hcause]
    exact some_ne_none cause
  all_goals cases h
  case case1 | case2 => exact .refuse
  case case3 => exact .enter
  case case4 hsemaphore => exact .acquire hsemaphore
  case case9 hplaces => exact .full hplaces
  case case10 => exact .reject
  case case11 hqueue => exact .enqueue rfl hqueue
  case case14 => exact .queueFull
  case case18 => exact .rejected

inductive ProcessorStep (cfg : Settings) (m : Manager ε) (choice : Choice ε) :
    Processor → Manager ε → Processor → List (Thread ε) → Prop
  | stop (h : m.stopped = true) : ProcessorStep cfg m choice .selecting m .closing []
  | receive {caller rest} (hchoice : choice = .receive) (h : m.queue = caller :: rest) :
      ProcessorStep cfg m choice .selecting { m with queue := rest } (.holding caller) []
  | acquire {caller} (h : m.semaphore < cfg.slots) : ProcessorStep cfg m choice (.holding caller)
        { m with semaphore := m.semaphore + 1 } .selecting
        [.runner caller .accepting]
  | reject {caller e} : ProcessorStep cfg m choice (.holding caller) m
      (.rejecting caller e false) []
  | halt {caller e} (h : m.stopped = true) :
      ProcessorStep cfg m choice (.holding caller) m (.rejecting caller e true) []
  | rejected {caller e stop} : ProcessorStep cfg m choice (.rejecting caller e stop)
        { m with totalRejected := m.totalRejected + 1 }
        (.answering caller e stop) []
  | answer {caller e stop} : ProcessorStep cfg m choice (.answering caller e stop)
        (m.answer caller (.refused e)) (if stop then .closing else .selecting)
        []
  | close : ProcessorStep cfg m choice .closing { m with finished := true } .returned []

theorem processorStep_of_processorNext {st st' : Processor} {started : List (Thread ε)}
    (h : m.processorNext cfg st choice = some (m', st', started)) :
    ProcessorStep cfg m choice st m' st' started := by
  revert h
  fun_cases Manager.processorNext cfg m st choice <;> intro h <;> cases h
  case case1 hstopped => exact .stop hstopped
  case case4 hqueue => exact .receive rfl hqueue
  case case5 hsemaphore => exact .acquire hsemaphore
  case case7 | case9 => exact .reject
  case case11 hstopped => exact .halt hstopped
  case case13 => exact .rejected
  case case14 => exact .answer
  case case15 => exact .close

inductive StopStep (m : Manager ε) : Stop → Manager ε → Stop → Prop
  | check {st'} : StopStep m .called m st'
  | close : StopStep m .closing { m with stopped := true } .waiting
  | panic : StopStep m .closing m .panicked
  | finished : StopStep m .waiting m .returned

theorem stopStep_of_stopNext {st st' : Stop} (h : m.stopNext st = some (m', st')) :
    StopStep m st m' st' := by
  revert h
  fun_cases Manager.stopNext m st <;> intro h <;> cases h
  case case1 => exact .check
  case case2 => exact .panic
  case case3 => exact .close
  case case4 => exact .finished

inductive Step (cfg : Settings) (m : Manager ε) (i : ℕ) (choice : Choice ε) :
    Thread ε → Outcome (Manager ε) (Thread ε) → Prop
  | call {args st m' st'} (h : CallStep cfg m i choice st m' st') :
      Step cfg m i choice (.call args st) ⟨m', .call args st', []⟩
  | processor {st m' st' started} (h : ProcessorStep cfg m choice st m' st' started) :
      Step cfg m i choice (.processor st) ⟨m', .processor st', started⟩
  | runner {caller work m' work'} (h : WorkStep m caller true work m' work') :
      Step cfg m i choice (.runner caller work) ⟨m', .runner caller work', []⟩
  | stop {st m' st'} (h : StopStep m st m' st') : Step cfg m i choice (.stop st) ⟨m', .stop st', []⟩
  | expire {caller cause} : Step cfg m i choice (.expire caller cause false) ⟨{ m with
        ended := update m.ended caller
          ((m.ended caller).or (some cause)) }, .expire caller cause true, []⟩

theorem step_of_next {i : ℕ} {t : Thread ε} {o : Outcome (Manager ε) (Thread ε)}
    (h : (code cfg ε).next m i t choice = some o) : Step cfg m i choice t o := by
  revert h
  change Manager.next cfg m i t choice = some o → _
  fun_cases Manager.next cfg m i t choice <;> intro h
  case case5 =>
    cases h
    exact .expire
  case case6 => cases h
  all_goals obtain ⟨⟨m', st'⟩, hnext, rfl⟩ := map_eq_some_iff.mp h
  · exact .call (callStep_of_callNext hnext)
  · exact .processor (processorStep_of_processorNext hnext)
  · exact .runner (workStep_of_workNext hnext)
  · exact .stop (stopStep_of_stopNext hnext)

end Fluxor.Resilience.Bulkhead
