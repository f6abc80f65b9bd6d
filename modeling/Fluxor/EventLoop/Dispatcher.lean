import Fluxor.Concurrency.Mailbox
import Fluxor.EventLoop.RingSafety
import Fluxor.EventLoop.Routing

/-!
# The event-loop group

`Dispatcher.Dispatch` and `EventLoop.Dispatch` over any number of loops, each
with its own ring, and any number of producers. A step is the locked choice
of a loop, a test of the closed flag, one atomic operation on a ring, one
operation of a loop goroutine, or a close.
-/

namespace Fluxor.EventLoop

open Fluxor.Concurrency Fluxor.Support Fluxor.Transition

inductive BackpressurePolicy
  | block | drop | dropByTopic

inductive DispatchError
  | coded (err : CodedError)
  | context (err : ContextError)
  deriving DecidableEq

def errInvalidEvent : DispatchError :=
  .coded ⟨"INVALID_EVENT", "event cannot be nil"⟩

def errNoLoops : DispatchError :=
  .coded ⟨"NO_LOOPS", "no event loops available"⟩

def errLoopClosed : DispatchError :=
  .coded ⟨"CLOSED", "event loop is closed"⟩

def errQueueFull : DispatchError :=
  .coded ⟨"QUEUE_FULL", "queue is full, message dropped"⟩

/-- What a ring holds: the event pointer, with the number of its call, which tells
two dispatches of one event apart. -/
structure Dispatched (ι β η : Type*) where
  producer : ι
  call : ℕ
  event : Event β η

structure Loop (ι ε : Type*) where
  ring : Disruptor ι ε
  closed : Bool
  ctxErr : Option ContextError

/-- A producer in `Dispatch`: before the closed test of `EventLoop.Dispatch`, at the
head of its blocking loop, or in `Next` and `Publish`. -/
inductive DispatchState (β η : Type*)
  | idle
  | routed (event : Event β η) (idx : ℕ)
  | blocked (event : Event β η) (idx : ℕ)
  | publishing (event : Event β η) (idx : ℕ)

/-- History: call number `call` of `producer` was put on loop `idx`. -/
structure Route (ι β η : Type*) where
  producer : ι
  call : ℕ
  event : Event β η
  idx : ℕ

/-- Call number `call` of `producer` returned `result`, where nil is `none`. -/
structure Return (ι : Type*) where
  producer : ι
  call : ℕ
  result : Option DispatchError

structure Group (ι β η : Type*) where
  numLoops : ℕ
  backpressure : BackpressurePolicy
  extractor : KeyExtractor β
  loops : ℕ → Loop ι (Dispatched ι β η)
  roundRobinCounter : ℕ
  producer : ι → DispatchState β η
  calls : ι → ℕ
  routes : List (Route ι β η)
  returns : List (Return ι)
  panicked : Bool

inductive GroupAction (ι β η : Type*)
  | dispatch (p : ι) (event : Option (Event β η))
  | enter (p : ι)
  | spin (p : ι)
  | produce (p : ι)
  | consume (idx : ℕ)
  | stop (idx : ℕ)
  | close (idx : ℕ)
  | cancel (idx : ℕ) (err : ContextError)

namespace Group

variable {ι β η : Type*} [DecidableEq ι] (s : Group ι β η) (p : ι)

def setProducer (x : DispatchState β η) : Group ι β η :=
  { s with producer := Function.update s.producer p x }

def setLoop (idx : ℕ) (l : Loop ι (Dispatched ι β η)) : Group ι β η :=
  { s with loops := Function.update s.loops idx l }

def setRing (idx : ℕ) (r : Disruptor ι (Dispatched ι β η)) : Group ι β η :=
  s.setLoop idx { s.loops idx with ring := r }

def return_ (result : Option DispatchError) : Group ι β η :=
  { s.setProducer p .idle with
    returns := s.returns ++ [⟨p, s.calls p - 1, result⟩] }

def begin : Group ι β η :=
  { s with calls := Function.update s.calls p (s.calls p + 1) }

/-- `Dispatcher.Dispatch` up to the call of `loop.Dispatch`. -/
def dispatch : Option (Event β η) → Group ι β η
  | none => (s.begin p).return_ p (some errInvalidEvent)
  | some event =>
    match chooseLoop s.numLoops s.roundRobinCounter (routingKey s.extractor event) with
    | .panicked => { s with panicked := true }
    | .noLoops => (s.begin p).return_ p (some errNoLoops)
    | .loop idx counter =>
      { (s.begin p).setProducer p (.routed event idx) with
        roundRobinCounter := counter
        routes := s.routes ++ [⟨p, s.calls p, event, idx⟩] }

/-- The call of `Next` for the event of the current call of `p`. -/
def callNext (event : Event β η) (idx : ℕ) : Option (Group ι β η) :=
  ((s.loops idx).ring.step (.call p ⟨p, s.calls p - 1, event⟩)).map fun r =>
    (s.setRing idx r).setProducer p (.publishing event idx)

/-- `EventLoop.Dispatch` up to its back-pressure switch. -/
def enter : Option (Group ι β η) :=
  match s.producer p with
  | .routed event idx =>
    if (s.loops idx).closed then some (s.return_ p (some errLoopClosed))
    else
      match s.backpressure with
      | .drop => s.callNext p event idx
      | _ => some (s.setProducer p (.blocked event idx))
  | _ => none

/-- The head of the blocking loop returns `l.ctx.Err()`, which is nil when the loop
is closed but its context not yet cancelled. -/
def spin : Option (Group ι β η) :=
  match s.producer p with
  | .blocked event idx =>
    if (s.loops idx).closed ∨ (s.loops idx).ctxErr.isSome then
      some (s.return_ p ((s.loops idx).ctxErr.map .context))
    else s.callNext p event idx
  | _ => none

/-- One atomic operation of `Next` or `Publish`, and what follows it in
`EventLoop.Dispatch` when it is the last one. -/
def produce : Option (Group ι β η) :=
  match s.producer p with
  | .publishing event idx =>
    let ring := (s.loops idx).ring
    (ring.produce p).map fun r =>
      match ring.producer p, r.producer p with
      | .loadGating _ _, .idle =>
        match s.backpressure with
        | .drop => (s.setRing idx r).return_ p (some errQueueFull)
        | _ => (s.setRing idx r).setProducer p (.blocked event idx)
      | .storeAvailable _ _, _ => (s.setRing idx r).return_ p none
      | _, _ => s.setRing idx r
  | _ => none

def step (a : GroupAction ι β η) : Option (Group ι β η) :=
  if s.panicked then none
  else
    match a with
    | .dispatch p event =>
      match s.producer p with
      | .idle => some (s.dispatch p event)
      | _ => none
    | .enter p => s.enter p
    | .spin p => s.spin p
    | .produce p => s.produce p
    | .consume idx => (s.loops idx).ring.consume.map (s.setRing idx)
    | .stop idx =>
      if (s.loops idx).ctxErr.isSome then
        ((s.loops idx).ring.step .stop).map (s.setRing idx)
      else none
    | .close idx => some (s.setLoop idx { s.loops idx with closed := true })
    | .cancel idx err => some (s.setLoop idx { s.loops idx with ctxErr := some err })

/-- `NewEventLoopGroup`: every loop has a ring of the same size. -/
def init (numLoops : ℕ) (backpressure : BackpressurePolicy)
    (extractor : KeyExtractor β) (rb : RingBuffer (Dispatched ι β η)) :
    Group ι β η where
  numLoops := numLoops
  backpressure := backpressure
  extractor := extractor
  loops := fun _ => ⟨Disruptor.init rb .perEvent, false, none⟩
  roundRobinCounter := 0
  producer := fun _ => .idle
  calls := fun _ => 0
  routes := []
  returns := []
  panicked := false

def handledCalls (idx : ℕ) (p : ι) : List ℕ :=
  (s.loops idx).ring.handled.filterMap fun h =>
    h.2.bind fun d => if d.producer = p then some d.call else none

/-- Per-key ordering in one state. Nothing panicked; every loop index used exists;
calls with one non-empty key are on one loop; the handlers of a producer's calls run
only on the loop the call was put on, in dispatch order and at most once; and a call
that returned an error is never handled. -/
structure KeyOrdered (s : Group ι β η) : Prop where
  running : s.panicked = false
  in_range : ∀ r ∈ s.routes, r.idx < s.numLoops
  same_loop : ∀ r ∈ s.routes, ∀ r' ∈ s.routes, routingKey s.extractor r.event ≠ [] →
    routingKey s.extractor r.event = routingKey s.extractor r'.event → r.idx = r'.idx
  on_its_loop : ∀ r ∈ s.routes, ∀ idx, r.call ∈ s.handledCalls idx r.producer → idx = r.idx
  in_order : ∀ idx p, (s.handledCalls idx p).Pairwise (· < ·)
  failed_unhandled : ∀ x ∈ s.returns, x.result ≠ none →
    ∀ idx, x.call ∉ s.handledCalls idx x.producer

end Group
end Fluxor.EventLoop
