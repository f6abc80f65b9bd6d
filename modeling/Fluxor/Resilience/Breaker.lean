import Fluxor.Support.GoInt
import Fluxor.Support.Goroutines

/-!
# The circuit breaker

`breakerManager` of `pkg/core/resilience/breaker`: calls of `Execute` from any
number of goroutines. Each atomic operation is a step, each lock section is a step,
and so is the return of the protected function.

The half-open branch of `allowExecution` reads the number of admitted requests,
compares it, and increments it in a step of its own. The counters are reset by
whoever has changed the state, in a lock section after the change.
-/

namespace Fluxor.Resilience.Breaker

open Goroutines Transition Support Option

inductive State
  | closed | opened | halfOpen
  deriving DecidableEq

def State.toString : State → String
  | .closed => "CLOSED"
  | .opened => "OPEN"
  | .halfOpen => "HALF_OPEN"

/-- The fields of `Config`, as `NewManagerWithConfig` leaves them. -/
structure Config where
  failureThreshold : ℤ := 5
  successThreshold : ℤ := 1
  timeout : ℤ := 60000000000
  halfOpenMaxRequests : ℤ := 1
  failureThreshold_pos : 0 < failureThreshold := by decide
  successThreshold_pos : 0 < successThreshold := by decide
  timeout_pos : 0 < timeout := by decide
  halfOpenMaxRequests_pos : 0 < halfOpenMaxRequests := by decide

theorem minute_pos : (0 : ℤ) < 60000000000 := by decide

/-- A field that is not positive is replaced by the default. -/
def orDefault (value default : ℤ) : ℤ := if value ≤ 0 then default else value

theorem orDefault_pos {value default : ℤ} (h : 0 < default) : 0 < orDefault value default := by
  rw [orDefault]
  split
  · exact h
  · omega

/-- The configuration that `NewManagerWithConfig` keeps. -/
def Config.ofFields (failureThreshold successThreshold timeout
    halfOpenMaxRequests : ℤ) : Config where
  failureThreshold := orDefault failureThreshold 5
  successThreshold := orDefault successThreshold 1
  timeout := orDefault timeout 60000000000
  halfOpenMaxRequests := orDefault halfOpenMaxRequests 1
  failureThreshold_pos := orDefault_pos (by decide)
  successThreshold_pos := orDefault_pos (by decide)
  timeout_pos := orDefault_pos (by decide)
  halfOpenMaxRequests_pos := orDefault_pos (by decide)

variable (cfg : Config)

/-- The thresholds as the comparisons see them. -/
def Config.failures : ℤ := int32 cfg.failureThreshold
def Config.successes : ℤ := int32 cfg.successThreshold
def Config.requests : ℤ := int32 cfg.halfOpenMaxRequests

/-- `breakerManager`, with the last reading of the clock. The zero time is `none`.
`admitted` counts the calls admitted by the half-open branch since the last change
of state. The statistics are left out. -/
structure Manager where
  state : State := .closed
  consecutiveFailures : ℤ := 0
  consecutiveSuccesses : ℤ := 0
  halfOpenRequests : ℤ := 0
  lastFailureTime : Option ℤ := none
  (lastStateChangeTime clock : ℤ)
  admitted : ℕ := 0

/-- What `Execute` returns; a rejection names the state in its message. -/
inductive Result
  | ok | failed
  | rejected (message : String)
  deriving DecidableEq

inductive Stage
  -- `allowExecution`
  | called | readingTimes
  | readingClock (transitionTime : ℤ)
  | halfOpening | entering | rechecking | counting | counted
  -- the function runs
  | running
  -- `recordSuccess`
  | clearingFailures | addingSuccess | readingSuccesses
  | succeeded (consecutiveSuccesses : ℤ)
  | clearingAgain | closing | closed
  -- `recordFailure`
  | clearingSuccesses | addingFailure | readingFailures
  | failed (consecutiveFailures : ℤ)
  | opening | opened | reopening | reopened
  -- the end of `Execute`
  | rejecting
  | returned (r : Result)
  deriving DecidableEq

/-- The reading of the clock, and whether the function fails. -/
structure Choice where
  clock : ℤ
  fails : Bool := false

namespace Manager

variable (cfg : Config) (b : Manager)

def transitionTime : ℤ :=
  match b.lastFailureTime with
  | none => b.lastStateChangeTime
  | some t => if t < b.lastStateChangeTime then b.lastStateChangeTime else t

def change (state : State) : Manager := { b with state := state, admitted := 0 }

def admitProbe : Manager :=
  { b with
    halfOpenRequests := int32 (b.halfOpenRequests + 1)
    admitted := b.admitted + 1 }

/-- `allowExecution`; the last point before the increment is `counted`. -/
def allowNext (stage : Stage) (now : ℤ) : Option (Manager × Stage) :=
  match stage with
  | .called =>
    match b.state with
    | .closed => some (b, .running)
    | .opened => some (b, .readingTimes)
    | .halfOpen => some (b, .counting)
  | .readingTimes => some (b, .readingClock b.transitionTime)
  | .readingClock transitionTime =>
    if now < b.clock then none
    else if cfg.timeout ≤ now - transitionTime then
      some ({ b with clock := now }, .halfOpening)
    else some ({ b with clock := now }, .rejecting)
  | .halfOpening =>
    if b.state = .opened then some (b.change .halfOpen, .entering)
    else some (b, .rechecking)
  | .entering =>
    if now < b.clock then none
    else
      some ({ b with
        lastStateChangeTime := now
        consecutiveSuccesses := 0
        consecutiveFailures := 0
        halfOpenRequests := 0
        clock := now }, .counting)
  | .rechecking => if b.state = .halfOpen then some (b, .counting) else some (b, .rejecting)
  | .counting =>
    if cfg.requests ≤ b.halfOpenRequests then some (b, .rejecting)
    else some (b, .counted)
  | .counted => some (b.admitProbe, .running)
  | _ => none

def successNext (stage : Stage) (now : ℤ) : Option (Manager × Stage) :=
  match stage with
  | .clearingFailures => some ({ b with consecutiveFailures := 0 }, .addingSuccess)
  | .addingSuccess =>
    some ({ b with
      consecutiveSuccesses := int32 (b.consecutiveSuccesses + 1) },
      .readingSuccesses)
  | .readingSuccesses =>
    if now < b.clock then none
    else some ({ b with clock := now }, .succeeded b.consecutiveSuccesses)
  | .succeeded consecutiveSuccesses =>
    match b.state with
    | .closed => some (b, .clearingAgain)
    | .opened => some (b, .returned .ok)
    | .halfOpen =>
      if cfg.successes ≤ consecutiveSuccesses then some (b, .closing)
      else some (b, .returned .ok)
  | .clearingAgain => some ({ b with consecutiveFailures := 0 }, .returned .ok)
  | .closing =>
    if b.state = .halfOpen then some (b.change .closed, .closed)
    else some (b, .returned .ok)
  | .closed =>
    if now < b.clock then none
    else
      some ({ b with
        lastStateChangeTime := now
        consecutiveFailures := 0
        consecutiveSuccesses := 0
        halfOpenRequests := 0
        clock := now }, .returned .ok)
  | _ => none

def failureNext (stage : Stage) (now : ℤ) : Option (Manager × Stage) :=
  match stage with
  | .clearingSuccesses => some ({ b with consecutiveSuccesses := 0 }, .addingFailure)
  | .addingFailure =>
    some ({ b with
      consecutiveFailures := int32 (b.consecutiveFailures + 1) },
      .readingFailures)
  | .readingFailures =>
    if now < b.clock then none
    else
      some ({ b with lastFailureTime := some now, clock := now }, .failed b.consecutiveFailures)
  | .failed consecutiveFailures =>
    match b.state with
    | .closed =>
      if cfg.failures ≤ consecutiveFailures then some (b, .opening)
      else some (b, .returned .failed)
    | .opened => some (b, .returned .failed)
    | .halfOpen => some (b, .reopening)
  | .opening =>
    if b.state = .closed then some (b.change .opened, .opened)
    else some (b, .returned .failed)
  | .opened =>
    if now < b.clock then none
    else
      some ({ b with lastStateChangeTime := now, clock := now }, .returned .failed)
  | .reopening =>
    if b.state = .halfOpen then some (b.change .opened, .reopened)
    else some (b, .returned .failed)
  | .reopened =>
    if now < b.clock then none
    else
      some ({ b with
        lastStateChangeTime := now
        consecutiveSuccesses := 0
        halfOpenRequests := 0
        clock := now }, .returned .failed)
  | _ => none

def executeNext (stage : Stage) (x : Choice) : Option (Manager × Stage) :=
  match stage with
  | .running => some (b, if x.fails then .clearingSuccesses else .clearingFailures)
  | .rejecting => some (b, .returned (.rejected ("circuit breaker is " ++ b.state.toString)))
  | _ =>
    (b.allowNext cfg stage x.clock).or ((b.successNext cfg stage x.clock).or
        (b.failureNext cfg stage x.clock))

end Manager

def next (b : Manager) (_ : ℕ) (t : Stage) (x : Choice) : Option (Outcome Manager Stage) :=
  (b.executeNext cfg t x).map fun (b, t) => ⟨b, t, []⟩

def entry (t : Stage) : Bool := t = .called

def code : Code Manager Stage Choice := ⟨next cfg, entry⟩

def start (created : ℤ) : Goroutines.Config Manager Stage :=
  ⟨{ lastStateChangeTime := created, clock := created }, []⟩

def steps (i n : ℕ) (now : ℤ) (fails : Bool) : List (Move Stage Choice) :=
  List.replicate n (.run i ⟨now, fails⟩)

/-- What a step does, one constructor for each branch. -/
inductive Step (cfg : Config) (b : Manager) : Stage → Manager → Stage → Prop
  | pass (h : b.state = .closed) : Step cfg b .called b .running
  | readTimes (h : b.state = .opened) : Step cfg b .called b .readingTimes
  | count (h : b.state = .halfOpen) : Step cfg b .called b .counting
  | readClock : Step cfg b .readingTimes b (.readingClock b.transitionTime)
  | elapsed {t now} (h : cfg.timeout ≤ now - t) :
      Step cfg b (.readingClock t) { b with clock := now } .halfOpening
  | early {t now} (h : now - t < cfg.timeout) :
      Step cfg b (.readingClock t) { b with clock := now } .rejecting
  | halfOpen (h : b.state = .opened) : Step cfg b .halfOpening (b.change .halfOpen) .entering
  | recheck (h : b.state ≠ .opened) : Step cfg b .halfOpening b .rechecking
  | enter {now} : Step cfg b .entering { b with
        lastStateChangeTime := now
        consecutiveSuccesses := 0
        consecutiveFailures := 0
        halfOpenRequests := 0
        clock := now } .counting
  | follow (h : b.state = .halfOpen) : Step cfg b .rechecking b .counting
  | miss (h : b.state ≠ .halfOpen) : Step cfg b .rechecking b .rejecting
  | full (h : cfg.requests ≤ b.halfOpenRequests) : Step cfg b .counting b .rejecting
  | room (h : b.halfOpenRequests < cfg.requests) : Step cfg b .counting b .counted
  | probe : Step cfg b .counted b.admitProbe .running
  | succeed : Step cfg b .running b .clearingFailures
  | fail : Step cfg b .running b .clearingSuccesses
  | reject {r} : Step cfg b .rejecting b (.returned r)
  | clearFailures : Step cfg b .clearingFailures { b with consecutiveFailures := 0 } .addingSuccess
  | addSuccess : Step cfg b .addingSuccess
      { b with consecutiveSuccesses := int32 (b.consecutiveSuccesses + 1) }
      .readingSuccesses
  | readSuccesses {now} : Step cfg b .readingSuccesses { b with clock := now }
      (.succeeded b.consecutiveSuccesses)
  | clearAgain {n} (h : b.state = .closed) : Step cfg b (.succeeded n) b .clearingAgain
  | enough {n} (h : b.state = .halfOpen) (hn : cfg.successes ≤ n) :
      Step cfg b (.succeeded n) b .closing
  | notEnough {n} (h : b.state = .halfOpen → n < cfg.successes) :
      Step cfg b (.succeeded n) b (.returned .ok)
  | clear : Step cfg b .clearingAgain { b with consecutiveFailures := 0 } (.returned .ok)
  | close (h : b.state = .halfOpen) : Step cfg b .closing (b.change .closed) .closed
  | closeLate (h : b.state ≠ .halfOpen) : Step cfg b .closing b (.returned .ok)
  | reset {now} : Step cfg b .closed { b with
        lastStateChangeTime := now
        consecutiveFailures := 0
        consecutiveSuccesses := 0
        halfOpenRequests := 0
        clock := now } (.returned .ok)
  | clearSuccesses : Step cfg b .clearingSuccesses
      { b with consecutiveSuccesses := 0 } .addingFailure
  | addFailure : Step cfg b .addingFailure
      { b with consecutiveFailures := int32 (b.consecutiveFailures + 1) }
      .readingFailures
  | readFailures {now} : Step cfg b .readingFailures
      { b with lastFailureTime := some now, clock := now }
      (.failed b.consecutiveFailures)
  | tooMany {n} (h : b.state = .closed) (hn : cfg.failures ≤ n) : Step cfg b (.failed n) b .opening
  | tolerate {n} (h : b.state ≠ .halfOpen) : Step cfg b (.failed n) b (.returned .failed)
  | reopen {n} (h : b.state = .halfOpen) : Step cfg b (.failed n) b .reopening
  | openUp (h : b.state = .closed) : Step cfg b .opening (b.change .opened) .opened
  | openLate (h : b.state ≠ .closed) : Step cfg b .opening b (.returned .failed)
  | stamp {now} : Step cfg b .opened
      { b with lastStateChangeTime := now, clock := now } (.returned .failed)
  | openAgain (h : b.state = .halfOpen) : Step cfg b .reopening (b.change .opened) .reopened
  | reopenLate (h : b.state ≠ .halfOpen) : Step cfg b .reopening b (.returned .failed)
  | resetProbes {now} : Step cfg b .reopened { b with
        lastStateChangeTime := now
        consecutiveSuccesses := 0
        halfOpenRequests := 0
        clock := now } (.returned .failed)

section Steps

variable {cfg : Config} {b b' : Manager} {t t' : Stage} {now : ℤ}

theorem step_of_allowNext (h : b.allowNext cfg t now = some (b', t')) : Step cfg b t b' t' := by
  revert h
  fun_cases Manager.allowNext cfg b t now <;> intro h <;> cases h
  case case1 hstate => exact .pass hstate
  case case2 hstate => exact .readTimes hstate
  case case3 hstate => exact .count hstate
  case case4 => exact .readClock
  case case6 htimeout => exact .elapsed htimeout
  case case7 htimeout => exact .early (by omega)
  case case8 hstate => exact .halfOpen hstate
  case case9 hstate => exact .recheck hstate
  case case11 => exact .enter
  case case12 hstate => exact .follow hstate
  case case13 hstate => exact .miss hstate
  case case14 hfull => exact .full hfull
  case case15 hroom => exact .room (by omega)
  case case16 => exact .probe

theorem step_of_successNext (h : b.successNext cfg t now = some (b', t')) : Step cfg b t b' t' := by
  revert h
  fun_cases Manager.successNext cfg b t now <;> intro h <;> cases h
  case case1 => exact .clearFailures
  case case2 => exact .addSuccess
  case case4 => exact .readSuccesses
  case case5 hstate => exact .clearAgain hstate
  case case6 hstate => exact .notEnough (by simp [hstate])
  case case7 hstate hn => exact .enough hstate hn
  case case8 hstate hn => exact .notEnough fun _ => by omega
  case case9 => exact .clear
  case case10 hstate => exact .close hstate
  case case11 hstate => exact .closeLate hstate
  case case13 => exact .reset

theorem step_of_failureNext (h : b.failureNext cfg t now = some (b', t')) : Step cfg b t b' t' := by
  revert h
  fun_cases Manager.failureNext cfg b t now <;> intro h <;> cases h
  case case1 => exact .clearSuccesses
  case case2 => exact .addFailure
  case case4 => exact .readFailures
  case case5 hstate hn => exact .tooMany hstate hn
  case case6 hstate hn | case7 hstate => exact .tolerate (by simp [hstate])
  case case8 hstate => exact .reopen hstate
  case case9 hstate => exact .openUp hstate
  case case10 hstate => exact .openLate hstate
  case case12 => exact .stamp
  case case13 hstate => exact .openAgain hstate
  case case14 hstate => exact .reopenLate hstate
  case case16 => exact .resetProbes

theorem step_of_next {i : ℕ} {x : Choice} {o : Outcome Manager Stage}
    (h : (code cfg).next b i t x = some o) : Step cfg b t o.shared o.thread ∧ o.started = [] := by
  obtain ⟨⟨b', t'⟩, hnext, rfl⟩ := map_eq_some_iff.mp h
  refine ⟨?_, rfl⟩
  revert hnext
  fun_cases Manager.executeNext cfg b t x <;> intro hnext
  case case1 =>
    obtain ⟨rfl, rfl⟩ := Prod.mk.inj (some.inj hnext)
    cases x.fails
    · exact .succeed
    · exact .fail
  case case2 =>
    cases hnext
    exact .reject
  case case3 =>
    rcases or_eq_some_iff.mp hnext with hallow | ⟨-, hrecord⟩
    · exact step_of_allowNext hallow
    · rcases or_eq_some_iff.mp hrecord with hsuccess | ⟨-, hfailure⟩ <;>
        grind [step_of_successNext, step_of_failureNext]

end Steps

end Fluxor.Resilience.Breaker
