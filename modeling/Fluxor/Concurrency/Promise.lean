import Fluxor.Support.Fairness

/-!
# Promises

`future` of `pkg/core/concurrency/future.go`. Each atomic operation, each lock
section and each operation on the one-slot result channel is a step. Handlers
are named by the call that registers them, and `invoked` is the history of
their invocations.

`Complete` and `Fail` differ in the result they store and in the handlers they
call, `OnSuccess` and `OnFailure` in the results they react to.
-/

namespace Fluxor.Concurrency

open Goroutines Transition

inductive Kind
  | success | failure
  deriving DecidableEq

variable {α ε : Type*}

def Kind.of : Except ε α → Kind
  | .ok _ => .success
  | .error _ => .failure

/-- `copied` is the list of handlers that `Complete` or `Fail` has copied. -/
structure Promise (α ε : Type*) where
  completed : Bool := false
  result : Option (Except ε α) := none
  resultChan : Option (Except ε α) := none
  handlers : Kind → List ℕ := fun _ => []
  copied : Option (List ℕ) := none
  invoked : List (ℕ × Except ε α) := []

namespace Promise

/-- `Complete` or `Fail` has called the first `k` handlers of its copy, or all of them. -/
inductive Settle
  | called | storing | sending | copying
  | calling (handlers : List ℕ) (k : ℕ)
  | returned (handlers : List ℕ)
  deriving DecidableEq

/-- Where `OnSuccess` or `OnFailure` is; `invoked` tells whether it has called
the handler itself. -/
inductive Register (α ε : Type*)
  | called | checking | reading
  | calling (r : Except ε α)
  | returned (invoked : Bool)
  deriving DecidableEq

/-- Where `Await` is. It returns the result, or nothing when its context has
ended. -/
inductive Await (α ε : Type*)
  | called | reading | waiting
  | storing (r : Except ε α)
  | returned (r : Option (Except ε α))
  deriving DecidableEq

/-- The calls. A settling call without a result is `Fail(nil)`; a registering
call has a handler or nil; the context of an `Await` may end or not. -/
inductive Thread (α ε : Type*)
  | settle (r : Option (Except ε α)) (stage : Settle)
  | register (kind : Kind) (handler : Bool) (stage : Register α ε)
  | await (ends : Bool) (stage : Await α ε)
  deriving DecidableEq

def newPromise (α ε : Type*) : Config (Promise α ε) (Thread α ε) := ⟨{}, []⟩

def complete (result : α) : Thread α ε := .settle (some (.ok result)) .called

def fail (err : Option ε) : Thread α ε := .settle (err.map .error) .called

def onSuccess (handler : Bool) : Thread α ε := .register .success handler .called

def onFailure (handler : Bool) : Thread α ε := .register .failure handler .called

def await (ends : Bool) : Thread α ε := .await ends .called

variable (p : Promise α ε)

/-- `Complete` and `Fail`, with the result they store. -/
def settleNext (r : Except ε α) : Settle → Option (Promise α ε × Settle)
  | .called =>
    if p.completed then some (p, .returned [])
    else some ({ p with completed := true }, .storing)
  | .storing => some ({ p with result := some r }, .sending)
  | .sending =>
    match p.resultChan with
    | none => some ({ p with resultChan := some r }, .copying)
    | some _ => some (p, .copying)
  | .copying =>
    some ({ p with copied := some (p.handlers (Kind.of r)) }, .calling (p.handlers (Kind.of r)) 0)
  | .calling handlers k =>
    match handlers[k]? with
    | some h => some ({ p with invoked := p.invoked ++ [(h, r)] }, .calling handlers (k + 1))
    | none => some (p, .returned handlers)
  | .returned _ => none

/-- `OnSuccess` and `OnFailure`, the call `i`. -/
def registerNext (i : ℕ) (kind : Kind) (handler : Bool) :
    Register α ε → Option (Promise α ε × Register α ε)
  | .called =>
    if handler then
      some ({ p with handlers :=
        fun k => if k = kind then p.handlers k ++ [i] else p.handlers k },
        .checking)
    else some (p, .returned false)
  | .checking => if p.completed then some (p, .reading) else some (p, .returned false)
  | .reading =>
    match p.result with
    | some r =>
      if Kind.of r = kind then some (p, .calling r)
      else some (p, .returned false)
    | none => some (p, .returned false)
  | .calling r => some ({ p with invoked := p.invoked ++ [(i, r)] }, .returned true)
  | .returned _ => none

def awaitNext (ends : Bool) : Await α ε → Branch → Option (Promise α ε × Await α ε)
  | .called, .next => if p.completed then some (p, .reading) else some (p, .waiting)
  | .reading, .next =>
    match p.result with
    | some r => some (p, .returned (some r))
    | none => some (p, .waiting)
  | .waiting, .channel =>
    match p.resultChan with
    | some r => some ({ p with resultChan := none }, .storing r)
    | none => none
  | .waiting, .done => if ends then some (p, .returned none) else none
  | .storing r, .next => some ({ p with result := some r, completed := true }, .returned (some r))
  | _, _ => none

def next (i : ℕ) (t : Thread α ε) (b : Branch) : Option (Outcome (Promise α ε) (Thread α ε)) :=
  match t with
  -- a nil error settles nothing
  | .settle none .called => some ⟨p, .settle none (.returned []), []⟩
  | .settle none _ => none
  | .settle (some r) stage =>
    (p.settleNext r stage).map fun (p, stage) => ⟨p, .settle (some r) stage, []⟩
  | .register kind handler stage =>
    (p.registerNext i kind handler stage).map fun (p, stage) =>
      ⟨p, .register kind handler stage, []⟩
  | .await ends stage => (p.awaitNext ends stage b).map fun (p, stage) => ⟨p, .await ends stage, []⟩

def entry : Thread α ε → Bool
  | .settle _ .called => true
  | .register _ _ .called => true
  | .await _ .called => true
  | _ => false

def code (α ε : Type*) : Code (Promise α ε) (Thread α ε) Branch := ⟨next, entry⟩

inductive SettleStep (p : Promise α ε) (r : Except ε α) : Settle → Promise α ε → Settle → Prop
  | late (h : p.completed = true) : SettleStep p r .called p (.returned [])
  | claim (h : p.completed = false) : SettleStep p r .called { p with completed := true } .storing
  | store : SettleStep p r .storing { p with result := some r } .sending
  | send (h : p.resultChan = none) :
      SettleStep p r .sending { p with resultChan := some r } .copying
  | occupied {r'} (h : p.resultChan = some r') : SettleStep p r .sending p .copying
  | copy : SettleStep p r .copying
      { p with copied := some (p.handlers (Kind.of r)) }
      (.calling (p.handlers (Kind.of r)) 0)
  | call {handlers k h} (hk : handlers[k]? = some h) : SettleStep p r (.calling handlers k)
        { p with invoked := p.invoked ++ [(h, r)] } (.calling handlers (k + 1))
  | finish {handlers k} (hk : handlers[k]? = none) :
      SettleStep p r (.calling handlers k) p (.returned handlers)

variable {p p' : Promise α ε}

theorem settleStep_of_settleNext {r : Except ε α} {st st' : Settle}
    (h : p.settleNext r st = some (p', st')) : SettleStep p r st p' st' := by
  revert h
  fun_cases settleNext p r st <;> intro h <;> cases h
  case case1 h => exact .late h
  case case2 h => exact .claim (by simpa using h)
  case case3 => exact .store
  case case4 h => exact .send h
  case case5 h => exact .occupied h
  case case6 => exact .copy
  case case7 h => exact .call h
  case case8 h => exact .finish h

inductive RegisterStep (p : Promise α ε) (i : ℕ) (kind : Kind)
    (handler : Bool) : Register α ε → Promise α ε → Register α ε → Prop
  | nil (h : handler = false) : RegisterStep p i kind handler .called p (.returned false)
  | append (h : handler = true) : RegisterStep p i kind handler .called
      { p with handlers :=
        fun k => if k = kind then p.handlers k ++ [i] else p.handlers k }
      .checking
  | completed (h : p.completed = true) : RegisterStep p i kind handler .checking p .reading
  | early (h : p.completed = false) : RegisterStep p i kind handler .checking p (.returned false)
  | found {r} (h : p.result = some r) (hr : Kind.of r = kind) :
      RegisterStep p i kind handler .reading p (.calling r)
  | other {r} (h : p.result = some r) (hr : Kind.of r ≠ kind) :
      RegisterStep p i kind handler .reading p (.returned false)
  | unset (h : p.result = none) : RegisterStep p i kind handler .reading p (.returned false)
  | call {r} : RegisterStep p i kind handler (.calling r)
      { p with invoked := p.invoked ++ [(i, r)] } (.returned true)

theorem registerStep_of_registerNext {i : ℕ} {kind : Kind} {handler : Bool}
    {st st' : Register α ε} (h : p.registerNext i kind handler st = some (p', st')) :
    RegisterStep p i kind handler st p' st' := by
  revert h
  fun_cases registerNext p i kind handler st <;> intro h <;> cases h
  case case1 h => exact .append h
  case case2 h => exact .nil (by simpa using h)
  case case3 h => exact .completed h
  case case4 h => exact .early (by simpa using h)
  case case5 h hr => exact .found h hr
  case case6 h hr => exact .other h hr
  case case7 h => exact .unset h
  case case8 => exact .call

inductive AwaitStep (p : Promise α ε) (ends : Bool) : Await α ε → Promise α ε → Await α ε → Prop
  | completed (h : p.completed = true) : AwaitStep p ends .called p .reading
  | early (h : p.completed = false) : AwaitStep p ends .called p .waiting
  | read {r} (h : p.result = some r) : AwaitStep p ends .reading p (.returned (some r))
  | unset (h : p.result = none) : AwaitStep p ends .reading p .waiting
  | receive {r} (h : p.resultChan = some r) :
      AwaitStep p ends .waiting { p with resultChan := none } (.storing r)
  | done (h : ends = true) : AwaitStep p ends .waiting p (.returned none)
  | store {r} : AwaitStep p ends (.storing r)
      { p with result := some r, completed := true } (.returned (some r))

theorem awaitStep_of_awaitNext {ends : Bool} {st st' : Await α ε} {b : Branch}
    (h : p.awaitNext ends st b = some (p', st')) : AwaitStep p ends st p' st' := by
  revert h
  fun_cases awaitNext p ends st b <;> intro h <;> cases h
  case case1 h => exact .completed h
  case case2 h => exact .early (by simpa using h)
  case case3 h => exact .read h
  case case4 h => exact .unset h
  case case5 h => exact .receive h
  case case7 h => exact .done h
  case case9 => exact .store

inductive Step (p : Promise α ε) (i : ℕ) : Thread α ε → Outcome (Promise α ε) (Thread α ε) → Prop
  | failNil : Step p i (.settle none .called) ⟨p, .settle none (.returned []), []⟩
  | settle {r st p' st'} (h : SettleStep p r st p' st') :
      Step p i (.settle (some r) st) ⟨p', .settle (some r) st', []⟩
  | register {kind handler st p' st'}
      (h : RegisterStep p i kind handler st p' st') :
      Step p i (.register kind handler st) ⟨p', .register kind handler st', []⟩
  | await {ends st p' st'} (h : AwaitStep p ends st p' st') :
      Step p i (.await ends st) ⟨p', .await ends st', []⟩

theorem step_of_next {i : ℕ} {t : Thread α ε} {b : Branch}
    {o : Outcome (Promise α ε) (Thread α ε)} (h : (code α ε).next p i t b = some o) :
    Step p i t o := by
  revert h
  change next p i t b = some o → _
  fun_cases next p i t b <;> intro h
  case case1 =>
    cases h
    exact .failNil
  case case2 => cases h
  all_goals obtain ⟨⟨p', st'⟩, hnext, rfl⟩ := Option.map_eq_some_iff.mp h
  · exact .settle (settleStep_of_settleNext hnext)
  · exact .register (registerStep_of_registerNext hnext)
  · exact .await (awaitStep_of_awaitNext hnext)

end Promise

end Fluxor.Concurrency
