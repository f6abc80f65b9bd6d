import Fluxor.Support.Goroutines

/-!
# The supervisor of actors

`Supervisor` of `pkg/actor`: one call of `Start` with its loop, the goroutines that
run the children, calls of `Stop` and the end of the context. Each lock section is a
step, and so are the channel operations and the returns of `spec.Start` and of
`Run`.

`Start` is the only receiver of the result channel, and sends to it itself when
`spec.Start` fails.
-/

namespace Fluxor.Supervision.Actors

open Goroutines Transition

/-- `RestartStrategy`; with any other value nothing is restarted. -/
inductive RestartStrategy
  | oneForOne | allForOne
  | other (value : ℤ)
  deriving DecidableEq

/-- The settings of a `Supervisor`; `children` is the number of its child
specs. -/
structure Settings where
  children : ℕ
  strategy : RestartStrategy := .oneForOne
  maxRestarts : ℤ := 5
  restartWindow : ℤ := 10000000000

/-- The error of `Run` or `spec.Start`, as far as the loop tells them apart. -/
inductive Err
  | none | canceled | other
  deriving DecidableEq

/-- The fields of a `Supervisor` that change, and the channels of `Start`. The
contexts of the children are numbered; `cancelled` tells which have been
cancelled by themselves. -/
structure Supervisor where
  running : Bool := false
  childCan : ℕ → Option ℕ := fun _ => none
  contexts : ℕ := 0
  cancelled : ℕ → Bool := fun _ => false
  restarts : List ℤ := []
  results : List (ℕ × Err) := []
  ctxDone : Bool := false
  stopRequested : Bool := false
  done : Bool := false

inductive Origin
  | first | one | all
  deriving DecidableEq

inductive Stage
  | called
  | entering (origin : Origin) (i : ℕ)
  | starting (origin : Origin) (i ctx : ℕ)
  | sending (origin : Origin) (i : ℕ) (err : Err)
  | selecting
  | received (i : ℕ) (err : Err)
  | recording (i : ℕ)
  | cancelling (i : ℕ)
  | stopping
  | restarting (i : ℕ)
  | finishing | ending | returned
  deriving DecidableEq

/-- The goroutine of a child: `Run` is in progress, its result is to be sent, or has been sent. -/
inductive Life
  | running
  | delivering (err : Err)
  | finished
  deriving DecidableEq

inductive Stop
  | called | waiting | returned
  deriving DecidableEq

/-- `cancel` is the end of the context of `Start`. -/
inductive Thread
  | supervisor (stage : Stage)
  | child (i ctx : ℕ) (life : Life)
  | stop (stage : Stop)
  | cancel (done : Bool)
  deriving DecidableEq

/-- The only way to go on, a reading of the clock, the failure of `spec.Start`, a
case of the `select`, or the return of `Run`. -/
inductive Choice
  | go
  | clock (now : ℤ)
  | fails (err : Err)
  | receive | stop | done
  | returns (err : Err)
  deriving DecidableEq

namespace Supervisor

variable (sv : Supervisor)

def stopChildren (n : ℕ) : Supervisor :=
  { sv with
    cancelled := fun ctx => sv.cancelled ctx ||
      (List.range n).any fun i => sv.childCan i = some ctx }

def newContext (i : ℕ) : Supervisor :=
  { sv with
    childCan := Function.update sv.childCan i (some sv.contexts)
    contexts := sv.contexts + 1 }

/-- The lock section before a child is started again alone. -/
def cancelChild (i : ℕ) : Supervisor :=
  match sv.childCan i with
  | none => sv
  | some ctx =>
    { sv with
      cancelled := Function.update sv.cancelled ctx true
      childCan := Function.update sv.childCan i none }

def allowRestart (cfg : Settings) (now : ℤ) : Bool :=
  (sv.restarts.countP fun t => now - cfg.restartWindow < t) < cfg.maxRestarts

end Supervisor

variable (cfg : Settings)

/-- The loops over the children: `startOne` of child `i` comes next, or the loop of
the supervisor. -/
def loopFirst (i : ℕ) : Stage :=
  if i < cfg.children then .entering .first i else .selecting

def loopAll (i : ℕ) : Stage :=
  if i < cfg.children then .restarting i else .selecting

def resume (i : ℕ) : Origin → Stage
  | .first => loopFirst cfg (i + 1)
  | .one => .selecting
  | .all => loopAll cfg (i + 1)

def restart (i : ℕ) : Stage :=
  match cfg.strategy with
  | .oneForOne => .cancelling i
  | .allForOne => .stopping
  | .other _ => .selecting

variable (sv : Supervisor)

def startNext : Stage → Choice → Option (Supervisor × Stage × List Thread)
  | .called, .go => some ({ sv with running := true }, loopFirst cfg 0, [])
  | .entering origin i, .go => some (sv.newContext i, .starting origin i sv.contexts, [])
  | .starting origin i ctx, .go => some (sv, resume cfg i origin, [.child i ctx .running])
  | .starting origin i _, .fails err =>
    if err = .none then none else some (sv, .sending origin i err, [])
  | .sending origin i err, .go =>
    if sv.results.length < cfg.children then
      some ({ sv with results := sv.results ++ [(i, err)] }, resume cfg i origin, [])
    else none
  | .selecting, .receive =>
    match sv.results with
    | [] => none
    | (i, err) :: rest => some ({ sv with results := rest }, .received i err, [])
  | .selecting, .stop => if sv.stopRequested then some (sv, .finishing, []) else none
  | .selecting, .done => if sv.ctxDone then some (sv, .finishing, []) else none
  | .received i err, .clock now =>
    if err ≠ .other then some (sv, .selecting, [])
    else if sv.allowRestart cfg now then some (sv, .recording i, [])
    else some (sv, .finishing, [])
  | .recording i, .clock now =>
    some ({ sv with restarts := sv.restarts ++ [now] }, restart cfg i, [])
  | .cancelling i, .go => some (sv.cancelChild i, .entering .one i, [])
  | .stopping, .go => some (sv.stopChildren cfg.children, loopAll cfg 0, [])
  | .restarting i, .go => some (sv.newContext i, .entering .all i, [])
  | .finishing, .go => some (sv.stopChildren cfg.children, .ending, [])
  | .ending, .go =>
    some ({ sv with running := false, done := true, stopRequested := false }, .returned, [])
  | _, _ => none

def childNext (i : ℕ) : Life → Choice → Option (Supervisor × Life)
  | .running, .go => some (sv, .running)
  | .running, .returns err => some (sv, .delivering err)
  | .delivering err, .go =>
    if sv.results.length < cfg.children then
      some ({ sv with results := sv.results ++ [(i, err)] }, .finished)
    else none
  | _, _ => none

def stopNext : Stop → Choice → Option (Supervisor × Stop)
  | .called, .go =>
    if sv.running then
      some ({ sv.stopChildren cfg.children with stopRequested := true }, .waiting)
    else some (sv, .returned)
  | .waiting, .go => if sv.done then some (sv, .returned) else none
  | _, _ => none

def next (_ : ℕ) (t : Thread) (x : Choice) : Option (Outcome Supervisor Thread) :=
  match t with
  | .supervisor stage => (startNext cfg sv stage x).map
      fun (sv, stage, started) => ⟨sv, .supervisor stage, started⟩
  | .child i ctx life => (childNext cfg sv i life x).map
      fun (sv, life) => ⟨sv, .child i ctx life, []⟩
  | .stop stage => (stopNext cfg sv stage x).map fun (sv, stage) => ⟨sv, .stop stage, []⟩
  | .cancel false => some ⟨{ sv with ctxDone := true }, .cancel true, []⟩
  | .cancel true => none

def entry (t : Thread) : Bool := t = .stop .called || t = .cancel false

def code : Code Supervisor Thread Choice := ⟨next cfg, entry⟩

def start : Config Supervisor Thread := ⟨{}, [.supervisor .called]⟩

variable {cfg}

/-- What a step does, one constructor for each branch. -/
inductive Step (cfg : Settings) (sv : Supervisor) :
    Thread → Supervisor → Thread → List Thread → Prop
  | begins : Step cfg sv (.supervisor .called) { sv with running := true }
      (.supervisor (loopFirst cfg 0)) []
  | enter {origin i} : Step cfg sv (.supervisor (.entering origin i))
      (sv.newContext i) (.supervisor (.starting origin i sv.contexts)) []
  | launch {origin i ctx} : Step cfg sv (.supervisor (.starting origin i ctx))
      sv (.supervisor (resume cfg i origin)) [.child i ctx .running]
  | fail {origin i ctx err} :
      Step cfg sv (.supervisor (.starting origin i ctx)) sv (.supervisor (.sending origin i err)) []
  | send {origin i err} (h : sv.results.length < cfg.children) :
      Step cfg sv (.supervisor (.sending origin i err))
        { sv with results := sv.results ++ [(i, err)] }
        (.supervisor (resume cfg i origin)) []
  | receive {i err rest} (h : sv.results = (i, err) :: rest) :
      Step cfg sv (.supervisor .selecting) { sv with results := rest }
        (.supervisor (.received i err)) []
  | stop (h : sv.stopRequested = true ∨ sv.ctxDone = true) :
      Step cfg sv (.supervisor .selecting) sv (.supervisor .finishing) []
  | ignore {i err} : Step cfg sv (.supervisor (.received i err)) sv (.supervisor .selecting) []
  | allow {i err} : Step cfg sv (.supervisor (.received i err)) sv (.supervisor (.recording i)) []
  | giveUp {i err} : Step cfg sv (.supervisor (.received i err)) sv (.supervisor .finishing) []
  | record {i now} : Step cfg sv (.supervisor (.recording i))
      { sv with restarts := sv.restarts ++ [now] }
      (.supervisor (restart cfg i)) []
  | cancelOne {i} : Step cfg sv (.supervisor (.cancelling i))
      (sv.cancelChild i) (.supervisor (.entering .one i)) []
  | stopAll : Step cfg sv (.supervisor .stopping)
      (sv.stopChildren cfg.children) (.supervisor (loopAll cfg 0)) []
  | replace {i} : Step cfg sv (.supervisor (.restarting i)) (sv.newContext i)
      (.supervisor (.entering .all i)) []
  | finish : Step cfg sv (.supervisor .finishing)
      (sv.stopChildren cfg.children) (.supervisor .ending) []
  | ends : Step cfg sv (.supervisor .ending)
      { sv with running := false, done := true, stopRequested := false }
      (.supervisor .returned) []
  | work {i ctx} : Step cfg sv (.child i ctx .running) sv (.child i ctx .running) []
  | exits {i ctx err} : Step cfg sv (.child i ctx .running) sv (.child i ctx (.delivering err)) []
  | deliver {i ctx err} (h : sv.results.length < cfg.children) :
      Step cfg sv (.child i ctx (.delivering err)) { sv with results := sv.results ++ [(i, err)] }
        (.child i ctx .finished) []
  | request : Step cfg sv (.stop .called)
      { sv.stopChildren cfg.children with stopRequested := true }
      (.stop .waiting) []
  | idle {stage} : Step cfg sv (.stop stage) sv (.stop .returned) []
  | cancel : Step cfg sv (.cancel false) { sv with ctxDone := true } (.cancel true) []

variable {sv : Supervisor} {x : Choice} {sv' : Supervisor}

theorem step_of_startNext {stage stage' : Stage} {started : List Thread}
    (h : startNext cfg sv stage x = some (sv', stage', started)) :
    Step cfg sv (.supervisor stage) sv' (.supervisor stage') started := by
  revert h
  fun_cases startNext cfg sv stage x <;> intro h <;> cases h
  case case1 => exact .begins
  case case2 => exact .enter
  case case3 => exact .launch
  case case5 => exact .fail
  case case6 hroom => exact .send hroom
  case case9 hresults => exact .receive hresults
  case case10 hstop => exact .stop (.inl hstop)
  case case12 hdone => exact .stop (.inr hdone)
  case case14 => exact .ignore
  case case15 => exact .allow
  case case16 => exact .giveUp
  case case17 => exact .record
  case case18 => exact .cancelOne
  case case19 => exact .stopAll
  case case20 => exact .replace
  case case21 => exact .finish
  case case22 => exact .ends

theorem step_of_childNext {i ctx : ℕ} {life life' : Life}
    (h : childNext cfg sv i life x = some (sv', life')) :
    Step cfg sv (.child i ctx life) sv' (.child i ctx life') [] := by
  revert h
  fun_cases childNext cfg sv i life x <;> intro h <;> cases h
  case case1 => exact .work
  case case2 => exact .exits
  case case3 hroom => exact .deliver hroom

theorem step_of_stopNext {stage stage' : Stop} (h : stopNext cfg sv stage x = some (sv', stage')) :
    Step cfg sv (.stop stage) sv' (.stop stage') [] := by
  revert h
  fun_cases stopNext cfg sv stage x <;> intro h <;> cases h
  case case1 => exact .request
  case case2 | case3 => exact .idle

theorem step_of_next {i : ℕ} {t : Thread} {o : Outcome Supervisor Thread}
    (h : (code cfg).next sv i t x = some o) : Step cfg sv t o.shared o.thread o.started := by
  revert h
  change next cfg sv i t x = some o → _
  fun_cases next cfg sv i t x <;> intro h
  case case4 =>
    cases h
    exact .cancel
  case case5 => cases h
  all_goals obtain ⟨⟨sv', stage'⟩, hnext, rfl⟩ := Option.map_eq_some_iff.mp h
  · exact step_of_startNext hnext
  · exact step_of_childNext hnext
  · exact step_of_stopNext hnext

end Fluxor.Supervision.Actors
