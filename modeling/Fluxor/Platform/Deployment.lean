import Fluxor.Concurrency.Mailbox
import Fluxor.Support.Transition

/-!
# The deployment event loop

`Deployment` of `pkg/core/deployment.go`: the state machine of one verticle, driven
by one goroutine that takes commands from a channel of capacity one. Its calls of
`Start` and `Stop`, which return at any later time with any result, and the closing
of the channel are steps of their own.
-/

namespace Fluxor.Platform

open Fluxor.Concurrency Fluxor.Transition List

inductive DeploymentState
  | pending | deploying | running | stopping | stopped | failed | undeployed
  deriving DecidableEq

/-- The diagram in the documentation of `DeploymentState`. -/
inductive Documented : DeploymentState → DeploymentState → Prop
  | startBegins : Documented .pending .deploying
  | neverStarted : Documented .pending .failed
  | shutdown : Documented .pending .undeployed
  | started : Documented .deploying .running
  | startFailed : Documented .deploying .failed
  | stopBegins : Documented .running .stopping
  | stopEnds : Documented .stopping .stopped
  | cleanedUp : Documented .stopped .undeployed
  | failedCleanedUp : Documented .failed .undeployed

def validTransitions : DeploymentState → List DeploymentState
  | .pending => [.deploying, .failed, .undeployed]
  | .deploying => [.running, .failed]
  | .running => [.stopping]
  | .stopping => [.stopped]
  | .stopped => [.undeployed]
  | .failed => [.undeployed]
  | .undeployed => []

def isValidTransition (old new : DeploymentState) : Bool :=
  if old = .undeployed then false else (validTransitions old).contains new

theorem isValidTransition_iff (old new : DeploymentState) :
    isValidTransition old new = true ↔ Documented old new := by
  constructor
  · intro h
    cases old <;> cases new <;>
      first | constructor | exact absurd h (by decide)
  · intro h
    cases h <;> rfl

variable {state : DeploymentState}

theorem pending_of_isValidTransition (h : isValidTransition state .deploying = true) :
    state = .pending := by
  cases (isValidTransition_iff state .deploying).mp h
  rfl

theorem running_of_isValidTransition (h : isValidTransition state .stopping = true) :
    state = .running := by
  cases (isValidTransition_iff state .stopping).mp h
  rfl

structure StateTransition (ε : Type*) where
  (src dst : DeploymentState)
  error : Option ε

inductive Action
  | start | stop | undeploy
  deriving DecidableEq

/-- `deploymentCmd`; `reply` names the reply channel, if there is one. -/
structure Command (κ : Type*) where
  action : Action
  reply : Option κ
  deriving DecidableEq

inductive ReplyError (ε : Type*)
  | context (err : ContextError)
  | invalidTransition (old new : DeploymentState)
  | cannotUndeploy (state : DeploymentState)
  | verticle (err : ε)
  deriving DecidableEq

/-- History: what the loop calls, and what comes back. -/
inductive Callback (ε : Type*)
  | start
  | startReturned (err : Option ε)
  | stop
  | stopReturned (err : Option ε)
  | exit (state : DeploymentState) (err : Option ε)
  deriving DecidableEq

/-- The loop goroutine is at the head of its loop, inside `Start` or `Stop`, before
the final clean-up, or has returned. -/
inductive Phase (κ : Type*)
  | ready
  | inStart (cmd : Command κ)
  | inStop (cmd : Command κ)
  | cleanup (cmd : Command κ)
  | exited
  deriving DecidableEq

def Phase.hasExited {κ : Type*} : Phase κ → Bool
  | .exited => true
  | _ => false

/-- `Deployment`. `onExit`: there is a notifier; the replies and the callbacks are history. -/
structure Deployment (κ ε : Type*) where
  state : DeploymentState
  err : Option ε
  stateHistory : List (StateTransition ε)
  cmdChan : List (Command κ)
  cmdChanClosed : Bool
  phase : Phase κ
  (onExit failedFast : Bool)
  replies : List (κ × Option (ReplyError ε))
  callbacks : List (Callback ε)

inductive DeploymentAction (κ ε : Type*)
  | send (cmd : Command κ)
  | receive (ctxErr : Option ContextError)
  | startReturns (err : Option ε)
  | stopReturns (err : Option ε)
  | cleanup

namespace Deployment

variable {κ ε : Type*} (d : Deployment κ ε) (cmd : Command κ)

/-- `recordStateTransition`, which keeps the last ten. -/
def recordStateTransition (src dst : DeploymentState) (err : Option ε) : Deployment κ ε :=
  let history := d.stateHistory ++ [⟨src, dst, err⟩]
  { d with
    stateHistory :=
      if history.length > 10 then history.drop (history.length - 10)
      else history }

def newDeployment (onExit : Bool) : Deployment κ ε :=
  recordStateTransition
    { state := .pending
      err := none
      stateHistory := []
      cmdChan := []
      cmdChanClosed := false
      phase := .ready
      onExit := onExit
      failedFast := false
      replies := []
      callbacks := [] } .pending .pending none

/-- `setState` and what follows it, unless it fails fast. -/
def setState (newState : DeploymentState)
    (next : Deployment κ ε → Deployment κ ε) : Deployment κ ε :=
  if isValidTransition d.state newState then
    next ({ d with state := newState }.recordStateTransition d.state newState
      none)
  else { d with failedFast := true }

def answer (err : Option (ReplyError ε)) : Deployment κ ε :=
  { d with
    replies := d.replies ++ (cmd.reply.map fun k => (k, err)).toList }

def exitCalls (onExit : Bool) (state : DeploymentState) (err : Option ε) : List (Callback ε) :=
  if onExit then [.exit state err] else []

def notifyExit (state : DeploymentState) (err : Option ε) : Deployment κ ε :=
  { d with callbacks := d.callbacks ++ exitCalls d.onExit state err }

def updateLast (err : ε) : Deployment κ ε :=
  { d with
    stateHistory := d.stateHistory.dropLast ++
      (d.stateHistory.getLast?.map fun r => { r with error := some err }).toList
  }

def callStop : Deployment κ ε :=
  d.setState .stopping fun d =>
    { d with phase := .inStop cmd, callbacks := d.callbacks ++ [Callback.stop] }

/-- The switch of the event loop on the action of a command. -/
def handle : Deployment κ ε :=
  match cmd.action with
  | .start =>
    if isValidTransition d.state .deploying then
      d.setState .deploying fun d =>
        { d with
          phase := .inStart cmd
          callbacks := d.callbacks ++ [Callback.start] }
    else d.answer cmd (some (.invalidTransition d.state .deploying))
  | .stop =>
    if isValidTransition d.state .stopping then d.callStop cmd
    else d.answer cmd (some (.invalidTransition d.state .stopping))
  | .undeploy =>
    match d.state with
    | .running => d.callStop cmd
    | .stopped => { d with phase := .cleanup cmd }
    | .failed => { d with phase := .cleanup cmd }
    | .undeployed => { d.answer cmd none with phase := .exited }
    | state => d.answer cmd (some (.cannotUndeploy state))

/-- The loop takes a command; `ctxErr` is the error of its context at that moment. -/
def receive (ctxErr : Option ContextError) : Option (Deployment κ ε) :=
  match d.phase, d.cmdChan with
  | .ready, cmd :: rest =>
    let d := { d with cmdChan := rest }
    match ctxErr with
    | some e => some (d.answer cmd (some (.context e)))
    | none => some (d.handle cmd)
  | _, _ => none

/-- `Start` returns `err`, and the rest of the start command. -/
def startReturns (err : Option ε) : Option (Deployment κ ε) :=
  match d.phase with
  | .inStart cmd =>
    let d : Deployment κ ε := { d with
      phase := .ready
      callbacks := d.callbacks ++ [Callback.startReturned err] }
    match err with
    | some e =>
      some ({ d with err := some e }.setState .failed fun d =>
        ((d.notifyExit .failed (some e)).updateLast e).answer cmd
          (some (.verticle e)))
    | none => some (d.setState .running fun d => d.answer cmd none)
  | _ => none

/-- `Stop` returns `err`, and the rest of a stop or undeploy command. -/
def stopReturns (err : Option ε) : Option (Deployment κ ε) :=
  match d.phase with
  | .inStop cmd =>
    let d : Deployment κ ε := { d with
      phase := .ready
      err := err.orElse fun _ => d.err
      callbacks := d.callbacks ++ [Callback.stopReturned err] }
    some (d.setState .stopped fun d =>
      let d := d.notifyExit .stopped err
      match cmd.action with
      | .undeploy => { d with phase := .cleanup cmd }
      | _ => d.answer cmd (err.map .verticle))
  | _ => none

def cleanup : Option (Deployment κ ε) :=
  match d.phase with
  | .cleanup cmd =>
    if isValidTransition d.state .undeployed then
      some (d.setState .undeployed fun d =>
        { d with cmdChanClosed := true, phase := .exited }.answer cmd none)
    else some ({ d with phase := .ready }.answer cmd
      (some (.invalidTransition d.state .undeployed)))
  | _ => none

def send : Option (Deployment κ ε) :=
  if d.cmdChanClosed = false ∧ d.cmdChan.length < 1 then
    some { d with cmdChan := d.cmdChan ++ [cmd] }
  else none

def step (a : DeploymentAction κ ε) : Option (Deployment κ ε) :=
  if d.failedFast then none
  else
    match a with
    | .send cmd => d.send cmd
    | .receive ctxErr => d.receive ctxErr
    | .startReturns err => d.startReturns err
    | .stopReturns err => d.stopReturns err
    | .cleanup => d.cleanup

/-! ## The lifecycle -/

/-- What a deployment has recorded and called, by its state and the position of its
loop. -/
inductive Stage (onExit : Bool) : DeploymentState → Phase κ →
    List (StateTransition ε) → List (Callback ε) → Prop
  | pending : Stage onExit .pending .ready
      [⟨.pending, .pending, none⟩] []
  | deploying (cmd : Command κ) : Stage onExit .deploying (.inStart cmd)
      [⟨.pending, .pending, none⟩, ⟨.pending, .deploying, none⟩]
      [.start]
  | running : Stage onExit .running .ready
      [⟨.pending, .pending, none⟩, ⟨.pending, .deploying, none⟩, ⟨.deploying, .running, none⟩]
      [.start, .startReturned none]
  | failed (e : ε) : Stage onExit .failed .ready
      [⟨.pending, .pending, none⟩, ⟨.pending, .deploying, none⟩, ⟨.deploying, .failed, some e⟩]
      ([Callback.start, Callback.startReturned (some e)] ++ exitCalls onExit .failed (some e))
  | failedCleanup (e : ε) (cmd : Command κ) : Stage onExit .failed (.cleanup cmd)
      [⟨.pending, .pending, none⟩, ⟨.pending, .deploying, none⟩, ⟨.deploying, .failed, some e⟩]
      ([Callback.start, Callback.startReturned (some e)] ++ exitCalls onExit .failed (some e))
  | stopping (cmd : Command κ) : Stage onExit .stopping (.inStop cmd)
      [⟨.pending, .pending, none⟩, ⟨.pending, .deploying, none⟩,
        ⟨.deploying, .running, none⟩, ⟨.running, .stopping, none⟩]
      [.start, .startReturned none, .stop]
  | stopped (e : Option ε) : Stage onExit .stopped .ready
      [⟨.pending, .pending, none⟩, ⟨.pending, .deploying, none⟩,
        ⟨.deploying, .running, none⟩, ⟨.running, .stopping, none⟩,
        ⟨.stopping, .stopped, none⟩]
      ([Callback.start, Callback.startReturned none, Callback.stop, Callback.stopReturned e] ++
        exitCalls onExit .stopped e)
  | stoppedCleanup (e : Option ε) (cmd : Command κ) : Stage onExit .stopped (.cleanup cmd)
      [⟨.pending, .pending, none⟩, ⟨.pending, .deploying, none⟩,
        ⟨.deploying, .running, none⟩, ⟨.running, .stopping, none⟩,
        ⟨.stopping, .stopped, none⟩]
      ([Callback.start, Callback.startReturned none, Callback.stop, Callback.stopReturned e] ++
        exitCalls onExit .stopped e)
  | undeployedFailed (e : ε) : Stage onExit .undeployed .exited
      [⟨.pending, .pending, none⟩, ⟨.pending, .deploying, none⟩,
        ⟨.deploying, .failed, some e⟩, ⟨.failed, .undeployed, none⟩]
      ([Callback.start, Callback.startReturned (some e)] ++ exitCalls onExit .failed (some e))
  | undeployedStopped (e : Option ε) : Stage onExit .undeployed .exited
      [⟨.pending, .pending, none⟩, ⟨.pending, .deploying, none⟩,
        ⟨.deploying, .running, none⟩, ⟨.running, .stopping, none⟩,
        ⟨.stopping, .stopped, none⟩, ⟨.stopped, .undeployed, none⟩]
      ([Callback.start, Callback.startReturned none, Callback.stop, Callback.stopReturned e] ++
        exitCalls onExit .stopped e)

structure Inv (d : Deployment κ ε) : Prop where
  running : d.failedFast = false
  stage : Stage d.onExit d.state d.phase d.stateHistory d.callbacks
  closed : d.cmdChanClosed = d.phase.hasExited
  capacity : d.cmdChan.length ≤ 1

theorem inv_newDeployment (onExit : Bool) : Inv (newDeployment onExit : Deployment κ ε) :=
  ⟨rfl, .pending, rfl, Nat.zero_le 1⟩

variable {d : Deployment κ ε}

theorem Inv.answer (hd : Inv d) (cmd : Command κ) (err : Option (ReplyError ε)) :
    Inv (d.answer cmd err) :=
  { hd with }

theorem inv_start (hd : Inv d) (hstate : d.state = .pending) (cmd : Command κ) :
    Inv (d.setState .deploying fun d => { d with
      phase := .inStart cmd
      callbacks := d.callbacks ++ [Callback.start] }) := by
  have hstage := hd.stage
  cases d
  simp only at hstate hstage
  subst hstate
  cases hstage with
  | pending => exact { hd with stage := .deploying cmd }

theorem inv_callStop (hd : Inv d) (hstate : d.state = .running) (cmd : Command κ) :
    Inv (d.callStop cmd) := by
  have hstage := hd.stage
  cases d
  simp only at hstate hstage
  subst hstate
  cases hstage with
  | running => exact { hd with stage := .stopping cmd }

theorem Inv.ready_state (hd : Inv d) (hphase : d.phase = .ready) :
    d.state = .pending ∨ d.state = .running ∨ d.state = .failed ∨ d.state = .stopped := by
  obtain ⟨-, hstage, -, -⟩ := hd
  cases d
  simp only at hphase hstage
  subst hphase
  cases hstage <;> simp

theorem Inv.toCleanup (hd : Inv d) (hphase : d.phase = .ready)
    (hstate : d.state = .failed ∨ d.state = .stopped) (cmd : Command κ) :
    Inv { d with phase := .cleanup cmd } := by
  have hstage := hd.stage
  cases d
  simp only at hstate hphase hstage
  subst hphase
  rcases hstate with rfl | rfl
  · cases hstage with
    | failed e => exact { hd with stage := .failedCleanup e cmd }
  · cases hstage with
    | stopped e => exact { hd with stage := .stoppedCleanup e cmd }

theorem inv_handle (hd : Inv d) (hphase : d.phase = .ready) (cmd : Command κ) :
    Inv (d.handle cmd) := by
  have hready := hd.ready_state hphase
  rw [handle]
  split
  · split
    next hvalid => exact inv_start hd (pending_of_isValidTransition hvalid) cmd
    · exact hd.answer cmd _
  · grind [inv_callStop, running_of_isValidTransition, Inv.answer]
  grind [inv_callStop, Inv.toCleanup, Inv.answer]

variable {t : Deployment κ ε} {ctxErr : Option ContextError}

theorem inv_receive (hd : Inv d) (h : d.receive ctxErr = some t) : Inv t := by
  rw [receive] at h
  split at h
  next rest hphase hchan =>
    have hcap := hd.capacity
    rw [hchan, length_cons] at hcap
    have hpopped : Inv { d with cmdChan := rest } := { hd with capacity := Nat.le_of_succ_le hcap }
    grind [Inv.answer, inv_handle]
  · cases h

variable {err : Option ε}

section

variable (hd : Inv d)

include hd

theorem inv_startReturns (h : d.startReturns err = some t) : Inv t := by
  have hstage := hd.stage
  obtain ⟨_, _, _, _, _, phase⟩ := d
  simp only at hstage
  cases phase with
  | inStart cmd =>
    cases hstage with
    | deploying =>
      cases err with
      | none =>
        cases h
        exact { hd with stage := .running }
      | some e =>
        cases h
        exact { hd with stage := .failed e }
  | _ => cases h

theorem inv_stopReturns (h : d.stopReturns err = some t) : Inv t := by
  have hstage := hd.stage
  obtain ⟨_, _, _, _, _, phase⟩ := d
  simp only at hstage
  cases phase with
  | inStop cmd =>
    obtain ⟨action, reply⟩ := cmd
    cases hstage with
    | stopping =>
      cases action with
      | undeploy =>
        cases h
        exact { hd with stage := .stoppedCleanup err _ }
      | _ =>
        cases h
        exact { hd with stage := .stopped err }
  | _ => cases h

theorem inv_cleanup (h : d.cleanup = some t) : Inv t := by
  have hstage := hd.stage
  obtain ⟨_, _, _, _, _, phase⟩ := d
  simp only at hstage
  cases phase with
  | cleanup cmd =>
    cases hstage with
    | failedCleanup e =>
      cases h
      exact { hd with stage := .undeployedFailed e, closed := rfl }
    | stoppedCleanup e =>
      cases h
      exact { hd with stage := .undeployedStopped e, closed := rfl }
  | _ => cases h

theorem inv_send (h : d.send cmd = some t) : Inv t := by
  rw [send] at h
  split at h
  next hroom =>
    cases h
    refine { hd with capacity := ?_ }
    grind
  · cases h

theorem inv_step {a : DeploymentAction κ ε} (h : d.step a = some t) : Inv t := by
  cases a with
  | send => grind [step, inv_send]
  | receive => grind [step, inv_receive]
  | startReturns => grind [step, inv_startReturns]
  | stopReturns => grind [step, inv_stopReturns]
  | cleanup => grind [step, inv_cleanup]

end

/-! ## The lifecycle property -/

def isStart : Callback ε → Bool
  | .start => true
  | _ => false

def isStop : Callback ε → Bool
  | .stop => true
  | _ => false

def isExit : Callback ε → Bool
  | .exit _ _ => true
  | _ => false

/-- The lifecycle contract. No fail-fast has fired; the recorded transitions are a
walk in the documented diagram from `PENDING` to the current state; `Start` and
`Stop` have been called at most once, `Stop` after a `Start` that returned nil; and
the notifier at most once, with `FAILED` or `STOPPED`. -/
structure LifecycleOk (d : Deployment κ ε) : Prop where
  no_failFast : d.failedFast = false
  path_start : d.stateHistory.head? = some ⟨.pending, .pending, none⟩
  path : d.stateHistory.IsChain fun a b => b.src = a.dst ∧ Documented b.src b.dst
  path_end : d.stateHistory.getLast?.map StateTransition.dst = some d.state
  start_once : d.callbacks.countP isStart ≤ 1
  stop_once : d.callbacks.countP isStop ≤ 1
  stop_after_start : ∀ i : ℕ, d.callbacks[i]? = some .stop →
    ∃ j < i, d.callbacks[j]? = some (.startReturned none)
  exit_once : d.callbacks.countP isExit ≤ 1
  exit_state : ∀ state err, .exit state err ∈ d.callbacks → state = .failed ∨ state = .stopped

variable {onExit : Bool} {state : DeploymentState} {phase : Phase κ}
  {history : List (StateTransition ε)} {callbacks : List (Callback ε)}

section

variable (h : Stage onExit state phase history callbacks)

include h

theorem Stage.path : history.head? = some ⟨.pending, .pending, none⟩ ∧
      (history.IsChain fun a b => b.src = a.dst ∧ Documented b.src b.dst) ∧
      history.getLast?.map StateTransition.dst = some state := by
  have hchain : ∀ {a b : StateTransition ε} {l},
      (b :: l).IsChain
        (fun a b => b.src = a.dst ∧ Documented b.src b.dst) →
      b.src = a.dst → isValidTransition b.src b.dst = true →
      (a :: b :: l).IsChain
        (fun a b => b.src = a.dst ∧ Documented b.src b.dst) := by
    intro a b l hl hsrc hvalid
    exact List.IsChain.cons_cons
      ⟨hsrc, (isValidTransition_iff _ _).mp hvalid⟩ hl
  cases h <;> refine ⟨rfl, ?_, rfl⟩ <;>
    repeat first
      | exact List.IsChain.singleton _
      | refine hchain ?_ rfl rfl

theorem Stage.calls : callbacks.countP isStart ≤ 1 ∧ callbacks.countP isStop ≤ 1 ∧
      callbacks.countP isExit ≤ 1 ∧
      ∀ state err, .exit state err ∈ callbacks → state = .failed ∨ state = .stopped := by
  cases h <;> cases onExit <;>
    simp [exitCalls, countP_cons, isStart, isStop, isExit]

/-- `Stop` is called only after a `Start` that returned nil. -/
theorem Stage.stop_after_start (i : ℕ)
    (hi : callbacks[i]? = some .stop) : ∃ j < i, callbacks[j]? = some (.startReturned none) := by
  have hstopped : ∀ {l : List (Callback ε)}, (.start :: .startReturned none :: l)[i]? = some .stop →
      ∃ j < i, (.start :: .startReturned none :: l)[j]? = some (.startReturned none) := by
    intro l hl
    match i with
    | 0 | 1 => simp at hl
    | i + 2 => exact ⟨1, by omega, rfl⟩
  have hnever : Callback.stop ∈ callbacks := mem_of_getElem? hi
  cases h with
  | pending | deploying | running => simp at hnever
  | failed | failedCleanup | undeployedFailed => cases onExit <;> simp [exitCalls] at hnever
  | stopping | stopped | stoppedCleanup | undeployedStopped => exact hstopped hi

end

theorem lifecycleOk_of_inv (hd : Inv d) : d.LifecycleOk := by
  obtain ⟨hhead, hpath, hlast⟩ := hd.stage.path
  obtain ⟨hstart, hstop, hexit, hstate⟩ := hd.stage.calls
  exact ⟨hd.running, hhead, hpath, hlast, hstart, hstop, hd.stage.stop_after_start, hexit, hstate⟩

/-- A deployment keeps the lifecycle contract, whatever commands it receives and
whatever its `Start` and `Stop` return. -/
theorem deployment_lifecycleOk {onExit : Bool} {acts : List (DeploymentAction κ ε)}
    {d : Deployment κ ε} (hrun : Run step anyStep (newDeployment onExit) acts d) : d.LifecycleOk :=
  lifecycleOk_of_inv
    (hrun.invariant (fun h _ => inv_step h) (inv_newDeployment onExit))

def fullLife : List (DeploymentAction ℕ String) :=
  [.send ⟨.stop, some 0⟩, .receive none, .send ⟨.start, some 1⟩, .receive (some .canceled),
    .send ⟨.start, some 2⟩, .receive none, .send ⟨.start, none⟩,
    .startReturns none, .receive none,
    .send ⟨.undeploy, some 3⟩, .receive none,
    .stopReturns (some "busy"), .cleanup]

theorem deployment_lifecycleOk_fullLife : ((exec step anyStep (newDeployment true) fullLife).get
      (by decide)).LifecycleOk ∧
    ((exec step anyStep (newDeployment true) fullLife).get
      (by decide)).callbacks =
      [.start, .startReturned none, .stop, .stopReturned (some "busy"),
        .exit .stopped (some "busy")] := by
  constructor
  · exact deployment_lifecycleOk
      (run_exec step anyStep (newDeployment true) fullLife (by decide))
  · decide

end Deployment
end Fluxor.Platform
