import Mathlib.Data.Finset.Basic
import Fluxor.Support.Goroutines
import Fluxor.Workflow.Definition

/-!
# The workflow engine

One execution of a workflow by the `Engine` of `pkg/workflow/engine.go`, from the
loop of `startExecution` on: the goroutines of `executeNode`, the messages that
`handleNodeExecution` receives, and the calls of `CancelExecution`. Each lock
section is a step, and so is each test of a context; a `go` statement belongs to the
lock section before it.

A handler returns when it likes and what it likes, and the clock shows any time.
`CleanupOldExecutions` is left out, and so is the logging.
-/

namespace Fluxor.Workflow

open Goroutines Function

/-- `ExecutionStatus`; the status `pending` is never set. -/
inductive ExecutionStatus
  | running | completed | failed | cancelled
  deriving DecidableEq

structure ExecutionError where
  (nodeID message : String)

/-- The input of a node: the data of another node, or what a merge node has
collected. -/
inductive Input (β : Type*)
  | value (data : Data β)
  | merged (data : List (Data β))
  deriving DecidableEq

structure MergeState (β : Type*) where
  expectedInputs : ℕ
  receivedInputs : ℕ := 0
  data : List (Data β) := []

/-- The context of a goroutine: that of the execution, or that of a message. -/
inductive Ctx
  | execution | message
  deriving DecidableEq

/-- The handler of a node is called, has failed on every attempt, has succeeded; a
merge node gets an input. -/
inductive Event (β : Type*)
  | called (node : NodeDefinition) (input : Input β)
  | failed (node : NodeDefinition)
  | succeeded (node : NodeDefinition) (output : NodeOutput β)
  | delivered (node : NodeDefinition) (data : Data β)
  deriving DecidableEq

/-- The engine for one execution. A missing set of active nodes counts as an empty
one. `execContext`: the execution has its entry in `execContexts`; `done`: the
contexts that have ended; `mu`: held by a goroutine that never releases it.
`history` records what has happened. -/
structure Engine (β : Type*) where
  status : ExecutionStatus := .running
  error : String := ""
  endTime : Option ℕ := none
  errors : List ExecutionError := []
  nodeOutputs : String → Option (Data β) := fun _ => none
  activeNodes : Finset String := ∅
  mergeStates : String → Option (MergeState β) := fun _ => none
  execContext : Bool := true
  done : Ctx → Bool := fun _ => false
  mu : Bool := false
  history : List (Event β) := []

inductive Check
  | checking | counting | judging
  | completing (err : Option String)
  | closing | clearing | cleaning
  deriving DecidableEq

/-- Where `executeNode` is. In `check` the flag tells whether the deferred
`markNodeInactive` is to come. A goroutine that reads a missing output panics with
the lock `mu`, and its deferred call waits for the lock. -/
inductive Stage (β : Type*)
  | called | unknown
  | trying (i : ℕ)
  | handling (i : ℕ)
  | waiting (i : ℕ)
  | failing (message : String)
  | erring (rest : List String)
  | storing (output : Option (NodeOutput β))
  | launching (rest : List String) (data : Data β)
  | activating (next : NodeDefinition) (rest : List String) (data : Data β)
  | merging (next : NodeDefinition) (rest : List String) (data : Data β)
  | check (deferred : Bool) (stage : Check)
  | leaving | panicking | hanging | returned
  deriving DecidableEq

inductive Cancel
  | called | cancelling | clearing | cleaning | returned
  deriving DecidableEq

inductive Thread (β : Type*)
  | start (rest : List NodeDefinition) (input : Data β)
  | node (ctx : Ctx) (node : NodeDefinition) (input : Input β) (stage : Stage β)
  | message (node : NodeDefinition) (data : Data β) (handled : Bool)
  | cancel (stage : Cancel)
  | expire (ctx : Ctx) (ended : Bool)
  deriving DecidableEq

/-- How a goroutine goes on, the time it reads, or what the handler returns. -/
inductive Choice (β : Type*)
  | take (b : Branch)
  | time (now : ℕ)
  | returns (output : Option (NodeOutput β))
  | fails (message : String)

variable {β : Type*}

namespace Engine

variable (w : WorkflowDefinition) (e : Engine β)

def started (input : Data β) : Config (Engine β) (Thread β) := ⟨{}, [.start w.nodes input]⟩

def markNodeActive (id : String) : Engine β :=
  { e with activeNodes := insert id e.activeNodes }

def markNodeInactive (id : String) : Engine β :=
  { e with activeNodes := e.activeNodes.erase id }

def recordError (id message : String) : Engine β :=
  { e with errors := e.errors ++ [⟨id, message⟩] }

def record (event : Event β) : Engine β :=
  { e with history := e.history ++ [event] }

def storeOutput (node : NodeDefinition) (output : NodeOutput β) : Engine β :=
  { e.record (.succeeded node output) with
    nodeOutputs := update e.nodeOutputs node.id (some output.data) }

/-! ## Completion -/

/-- The first lock section of `completeExecution`. -/
def complete (err : Option String) (now : ℕ) : Engine β :=
  match err with
  | some message => { e with endTime := some now, status := .failed, error := message }
  | none => { e with endTime := some now, status := .completed }

/-- `checkExecutionComplete` and `completeExecution`, with the next stage if there is one. -/
def checkNext : Check → Choice β → Option (Engine β × Option Check)
  | .checking, _ =>
    if e.mu then none
    else if e.status = .running then some (e, some .counting)
    else some (e, none)
  | .counting, _ => if e.activeNodes = ∅ then some (e, some .judging) else some (e, none)
  | .judging, _ =>
    if e.errors = [] then some (e, some (.completing none))
    else
      some (e, some (.completing (some ("workflow had " ++ toString e.errors.length ++ " errors"))))
  | .completing err, .time now => if e.mu then none else some (e.complete err now, some .closing)
  | .closing, _ => some ({ e with execContext := false }, some .clearing)
  | .clearing, _ => some ({ e with activeNodes := ∅ }, some .cleaning)
  | .cleaning, _ => some ({ e with mergeStates := fun _ => none }, none)
  | _, _ => none

inductive CheckStep (e : Engine β) : Check → Engine β → Option Check → Prop
  | running (hmu : e.mu = false) (h : e.status = .running) :
      CheckStep e .checking e (some .counting)
  | ended (hmu : e.mu = false) (h : e.status ≠ .running) : CheckStep e .checking e none
  | empty (h : e.activeNodes = ∅) : CheckStep e .counting e (some .judging)
  | active (h : e.activeNodes ≠ ∅) : CheckStep e .counting e none
  | judge {err} : CheckStep e .judging e (some (.completing err))
  | complete {err now} (hmu : e.mu = false) :
      CheckStep e (.completing err) (e.complete err now) (some .closing)
  | close : CheckStep e .closing { e with execContext := false } (some .clearing)
  | clear : CheckStep e .clearing { e with activeNodes := ∅ } (some .cleaning)
  | clean : CheckStep e .cleaning { e with mergeStates := fun _ => none } none

variable {e e' : Engine β} {choice : Choice β}

theorem checkStep_of_checkNext {st : Check} {st' : Option Check}
    (h : e.checkNext st choice = some (e', st')) : CheckStep e st e' st' := by
  revert h
  fun_cases checkNext e st choice <;> intro h <;> cases h
  case case2 hmu hrunning => exact .running (by simpa using hmu) hrunning
  case case3 hmu hended => exact .ended (by simpa using hmu) hended
  case case4 hempty => exact .empty hempty
  case case5 hactive => exact .active hactive
  case case6 | case7 => exact .judge
  case case9 hmu => exact .complete (by simpa using hmu)
  case case10 => exact .close
  case case11 => exact .clear
  case case12 => exact .clean

/-! ## Merge nodes -/

/-- Whether a merge node is launched in this state. -/
def shouldProceed (mode : MergeMode) (state : MergeState β) : Bool :=
  match mode with
  | .waitAll => state.expectedInputs ≤ state.receivedInputs
  | .waitAny => 1 ≤ state.receivedInputs
  | .unknown => false

def receive (e : Engine β) (node : NodeDefinition) (data : Data β) : MergeState β :=
  let state := (e.mergeStates node.id).getD ⟨expectedInputs w node, 0, []⟩
  { state with
    data := state.data ++ [data]
    receivedInputs := state.receivedInputs + 1 }

def handleMergeInput (e : Engine β) (ctx : Ctx)
    (node : NodeDefinition) (data : Data β) : Engine β × List (Thread β) :=
  let state := e.receive w node data
  let e := e.record (.delivered node data)
  if shouldProceed node.mode state then
    ({ e with mergeStates := update e.mergeStates node.id none },
      [.node ctx node (.merged state.data) .called])
  else
    ({ e with
      mergeStates := update e.mergeStates node.id (some state) }, [])

/-! ## Nodes -/

/-- After `completeExecution` or `checkExecutionComplete` comes the deferred call, if any. -/
def afterCheck : Bool → Stage β
  | true => .leaving
  | false => .returned

def nodeNext (registry : NodeType → Bool)
    (e : Engine β) (ctx : Ctx) (node : NodeDefinition) (input : Input β) :
    Stage β → Choice β → Option (Engine β × Stage β × List (Thread β))
  | .called, _ =>
    if e.done ctx then some (e, .leaving, [])
    else if !registry node.type then some (e, .unknown, [])
    else if 0 < node.attempts then some (e, .trying 0, [])
    else some (e, .storing none, [])
  | .unknown, _ =>
    if e.mu then none
    else
      some (e.recordError node.id ("unknown node type: " ++ node.type.name), .leaving, [])
  | .trying i, _ =>
    if e.done ctx then some (e, .leaving, [])
    else if i = 0 then some (e.record (.called node input), .handling i, [])
    else some (e, .handling i, [])
  | .handling _, .returns output => some (e, .storing output, [])
  | .handling i, .fails message =>
    if i + 1 < node.attempts then some (e, .waiting i, [])
    else some (e.record (.failed node), .failing message, [])
  | .waiting _, .take .done => if e.done ctx then some (e, .leaving, []) else none
  | .waiting i, .take .after => some (e, .trying (i + 1), [])
  | .failing message, _ =>
    if e.mu then none
    else if node.onError = [] then
      some (e.recordError node.id message, .check true .checking, [])
    else some (e.recordError node.id message, .erring node.onError, [])
  | .erring [], _ => some (e, .leaving, [])
  | .erring (id :: rest), _ =>
    match findNode w id with
    | some next => some (e.markNodeActive id, .erring rest, [.node ctx next input .called])
    | none => some (e, .erring rest, [])
  | .storing none, _ => if e.mu then none else some ({ e with mu := true }, .panicking, [])
  | .storing (some output), _ =>
    if e.mu then none
    else if output.stop then
      some (e.storeOutput node output, .check true (.completing none), [])
    else if determineNextNodes node output = [] then
      some (e.storeOutput node output, .check true .checking, [])
    else
      some (e.storeOutput node output, .launching (determineNextNodes node output) output.data, [])
  | .launching [] _, _ => some (e, .leaving, [])
  | .launching (id :: rest) data, _ =>
    if e.done ctx then some (e, .leaving, [])
    else
      match findNode w id with
      | some next =>
        if next.type = .merge then some (e, .merging next rest data, [])
        else some (e, .activating next rest data, [])
      | none => some (e, .launching rest data, [])
  | .activating next rest data, _ =>
    some (e.markNodeActive next.id, .launching rest data, [.node ctx next (.value data) .called])
  | .merging next rest data, _ =>
    let (e, launched) := e.handleMergeInput w ctx next data
    some (e, .launching rest data, launched)
  | .check deferred stage, choice =>
    match e.checkNext stage choice with
    | some (e, some stage) => some (e, .check deferred stage, [])
    | some (e, none) => some (e, afterCheck deferred, [])
    | none => none
  | .leaving, _ => some (e.markNodeInactive node.id, .check false .checking, [])
  | .panicking, _ => some (e.markNodeInactive node.id, .hanging, [])
  | _, _ => none

/-- The steps of `executeNode`; the list holds the goroutines it launches. -/
inductive NodeStep (w : WorkflowDefinition) (registry : NodeType → Bool)
    (e : Engine β) (ctx : Ctx) (node : NodeDefinition) (input : Input β)
    (choice : Choice β) :
    Stage β → Engine β → Stage β → List (Thread β) → Prop
  | cancelled (h : e.done ctx = true) :
      NodeStep w registry e ctx node input choice .called e .leaving []
  | unregistered (h : registry node.type = false) :
      NodeStep w registry e ctx node input choice .called e .unknown []
  | enter (h : registry node.type = true) (ha : 0 < node.attempts) :
      NodeStep w registry e ctx node input choice .called e (.trying 0) []
  | skip (ha : node.attempts ≤ 0) (h : registry node.type = true) :
      NodeStep w registry e ctx node input choice .called e (.storing none) []
  | unknown {message} (hmu : e.mu = false) : NodeStep w registry e ctx node input choice .unknown
        (e.recordError node.id message) .leaving []
  | abort {i} (h : e.done ctx = true) :
      NodeStep w registry e ctx node input choice (.trying i) e .leaving []
  | call (h : e.done ctx = false) : NodeStep w registry e ctx node input choice (.trying 0)
        (e.record (.called node input)) (.handling 0) []
  | callAgain {i} (h : e.done ctx = false) (hi : i ≠ 0) :
      NodeStep w registry e ctx node input choice (.trying i) e (.handling i) []
  | returns {i output} (h : choice = .returns output) :
      NodeStep w registry e ctx node input choice (.handling i) e (.storing output) []
  | retry {i : ℕ} {message} (h : choice = .fails message) (hi : i + 1 < node.attempts) :
      NodeStep w registry e ctx node input choice (.handling i) e (.waiting i) []
  | fail {i : ℕ} {message} (h : choice = .fails message) (hi : node.attempts ≤ i + 1) :
      NodeStep w registry e ctx node input choice (.handling i)
        (e.record (.failed node)) (.failing message) []
  | giveUp {i} (h : e.done ctx = true) :
      NodeStep w registry e ctx node input choice (.waiting i) e .leaving []
  | again {i} : NodeStep w registry e ctx node input choice (.waiting i) e (.trying (i + 1)) []
  | unhandled {message} (hmu : e.mu = false) (h : node.onError = []) :
      NodeStep w registry e ctx node input choice (.failing message)
        (e.recordError node.id message) (.check true .checking) []
  | handled {message} (hmu : e.mu = false) (h : node.onError ≠ []) :
      NodeStep w registry e ctx node input choice (.failing message)
        (e.recordError node.id message) (.erring node.onError) []
  | erred : NodeStep w registry e ctx node input choice (.erring []) e .leaving []
  | err {id rest next} (h : findNode w id = some next) :
      NodeStep w registry e ctx node input choice (.erring (id :: rest))
        (e.markNodeActive id) (.erring rest) [.node ctx next input .called]
  | errMissing {id rest} (h : findNode w id = none) :
      NodeStep w registry e ctx node input choice (.erring (id :: rest)) e (.erring rest) []
  | panic (hmu : e.mu = false) : NodeStep w registry e ctx node input choice (.storing none)
        { e with mu := true } .panicking []
  | stop {output} (hmu : e.mu = false) (h : output.stop = true) :
      NodeStep w registry e ctx node input choice (.storing (some output))
        (e.storeOutput node output) (.check true (.completing none)) []
  | last {output} (hmu : e.mu = false) (hstop : output.stop = false)
      (h : determineNextNodes node output = []) :
      NodeStep w registry e ctx node input choice (.storing (some output))
        (e.storeOutput node output) (.check true .checking) []
  | store {output} (hmu : e.mu = false) (hstop : output.stop = false)
      (h : determineNextNodes node output ≠ []) :
      NodeStep w registry e ctx node input choice (.storing (some output))
        (e.storeOutput node output)
        (.launching (determineNextNodes node output) output.data) []
  | launched {data} : NodeStep w registry e ctx node input choice (.launching [] data) e .leaving []
  | quit {id rest data} (h : e.done ctx = true) :
      NodeStep w registry e ctx node input choice (.launching (id :: rest) data) e .leaving []
  | missing {id rest data} (h : findNode w id = none) : NodeStep w registry e ctx node input choice
        (.launching (id :: rest) data) e (.launching rest data) []
  | toMerge {id rest data next} (h : findNode w id = some next) (htype : next.type = .merge) :
      NodeStep w registry e ctx node input choice
        (.launching (id :: rest) data) e (.merging next rest data) []
  | toNode {id rest data next} (h : findNode w id = some next) (htype : next.type ≠ .merge) :
      NodeStep w registry e ctx node input choice
        (.launching (id :: rest) data) e (.activating next rest data) []
  | activate {next rest data} : NodeStep w registry e ctx node input choice
        (.activating next rest data) (e.markNodeActive next.id)
        (.launching rest data) [.node ctx next (.value data) .called]
  | fire {next rest data} (h : shouldProceed next.mode (e.receive w next data) = true) :
      NodeStep w registry e ctx node input choice (.merging next rest data)
        { e.record (.delivered next data) with
          mergeStates := update e.mergeStates next.id none }
        (.launching rest data)
        [.node ctx next (.merged (e.receive w next data).data) .called]
  | collect {next rest data} (h : shouldProceed next.mode (e.receive w next data) = false) :
      NodeStep w registry e ctx node input choice (.merging next rest data)
        { e.record (.delivered next data) with
          mergeStates := update e.mergeStates next.id (some (e.receive w next data)) }
        (.launching rest data) []
  | check {deferred stage e' stage'} (h : CheckStep e stage e' (some stage')) :
      NodeStep w registry e ctx node input choice (.check deferred stage) e'
        (.check deferred stage') []
  | checked {deferred stage e'} (h : CheckStep e stage e' none) :
      NodeStep w registry e ctx node input choice (.check deferred stage) e'
        (afterCheck deferred) []
  | leave : NodeStep w registry e ctx node input choice .leaving
      (e.markNodeInactive node.id) (.check false .checking) []
  | unwind : NodeStep w registry e ctx node input choice .panicking
      (e.markNodeInactive node.id) .hanging []

variable {w : WorkflowDefinition} {registry : NodeType → Bool}

theorem nodeStep_of_nodeNext {ctx : Ctx} {node : NodeDefinition} {input : Input β}
    {st st' : Stage β} {launched : List (Thread β)}
    (h : e.nodeNext w registry ctx node input st choice = some (e', st', launched)) :
    NodeStep w registry e ctx node input choice st e' st' launched := by
  revert h
  fun_cases nodeNext w registry e ctx node input st choice <;> intro h
  case case34 hmerge =>
    cases h
    rw [handleMergeInput] at hmerge
    split at hmerge
    next hproceed =>
      cases hmerge
      exact .fire hproceed
    next hproceed =>
      cases hmerge
      exact .collect (by simpa using hproceed)
  all_goals cases h
  case case1 hdone => exact .cancelled hdone
  case case2 hregistry => exact .unregistered (by simpa using hregistry)
  case case3 hregistry hattempts =>
    exact .enter (by simpa using hregistry) hattempts
  case case4 hregistry hattempts =>
    exact .skip (by simpa using hattempts) (by simpa using hregistry)
  case case6 hmu => exact .unknown (by simpa using hmu)
  case case7 hdone => exact .abort hdone
  case case8 hdone => exact .call (by simpa using hdone)
  case case9 hdone hi => exact .callAgain (by simpa using hdone) hi
  case case10 => exact .returns rfl
  case case11 hi => exact .retry rfl hi
  case case12 hi => exact .fail rfl (by simpa using hi)
  case case13 hdone => exact .giveUp hdone
  case case15 => exact .again
  case case17 hmu hnone => exact .unhandled (by simpa using hmu) hnone
  case case18 hmu hsome => exact .handled (by simpa using hmu) hsome
  case case19 => exact .erred
  case case20 hfind => exact .err hfind
  case case21 hfind => exact .errMissing hfind
  case case23 hmu => exact .panic (by simpa using hmu)
  case case25 hmu hstop => exact .stop (by simpa using hmu) hstop
  case case26 hmu hstop hnone =>
    exact .last (by simpa using hmu) (by simpa using hstop) hnone
  case case27 hmu hstop hsome =>
    exact .store (by simpa using hmu) (by simpa using hstop) hsome
  case case28 => exact .launched
  case case29 hdone => exact .quit hdone
  case case30 hfind htype => exact .toMerge hfind htype
  case case31 hfind htype => exact .toNode hfind htype
  case case32 hfind => exact .missing hfind
  case case33 => exact .activate
  case case35 hcheck => exact .check (checkStep_of_checkNext hcheck)
  case case36 hcheck => exact .checked (checkStep_of_checkNext hcheck)
  case case38 => exact .leave
  case case39 => exact .unwind

/-! ## The other goroutines -/

def cancelNext (e : Engine β) : Cancel → Choice β → Option (Engine β × Cancel)
  | .called, .time now =>
    if e.mu then none
    else if e.status = .running then
      some ({ e with endTime := some now, status := .cancelled }, .cancelling)
    else some (e, .returned)
  | .cancelling, _ =>
    if e.execContext then
      some ({ e with
        done := update e.done .execution true
        execContext := false }, .clearing)
    else some (e, .clearing)
  | .clearing, _ => some ({ e with activeNodes := ∅ }, .cleaning)
  | .cleaning, _ => some ({ e with mergeStates := fun _ => none }, .returned)
  | _, _ => none

inductive CancelStep (e : Engine β) : Cancel → Engine β → Cancel → Prop
  | cancel {now} (h : e.status = .running) : CancelStep e .called
      { e with endTime := some now, status := .cancelled } .cancelling
  | late : CancelStep e .called e .returned
  | stop : CancelStep e .cancelling { e with
        done := update e.done .execution true
        execContext := false } .clearing
  | gone : CancelStep e .cancelling e .clearing
  | clear : CancelStep e .clearing { e with activeNodes := ∅ } .cleaning
  | clean : CancelStep e .cleaning { e with mergeStates := fun _ => none } .returned

theorem cancelStep_of_cancelNext {st st' : Cancel} (h : e.cancelNext st choice = some (e', st')) :
    CancelStep e st e' st' := by
  revert h
  fun_cases cancelNext e st choice <;> intro h <;> cases h
  case case2 hrunning => exact .cancel hrunning
  case case3 => exact .late
  case case4 => exact .stop
  case case5 => exact .gone
  case case6 => exact .clear
  case case7 => exact .clean

variable (w)

def startNext (e : Engine β) (input : Data β) :
    List NodeDefinition → Option (Engine β × List NodeDefinition × List (Thread β))
  | [] => none
  | node :: rest =>
    if isStartNode w node then
      some (e.markNodeActive node.id, rest, [.node .execution node (.value input) .called])
    else some (e, rest, [])

/-! ## The program -/

def next (registry : NodeType → Bool) (e : Engine β)
    (_ : ℕ) (t : Thread β) (choice : Choice β) : Option (Outcome (Engine β) (Thread β)) :=
  match t with
  | .start rest input =>
    (e.startNext w input rest).map fun (e, rest, launched) => ⟨e, .start rest input, launched⟩
  | .node ctx node input stage =>
    (e.nodeNext w registry ctx node input stage choice).map
      fun (e, stage, launched) => ⟨e, .node ctx node input stage, launched⟩
  | .message node data false =>
    -- `handleNodeExecution` looks the execution up and launches the node
    if e.mu then none
    else some ⟨e, .message node data true, [.node .message node (.value data) .called]⟩
  | .message _ _ true => none
  | .cancel stage => (e.cancelNext stage choice).map fun (e, stage) => ⟨e, .cancel stage, []⟩
  | .expire ctx false => some ⟨{ e with done := update e.done ctx true }, .expire ctx true, []⟩
  | .expire _ true => none

def entry : Thread β → Bool
  | .message node _ false => node ∈ w.nodes
  | .cancel .called => true
  | .expire _ false => true
  | _ => false

def code (registry : NodeType → Bool) (β : Type*) : Code (Engine β) (Thread β) (Choice β) :=
  ⟨next w registry, entry w⟩

variable {w}

inductive Step (w : WorkflowDefinition) (registry : NodeType → Bool)
    (e : Engine β) (choice : Choice β) :
    Thread β → Outcome (Engine β) (Thread β) → Prop
  | launch {node rest input} (h : isStartNode w node = true) :
      Step w registry e choice (.start (node :: rest) input)
        ⟨e.markNodeActive node.id, .start rest input,
          [.node .execution node (.value input) .called]⟩
  | pass {node rest input} (h : isStartNode w node = false) :
      Step w registry e choice (.start (node :: rest) input) ⟨e, .start rest input, []⟩
  | node {ctx node input st e' st' launched}
      (h : NodeStep w registry e ctx node input choice st e' st' launched) :
      Step w registry e choice (.node ctx node input st) ⟨e', .node ctx node input st', launched⟩
  | message {node data} (hmu : e.mu = false) :
      Step w registry e choice (.message node data false) ⟨e, .message node data true,
          [.node .message node (.value data) .called]⟩
  | cancel {st e' st'} (h : CancelStep e st e' st') :
      Step w registry e choice (.cancel st) ⟨e', .cancel st', []⟩
  | expire {ctx} : Step w registry e choice (.expire ctx false)
      ⟨{ e with done := update e.done ctx true }, .expire ctx true, []⟩

variable {o : Outcome (Engine β) (Thread β)}

theorem step_of_next {i : ℕ} {t : Thread β} (h : (code w registry β).next e i t choice = some o) :
    Step w registry e choice t o := by
  revert h
  change next w registry e i t choice = some o → _
  fun_cases next w registry e i t choice <;> intro h
  case case1 rest input =>
    obtain ⟨⟨e', rest', launched⟩, hnext, rfl⟩ := Option.map_eq_some_iff.mp h
    cases rest with
    | nil => cases hnext
    | cons =>
      rw [startNext] at hnext
      split at hnext
      next hstart =>
        cases hnext
        exact .launch hstart
      next hstart =>
        cases hnext
        exact .pass (by simpa using hstart)
  case case2 =>
    obtain ⟨⟨e', st', launched⟩, hnext, rfl⟩ := Option.map_eq_some_iff.mp h
    exact .node (nodeStep_of_nodeNext hnext)
  case case3 | case5 | case8 => cases h
  case case4 hmu =>
    cases h
    exact .message (by simpa using hmu)
  case case6 =>
    obtain ⟨⟨e', st'⟩, hnext, rfl⟩ := Option.map_eq_some_iff.mp h
    exact .cancel (cancelStep_of_cancelNext hnext)
  case case7 =>
    cases h
    exact .expire

theorem Step.launched_called {t : Thread β} (h : Step w registry e choice t o) :
    ∀ u ∈ o.started, ∃ ctx node input, u = .node ctx node input .called := by
  intro u hu
  cases h with
  | launch | message => exact ⟨_, _, _, List.mem_singleton.mp hu⟩
  | node h =>
    cases h with
    | err | activate | fire => exact ⟨_, _, _, List.mem_singleton.mp hu⟩
    | _ => cases hu
  | _ => cases hu

end Engine

end Fluxor.Workflow
