import Fluxor.Support.Goroutines

/-!
# The compute pool

`ComputePool` of `pkg/core/compute/pool.go` after its `Start`: the workers, the
calls of `Submit` with the backpressure policies, `Stop`, the futures and the
goroutines that clear the map of `CoalesceByKey`. Each atomic operation, channel
operation and lock section is a step; in the lock section of a keyed `Submit` the
two writes that workers see without the lock are steps of their own.

A job is named by the call of `Submit` that makes it. A handler returns when it
likes and what it likes: its result and error are one value of `ρ`. The statistics
are left out.
-/

namespace Fluxor.Compute

open Goroutines Function

/-- `BackpressurePolicy`, an integer type with other values than the four named ones. -/
inductive Policy
  | block | dropNewest | dropOldest | coalesceByKey | unknown
  deriving DecidableEq

/-- What `Submit` sets in a job. A key is empty or a value of `κ`; `ends` tells
whether the job's context may end. -/
structure Job (κ τ : Type*) where
  id : ℕ
  key : Option κ
  payload : τ
  ends : Bool
  deriving DecidableEq

/-- `JobResult`: the payload, and the handler's return; without it the error is
`context.Canceled`. -/
structure JobResult (τ ρ : Type*) where
  value : τ
  outcome : Option ρ
  deriving DecidableEq

/-- What changes in a job and in its future. `result` is the slot of the result
channel; `started`: the handler has been called. -/
structure Cell (τ ρ : Type*) where
  superseded : Bool := false
  result : Option (JobResult τ ρ) := none
  doneSig : Bool := false
  done : Bool := false
  cached : Option (JobResult τ ρ) := none
  started : Bool := false

/-- The pool. `cancelled` and `exited` are the context and the wait group of each
worker; `accepted` is the history of the jobs sent. -/
structure Pool (κ τ ρ : Type*) where
  policy : Policy
  (queueSize workers : ℕ)
  running : Bool := true
  jobChan : List (Job κ τ) := []
  closed : Bool := false
  coalesceMap : κ → Option (Job κ τ) := fun _ => none
  coalesceMu : Bool := false
  cells : ℕ → Cell τ ρ := fun _ => {}
  cancelled : ℕ → Bool := fun _ => false
  exited : ℕ → Bool := fun _ => false
  accepted : List (Job κ τ) := []
  panicked : Bool := false

inductive SubmitError
  | notStarted | context | droppingNewest | failedToDropOldest | queueFull | unknownPolicy
  deriving DecidableEq

/-- Where `Submit` is. From `superseding` to `entering` it holds the lock of the
map; `old` is the job it has found there. -/
inductive Submit (κ τ : Type*)
  | called | selecting | removing | retrying
  | superseding (old : Job κ τ)
  | cancelling (old : Job κ τ)
  | entering (old : Option (Job κ τ))
  | sending (old : Option (Job κ τ))
  | deleting
  | returned (err : Option SubmitError)
  deriving DecidableEq

/-- Between the test of `running` and the last send. -/
def Submit.window {κ τ : Type*} : Submit κ τ → ℕ
  | .called | .deleting | .returned _ => 0
  | _ => 1

inductive Worker (κ τ ρ : Type*)
  | idle
  | checking (job : Job κ τ)
  | canceling (job : Job κ τ)
  | handling (job : Job κ τ)
  | sending (job : Job κ τ) (r : ρ)
  | signalling (job : Job κ τ)
  | returned
  deriving DecidableEq

/-- Where `Get` is. It returns the result, or nothing when its context has
ended. -/
inductive Get (τ ρ : Type*)
  | called | reading | waiting
  | storing (r : JobResult τ ρ)
  | returned (r : Option (JobResult τ ρ))
  deriving DecidableEq

/-- Where `Stop` is: it stops the workers one after the other. -/
inductive Stop
  | called | closing
  | stopping (k : ℕ)
  | waiting (k : ℕ)
  | returned
  deriving DecidableEq

/-- The goroutine of a keyed job that waits for its `doneSig`. -/
inductive Cleanup
  | waiting | locking | returned
  deriving DecidableEq

inductive Thread (κ τ ρ : Type*)
  | submit (key : Option κ) (payload : τ) (ends : Bool) (stage : Submit κ τ)
  | worker (stage : Worker κ τ ρ)
  | get (job : ℕ) (ends : Bool) (stage : Get τ ρ)
  | stop (ends : Bool) (stage : Stop)
  | cleanup (job : Job κ τ) (stage : Cleanup)
  deriving DecidableEq

/-- The way a goroutine goes on, or what the handler returns. -/
inductive Choice (ρ : Type*)
  | take (b : Branch)
  | returns (r : ρ)
  deriving DecidableEq

variable {κ τ ρ : Type*}

namespace Pool

def started (κ τ ρ : Type*) (policy : Policy) (workers queueSize : ℕ) :
    Config (Pool κ τ ρ) (Thread κ τ ρ) :=
  ⟨{ policy, queueSize, workers }, List.replicate workers (.worker .idle)⟩

/-- `NewComputePool` and `Start`: half of the processors work by default, and a
negative number of workers panics. -/
def newComputePool (κ τ ρ : Type*) (numCPU : ℕ) (policy : Policy)
    (workers queueSize : ℤ) : Option (Config (Pool κ τ ρ) (Thread κ τ ρ)) :=
  let workers : ℤ := if workers = 0 then max 1 (numCPU / 2) else workers
  let queueSize : ℤ := if queueSize < 1 then 1000 else queueSize
  if workers < 0 then none
  else some (started κ τ ρ policy workers.toNat queueSize.toNat)

def full (p : Pool κ τ ρ) : Bool := p.queueSize ≤ p.jobChan.length

def push (p : Pool κ τ ρ) (job : Job κ τ) : Pool κ τ ρ :=
  { p with jobChan := p.jobChan ++ [job], accepted := p.accepted ++ [job] }

def panic (p : Pool κ τ ρ) : Pool κ τ ρ := { p with panicked := true }

def modify (p : Pool κ τ ρ) (id : ℕ) (f : Cell τ ρ → Cell τ ρ) : Pool κ τ ρ :=
  { p with cells := update p.cells id (f (p.cells id)) }

/-- The value goes into the slot of the result channel unless it is taken. -/
def deliver (p : Pool κ τ ρ) (id : ℕ) (r : JobResult τ ρ) : Pool κ τ ρ :=
  p.modify id fun cell => { cell with result := cell.result.or (some r) }

/-! ## Futures -/

def getNext (p : Pool κ τ ρ) (id : ℕ) (ends : Bool) :
    Get τ ρ → Branch → Option (Pool κ τ ρ × Get τ ρ)
  | .called, _ => if (p.cells id).done then some (p, .reading) else some (p, .waiting)
  | .reading, _ =>
    match (p.cells id).cached with
    | some r => some (p, .returned (some r))
    | none => some (p, .waiting)
  | .waiting, .channel =>
    match (p.cells id).result with
    | some r => some (p.modify id fun cell => { cell with result := none }, .storing r)
    | none => none
  | .waiting, .done => if ends then some (p, .returned none) else none
  | .storing r, _ =>
    some (p.modify id fun cell => { cell with cached := some r, done := true }, .returned (some r))
  | _, _ => none

inductive GetStep (p : Pool κ τ ρ) (id : ℕ) (ends : Bool) : Get τ ρ → Pool κ τ ρ → Get τ ρ → Prop
  | done (h : (p.cells id).done = true) : GetStep p id ends .called p .reading
  | early (h : (p.cells id).done = false) : GetStep p id ends .called p .waiting
  | read {r} (h : (p.cells id).cached = some r) : GetStep p id ends .reading p (.returned (some r))
  | unset (h : (p.cells id).cached = none) : GetStep p id ends .reading p .waiting
  | receive {r} (h : (p.cells id).result = some r) :
      GetStep p id ends .waiting (p.modify id fun cell => { cell with result := none }) (.storing r)
  | ended (h : ends = true) : GetStep p id ends .waiting p (.returned none)
  | store {r} : GetStep p id ends (.storing r)
      (p.modify id fun cell => { cell with cached := some r, done := true })
      (.returned (some r))

variable {b : Branch} {p p' : Pool κ τ ρ}

theorem getStep_of_getNext {id : ℕ} {ends : Bool}
    {st st' : Get τ ρ} (h : p.getNext id ends st b = some (p', st')) :
    GetStep p id ends st p' st' := by
  revert h
  fun_cases getNext p id ends st b <;> intro h <;> cases h
  case case1 h => exact .done h
  case case2 h => exact .early (by simpa using h)
  case case3 h => exact .read h
  case case4 h => exact .unset h
  case case5 h => exact .receive h
  case case7 h => exact .ended h
  case case9 => exact .store

/-! ## Workers -/

def workerNext (p : Pool κ τ ρ) (i : ℕ) :
    Worker κ τ ρ → Choice ρ → Option (Pool κ τ ρ × Worker κ τ ρ)
  | .idle, .take .channel =>
    match p.jobChan with
    | job :: rest => some ({ p with jobChan := rest }, .checking job)
    | [] =>
      if p.closed then
        some ({ p with exited := update p.exited i true }, .returned)
      else none
  | .idle, .take .done =>
    if p.cancelled i then
      some ({ p with exited := update p.exited i true }, .returned)
    else none
  | .checking job, _ =>
    if (p.cells job.id).superseded then some (p, .canceling job)
    else
      some (p.modify job.id fun cell => { cell with started := true }, .handling job)
  | .canceling job, _ => some (p.deliver job.id ⟨job.payload, none⟩, .signalling job)
  | .handling job, .returns r => some (p, .sending job r)
  | .sending job r, .take .channel => some (p.deliver job.id ⟨job.payload, some r⟩, .signalling job)
  | .sending job _, .take .done => if job.ends then some (p, .signalling job) else none
  | .signalling job, _ => some (p.modify job.id fun cell => { cell with doneSig := true }, .idle)
  | _, _ => none

inductive WorkerStep (p : Pool κ τ ρ) (i : ℕ) (choice : Choice ρ) :
    Worker κ τ ρ → Pool κ τ ρ → Worker κ τ ρ → Prop
  | receive {job rest} (h : p.jobChan = job :: rest) :
      WorkerStep p i choice .idle { p with jobChan := rest } (.checking job)
  | closed (hempty : p.jobChan = []) (h : p.closed = true) :
      WorkerStep p i choice .idle { p with exited := update p.exited i true } .returned
  | done (hchoice : choice = .take .done) (h : p.cancelled i = true) :
      WorkerStep p i choice .idle { p with exited := update p.exited i true } .returned
  | skip {job} (h : (p.cells job.id).superseded = true) :
      WorkerStep p i choice (.checking job) p (.canceling job)
  | start {job} (h : (p.cells job.id).superseded = false) : WorkerStep p i choice (.checking job)
        (p.modify job.id fun cell => { cell with started := true })
        (.handling job)
  | cancel {job} : WorkerStep p i choice (.canceling job)
      (p.deliver job.id ⟨job.payload, none⟩) (.signalling job)
  | handle {job r} : WorkerStep p i choice (.handling job) p (.sending job r)
  | send {job r} : WorkerStep p i choice (.sending job r)
      (p.deliver job.id ⟨job.payload, some r⟩) (.signalling job)
  | ended {job r} (h : job.ends = true) : WorkerStep p i choice (.sending job r) p (.signalling job)
  | signal {job} : WorkerStep p i choice (.signalling job)
      (p.modify job.id fun cell => { cell with doneSig := true }) .idle

theorem workerStep_of_workerNext {i : ℕ}
    {st st' : Worker κ τ ρ} {choice : Choice ρ} (h : p.workerNext i st choice = some (p', st')) :
    WorkerStep p i choice st p' st' := by
  revert h
  fun_cases workerNext p i st choice <;> intro h <;> cases h
  case case1 hchan => exact .receive hchan
  case case2 hchan hclosed => exact .closed hchan hclosed
  case case4 hcancelled => exact .done rfl hcancelled
  case case6 hsuperseded => exact .skip hsuperseded
  case case7 hfresh => exact .start (by simpa using hfresh)
  case case8 => exact .cancel
  case case9 => exact .handle
  case case10 => exact .send
  case case11 hends => exact .ended hends
  case case13 => exact .signal

/-! ## Stop -/

def stopNext (p : Pool κ τ ρ) (ends : Bool) : Stop → Branch → Option (Pool κ τ ρ × Stop)
  | .called, _ =>
    if p.running then some ({ p with running := false }, .closing)
    else some (p, .returned)
  | .closing, _ => some ({ p with closed := true }, .stopping 0)
  | .stopping k, _ =>
    if k < p.workers then
      some ({ p with cancelled := update p.cancelled k true }, .waiting k)
    else some (p, .returned)
  | .waiting k, .channel => if p.exited k then some (p, .stopping (k + 1)) else none
  | .waiting k, .done => if ends then some (p, .stopping (k + 1)) else none
  | _, _ => none

inductive StopStep (p : Pool κ τ ρ) (ends : Bool) : Stop → Pool κ τ ρ → Stop → Prop
  | stop (h : p.running = true) : StopStep p ends .called { p with running := false } .closing
  | late (h : p.running = false) : StopStep p ends .called p .returned
  | close : StopStep p ends .closing { p with closed := true } (.stopping 0)
  | cancel {k} (hk : k < p.workers) : StopStep p ends (.stopping k)
      { p with cancelled := update p.cancelled k true } (.waiting k)
  | finish {k} (hk : p.workers ≤ k) : StopStep p ends (.stopping k) p .returned
  | next {k} : StopStep p ends (.waiting k) p (.stopping (k + 1))

theorem stopStep_of_stopNext {ends : Bool} {st st' : Stop}
    (h : p.stopNext ends st b = some (p', st')) : StopStep p ends st p' st' := by
  revert h
  fun_cases stopNext p ends st b <;> intro h <;> cases h
  case case1 h => exact .stop h
  case case2 h => exact .late (by simpa using h)
  case case3 => exact .close
  case case4 hk => exact .cancel hk
  case case5 hk => exact .finish (by simpa using hk)
  case case6 | case8 => exact .next

/-! ## Submit -/

/-- The `select` that sends a job, with its `default` case. -/
def offer (p : Pool κ τ ρ) (job : Job κ τ) (otherwise : Submit κ τ) :
    Branch → Option (Pool κ τ ρ × Submit κ τ)
  | .channel =>
    if p.closed then some (p.panic, .selecting)
    else if p.full then none
    else some (p.push job, .returned none)
  | .default => if !p.closed && p.full then some (p, otherwise) else none
  | _ => none

def keyed (p : Pool κ τ ρ) (job : Job κ τ) : Bool := p.policy = .coalesceByKey ∧ job.key.isSome

theorem offer_cases {job : Job κ τ} {otherwise st : Submit κ τ}
    (h : p.offer job otherwise b = some (p', st)) :
    (p.closed = true ∧ p' = p.panic ∧ st = .selecting) ∨
      (p.closed = false ∧ p.full = false ∧ p' = p.push job ∧ st = .returned none) ∨
      (p.full = true ∧ p' = p ∧ st = otherwise) := by
  revert h
  fun_cases offer p job otherwise b <;> intro h <;> cases h
  case case1 hclosed => exact .inl ⟨hclosed, rfl, rfl⟩
  case case3 hopen hroom =>
    exact .inr (.inl ⟨by simpa using hopen, by simpa using hroom, rfl, rfl⟩)
  case case4 hfull =>
    rw [Bool.and_eq_true] at hfull
    exact .inr (.inr ⟨hfull.2, rfl, rfl⟩)

variable [DecidableEq κ] (p : Pool κ τ ρ) (job : Job κ τ)

/-- `submitWithBackpressure` up to its first `select` or lock. -/
def select (b : Branch) : Option (Pool κ τ ρ × Submit κ τ) :=
  match p.policy with
  | .block =>
    match b with
    | .channel =>
      if p.closed then some (p.panic, .selecting)
      else if p.full then none
      else some (p.push job, .returned none)
    | .done => if job.ends then some (p, .returned (some .context)) else none
    | _ => none
  | .dropNewest => p.offer job (.returned (some .droppingNewest)) b
  | .dropOldest => p.offer job .removing b
  | .coalesceByKey =>
    match job.key with
    | none => p.offer job (.returned (some .queueFull)) b
    | some k =>
      if p.coalesceMu then none
      else
        match p.coalesceMap k with
        | some old => some ({ p with coalesceMu := true }, .superseding old)
        | none => some ({ p with coalesceMu := true }, .entering none)
  | .unknown => some (p, .returned (some .unknownPolicy))

def submitNext : Submit κ τ → Branch → Option (Pool κ τ ρ × Submit κ τ)
  | .called, _ =>
    if p.running then some (p, .selecting)
    else some (p, .returned (some .notStarted))
  | .selecting, b => p.select job b
  | .removing, .channel =>
    match p.jobChan with
    | _ :: rest => some ({ p with jobChan := rest }, .retrying)
    | [] => if p.closed then some (p, .retrying) else none
  | .removing, .default =>
    match p.jobChan with
    | _ :: _ => none
    | [] =>
      if p.closed then none
      else some (p, .returned (some .failedToDropOldest))
  | .retrying, b => p.offer job (.returned (some .failedToDropOldest)) b
  | .superseding old, _ =>
    some (p.modify old.id fun cell => { cell with superseded := true }, .cancelling old)
  | .cancelling old, _ => some (p.deliver old.id ⟨old.payload, none⟩, .entering (some old))
  | .entering old, _ =>
    match job.key with
    | some k =>
      some ({ p with
        coalesceMap := update p.coalesceMap k (some job)
        coalesceMu := false }, .sending old)
    | none => none
  | .sending _, b => p.offer job .deleting b
  | .deleting, _ =>
    match job.key with
    | some k =>
      if p.coalesceMu then none
      else some ({ p with
        coalesceMap := update p.coalesceMap k none },
        .returned (some .queueFull))
    | none => none
  | _, _ => none

/-- The goroutine that a keyed `Submit` starts with its send. -/
def cleanups : Submit κ τ → Submit κ τ → List (Thread κ τ ρ)
  | .sending _, .returned none => [.cleanup job .waiting]
  | _, _ => []

/-- The steps of `Submit`; the list holds the goroutines it starts. -/
inductive SubmitStep (p : Pool κ τ ρ) (job : Job κ τ) :
    Submit κ τ → Pool κ τ ρ → Submit κ τ → List (Thread κ τ ρ) → Prop
  | refuse (h : p.running = false) : SubmitStep p job .called p (.returned (some .notStarted)) []
  | pass (h : p.running = true) : SubmitStep p job .called p .selecting []
  | panic {st} (hst : st.window = 1) (h : p.closed = true) :
      SubmitStep p job st p.panic .selecting []
  | send (hkeyed : p.keyed job = false) (hopen : p.closed = false) (hroom : p.full = false) :
      SubmitStep p job .selecting (p.push job) (.returned none) []
  | drop {e} (hkeyed : p.keyed job = false) : SubmitStep p job .selecting p (.returned (some e)) []
  | overflow (hpolicy : p.policy = .dropOldest) : SubmitStep p job .selecting p .removing []
  | remove {old rest} (h : p.jobChan = old :: rest) :
      SubmitStep p job .removing { p with jobChan := rest } .retrying []
  | removeClosed (h : p.closed = true) : SubmitStep p job .removing p .retrying []
  | removeEmpty (h : p.jobChan = []) : SubmitStep p job .removing p
      (.returned (some .failedToDropOldest)) []
  | resend (hopen : p.closed = false) (hroom : p.full = false) :
      SubmitStep p job .retrying (p.push job) (.returned none) []
  | redrop : SubmitStep p job .retrying p (.returned (some .failedToDropOldest)) []
  | found {k old} (hkeyed : p.keyed job = true) (hkey : job.key = some k)
      (hold : p.coalesceMap k = some old) (hfree : p.coalesceMu = false) :
      SubmitStep p job .selecting { p with coalesceMu := true } (.superseding old) []
  | absent {k} (hkeyed : p.keyed job = true) (hkey : job.key = some k)
      (hold : p.coalesceMap k = none) (hfree : p.coalesceMu = false) :
      SubmitStep p job .selecting { p with coalesceMu := true } (.entering none) []
  | supersede {old} : SubmitStep p job (.superseding old)
      (p.modify old.id fun cell => { cell with superseded := true })
      (.cancelling old) []
  | cancel {old} : SubmitStep p job (.cancelling old)
      (p.deliver old.id ⟨old.payload, none⟩) (.entering (some old)) []
  | enter {k old} (hkey : job.key = some k) : SubmitStep p job (.entering old) { p with
        coalesceMap := update p.coalesceMap k (some job)
        coalesceMu := false } (.sending old) []
  | sendKeyed {old} (hopen : p.closed = false) (hroom : p.full = false) :
      SubmitStep p job (.sending old) (p.push job) (.returned none) [.cleanup job .waiting]
  | keyedFull {old} (hfull : p.full = true) : SubmitStep p job (.sending old) p .deleting []
  | delete {k} (hkey : job.key = some k) (hfree : p.coalesceMu = false) :
      SubmitStep p job .deleting { p with coalesceMap := update p.coalesceMap k none }
        (.returned (some .queueFull)) []

variable {p job}

theorem submitStep_of_offer {otherwise st : Submit κ τ}
    (h : p.offer job otherwise b = some (p', st)) (hkeyed : p.keyed job = false)
    (hfull : SubmitStep p job .selecting p otherwise []) :
    SubmitStep p job .selecting p' st [] := by
  rcases offer_cases h with ⟨hclosed, rfl, rfl⟩ | ⟨hopen, hroom, rfl, rfl⟩ | ⟨-, rfl, rfl⟩
  · exact .panic rfl hclosed
  · exact .send hkeyed hopen hroom
  · exact hfull

theorem submitStep_of_select {st : Submit κ τ} (h : p.select job b = some (p', st)) :
    SubmitStep p job .selecting p' st [] := by
  revert h
  fun_cases select p job b <;> intro h
  case case1 hpolicy hclosed =>
    cases h
    exact .panic rfl hclosed
  case case2 | case5 | case6 | case10 => cases h
  case case3 hpolicy hopen hroom =>
    cases h
    exact .send (by simp [keyed, hpolicy]) (by simpa using hopen) (by simpa using hroom)
  case case4 hpolicy hends | case13 hpolicy =>
    cases h
    exact .drop (by simp [keyed, hpolicy])
  case case7 hpolicy =>
    have hkeyed : p.keyed job = false := by simp [keyed, hpolicy]
    exact submitStep_of_offer h hkeyed (.drop hkeyed)
  case case8 hpolicy =>
    exact submitStep_of_offer h (by simp [keyed, hpolicy]) (.overflow hpolicy)
  case case9 hpolicy hkey =>
    have hkeyed : p.keyed job = false := by simp [keyed, hkey]
    exact submitStep_of_offer h hkeyed (.drop hkeyed)
  case case11 hpolicy k hkey hfree old hold =>
    cases h
    exact .found (by simp [keyed, hpolicy, hkey]) hkey hold (by simpa using hfree)
  case case12 hpolicy k hkey hfree hold =>
    cases h
    exact .absent (by simp [keyed, hpolicy, hkey]) hkey hold (by simpa using hfree)

theorem submitStep_of_submitNext {st st' : Submit κ τ}
    (h : p.submitNext job st b = some (p', st')) :
    SubmitStep p job st p' st' (cleanups job st st') := by
  revert h
  fun_cases submitNext p job st b <;> intro h
  case case1 hrunning =>
    cases h
    exact .pass hrunning
  case case2 hstopped =>
    cases h
    exact .refuse (by simpa using hstopped)
  case case3 =>
    exact submitStep_of_select h
  case case4 hchan =>
    cases h
    exact .remove hchan
  case case5 hclosed =>
    cases h
    exact .removeClosed hclosed
  case case9 hchan _ =>
    cases h
    exact .removeEmpty hchan
  case case10 =>
    rcases offer_cases h with ⟨hclosed, rfl, rfl⟩ | ⟨hopen, hroom, rfl, rfl⟩ | ⟨-, rfl, rfl⟩
    · exact .panic rfl hclosed
    · exact .resend hopen hroom
    · exact .redrop
  case case11 =>
    cases h
    exact .supersede
  case case12 =>
    cases h
    exact .cancel
  case case13 hkey =>
    cases h
    exact .enter hkey
  case case15 =>
    rcases offer_cases h with ⟨hclosed, rfl, rfl⟩ | ⟨hopen, hroom, rfl, rfl⟩ | ⟨hfull, rfl, rfl⟩
    · exact .panic rfl hclosed
    · exact .sendKeyed hopen hroom
    · exact .keyedFull hfull
  case case17 hkey hfree =>
    cases h
    exact .delete hkey (by simpa using hfree)
  all_goals cases h

/-! ## The goroutines of keyed jobs -/

variable (p job)

def cleanupNext : Cleanup → Option (Pool κ τ ρ × Cleanup)
  | .waiting =>
    if (p.cells job.id).doneSig then
      some (p.modify job.id fun cell => { cell with doneSig := false }, .locking)
    else none
  | .locking =>
    if p.coalesceMu then none
    else
      match job.key with
      | some k =>
        if (p.coalesceMap k).map Job.id = some job.id then
          some ({ p with
            coalesceMap := update p.coalesceMap k none },
            .returned)
        else some (p, .returned)
      | none => none
  | .returned => none

inductive CleanupStep (p : Pool κ τ ρ) (job : Job κ τ) : Cleanup → Pool κ τ ρ → Cleanup → Prop
  | signalled (h : (p.cells job.id).doneSig = true) : CleanupStep p job .waiting
        (p.modify job.id fun cell => { cell with doneSig := false }) .locking
  | delete {k} (hkey : job.key = some k) (h : (p.coalesceMap k).map Job.id = some job.id) :
      CleanupStep p job .locking { p with coalesceMap := update p.coalesceMap k none }
        .returned
  | other : CleanupStep p job .locking p .returned

theorem cleanupStep_of_cleanupNext {p p' : Pool κ τ ρ} {job : Job κ τ}
    {st st' : Cleanup} (h : p.cleanupNext job st = some (p', st')) :
    CleanupStep p job st p' st' := by
  revert h
  fun_cases cleanupNext p job st <;> intro h <;> cases h
  case case1 h => exact .signalled h
  case case4 hkey h => exact .delete hkey h
  case case5 => exact .other

/-! ## The program -/

def next (i : ℕ) (t : Thread κ τ ρ) (choice : Choice ρ) :
    Option (Outcome (Pool κ τ ρ) (Thread κ τ ρ)) :=
  if p.panicked then none
  else
    match t, choice with
    | .submit key payload ends stage, .take b =>
      (p.submitNext ⟨i, key, payload, ends⟩ stage b).map fun (p, stage') =>
        ⟨p, .submit key payload ends stage', cleanups ⟨i, key, payload, ends⟩ stage stage'⟩
    | .worker stage, choice =>
      (p.workerNext i stage choice).map fun (p, stage) => ⟨p, .worker stage, []⟩
    | .get id ends stage, .take b =>
      (p.getNext id ends stage b).map fun (p, stage) => ⟨p, .get id ends stage, []⟩
    | .stop ends stage, .take b =>
      (p.stopNext ends stage b).map fun (p, stage) => ⟨p, .stop ends stage, []⟩
    | .cleanup job stage, .take _ =>
      (p.cleanupNext job stage).map fun (p, stage) => ⟨p, .cleanup job stage, []⟩
    | _, _ => none

def entry : Thread κ τ ρ → Bool
  | .submit _ _ _ .called => true
  | .get _ _ .called => true
  | .stop _ .called => true
  | _ => false

def code (κ τ ρ : Type*) [DecidableEq κ] : Code (Pool κ τ ρ) (Thread κ τ ρ) (Choice ρ) :=
  ⟨next, entry⟩

inductive Step (p : Pool κ τ ρ) (i : ℕ) (choice : Choice ρ) :
    Thread κ τ ρ → Outcome (Pool κ τ ρ) (Thread κ τ ρ) → Prop
  | submit {key payload ends st p' st' started}
      (h : SubmitStep p ⟨i, key, payload, ends⟩ st p' st' started) :
      Step p i choice (.submit key payload ends st) ⟨p', .submit key payload ends st', started⟩
  | worker {st p' st'} (h : WorkerStep p i choice st p' st') :
      Step p i choice (.worker st) ⟨p', .worker st', []⟩
  | get {id ends st p' st'} (h : GetStep p id ends st p' st') :
      Step p i choice (.get id ends st) ⟨p', .get id ends st', []⟩
  | stop {ends st p' st'} (h : StopStep p ends st p' st') :
      Step p i choice (.stop ends st) ⟨p', .stop ends st', []⟩
  | cleanup {job st p' st'} (h : CleanupStep p job st p' st') :
      Step p i choice (.cleanup job st) ⟨p', .cleanup job st', []⟩

theorem step_of_next {p : Pool κ τ ρ} {i : ℕ} {t : Thread κ τ ρ}
    {choice : Choice ρ} {o : Outcome (Pool κ τ ρ) (Thread κ τ ρ)}
    (h : (code κ τ ρ).next p i t choice = some o) : Step p i choice t o := by
  revert h
  change next p i t choice = some o → _
  fun_cases next p i t choice <;> intro h
  case case1 | case7 => cases h
  all_goals obtain ⟨⟨p', st'⟩, hnext, rfl⟩ := Option.map_eq_some_iff.mp h
  · exact .submit (submitStep_of_submitNext hnext)
  · exact .worker (workerStep_of_workerNext hnext)
  · exact .get (getStep_of_getNext hnext)
  · exact .stop (stopStep_of_stopNext hnext)
  · exact .cleanup (cleanupStep_of_cleanupNext hnext)

end Pool

end Fluxor.Compute
