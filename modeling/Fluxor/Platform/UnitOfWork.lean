import Fluxor.Support.Goroutines

/-!
# Units of work

`unitOfWork` of `pkg/core/unit_of_work.go`: calls of `Begin`, `Commit`, `Rollback`
and `Execute` from any number of goroutines. Each lock section is a step, and so is
the return of the function that `Execute` runs.

When this function fails, the `Rollback` of `Execute` ends the unit that is active
then. So a unit is ended by its own calls only (`Isolated`) exactly when that is the
same unit, or none.
-/

namespace Fluxor.Platform

open Goroutines Transition Function

structure EventBusError where
  (code message : String)
  deriving DecidableEq

/-- What a call returns. `failed` carries the error of the function. -/
inductive WorkResult
  | ok
  | error (e : EventBusError)
  | failed (message : String)
  | panics
  deriving DecidableEq

/-- The number of a unit, in the order of `Begin`, stands for its work ID and its
context; `ended` tells which contexts have ended. The logger and the timeout are
left out. -/
structure UnitOfWork where
  active : Bool := false
  workID : Option ℕ := none
  workCtx : Option ℕ := none
  begun : ℕ := 0
  ended : ℕ → Bool := fun _ => false

namespace UnitOfWork

def alreadyActive : EventBusError :=
  ⟨"UNIT_OF_WORK_ALREADY_ACTIVE",
    "unit of work is already active, call Commit() or Rollback() first"⟩

def noActive : EventBusError :=
  ⟨"NO_ACTIVE_UNIT_OF_WORK", "no active unit of work, call Begin() first"⟩

def invalidFunction : EventBusError :=
  ⟨"INVALID_FUNCTION", "function cannot be nil"⟩

variable (uow : UnitOfWork)

def cleanup : UnitOfWork :=
  { uow with
    ended := match uow.workCtx with
      | some unit => update uow.ended unit true
      | none => uow.ended
    active := false
    workID := none
    workCtx := none }

def beginWork : UnitOfWork × WorkResult :=
  if uow.active then (uow, .error alreadyActive)
  else
    ({ uow with
      workID := some uow.begun
      workCtx := some uow.begun
      active := true
      begun := uow.begun + 1 }, .ok)

def ctxEnded : Bool := (uow.workCtx.map uow.ended).getD false

/-- `Commit`. The error of a cancelled unit is read from the removed context. -/
def commit : UnitOfWork × WorkResult :=
  if !uow.active then (uow, .error noActive)
  else if uow.ctxEnded then (uow.cleanup, .panics)
  else (uow.cleanup, .ok)

def rollback : UnitOfWork × WorkResult :=
  if !uow.active then (uow, .error noActive) else (uow.cleanup, .ok)

/-- Where `Execute` is; `unit` is the unit in which it has started. -/
inductive Execute
  | called
  | running (unit : Option ℕ)
  | failing (unit : Option ℕ) (message : String)
  | returned (r : WorkResult)
  deriving DecidableEq

/-- A call with its result, or an `Execute` with or without a function. `expire`
is the end of the context of a unit. -/
inductive Thread
  | begins (r : Option WorkResult)
  | commit (r : Option WorkResult)
  | rollback (r : Option WorkResult)
  | execute (fn : Bool) (stage : Execute)
  | expire (unit : ℕ) (done : Bool)
  deriving DecidableEq

abbrev Choice := Option String

def executeNext (fn : Bool) : Execute → Choice → Option (UnitOfWork × Execute)
  | .called, _ =>
    if !uow.active then some (uow, .returned (.error noActive))
    else if !fn then some (uow, .returned (.error invalidFunction))
    else some (uow, .running uow.workID)
  | .running _, none => some (uow, .returned .ok)
  | .running unit, some message => some (uow, .failing unit message)
  | .failing _ message, _ => some (uow.rollback.1, .returned (.failed message))
  | .returned _, _ => none

def next (_ : ℕ) (t : Thread) (choice : Choice) : Option (Outcome UnitOfWork Thread) :=
  match t with
  | .begins none => some ⟨uow.beginWork.1, .begins (some uow.beginWork.2), []⟩
  | .commit none => some ⟨uow.commit.1, .commit (some uow.commit.2), []⟩
  | .rollback none => some ⟨uow.rollback.1, .rollback (some uow.rollback.2), []⟩
  | .execute fn stage => (uow.executeNext fn stage choice).map
      fun (uow, stage) => ⟨uow, .execute fn stage, []⟩
  | .expire unit false =>
    some ⟨{ uow with ended := update uow.ended unit true }, .expire unit true, []⟩
  | _ => none

def entry : Thread → Bool
  | .begins none | .commit none | .rollback none | .execute _ .called
  | .expire _ false => true
  | _ => false

def code : Code UnitOfWork Thread Choice := ⟨next, entry⟩

def start : Config UnitOfWork Thread := ⟨{}, []⟩

inductive Step (uow : UnitOfWork) : Thread → UnitOfWork → Thread → Prop
  | begins : Step uow (.begins none) uow.beginWork.1 (.begins (some uow.beginWork.2))
  | commit : Step uow (.commit none) uow.commit.1 (.commit (some uow.commit.2))
  | rollback : Step uow (.rollback none) uow.rollback.1 (.rollback (some uow.rollback.2))
  | refuse {fn r} : Step uow (.execute fn .called) uow (.execute fn (.returned r))
  | run {fn} (h : uow.active = true) : Step uow (.execute fn .called) uow
      (.execute fn (.running uow.workID))
  | succeed {fn unit} : Step uow (.execute fn (.running unit)) uow (.execute fn (.returned .ok))
  | fail {fn unit message} : Step uow (.execute fn (.running unit)) uow
      (.execute fn (.failing unit message))
  | undo {fn unit message} : Step uow (.execute fn (.failing unit message))
      uow.rollback.1 (.execute fn (.returned (.failed message)))
  | expire {unit} : Step uow (.expire unit false)
      { uow with ended := update uow.ended unit true }
      (.expire unit true)

variable {uow : UnitOfWork} {t : Thread}

theorem step_of_next {i : ℕ} {choice : Choice} {o : Outcome UnitOfWork Thread}
    (h : code.next uow i t choice = some o) : Step uow t o.shared o.thread ∧ o.started = [] := by
  revert h
  change next uow i t choice = some o → _
  fun_cases next uow i t choice <;> intro h
  case case4 fn stage =>
    obtain ⟨⟨uow', stage'⟩, hnext, rfl⟩ := Option.map_eq_some_iff.mp h
    refine ⟨?_, rfl⟩
    revert hnext
    fun_cases executeNext uow fn stage choice <;> intro hnext <;> cases hnext
    case case1 | case2 => exact .refuse
    case case3 hactive _ => exact .run (by simpa using hactive)
    case case4 => exact .succeed
    case case5 => exact .fail
    case case6 => exact .undo
  all_goals cases h
  case case1 => exact ⟨.begins, rfl⟩
  case case2 => exact ⟨.commit, rfl⟩
  case case3 => exact ⟨.rollback, rfl⟩
  case case5 => exact ⟨.expire, rfl⟩

/-! ## The active unit -/

def Active (uow : UnitOfWork) (unit : ℕ) : Prop := uow.active = true ∧ uow.workID = some unit

def Numbered (uow : UnitOfWork) : Prop := uow.active = true → ∃ unit, uow.workID = some unit

variable {uow' : UnitOfWork} {t' : Thread}

theorem Step.preserves {I : UnitOfWork → Prop}
    (hstep : Step uow t uow' t') (h : I uow) (hbegin : I uow.beginWork.1) (hcleanup : I uow.cleanup)
    (hexpire : ∀ unit, I { uow with ended := update uow.ended unit true }) : I uow' := by
  cases hstep with
  | begins => exact hbegin
  | commit =>
    rw [UnitOfWork.commit]
    split
    · exact h
    · split <;> exact hcleanup
  | rollback | undo =>
    rw [UnitOfWork.rollback]
    split
    · exact h
    · exact hcleanup
  | expire => exact hexpire _
  | _ => exact h

theorem Numbered.step (h : Numbered uow)
    (hstep : Step uow t uow' t') : Numbered uow' := by
  refine hstep.preserves h ?_ (fun hactive => Bool.noConfusion hactive) fun _ => h
  rw [beginWork]
  split
  · exact h
  · exact fun _ => ⟨_, rfl⟩

variable {c : Config UnitOfWork Thread} {acts : List (Move Thread Choice)}

theorem numbered_of_run (hrun : Run code.step anyStep start acts c) : Numbered c.shared := by
  refine Code.run_invariant (I := fun c => Numbered c.shared) ?_ ?_ hrun ?_
  · intro c t hc _ _
    exact hc
  · intro c i b t o hc _ _ ho
    exact hc.step (step_of_next ho).1
  · exact fun hactive => Bool.noConfusion hactive

theorem workCtx_of_run
    (hrun : Run code.step anyStep start acts c) : c.shared.workCtx = c.shared.workID := by
  refine Code.run_invariant (I := fun c => c.shared.workCtx = c.shared.workID) ?_ ?_ hrun rfl
  · intro c t hc _ _
    exact hc
  · intro c i b t o hc _ _ ho
    refine (step_of_next ho).1.preserves (I := fun uow => uow.workCtx = uow.workID)
      hc ?_ rfl fun _ => hc
    rw [beginWork]
    split
    · exact hc
    · rfl

/-! ## Units that have ended -/

/-- No call reads a missing context, the `Commit` of an ended unit is the error
it should be, and `Commit` and `Rollback` make room for the next unit. -/
structure FailsCleanly (uow : UnitOfWork) : Prop where
  context : uow.active = true → uow.workCtx.isSome
  noPanic : uow.commit.2 ≠ .panics
  cancelled : uow.active = true → uow.ctxEnded = true →
    ∃ message, uow.commit.2 = .error ⟨"UNIT_OF_WORK_CANCELLED", message⟩
  inactive : uow.commit.1.active = false ∧ uow.rollback.1.active = false
  restarts : uow.commit.1.beginWork.2 = .ok ∧ uow.rollback.1.beginWork.2 = .ok

theorem commit_inactive : uow.commit.1.active = false := by
  fun_cases commit uow with
  | case1 h => simpa using h
  | _ => rfl

theorem rollback_inactive : uow.rollback.1.active = false := by
  fun_cases rollback uow with
  | case1 h => simpa using h
  | _ => rfl

theorem beginWork_ok (h : uow.active = false) : uow.beginWork.2 = .ok := by
  simp [beginWork, h]

/-- A unit fails cleanly exactly until its context ends: `Commit` then panics. -/
theorem failsCleanly_iff (hrun : Run code.step anyStep start acts c) :
    FailsCleanly c.shared ↔ ¬(c.shared.active = true ∧ c.shared.ctxEnded = true) := by
  constructor
  · rintro hclean ⟨hactive, hended⟩
    exact hclean.noPanic (by simp [commit, hactive, hended])
  · intro h
    refine ⟨fun hactive => ?_, ?_, fun hactive hended => absurd ⟨hactive, hended⟩ h,
      ⟨commit_inactive, rollback_inactive⟩,
      ⟨beginWork_ok commit_inactive, beginWork_ok rollback_inactive⟩⟩
    · obtain ⟨unit, hunit⟩ := numbered_of_run hrun hactive
      rw [workCtx_of_run hrun, hunit]
      rfl
    · fun_cases commit c.shared with
      | case2 hactive hended => exact absurd ⟨by simpa using hactive, hended⟩ h
      | _ => simp

theorem failsCleanly_begun : ∃ acts c, Run code.step anyStep start acts c ∧
    c.shared.active = true ∧ FailsCleanly c.shared := by
  obtain ⟨c, hrun, hactive, hended⟩ := exists_run code.step anyStep start
    [.spawn (.begins none), .run 0 none]
    (fun c => c.shared.active = true ∧ c.shared.ctxEnded = false) (by decide)
  refine ⟨_, c, hrun, hactive, (failsCleanly_iff hrun).mpr ?_⟩
  rw [hended]
  exact fun h => Bool.noConfusion h.2

/-- `Begin`, the end of the context, `Commit`. -/
theorem commit_ended_panics : ∃ acts c, Run code.step anyStep start acts c ∧
    c.threads[2]? = some (.commit (some .panics)) := by
  obtain ⟨c, hrun, hpanics⟩ := exists_run code.step anyStep start
    [.spawn (.begins none), .run 0 none, .spawn (.expire 0 false), .run 1 none,
      .spawn (.commit none), .run 2 none]
    (fun c => c.threads[2]? = some (.commit (some .panics))) (by decide)
  exact ⟨_, c, hrun, hpanics⟩

/-! ## Isolation -/

/-- The goroutine may end unit `unit`: it is at a `Commit` or a `Rollback`, or at an
`Execute` whose function has failed in this unit. -/
def MayEnd (unit : ℕ) : Thread → Prop
  | .commit none | .rollback none => True
  | .execute _ (.failing own _) => own = some unit
  | _ => False

def Isolated (c : Config UnitOfWork Thread) (a : Move Thread Choice)
    (c' : Config UnitOfWork Thread) : Prop :=
  ∀ unit, Active c.shared unit → ¬Active c'.shared unit →
    ∃ i b t, a = .run i b ∧ c.threads[i]? = some t ∧ MayEnd unit t

/-- A failed `Execute` comes to its `Rollback` only when its own unit is active,
or none. -/
def Separate (c : Config UnitOfWork Thread) : Move Thread Choice → Prop
  | .spawn _ => True
  | .run i _ => ∀ fn own message, c.threads[i]? = some (.execute fn (.failing own message)) →
        c.shared.active = true → c.shared.workID = own

theorem not_active_rollback (h : uow.active = true) (unit : ℕ) : ¬Active uow.rollback.1 unit := by
  simp [rollback, h, cleanup, Active]

theorem Step.mayEnd {unit : ℕ} (h : Step uow t uow' t')
    (hactive : Active uow unit) (hended : ¬Active uow' unit) :
    MayEnd unit t ∨ ∃ fn own message, t = .execute fn (.failing own message) := by
  cases h with
  | begins =>
    rw [beginWork, if_pos hactive.1] at hended
    exact absurd hactive hended
  | commit | rollback => exact .inl trivial
  | undo => exact .inr ⟨_, _, _, rfl⟩
  | _ => exact absurd hactive hended

/-- A step is isolated exactly if it is not the `Rollback` of an `Execute` while
another unit is active. -/
theorem isolated_iff_separate {c c' : Config UnitOfWork Thread} {acts : List (Move Thread Choice)}
    {a : Move Thread Choice} (hrun : Run code.step anyStep start acts c)
    (hstep : code.step c a = some c') : Isolated c a c' ↔ Separate c a := by
  rcases Code.step_cases hstep with
    ⟨t, rfl, -, rfl⟩ | ⟨i, b, t, o, rfl, ht, ho, rfl⟩
  · exact ⟨fun _ => trivial, fun _ unit hactive hended => absurd hactive hended⟩
  · obtain ⟨hown, -⟩ := step_of_next ho
    constructor
    · rintro hisolated fn own message hi hactive
      obtain rfl : t = _ := Option.some.inj (ht.symm.trans hi)
      obtain ⟨unit, hunit⟩ := numbered_of_run hrun hactive
      obtain ⟨shared, thread, started⟩ := o
      cases hown
      obtain ⟨_, _, t, ha, hi', hmay⟩ := hisolated unit ⟨hactive, hunit⟩
        (not_active_rollback hactive unit)
      cases ha
      obtain rfl : _ = t := Option.some.inj (hi.symm.trans hi')
      exact hunit.trans (Eq.symm hmay)
    · intro hseparate unit hactive hended
      refine ⟨i, b, t, rfl, ht, ?_⟩
      rcases hown.mayEnd hactive hended with hmay | ⟨fn, own, message, rfl⟩
      · exact hmay
      · exact (hseparate fn own message ht hactive.1).symm.trans hactive.2

def failing (acts : List (Move Thread Choice)) : List (Move Thread Choice) :=
  ([.spawn (.begins none), .run 0 none, .spawn (.execute true .called),
    .run 1 none] : List (Move Thread Choice)) ++ acts ++
    [Move.run 1 (some "error")]

instance (uow : UnitOfWork) (unit : ℕ) : Decidable (Active uow unit) :=
  inferInstanceAs (Decidable (_ ∧ _))

/-- A run to a state in which unit `unit` is active and goroutine 1 has failed
in unit 0, followed by its `Rollback`. -/
def FailsIn (unit : ℕ) (P : Config UnitOfWork Thread →
    Move Thread Choice → Config UnitOfWork Thread → Prop) : Prop :=
  ∃ acts c c', Run code.step anyStep start acts c ∧
    c.threads[1]? = some (Thread.execute true (.failing (some 0) "error")) ∧
    Active c.shared unit ∧ code.step c (.run 1 none) = some c' ∧
    ¬Active c'.shared unit ∧ P c (.run 1 none) c'

theorem failsIn_of_exec (unit : ℕ) (acts : List (Move Thread Choice))
    (h : (exec code.step anyStep start (failing acts)).any (fun c => decide
      (c.threads[1]? = some (Thread.execute true (.failing (some 0) "error")) ∧
        Active c.shared unit)) = true) :
    ∃ acts c c', Run code.step anyStep start acts c ∧
      c.threads[1]? = some (Thread.execute true (.failing (some 0) "error")) ∧
      Active c.shared unit ∧ code.step c (.run 1 none) = some c' ∧
      ¬Active c'.shared unit := by
  obtain ⟨c, hrun, hthread, hactive⟩ := exists_run _ _ _ _ _ h
  exact ⟨_, c, _, hrun, hthread, hactive, Code.step_run hthread rfl,
    not_active_rollback hactive.1 unit⟩

/-- The `Rollback` of an `Execute` in its own unit. -/
theorem isolated_iff_separate_own : FailsIn 0 Isolated := by
  obtain ⟨acts, c, c', hrun, hthread, hactive, hstep, hended⟩ := failsIn_of_exec 0 [] (by decide)
  refine ⟨acts, c, c', hrun, hthread, hactive, hstep, hended,
    (isolated_iff_separate hrun hstep).mpr ?_⟩
  intro fn own message hi _
  rw [hthread] at hi
  cases hi
  exact hactive.2

/-- Meanwhile the unit is committed and another one begun, which the `Rollback` then ends. -/
theorem ends_later_unit : FailsIn 1 fun c a c' => ¬Isolated c a c' := by
  obtain ⟨acts, c, c', hrun, hthread, hactive, hstep, hended⟩ :=
    failsIn_of_exec 1 [.spawn (.commit none), .run 2 none,
      .spawn (.begins none), .run 3 none] (by decide)
  refine ⟨acts, c, c', hrun, hthread, hactive, hstep, hended, ?_⟩
  intro hisolated
  obtain ⟨i, b, t, ha, hi, hmay⟩ := hisolated 1 hactive hended
  cases ha
  rw [hthread] at hi
  cases hi
  cases hmay

end UnitOfWork

end Fluxor.Platform
