import Mathlib.Data.Int.Notation
import Mathlib.Data.List.Flatten
import Mathlib.Data.List.Nodup
import Fluxor.Platform.Deployment
import Fluxor.Support.Window

/-!
# The supervisor of verticles

`SupervisorVerticle` of `pkg/core/supervisor.go`: one pass of `checkChildren` over
the children, with the restart limits of `canRestart` and `recordRestart`.

A pass looks for failed children first and then handles one failure after the other.
Under the strategies that restart other children too, a failure restarts the
temporary ones among them, and a second failure all of them again.
-/

namespace Fluxor.Supervision

open Platform Support Function List

/-- `RestartStrategy`; a strategy of another name restarts nothing. -/
inductive RestartStrategy
  | oneForOne | oneForAll | restForOne
  | other (name : String)

inductive RestartType
  | permanent | transient | temporary
  | other (name : String)
  deriving DecidableEq

structure RestartConfig where
  (maxRestarts within : ℤ)

/-- `ChildSpec`, without the factory. -/
structure ChildSpec where
  id : String
  restart : RestartType
  deriving DecidableEq

/-- What is fixed of a `SupervisedChild`. -/
structure SupervisedChild where
  spec : ChildSpec
  startIndex : ℕ
  deriving DecidableEq

def childIDs (children : List SupervisedChild) : List String :=
  children.map fun child => child.spec.id

theorem childIDs_cons (child : SupervisedChild) (children : List SupervisedChild) :
    childIDs (child :: children) = child.spec.id :: childIDs children := rfl

/-- `SupervisorVerticle`. What changes of a child is kept under its name. -/
structure Supervisor where
  strategy : RestartStrategy
  config : RestartConfig
  children : List SupervisedChild
  unique : (childIDs children).Nodup
  deploymentID : String → ℕ
  state : String → DeploymentState := fun _ => .pending
  restartCount : String → List ℤ := fun _ => []
  monitoring : Bool := true

def putChild (children : List SupervisedChild) (entry : ChildSpec × ℕ) : List SupervisedChild :=
  (children.filter fun child => child.spec.id ≠ entry.1.id) ++ [⟨entry.1, entry.2⟩]

def startChildren (specs : List ChildSpec) : List SupervisedChild := specs.zipIdx.foldl putChild []

theorem putChild_unique {children : List SupervisedChild} (h : (childIDs children).Nodup)
    (entry : ChildSpec × ℕ) : (childIDs (putChild children entry)).Nodup := by
  grind [childIDs, putChild]

theorem startChildren_unique (specs : List ChildSpec) : (childIDs (startChildren specs)).Nodup :=
  foldlRecOn (motive := fun children => (childIDs children).Nodup)
    specs.zipIdx putChild nodup_nil
    fun _ h entry _ => putChild_unique h entry

/-- A supervisor whose `Start` has deployed its children. -/
def Supervisor.start (strategy : RestartStrategy) (config : RestartConfig)
    (specs : List ChildSpec) (deploymentID : String → ℕ) : Supervisor where
  strategy := strategy
  config := config
  children := startChildren specs
  unique := startChildren_unique specs
  deploymentID := deploymentID

/-- What a pass depends on: the states of the deployments, the order of the map of
children, the times read while a failure is handled, and the outcome of a
redeployment, which fails when the factory returns nothing or the deployment is
refused. -/
structure Pass where
  found : ℕ → DeploymentState
  order : Option String → List SupervisedChild → List SupervisedChild
  perm : ∀ failed children, (order failed children).Perm children
  (now recorded : String → ℤ)
  redeploy : String → String → Option ℕ

def Pass.redeployed (p : Pass) : Pass :=
  { p with redeploy := fun _ _ => some 0 }

namespace Supervisor

variable (p : Pass) (sv : Supervisor)

def child (id : String) : Option SupervisedChild :=
  sv.children.find? fun child => child.spec.id = id

def canRestart (id : String) (now : ℤ) : Bool :=
  if sv.config.maxRestarts = 0 then true
  else if sv.restartCount id = [] then true
  else
    ((sv.restartCount id).countP fun t => now - sv.config.within < t) < sv.config.maxRestarts

def recordRestart (id : String) (now : ℤ) : Supervisor :=
  { sv with
    restartCount := update sv.restartCount id
      ((sv.restartCount id ++ [now]).filter fun t => now - sv.config.within < t) }

def childrenToRestart (failed : SupervisedChild) : List SupervisedChild :=
  match sv.strategy with
  | .oneForOne => [failed]
  | .oneForAll => p.order (some failed.spec.id) sv.children
  | .restForOne => (p.order (some failed.spec.id) sv.children).filter
      fun child => failed.startIndex ≤ child.startIndex
  | .other _ => []

def restartChild (failedID id : String) : Supervisor × List String :=
  match p.redeploy failedID id with
  | some deploymentID =>
    ({ sv with
      deploymentID := update sv.deploymentID id deploymentID
      state := update sv.state id .pending }, [id])
  | none => (sv, [])

def restartChildren (failedID : String) (sv : Supervisor) :
    List SupervisedChild → Supervisor × List String
  | [] => (sv, [])
  | child :: rest =>
    let (sv, started) := sv.restartChild p failedID child.spec.id
    let (sv, more) := restartChildren failedID sv rest
    (sv, started ++ more)

def handleChildFailure (failedID : String) : Supervisor × List String :=
  match sv.child failedID with
  | none => (sv, [])
  | some failed =>
    if !sv.canRestart failedID (p.now failedID) then
      ({ sv with monitoring := false }, [])
    else
      restartChildren p failedID (sv.recordRestart failedID (p.recorded failedID))
        (sv.childrenToRestart p failed)

def handleFailures (sv : Supervisor) : List String → Supervisor × List String
  | [] => (sv, [])
  | failedID :: rest =>
    let (sv, started) := sv.handleChildFailure p failedID
    let (sv, more) := handleFailures sv rest
    (sv, started ++ more)

/-- The children that a pass finds failed and does not leave alone. -/
def failedChildren : List String :=
  childIDs <| (p.order none sv.children).filter fun child =>
    p.found (sv.deploymentID child.spec.id) = .failed && child.spec.restart ≠ .temporary

/-- `checkChildren`, with the names of the children that it starts. -/
def checkChildren : Supervisor × List String :=
  if !sv.monitoring then (sv, [])
  else
    handleFailures p { sv with state := fun id => p.found (sv.deploymentID id) }
      (sv.failedChildren p)

/-! ## What a pass starts -/

/-- The children that a failure starts, unless the limit is exceeded. -/
def startedBy (failed : SupervisedChild) : List String :=
  if sv.canRestart failed.spec.id (p.now failed.spec.id) then
    (childIDs (sv.childrenToRestart p failed)).filter
      fun id => (p.redeploy failed.spec.id id).isSome
  else []

variable {p sv} {sv' : Supervisor}

/-- The supervisors handle the failure of child `id` alike. -/
structure SameFor (id : String) (sv sv' : Supervisor) : Prop where
  strategy : sv'.strategy = sv.strategy
  config : sv'.config = sv.config
  children : sv'.children = sv.children
  restartCount : sv'.restartCount id = sv.restartCount id

theorem SameFor.trans {id : String} {sv'' : Supervisor} (h : SameFor id sv sv')
    (h' : SameFor id sv' sv'') : SameFor id sv sv'' :=
  ⟨h'.strategy.trans h.strategy, h'.config.trans h.config,
    h'.children.trans h.children, h'.restartCount.trans h.restartCount⟩

theorem restartChildren_eq (failedID : String) (children : List SupervisedChild) (sv : Supervisor) :
    (restartChildren p failedID sv children).2 = (childIDs children).filter
          (fun id => (p.redeploy failedID id).isSome) ∧
      ∀ id, SameFor id sv (restartChildren p failedID sv children).1 := by
  induction children generalizing sv with
  | nil => exact ⟨rfl, fun id => ⟨rfl, rfl, rfl, rfl⟩⟩
  | cons child children ih =>
    rw [restartChildren, restartChild]
    cases hdeploy : p.redeploy failedID child.spec.id with
    | none => grind [childIDs_cons]
    | some =>
      rw [childIDs_cons, filter_cons_of_pos (by simp [hdeploy])]
      refine ⟨?_, fun id => ?_⟩
      · rw [← (ih _).1]
        rfl
      · exact ⟨((ih _).2 id).strategy, ((ih _).2 id).config,
          ((ih _).2 id).children, ((ih _).2 id).restartCount⟩

variable {child : SupervisedChild}

theorem child_eq (h : child ∈ sv.children) : sv.child child.spec.id = some child := by
  cases hfind : sv.child child.spec.id with
  | none => grind [child]
  | some other =>
    have hid : other.spec.id = child.spec.id := by simpa using find?_some hfind
    rw [inj_on_of_nodup_map sv.unique (mem_of_find?_eq_some hfind) h hid]

variable {failed : SupervisedChild}

theorem handleChildFailure_eq (h : failed ∈ sv.children) :
    (sv.handleChildFailure p failed.spec.id).2 = sv.startedBy p failed ∧ ∀ id, id ≠ failed.spec.id →
        SameFor id sv (sv.handleChildFailure p failed.spec.id).1 := by
  rw [handleChildFailure, child_eq h, startedBy]
  simp only
  split
  next hcan =>
    rw [if_neg (by simpa using hcan)]
    exact ⟨rfl, fun id _ => ⟨rfl, rfl, rfl, rfl⟩⟩
  next hcan =>
    rw [if_pos (by simpa using hcan)]
    obtain ⟨hstarted, hsame⟩ := restartChildren_eq (p := p) failed.spec.id
      (sv.childrenToRestart p failed)
      (sv.recordRestart failed.spec.id (p.recorded failed.spec.id))
    refine ⟨hstarted, fun id hid => SameFor.trans ?_ (hsame id)⟩
    exact ⟨rfl, rfl, rfl, update_of_ne hid _ _⟩

theorem SameFor.startedBy_eq (h : SameFor failed.spec.id sv sv') :
    sv'.startedBy p failed = sv.startedBy p failed := by
  have hcan : ∀ now, sv'.canRestart failed.spec.id now = sv.canRestart failed.spec.id now := by
    intro now
    simp only [canRestart, h.config, h.restartCount]
  grind [childrenToRestart, strategy, children, startedBy]

theorem handleFailures_eq (failed : List SupervisedChild) (sv : Supervisor)
    (hmem : ∀ child ∈ failed, child ∈ sv.children) (hnodup : (childIDs failed).Nodup) :
    (handleFailures p sv (childIDs failed)).2 = failed.flatMap (sv.startedBy p) := by
  induction failed generalizing sv with
  | nil => rfl
  | cons child failed ih =>
    rw [childIDs_cons, nodup_cons] at hnodup
    obtain ⟨hstarted, hsame⟩ := handleChildFailure_eq (p := p) (hmem child mem_cons_self)
    rw [childIDs_cons, handleFailures, flatMap_cons]
    simp only [hstarted]
    congr 1
    have hother : ∀ other ∈ failed, SameFor other.spec.id sv
        (sv.handleChildFailure p child.spec.id).1 := by
      intro other hother
      refine hsame _ fun hid => hnodup.1 ?_
      rw [← hid]
      exact mem_map_of_mem hother
    rw [ih _ ?_ hnodup.2]
    · exact flatMap_congr fun other h => (hother other h).startedBy_eq
    grind [SameFor.children]

/-! ## The policy -/

variable (p sv) in
/-- The failures that a pass handles: children that are not temporary, within
the limit. -/
def triggers : List SupervisedChild :=
  ((p.order none sv.children).filter fun child =>
    p.found (sv.deploymentID child.spec.id) = .failed &&
      child.spec.restart ≠ .temporary).filter fun child =>
        sv.canRestart child.spec.id (p.now child.spec.id)

theorem flatMap_startedBy (children : List SupervisedChild) :
    children.flatMap (sv.startedBy p) = (children.filter fun child =>
        sv.canRestart child.spec.id (p.now child.spec.id)).flatMap
          fun failed => (childIDs (sv.childrenToRestart p failed)).filter
            fun id => (p.redeploy failed.spec.id id).isSome := by
  induction children with
  | nil => rfl
  | cons => grind [startedBy]

theorem checkChildren_eq (h : sv.monitoring = true) :
    (sv.checkChildren p).2 = (sv.triggers p).flatMap fun failed =>
      (childIDs (sv.childrenToRestart p failed)).filter
        fun id => (p.redeploy failed.spec.id id).isSome := by
  rw [checkChildren, if_neg (by simp [h]), failedChildren, handleFailures_eq, flatMap_startedBy]
  · rfl
  · grind [Pass.perm]
  · refine List.Nodup.sublist (filter_sublist.map _) ?_
    exact (((p.perm none sv.children).map _).nodup_iff).mpr sv.unique

/-- The restart types are respected by what a pass starts. -/
structure KeepsPolicy (sv : Supervisor) (started : List String) : Prop where
  temporary : ∀ child ∈ sv.children, child.spec.restart = .temporary → child.spec.id ∉ started
  once : ∀ child ∈ sv.children, child.spec.restart ≠ .temporary → started.count child.spec.id ≤ 1

variable (sv) in
/-- The strategies that restart more than the failed child. -/
def spreads : Bool :=
  match sv.strategy with
  | .oneForAll | .restForOne => true
  | .oneForOne | .other _ => false

variable (p sv) in
/-- Under a strategy that restarts more than the failed child, at most one failure
is handled, and no temporary child is restarted. -/
def Harmless : Prop :=
  sv.spreads = true → (sv.triggers p).length ≤ 1 ∧ ∀ failed ∈ sv.triggers p, ∀ child ∈ sv.children,
      (sv.strategy = .restForOne → failed.startIndex ≤ child.startIndex) →
        child.spec.restart ≠ .temporary

theorem mem_triggers (h : child ∈ sv.triggers p) :
    child ∈ sv.children ∧ child.spec.restart ≠ .temporary := by
  grind [triggers, Pass.perm]

variable (p sv) in
theorem triggers_nodup : (childIDs (sv.triggers p)).Nodup := by
  have hsub : (sv.triggers p).Sublist (p.order none sv.children) :=
    filter_sublist.trans filter_sublist
  refine List.Nodup.sublist (hsub.map _) ?_
  exact (((p.perm none sv.children).map _).nodup_iff).mpr sv.unique

theorem mem_childrenToRestart (h : sv.spreads = true) :
    child ∈ sv.childrenToRestart p failed ↔ child ∈ sv.children ∧
      (sv.strategy = .restForOne → failed.startIndex ≤ child.startIndex) := by
  grind [Pass.perm, spreads, childrenToRestart]

theorem childrenToRestart_nodup (failed : SupervisedChild) :
    (childIDs (sv.childrenToRestart p failed)).Nodup := by
  have hnodup : (childIDs (p.order (some failed.spec.id) sv.children)).Nodup :=
    (((p.perm _ sv.children).map _).nodup_iff).mpr sv.unique
  rw [childrenToRestart]
  cases sv.strategy with
  | oneForOne => exact nodup_singleton _
  | oneForAll => exact hnodup
  | restForOne => exact hnodup.sublist (filter_sublist.map _)
  | other name => exact nodup_nil

theorem childrenToRestart_sublist (h : sv.spreads = false) (failed : SupervisedChild) :
    (sv.childrenToRestart p failed).Sublist [failed] := by
  grind [spreads, childrenToRestart]

section

variable (hmon : sv.monitoring = true)

include hmon

theorem mem_started {id : String} (h : id ∈ (sv.checkChildren p).2) :
    ∃ failed ∈ sv.triggers p, ∃ child ∈ sv.childrenToRestart p failed, child.spec.id = id := by
  rw [checkChildren_eq hmon, mem_flatMap] at h
  obtain ⟨failed, hfailed, hid⟩ := h
  obtain ⟨child, hchild, rfl⟩ := mem_map.mp (mem_of_mem_filter hid)
  exact ⟨failed, hfailed, child, hchild, rfl⟩

omit hmon in
theorem Harmless.restart_ne (h : sv.Harmless p) (hfailed : failed ∈ sv.triggers p)
    (hchild : child ∈ sv.childrenToRestart p failed) :
    child ∈ sv.children ∧ child.spec.restart ≠ .temporary := by
  cases hs : sv.spreads with
  | true =>
    obtain ⟨hmem, hindex⟩ := (mem_childrenToRestart hs).mp hchild
    exact ⟨hmem, (h hs).2 failed hfailed child hmem hindex⟩
  | false => grind [childrenToRestart_sublist, mem_triggers]

theorem Harmless.started_nodup (h : sv.Harmless p) : (sv.checkChildren p).2.Nodup := by
  rw [checkChildren_eq hmon]
  cases hs : sv.spreads with
  | true =>
    have hlength := (h hs).1
    match hlist : sv.triggers p with
    | [] => exact nodup_nil
    | [failed] => grind [childrenToRestart_nodup]
    | _ :: _ :: _ => simp [hlist] at hlength
  | false =>
    refine List.Nodup.sublist ?_ (sv.triggers_nodup p)
    rw [childIDs, ← flatMap_pure_eq_map]
    refine List.Sublist.flatMap_right _ fun failed _ => ?_
    exact filter_sublist.trans ((childrenToRestart_sublist hs failed).map _)

theorem Harmless.keepsPolicy (h : sv.Harmless p) : sv.KeepsPolicy (sv.checkChildren p).2 := by
  refine ⟨fun child hmem htemporary hstarted => ?_, fun child _ _ => ?_⟩
  · obtain ⟨failed, hfailed, other, hother, hid⟩ := mem_started hmon hstarted
    obtain ⟨hmem', hrestart⟩ := h.restart_ne hfailed hother
    have heq := inj_on_of_nodup_map sv.unique hmem' hmem hid
    exact hrestart (heq ▸ htemporary)
  grind [started_nodup]

theorem checkChildren_redeployed :
    (sv.checkChildren p.redeployed).2 = (sv.triggers p).flatMap fun failed =>
      childIDs (sv.childrenToRestart p failed) := by
  rw [checkChildren_eq hmon]
  refine flatMap_congr fun failed _ => ?_
  exact filter_eq_self.mpr fun _ _ => rfl

theorem two_le_count {failed' : SupervisedChild} {rest : List SupervisedChild}
    (hlist : sv.triggers p = failed :: failed' :: rest)
    (h : child ∈ sv.childrenToRestart p failed) (h' : child ∈ sv.childrenToRestart p failed') :
    2 ≤ (sv.checkChildren p.redeployed).2.count child.spec.id := by
  have hone : ∀ other, child ∈ sv.childrenToRestart p other →
      1 ≤ (childIDs (sv.childrenToRestart p other)).count child.spec.id := by
    intro other hother
    exact count_pos_iff.mpr (mem_map_of_mem hother)
  grind [checkChildren_redeployed]

theorem harmless_of_keepsPolicy
    (h : sv.KeepsPolicy (sv.checkChildren p.redeployed).2) : sv.Harmless p := by
  intro hs
  constructor
  · match hlist : sv.triggers p with
    | [] => exact Nat.zero_le 1
    | [failed] => exact Nat.le_refl 1
    | failed :: failed' :: rest =>
      -- The later of two failed children is restarted by both failures.
      have hboth : ∀ child, child ∈ sv.triggers p → child ∈ sv.childrenToRestart p failed →
          child ∉ sv.childrenToRestart p failed' := by
        intro child hchild h₁ h₂
        obtain ⟨hmem, hrestart⟩ := mem_triggers hchild
        have htwo := two_le_count hmon hlist h₁ h₂
        have hone := h.once child hmem hrestart
        omega
      have hfailed : failed ∈ sv.triggers p := by simp [hlist]
      have hfailed' : failed' ∈ sv.triggers p := by simp [hlist]
      grind [mem_triggers, mem_childrenToRestart]
  · intro failed hfailed child hmem hindex htemporary
    refine h.temporary child hmem htemporary ?_
    rw [checkChildren_redeployed hmon, mem_flatMap]
    refine ⟨failed, hfailed, mem_map_of_mem ?_⟩
    grind [mem_childrenToRestart]

end

/-- A pass respects the restart types exactly when it is harmless. -/
theorem keepsPolicy_iff_harmless (p : Pass) (sv : Supervisor) (hmon : sv.monitoring = true) :
    (∀ redeploy, sv.KeepsPolicy (sv.checkChildren { p with redeploy := redeploy }).2) ↔
      sv.Harmless p := by
  constructor
  · intro h
    exact harmless_of_keepsPolicy hmon (h fun _ _ => some 0)
  · intro h redeploy
    exact Harmless.keepsPolicy (p := { p with redeploy := redeploy }) hmon h

def passFinding (failed : List ℕ) : Pass where
  found deploymentID := if deploymentID ∈ failed then .failed else .running
  order _ children := children
  perm _ children := List.Perm.refl children
  now _ := 0
  recorded _ := 0
  redeploy _ _ := some 0

def childSpecs : List ChildSpec :=
  [⟨"a", .permanent⟩, ⟨"b", .permanent⟩, ⟨"c", .temporary⟩]

def ofThree (strategy : RestartStrategy) : Supervisor :=
  .start strategy ⟨0, 0⟩ childSpecs fun id => if id = "a" then 0 else if id = "b" then 1 else 2

/-- The failure of `a` starts the temporary child again, and `a` and `b` start `b` twice. -/
structure RestartsBadly (strategy : RestartStrategy) : Prop where
  temporary : "c" ∈ ((ofThree strategy).checkChildren (passFinding [0])).2
  breaks : ¬(ofThree strategy).KeepsPolicy ((ofThree strategy).checkChildren (passFinding [0])).2
  twice : ((ofThree strategy).checkChildren (passFinding [0, 1])).2.count "b" = 2
  breaksTwice : ¬(ofThree strategy).KeepsPolicy
    ((ofThree strategy).checkChildren (passFinding [0, 1])).2

theorem restartsBadly_of_starts {strategy : RestartStrategy}
    (htemporary : "c" ∈ ((ofThree strategy).checkChildren (passFinding [0])).2)
    (htwice : ((ofThree strategy).checkChildren (passFinding [0, 1])).2.count "b" = 2) :
    RestartsBadly strategy := by
  have hb : ⟨⟨"b", .permanent⟩, 1⟩ ∈ startChildren childSpecs := by decide +kernel
  have hc : ⟨⟨"c", .temporary⟩, 2⟩ ∈ startChildren childSpecs := by decide +kernel
  refine ⟨htemporary, fun h => ?_, htwice, fun h => ?_⟩
  · exact h.temporary _ hc rfl htemporary
  · have hone : ((ofThree strategy).checkChildren
        (passFinding [0, 1])).2.count "b" ≤ 1 := h.once _ hb (by decide)
    omega

/-- One-for-all and rest-for-one start children against their policy, and twice. -/
theorem restarts_badly : RestartsBadly .oneForAll ∧ RestartsBadly .restForOne := by
  constructor
  all_goals exact restartsBadly_of_starts (by decide +kernel) (by decide +kernel)

theorem keepsPolicy_iff_harmless_one :
    (ofThree .oneForOne).monitoring = true ∧ ∀ redeploy, (ofThree .oneForOne).KeepsPolicy
        ((ofThree .oneForOne).checkChildren
          { passFinding [0, 1, 2] with redeploy := redeploy }).2 :=
  ⟨rfl, (keepsPolicy_iff_harmless (passFinding [0, 1, 2]) (ofThree .oneForOne)
    rfl).mpr (by intro h; exact absurd h (by decide))⟩

/-! ## Restart intensity -/

def restarts (id : String) (sv : Supervisor) : List Pass → List ℤ
  | [] => []
  | p :: passes =>
    let (sv, started) := sv.handleChildFailure p id
    replicate started.length (p.recorded id) ++ restarts id sv passes

def times (id : String) (passes : List Pass) : List ℤ :=
  passes.flatMap fun p => [p.now id, p.recorded id]

variable {id : String}

theorem handleChildFailure_oneForOne (h : sv.strategy = .oneForOne) (p : Pass) (id : String) :
    SameFor id sv (sv.handleChildFailure p id).1 ∧ (sv.handleChildFailure p id).2.length = 0 ∨
      sv.canRestart id (p.now id) = true ∧
        SameFor id (sv.recordRestart id (p.recorded id)) (sv.handleChildFailure p id).1 ∧
        (sv.handleChildFailure p id).2.length ≤ 1 := by
  rw [handleChildFailure]
  cases sv.child id with
  | none => exact .inl ⟨⟨rfl, rfl, rfl, rfl⟩, rfl⟩
  | some failed =>
    have hlist : sv.childrenToRestart p failed = [failed] := by rw [childrenToRestart, h]
    simp only [hlist]
    split
    · exact .inl ⟨⟨rfl, rfl, rfl, rfl⟩, rfl⟩
    next hcan =>
      obtain ⟨hstarted, hsame⟩ := restartChildren_eq (p := p) id [failed]
        (sv.recordRestart id (p.recorded id))
      refine .inr ⟨by simpa using hcan, hsame id, ?_⟩
      rw [hstarted]
      exact length_filter_le _ _

theorem recordRestart_countP (now : ℤ) {cutoff : ℤ} (h : now - sv.config.within ≤ cutoff) :
    (((sv.recordRestart id now).restartCount id).countP fun r => cutoff < r) =
      (sv.restartCount id ++ [now]).countP fun r => cutoff < r := by
  simp only [recordRestart, update_self, countP_filter]
  refine countP_congr fun r _ => ?_
  simp only [Bool.and_eq_true, decide_eq_true_eq]
  omega

theorem countP_of_canRestart {now : ℤ} (hmax : 0 < sv.config.maxRestarts)
    (h : sv.canRestart id now = true) :
    ((sv.restartCount id).countP fun t => now - sv.config.within < t) < sv.config.maxRestarts := by
  rw [canRestart, if_neg (by omega)] at h
  split at h
  next hnil =>
    rw [hnil]
    exact hmax
  · simpa using h

theorem countIn_restarts {config : RestartConfig} (hmax : 0 < config.maxRestarts)
    (passes : List Pass) (sv : Supervisor) (done : List ℤ)
    (hstrategy : sv.strategy = .oneForOne) (hconfig : sv.config = config)
    (htimes : (times id passes).Pairwise (· ≤ ·))
    (hkept : ∀ now ∈ times id passes, ∀ cutoff, now - config.within ≤ cutoff →
      (done.countP fun r => cutoff < r) ≤ (sv.restartCount id).countP fun r => cutoff < r)
    (hbound : ∀ t, countIn config.within t done ≤ config.maxRestarts.toNat) (t : ℤ) :
    countIn config.within t (done ++ sv.restarts id passes) ≤ config.maxRestarts.toNat := by
  induction passes generalizing sv done with
  | nil => simpa [restarts] using hbound t
  | cons p passes ih =>
    rw [times, flatMap_cons] at htimes hkept
    obtain ⟨hhead, hrest, hcross⟩ := pairwise_append.mp htimes
    rw [restarts, ← append_assoc]
    rcases handleChildFailure_oneForOne hstrategy p id with
      ⟨hsame, hcount⟩ | ⟨hcan, hsame, hcount⟩
    · rw [hcount, replicate_zero, append_nil]
      refine ih _ done (hsame.strategy.trans hstrategy) (hsame.config.trans hconfig) hrest ?_ hbound
      rw [hsame.restartCount]
      exact fun now hnow => hkept now (mem_append_right _ hnow)
    · have hle : p.now id ≤ p.recorded id := by simpa using hhead
      have hcount' := countP_of_canRestart (hconfig ▸ hmax) hcan
      rw [hconfig] at hcount'
      refine ih _ _ (hsame.strategy.trans hstrategy) (hsame.config.trans hconfig) hrest ?_
        (countIn_append hcount hle hbound (hkept _ (by simp)) (by omega))
      intro now hnow cutoff hcutoff
      have hlater : p.recorded id ≤ now := hcross _ (by simp) now hnow
      have hdone := hkept now (mem_append_right _ hnow) cutoff hcutoff
      rw [hsame.restartCount, recordRestart_countP _ (by rw [hconfig]; omega),
        countP_append, countP_append, countP_replicate, countP_singleton]
      split <;> omega

/-- In every window of length `Within`, a child is restarted at most
`MaxRestarts` times. -/
theorem restarts_in_window_le (config : RestartConfig) (hmax : 0 < config.maxRestarts)
    (specs : List ChildSpec) (deploymentID : String → ℕ) (id : String)
    (passes : List Pass) (htimes : (times id passes).Pairwise (· ≤ ·)) (t : ℤ) :
    (countIn config.within t ((Supervisor.start .oneForOne config specs deploymentID).restarts id
      passes) : ℤ) ≤ config.maxRestarts := by
  have h := countIn_restarts hmax passes (.start .oneForOne config specs deploymentID) []
    rfl rfl htimes (fun _ _ _ _ => Nat.zero_le _) (fun _ => Nat.zero_le _) t
  rw [nil_append] at h
  omega

def passAt (t : ℤ) : Pass :=
  { passFinding [] with now := fun _ => t, recorded := fun _ => t }

/-- Of three failures the second comes too early. -/
theorem restarts_in_window_le_three :
    (Supervisor.start .oneForOne ⟨1, 10⟩ childSpecs fun _ => 0).restarts "a"
        [passAt 0, passAt 5, passAt 20] = [0, 20] ∧
      ∀ t, (countIn 10 t ((Supervisor.start .oneForOne ⟨1, 10⟩ childSpecs fun _ => 0).restarts "a"
        [passAt 0, passAt 5, passAt 20]) : ℤ) ≤ 1 :=
  ⟨by decide +kernel, restarts_in_window_le ⟨1, 10⟩ (by decide) childSpecs (fun _ => 0) "a" _
    (by decide +kernel)⟩

end Supervisor

end Fluxor.Supervision
