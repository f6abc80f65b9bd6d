import Fluxor.Workflow.Completion
import Fluxor.Workflow.Flow

/-!
# Workflows that run to an end

Handlers return an error or an output. `RegisterWorkflow` looks neither at the retry
counts nor for a start node. With a negative count the handler of a node is not
called at all, and the goroutine reads an output that is not there; without a start
node nothing ever asks whether the execution is complete. In every other workflow no
goroutine panics, and an execution with finitely many node executions ends: while it
runs, some goroutine has still to look for active nodes (`unfinished`).
-/

namespace Fluxor.Workflow

def Check.pending : Check → Bool
  | .checking | .counting | .judging | .completing _ => true
  | .closing | .clearing | .cleaning => false

/-- The goroutine has still to look for active nodes, or to end the
execution. -/
def Stage.pending {β : Type*} : Stage β → Bool
  | .check false st => st.pending
  | .hanging | .returned => false
  | _ => true

def Thread.panicked {β : Type*} : Thread β → Bool
  | .node _ _ _ .panicking | .node _ _ _ .hanging => true
  | _ => false

namespace Engine

open Goroutines Config Transition List Nat Execution

variable {β : Type*} {w : WorkflowDefinition} {registry : NodeType → Bool}
  {e e' : Engine β} {choice : Choice β} {t : Thread β} {i : ℕ}
  {o : Outcome (Engine β) (Thread β)} {c : Config (Engine β) (Thread β)}

/-! ## The property -/

def Returning (_ : Config (Engine β) (Thread β)) : Move (Thread β) (Choice β) → Prop
  | .run _ (.returns none) => False
  | _ => True

instance (c : Config (Engine β) (Thread β)) (m : Move (Thread β) (Choice β)) :
    Decidable (Returning c m) :=
  match m with
  | .run _ (.returns (some _)) | .run _ (.returns none) | .run _ (.take _) | .run _ (.time _)
  | .run _ (.fails _) | .spawn _ => by delta Returning; infer_instance

/-- All node executions are among the first `k` goroutines. -/
def FewNodes {input : Data β}
    (x : Execution (code w registry β) Returning (started w input)) : Prop :=
  ∃ k : ℕ, ∀ n j ctx node input st,
    (x.config n).threads[j]? = some (Thread.node ctx node input st) → j < k

/-- No goroutine panics, and every fair execution with finitely many node
executions ends. -/
structure RunsToEnd (w : WorkflowDefinition) (registry : NodeType → Bool)
    (input : Data β) : Prop where
  outputs : ∀ {acts c}, Run (code w registry β).step Returning
    (started w input) acts c → ∀ t ∈ c.threads, t.panicked = false
  ends : ∀ x : Execution (code w registry β) Returning (started w input),
    x.Fair → FewNodes x → ∃ n, (x.config n).shared.status ≠ .running

def Attempted (w : WorkflowDefinition) (registry : NodeType → Bool) : Prop :=
  ∀ node ∈ w.nodes, registry node.type = true → 0 < node.attempts

/-! ## No goroutine panics -/

def GoingStage (w : WorkflowDefinition) (node : NodeDefinition) : Stage β → Prop
  | .trying i | .handling i => i < node.attempts
  | .waiting i => i + 1 < node.attempts
  | .activating next _ _ | .merging next _ _ => next ∈ w.nodes
  | .storing none | .panicking | .hanging => False
  | _ => True

def Going (w : WorkflowDefinition) (_ : Engine β) (j : ℕ) : Thread β → Prop
  | .start rest _ => j = 0 ∧ rest ⊆ w.nodes
  | .node _ node _ st => node ∈ w.nodes ∧ GoingStage w node st
  | .message node _ _ => node ∈ w.nodes
  | .cancel _ | .expire _ _ => True

variable {ctx : Ctx} {node : NodeDefinition} {input : Input β} {st st' : Stage β}
  {launched : List (Thread β)}

section

variable (h : NodeStep w registry e ctx node input choice st e' st' launched)

include h

theorem NodeStep.going
    (hnode : registry node.type = true → 0 < node.attempts) (hchoice : choice ≠ .returns none)
    (hst : GoingStage w node st) : GoingStage w node st' := by
  cases h with
  | enter _ hattempts => exact hattempts
  | skip hattempts hregistry => exact absurd (hnode hregistry) (not_lt.mpr hattempts)
  | call | callAgain => exact hst
  | @returns _ output hreturns =>
    cases output with
    | none => exact absurd hreturns hchoice
    | some => trivial
  | retry _ hi => exact hi
  | @again i =>
    change ((i + 1 : ℕ) : ℤ) < node.attempts
    rwa [cast_succ]
  | toMerge hfind | toNode hfind => exact (findNode_mem hfind).1
  | @checked deferred => cases deferred <;> trivial
  | panic | unwind => exact hst.elim
  | _ => trivial

theorem NodeStep.mu_eq (hst : GoingStage w node st) : e'.mu = e.mu := by
  cases h with
  | check h | checked h => exact h.calm.1
  | panic => exact hst.elim
  | _ => rfl

theorem NodeStep.launched_mem
    (hst : GoingStage w node st) (j : ℕ) : ∀ u ∈ launched, Going w e' j u := by
  intro u hu
  cases h with
  | err hfind =>
    obtain rfl := mem_singleton.mp hu
    exact ⟨(findNode_mem hfind).1, trivial⟩
  | activate | fire =>
    obtain rfl := mem_singleton.mp hu
    exact ⟨hst, trivial⟩
  | _ => cases hu

end

section

variable (h : Step w registry e choice t o)

include h

theorem Step.going (hattempted : Attempted w registry)
    (hchoice : choice ≠ .returns none) (ht : Going w e i t) : Going w o.shared i o.thread ∧
      o.shared.mu = e.mu ∧ ∀ j, ∀ u ∈ o.started, Going w o.shared j u := by
  cases h with
  | launch =>
    obtain ⟨hi, hrest⟩ := ht
    rw [cons_subset] at hrest
    refine ⟨⟨hi, hrest.2⟩, rfl, fun j u hu => ?_⟩
    obtain rfl := mem_singleton.mp hu
    exact ⟨hrest.1, trivial⟩
  | pass =>
    obtain ⟨hi, hrest⟩ := ht
    rw [cons_subset] at hrest
    refine ⟨⟨hi, hrest.2⟩, rfl, fun j u hu => ?_⟩
    cases hu
  | node h =>
    obtain ⟨hnode, hst⟩ := ht
    exact ⟨⟨hnode, h.going (hattempted _ hnode) hchoice hst⟩, h.mu_eq hst, h.launched_mem hst⟩
  | message =>
    refine ⟨ht, rfl, fun j u hu => ?_⟩
    obtain rfl := mem_singleton.mp hu
    exact ⟨ht, trivial⟩
  | cancel h =>
    refine ⟨trivial, ?_, fun j u hu => ?_⟩
    · cases h <;> rfl
    · cases hu
  | expire =>
    refine ⟨trivial, rfl, fun j u hu => ?_⟩
    cases hu

/-! ## What is left to do -/

/-- The start nodes to be launched, and the goroutines still to look for active nodes. -/
def unfinished (w : WorkflowDefinition) : Thread β → ℕ
  | .start rest _ => rest.countP fun node => isStartNode w node
  | .node _ _ _ st => if st.pending then 1 else 0
  | _ => 0

omit h in
theorem running_le_unfinished (w : WorkflowDefinition) (id : String) (t : Thread β) :
    running id t ≤ unfinished w t := by
  cases t with
  | node ctx node input st =>
    rw [running, unfinished]
    split
    next hst =>
      have hpending : st.pending = true := by
        cases st with
        | check deferred =>
          cases deferred with
          | true => rfl
          | false => cases hst.2
        | hanging | returned => cases hst.2
        | _ => rfl
      rw [if_pos hpending]
    · exact zero_le _
  | _ => exact zero_le _

omit h in
theorem CheckStep.activeNodes_subset {st : Check} {st' : Option Check} (h : CheckStep e st e' st') :
    e'.activeNodes ⊆ e.activeNodes := by
  cases h with
  | @complete err => cases err <;> exact subset_rfl
  | clear => exact Finset.empty_subset _
  | _ => exact subset_rfl

omit h in
theorem NodeStep.active_of (h : NodeStep w registry e ctx node input choice st e' st' launched)
    {id : String} (hid : id ∈ e'.activeNodes) :
    0 < (launched.map (running id)).sum ∨ id ∈ e.activeNodes ∧
      (node.id = id → st.inProgress = true → st'.inProgress = true) := by
  cases h with
  | err hfind =>
    rcases Finset.mem_insert.mp hid with rfl | hid
    · refine .inl ?_
      simp [running, (findNode_mem hfind).2, Stage.inProgress]
    · exact .inr ⟨hid, fun _ _ => rfl⟩
  | activate => rcases Finset.mem_insert.mp hid with rfl | hid <;> grind [running, Stage.inProgress]
  | leave | unwind =>
    obtain ⟨hne, hid⟩ := Finset.mem_erase.mp hid
    exact .inr ⟨hid, fun heq => absurd heq.symm hne⟩
  | @check deferred _ _ _ h | @checked deferred _ _ h =>
    refine .inr ⟨h.activeNodes_subset hid, fun _ hst => ?_⟩
    cases deferred with
    | true => rfl
    | false => cases hst
  | _ => exact .inr ⟨hid, fun _ _ => rfl⟩

theorem Step.active_of {id : String}
    (hid : id ∈ o.shared.activeNodes) :
    0 < (o.started.map (running id)).sum ∨
      id ∈ e.activeNodes ∧ running id t ≤ running id o.thread := by
  cases h with
  | launch => rcases Finset.mem_insert.mp hid with rfl | hid <;> grind [running, Stage.inProgress]
  | node => grind [NodeStep.active_of, running]
  | cancel h =>
    cases h with
    | clear => exact absurd hid (Finset.notMem_empty _)
    | _ => exact .inr ⟨hid, le_rfl⟩
  | _ => exact .inr ⟨hid, le_rfl⟩

omit h in
theorem CheckStep.running_of {st : Check} {st' : Option Check} (h : CheckStep e st e' st')
    (hrunning : e'.status = .running) : e.status = .running ∧ ∀ err, st ≠ .completing err := by
  cases h with
  | @complete err => cases err <;> cases hrunning
  | _ => exact ⟨hrunning, fun err heq => by cases heq⟩

theorem Step.running_of (hrunning : o.shared.status = .running) :
    e.status = .running := by
  cases h with
  | node h =>
    cases h with
    | check h | checked h => exact (h.running_of hrunning).1
    | _ => exact hrunning
  | cancel h => cases h <;> grind
  | _ => exact hrunning

omit h in
theorem NodeStep.pending (h : NodeStep w registry e ctx node input choice st e' st' launched)
    (hgoing : GoingStage w node st) (hrunning : e'.status = .running) (hst : st.pending = true) :
    st'.pending = true ∨ e'.activeNodes ≠ ∅ := by
  cases h with
  | @check deferred _ _ _ h =>
    cases deferred with
    | true => exact .inl rfl
    | false =>
      cases h with
      | running | empty | judge => exact .inl rfl
      | @complete err => cases err <;> cases hrunning
      | close | clear => cases hst
  | @checked deferred _ _ h =>
    cases deferred with
    | true => exact .inl rfl
    | false =>
      cases h with
      | ended _ hended => exact absurd hrunning hended
      | active hactive => exact .inr hactive
      | clean => cases hst
  | unwind => exact hgoing.elim
  | _ => exact .inl rfl

theorem Step.unfinished_le (hgoing : Going w e i t)
    (hrunning : o.shared.status = .running) :
    unfinished w t ≤ unfinished w o.thread + (o.started.map (unfinished w)).sum ∨
      o.shared.activeNodes ≠ ∅ := by
  cases h with
  | launch => grind [unfinished, Stage.pending]
  | pass hstart =>
    left
    simp [unfinished, hstart]
  | @node ctx node input st e' st' launched h =>
    rw [unfinished, unfinished]
    split
    next hst =>
      rcases h.pending hgoing.2 hrunning hst with hst' | hactive <;> grind [NodeStep.pending]
    · exact .inl (zero_le _)
  | _ => exact .inl (zero_le _)

end

/-- No goroutine panics; active nodes are in progress; and a running execution has
something left to do. -/
structure Sound (w : WorkflowDefinition) (c : Config (Engine β) (Thread β)) : Prop where
  mu : c.shared.mu = false
  going : c.All (Going w)
  covered : ∀ id ∈ c.shared.activeNodes, 0 < c.total (running id)
  busy : c.shared.status = .running → 0 < c.total (unfinished w)

theorem Sound.covered_advance (h : Sound w c) (ht : c.threads[i]? = some t)
    (hstep : Step w registry c.shared choice t o) :
    ∀ id ∈ o.shared.activeNodes, 0 < (c.advance i o).total (running id) := by
  intro id hid
  have htotal := Config.total_advance (w := running id) (o := o) ht
  have hle : running id t ≤ c.total (running id) := Config.le_total ht
  rcases hstep.active_of hid with hlaunched | ⟨hid, hkept⟩
  · omega
  · have := h.covered id hid
    omega

theorem Sound.advance (h : Sound w c) (hattempted : Attempted w registry)
    (hchoice : choice ≠ .returns none) (ht : c.threads[i]? = some t)
    (hstep : Step w registry c.shared choice t o) : Sound w (c.advance i o) := by
  obtain ⟨hown, hmu, hstarted⟩ := hstep.going hattempted hchoice (h.going i t ht)
  have hcovered := h.covered_advance ht hstep
  refine ⟨hmu.trans h.mu, h.going.advance hown ?_ ?_, hcovered, ?_⟩
  · intro j u _ _ hu
    cases u <;> exact hu
  · exact fun j u _ hu => hstarted j u hu
  · intro hrunning
    rcases hstep.unfinished_le (h.going i t ht) hrunning with hle | hactive
    · have htotal := total_advance (w := unfinished w) (o := o) ht
      have hbusy := h.busy (hstep.running_of hrunning)
      omega
    · -- the goroutine of an active node is in progress
      obtain ⟨id, hid⟩ := Finset.nonempty_iff_ne_empty.mpr hactive
      obtain ⟨j, u, hj, hu⟩ := exists_of_total_ne_zero (hcovered id hid).ne'
      have hle : unfinished w u ≤ (c.advance i o).total (unfinished w) := Config.le_total hj
      have := running_le_unfinished w id u
      omega

theorem sound_of_run {input : Data β} (hattempted : Attempted w registry)
    (hstart : ∃ node ∈ w.nodes, isStartNode w node = true)
    {acts : List (Move (Thread β) (Choice β))}
    (hrun : Run (code w registry β).step Returning (started w input) acts c) : Sound w c := by
  refine Code.run_invariant (I := Sound w) ?_ ?_ hrun ?_
  · intro c t hI _ hentry
    refine ⟨hI.mu, hI.going.spawn ?_, fun id hid => ?_, fun hrunning => ?_⟩
    · cases t with
      | message node data handled =>
        cases handled with
        | false =>
          have : node ∈ w.nodes := of_decide_eq_true hentry
          exact this
        | true => cases hentry
      | cancel | expire => trivial
      | start | node => cases hentry
    · rw [total_spawn]
      exact Nat.add_pos_left (hI.covered id hid) _
    · rw [total_spawn]
      exact Nat.add_pos_left (hI.busy hrunning) _
  · intro c i b t o hI hok ht ho
    refine hI.advance hattempted ?_ ht (step_of_next ho)
    rintro rfl
    exact hok
  · refine ⟨rfl, ?_, fun id hid => absurd hid (Finset.notMem_empty _), ?_⟩
    · intro j u hu
      obtain ⟨rfl, rfl⟩ : j = 0 ∧ u = .start w.nodes input := by
        cases j with
        | zero => exact ⟨rfl, (Option.some.inj hu).symm⟩
        | succ => cases hu
      exact ⟨rfl, List.Subset.refl _⟩
    grind [total, started, unfinished]

/-! ## Every goroutine returns -/

def stepsLeft (node : NodeDefinition) : Stage β → ℕ ×ₗ ℕ
  | .called => toLex (1, 3 * node.attempts.toNat + 1)
  | .trying i => toLex (1, 3 * (node.attempts.toNat - i))
  | .handling i => toLex (1, 3 * (node.attempts.toNat - i) - 1)
  | .waiting i => toLex (1, 3 * (node.attempts.toNat - i) - 2)
  | .unknown => toLex (0, 9)
  | .failing _ => toLex (0, 17 + node.onError.length)
  | .erring rest => toLex (0, 9 + rest.length)
  | .storing (some output) => toLex (0, 17 + 2 * (determineNextNodes node output).length)
  | .launching rest _ => toLex (0, 9 + 2 * rest.length)
  | .activating _ rest _ | .merging _ rest _ => toLex (0, 10 + 2 * rest.length)
  | st => toLex (0, finishSteps st)

theorem finishSteps_afterCheck_lt (deferred : Bool) (st : Check) :
    finishSteps (afterCheck deferred : Stage β) < finishSteps (.check deferred st : Stage β) := by
  have : 0 < checkSteps st := by cases st <;> simp [checkSteps]
  cases deferred
  · exact this
  · exact Nat.lt_add_of_pos_right this

theorem finishSteps_check_lt (deferred : Bool) {st st' : Check}
    (h : checkSteps st' < checkSteps st) :
    finishSteps (.check deferred st' : Stage β) < finishSteps (.check deferred st : Stage β) := by
  cases deferred
  · exact h
  · exact Nat.add_lt_add_left h 8

theorem NodeStep.stepsLeft_lt (h : NodeStep w registry e ctx node input choice st e' st' launched)
    (hst : GoingStage w node st) : stepsLeft node st' < stepsLeft node st := by
  rw [Prod.Lex.lt_iff]
  cases h with
  | cancelled | unregistered | skip | abort | fail | giveUp => exact .inl zero_lt_one
  | @returns _ output => cases output <;> exact .inl zero_lt_one
  | enter => exact .inr ⟨rfl, lt_succ_self _⟩
  | call | callAgain | retry | again =>
    refine .inr ⟨rfl, ?_⟩
    simp only [GoingStage] at hst
    simp only [stepsLeft, ofLex_toLex]
    omega
  | @check deferred _ _ _ h => exact .inr ⟨rfl, finishSteps_check_lt deferred h.steps_lt⟩
  | @checked deferred st _ h =>
    cases deferred with
    | false => exact .inr ⟨rfl, finishSteps_afterCheck_lt (β := β) false st⟩
    | true => exact .inr ⟨rfl, finishSteps_afterCheck_lt (β := β) true st⟩
  | panic | unwind => exact hst.elim
  | _ =>
    refine .inr ⟨rfl, ?_⟩
    simp only [stepsLeft, ofLex_toLex, finishSteps, checkSteps, length_cons]
    omega

def Thread.stepsLeft : Thread β → ℕ ×ₗ ℕ
  | .node _ node _ st => Engine.stepsLeft node st
  | _ => toLex (0, 0)

theorem eventually_returned {input₀ : Data β}
    {x : Execution (code w registry β) Returning (started w input₀)} (hfair : x.Fair)
    (hsound : ∀ n, Sound w (x.config n)) {n j : ℕ}
    (ht : (x.config n).threads[j]? = some (.node ctx node input st)) :
    ∃ N, ∀ m, N ≤ m → (x.config m).threads[j]? = some (.node ctx node input .returned) := by
  obtain ⟨N, u, -, hu, -, rfl⟩ := eventually_done hfair
    (fun u => ∃ st, u = .node ctx node input st)
    (fun u => u = .node ctx node input .returned)
    Thread.stepsLeft ht ⟨st, rfl⟩ (by
      rintro m u - hu ⟨st, rfl⟩ hreturned
      refine node_enabled (hsound m).mu hu ?_ ?_
      · rintro rfl
        exact hreturned rfl
      · rintro rfl
        exact ((hsound m).going j _ hu).2) (by
      rintro m u b o - - hu ⟨st, rfl⟩ - ho
      cases step_of_next ho with
      | @node _ _ _ _ _ st' _ h =>
        exact ⟨⟨st', rfl⟩, .inr (h.stepsLeft_lt ((hsound m).going j _ hu).2)⟩)
  exact ⟨N, stays (fun _ _ => rfl) hu⟩

/-- The loop over the start nodes comes to its end. -/
def launchesLeft : Thread β → ℕ
  | .start rest _ => rest.length
  | _ => 0

theorem eventually_launched {input : Data β}
    {x : Execution (code w registry β) Returning (started w input)} (hfair : x.Fair) :
    ∃ N, ∀ m, N ≤ m → (x.config m).threads[0]? = some (.start [] input) := by
  have hstart : (x.config 0).threads[0]? = some (.start w.nodes input) := by
    rw [x.start]
    rfl
  obtain ⟨N, u, -, hu, -, rfl⟩ := eventually_done hfair
    (fun u => ∃ rest, u = .start rest input) (fun u => u = .start [] input)
    launchesLeft hstart ⟨_, rfl⟩ (by
      rintro m u - hu ⟨rest, rfl⟩ hleft
      cases rest <;> grind [start_enabled]) (by
      rintro m u b o - - hu ⟨rest, rfl⟩ - ho
      cases step_of_next ho <;> grind [step_of_next, launchesLeft])
  exact ⟨N, stays (fun _ _ => rfl) hu⟩

theorem eventually_ended {input : Data β}
    {x : Execution (code w registry β) Returning (started w input)} (hfair : x.Fair)
    (hsound : ∀ n, Sound w (x.config n)) (hfew : FewNodes x) :
    ∃ n, (x.config n).shared.status ≠ .running := by
  obtain ⟨k, hk⟩ := hfew
  obtain ⟨N, hN⟩ := eventually_launched hfair
  have hreturned : ∀ j : ℕ, ∃ N, ∀ m, N ≤ m → ∀ ctx node input st,
      (x.config m).threads[j]? = some (.node ctx node input st) → st = .returned := by
    intro j
    by_cases hnode : ∃ n ctx node input st,
        (x.config n).threads[j]? = some (.node ctx node input st)
    · obtain ⟨n, ctx, node, input, st, ht⟩ := hnode
      obtain ⟨N, hN⟩ := eventually_returned hfair hsound ht
      refine ⟨N, fun m hm ctx node input st hst => ?_⟩
      rw [hN m hm] at hst
      cases hst
      rfl
    · exact ⟨0, fun m _ ctx node input st hst => absurd ⟨m, ctx, node, input, st, hst⟩ hnode⟩
  choose M hM using hreturned
  let n := max N ((Finset.range k).sup M)
  refine ⟨n, fun hrunning => ?_⟩
  obtain ⟨j, u, hj, hu⟩ := exists_of_total_ne_zero ((hsound n).busy hrunning).ne'
  have hgoing := (hsound n).going j u hj
  cases u with
  | start =>
    obtain ⟨rfl, -⟩ := hgoing
    rw [hN n (le_max_left _ _)] at hj
    cases hj
    exact hu rfl
  | node ctx node input st =>
    have hle : M j ≤ (Finset.range k).sup M :=
      Finset.le_sup (Finset.mem_range.mpr (hk n j ctx node input st hj))
    obtain rfl := hM j n (hle.trans (le_max_right _ _)) ctx node input st hj
    exact hu rfl
  | _ => exact hu rfl

/-! ## Workflows that do not run to an end -/

theorem exists_panicked (input : Data β) (hnode : node ∈ w.nodes)
    (hregistry : registry node.type = true) (hattempts : node.attempts ≤ 0) :
    ∃ acts c, Run (code w registry β).step Returning (started w input) acts c ∧
      ∃ t ∈ c.threads, t.panicked = true := by
  let start : Thread β := .start w.nodes input
  let message : Thread β := .message node input true
  let thread (st : Stage β) : Thread β := .node .message node (.value input) st
  let launched : Config (Engine β) (Thread β) := ⟨{}, [start, message, thread .called]⟩
  have hspawn : (code w registry β).step (started w input) (.spawn (.message node input false)) =
        some ⟨{}, [start, .message node input false]⟩ :=
    if_pos (decide_eq_true hnode)
  have hmessage : (code w registry β).step
      ⟨{}, [start, .message node input false]⟩ (.run 1 (.time 0)) = some launched := rfl
  have hcalled : (code w registry β).step launched (.run 2 (.time 0)) =
        some ⟨{}, [start, message, thread (.storing none)]⟩ := by
    have hnext : (code w registry β).next {} 2 (thread .called) (.time 0) =
        some ⟨{}, thread (.storing none), []⟩ := by
      change (nodeNext w registry {} _ node _ .called _).map _ = _
      grind [nodeNext]
    exact Code.step_run (c := launched) rfl hnext
  have hstoring : (code w registry β).step
      ⟨{}, [start, message, thread (.storing none)]⟩ (.run 2 (.time 0)) =
        some ⟨{ mu := true }, [start, message, thread .panicking]⟩ := rfl
  refine ⟨_, _, (((Run.nil _).snoc ?_ hspawn).snoc ?_ hmessage).snoc ?_
    hcalled |>.snoc ?_ hstoring, thread .panicking, ?_, rfl⟩
  · trivial
  · trivial
  · trivial
  · trivial
  · simp

theorem alone_start (registry : NodeType → Bool) (e : Engine β) (input : Data β)
    {rest : List NodeDefinition} (h : ∀ node ∈ rest, isStartNode w node = false) :
    (code w registry β).Alone Returning [] e (.start rest input) e (.start [] input) := by
  induction rest with
  | nil => exact .refl _ _
  | cons node rest ih =>
    refine .step (.time 0) trivial ?_ (ih fun node hnode => h node (mem_cons_of_mem _ hnode))
    change (e.startNext w input (node :: rest)).map _ = _
    rw [startNext, h node mem_cons_self]
    rfl

theorem exists_running (registry : NodeType → Bool) (input : Data β)
    (hnone : ∀ node ∈ w.nodes, isStartNode w node = false) :
    ∃ x : Execution (code w registry β) Returning (started w input),
      x.Fair ∧ FewNodes x ∧ ∀ n, (x.config n).shared.status = .running := by
  obtain ⟨acts, hrun⟩ := (alone_start registry {} input hnone).exists_run
  obtain ⟨x, N, hfair, -, hN⟩ := exists_fair hrun (by
    intro i t b ht
    obtain rfl := mem_singleton.mp (mem_of_getElem? ht)
    rfl)
  refine ⟨x, hfair, ⟨1, ?_⟩, ?_⟩
  · intro n j ctx node input' st ht
    obtain ⟨u, hu, -⟩ := persists (J := fun _ => True)
      (fun _ _ _ _ _ _ => trivial) ht trivial (max n N) (le_max_left _ _)
    rw [hN _ (le_max_right _ _)] at hu
    exact (List.getElem?_eq_some_iff.mp hu).1
  · intro n
    by_contra hended
    have hlater := x.always (P := fun c => c.shared.status ≠ .running) hended (by
        intro m mv _ hm hmove hrunning
        rcases Code.step_cases (x.next hmove) with
          ⟨t, -, -, hc⟩ | ⟨i, b, t, o, -, ht, ho, hc⟩
        · rw [hc] at hrunning
          exact hm hrunning
        · rw [hc] at hrunning
          exact hm ((step_of_next ho).running_of hrunning))
      (max n N) (le_max_left _ _)
    grind

/-- A workflow runs to an end exactly if it has a start node, and no node with a
handler has a negative retry count. -/
theorem runsToEnd_iff (w : WorkflowDefinition) (registry : NodeType → Bool) (input : Data β) :
    RunsToEnd w registry input ↔
      (∃ node ∈ w.nodes, isStartNode w node = true) ∧ Attempted w registry := by
  constructor
  · intro h
    constructor
    · by_contra hnone
      obtain ⟨x, hfair, hfew, hrunning⟩ := exists_running registry input (fun node hnode => by
          rw [← Bool.not_eq_true]
          exact fun hstart => hnone ⟨node, hnode, hstart⟩)
      obtain ⟨n, hended⟩ := h.ends x hfair hfew
      exact hended (hrunning n)
    · intro node hnode hregistry
      by_contra hattempts
      obtain ⟨acts, c, hrun, t, ht, hpanicked⟩ :=
        exists_panicked input hnode hregistry (not_lt.mp hattempts)
      rw [h.outputs hrun t ht] at hpanicked
      cases hpanicked
  · rintro ⟨hstart, hattempted⟩
    constructor
    · intro acts c hrun t ht
      obtain ⟨j, hj⟩ := List.mem_iff_getElem?.mp ht
      have hgoing := (sound_of_run hattempted hstart hrun).going j t hj
      cases t with
      | node ctx node input st =>
        cases st with
        | panicking | hanging => exact hgoing.2.elim
        | _ => rfl
      | _ => rfl
    · intro x hfair hfew
      refine eventually_ended hfair (fun n => ?_) hfew
      obtain ⟨acts, hrun⟩ := x.exists_run n
      exact sound_of_run hattempted hstart hrun

def negative : WorkflowDefinition :=
  ⟨"w", [{ id := "a", type := .manual, retryCount := -1 }]⟩

def ring : WorkflowDefinition :=
  ⟨"w", [{ id := "a", type := .other "task", next := ["b"] },
    { id := "b", type := .other "task", next := ["a"] }]⟩

/-- The start node of the first workflow panics; no node of the second is ever
launched. -/
theorem stays_running : (registerWorkflow negative = .ok () ∧ ∃ acts c,
      Run (code negative (fun _ => true) Unit).step Returning
        (started negative (.plain ())) acts c ∧
      c.threads = [.start [] (.plain ()),
        .node .execution { id := "a", type := .manual, retryCount := -1 }
          (.value (.plain ())) .panicking]) ∧
    registerWorkflow ring = .ok () ∧ ∃ x : Execution (code ring (fun _ => true) Unit) Returning
        (started ring (.plain ())), x.Fair ∧ FewNodes x ∧
          ∀ n, (x.config n).shared.status = .running := by
  refine ⟨⟨rfl, ?_⟩, rfl, exists_running _ _ (by decide)⟩
  exact ⟨_, exists_run _ _ _
    [.run 0 (.time 0), .run 1 (.time 0), .run 1 (.time 0)] _ (by decide +kernel)⟩

end Engine

end Fluxor.Workflow
