import Fluxor.Workflow.Engine

/-!
# Error branches

A node that only error branches lead to should run after an error. But `isStartNode`
does not look at the error branches: such a node starts with the execution. So the
property holds of exactly those workflows in which no such node can run.
-/

namespace Fluxor.Workflow.Engine

open Goroutines Transition List

variable {β : Type*} {w : WorkflowDefinition} {registry : NodeType → Bool}
  {e e' : Engine β} {choice : Choice β} {t : Thread β} {i : ℕ}
  {o : Outcome (Engine β) (Thread β)} {c c' : Config (Engine β) (Thread β)}

/-- A node that is no trigger and is referenced from `OnError` lists only. -/
structure OnErrorOnly (w : WorkflowDefinition) (node : NodeDefinition) : Prop where
  mem : node ∈ w.nodes
  noTrigger : node.type.isTrigger = false
  onError : ∃ n ∈ w.nodes, node.id ∈ n.onError
  noEdge : ∀ n ∈ w.nodes, node.id ∉ n.edges

/-- `executeNode` comes to the handler of the node. -/
structure Runnable (registry : NodeType → Bool) (node : NodeDefinition) : Prop where
  registered : registry node.type = true
  attempts : 0 < node.attempts

/-- The handler of a node that only `OnError` lists name has been called after the
failure of a node whose list names it. -/
def AfterError (w : WorkflowDefinition) (history : List (Event β)) : Prop :=
  ∀ node, OnErrorOnly w node → ∀ before input after,
    history = before ++ .called node input :: after →
      ∃ n ∈ w.nodes, node.id ∈ n.onError ∧ .failed n ∈ before

/-! ## Calls of handlers -/

/-- A goroutine in the loop of attempts has a node that can be run. -/
def Attempts (registry : NodeType → Bool) (_ : Engine β) (_ : ℕ) : Thread β → Prop
  | .node _ node _ (.trying _) | .node _ node _ (.handling _)
  | .node _ node _ (.waiting _) => Runnable registry node
  | _ => True

structure CallsRunnable (registry : NodeType → Bool) (c : Config (Engine β) (Thread β)) : Prop where
  called : ∀ node input, .called node input ∈ c.shared.history → Runnable registry node
  threads : c.All (Attempts registry)

theorem CheckStep.history_eq {st : Check} {st' : Option Check} (h : CheckStep e st e' st') :
    e'.history = e.history := by
  cases h with
  | @complete err _ => cases err <;> rfl
  | _ => rfl

variable {node : NodeDefinition} {input : Input β} {launched : List (Thread β)}

theorem NodeStep.called_cases {ctx : Ctx} {st st' : Stage β}
    (h : NodeStep w registry e ctx node input choice st e' st' launched) {node' : NodeDefinition}
    {input' : Input β} (hcalled : .called node' input' ∈ e'.history) :
    .called node' input' ∈ e.history ∨ st = .trying 0 ∧ node' = node := by
  have hrecord : ∀ {event : Event β}, .called node' input' ∈ (e.record event).history →
        .called node' input' ∈ e.history ∨ .called node' input' = event := by
    intro event hmem
    rcases mem_append.mp hmem with hmem | hmem
    · exact .inl hmem
    · exact .inr (mem_singleton.mp hmem)
  cases h with
  | call =>
    rcases hrecord hcalled with hmem | heq
    · exact .inl hmem
    · cases heq
      exact .inr ⟨rfl, rfl⟩
  | fail | stop | last | store | fire | collect =>
    rcases hrecord hcalled with hmem | heq
    · exact .inl hmem
    · cases heq
  | check h | checked h =>
    rw [h.history_eq] at hcalled
    exact .inl hcalled
  | _ => exact .inl hcalled

theorem NodeStep.attempts {ctx : Ctx} {st st' : Stage β}
    (h : NodeStep w registry e ctx node input choice st e' st' launched)
    (hst : Attempts registry e i (.node ctx node input st)) :
    Attempts registry e' i (.node ctx node input st') := by
  cases h with
  | enter hregistered hattempts => exact ⟨hregistered, hattempts⟩
  | call | callAgain | retry | again => exact hst
  | @checked deferred => cases deferred <;> trivial
  | _ => trivial

theorem Step.called_cases (h : Step w registry e choice t o)
    (hcalled : .called node input ∈ o.shared.history) :
    .called node input ∈ e.history ∨ ∃ ctx input', t = .node ctx node input' (.trying 0) := by
  cases h with
  | node h =>
    rcases h.called_cases hcalled with hmem | ⟨rfl, rfl⟩
    · exact .inl hmem
    · exact .inr ⟨_, _, rfl⟩
  | cancel h => cases h <;> exact .inl hcalled
  | _ => exact .inl hcalled

theorem CallsRunnable.advance (h : CallsRunnable registry c) (ht : c.threads[i]? = some t)
    (hstep : Step w registry c.shared choice t o) : CallsRunnable registry (c.advance i o) := by
  have hown : Attempts registry c.shared i t := h.threads i t ht
  refine ⟨?_, h.threads.advance ?_ (fun _ _ _ _ hu => hu) ?_⟩
  · intro node input hcalled
    rcases hstep.called_cases hcalled with hmem | ⟨ctx, input', rfl⟩
    · exact h.called node input hmem
    · exact hown
  · cases hstep with
    | node hstep => exact hstep.attempts hown
    | _ => trivial
  · intro j u _ hu
    obtain ⟨ctx, node, input, rfl⟩ := hstep.launched_called u hu
    trivial

theorem callsRunnable_of_run {input : Data β} {acts : List (Move (Thread β) (Choice β))}
    (hrun : Run (code w registry β).step anyStep (started w input) acts c) :
    CallsRunnable registry c := by
  refine Code.run_invariant (I := CallsRunnable registry) ?_ ?_ hrun ?_
  · intro c t hI _ hentry
    refine ⟨hI.called, hI.threads.spawn ?_⟩
    cases t with
    | node => cases hentry
    | _ => trivial
  · intro c i b t o hI _ ht ho
    exact hI.advance ht (step_of_next ho)
  · refine ⟨?_, ?_⟩
    · intro node input hcalled
      cases hcalled
    · intro j u hu
      rw [started] at hu
      cases mem_singleton.mp (mem_of_getElem? hu)
      trivial

/-! ## The start -/

theorem OnErrorOnly.isStartNode (h : OnErrorOnly w node) : isStartNode w node = true := by
  rw [Workflow.isStartNode, h.noTrigger, Bool.false_or, all_eq_true]
  intro n hn
  simpa using h.noEdge n hn

theorem exists_startNext (w : WorkflowDefinition) (e : Engine β) (input : Data β)
    (node : NodeDefinition) (rest : List NodeDefinition) :
    ∃ e' launched, e.startNext w input (node :: rest) = some (e', rest, launched) ∧
      e'.history = e.history ∧ e'.done = e.done := by
  rw [startNext]
  split
  all_goals exact ⟨_, _, rfl, rfl, rfl⟩

theorem exists_run_start (w : WorkflowDefinition) (registry : NodeType → Bool) {input : Data β}
    {rest : List NodeDefinition} (passed : List NodeDefinition)
    (hstart : c.threads[0]? = some (Thread.start (passed ++ rest) input)) :
    ∃ acts c', Run (code w registry β).step anyStep c acts c' ∧
      c'.threads[0]? = some (Thread.start rest input) ∧
      c'.shared.history = c.shared.history ∧ c'.shared.done = c.shared.done := by
  induction passed generalizing c with
  | nil => exact ⟨[], c, Run.nil c, hstart, rfl, rfl⟩
  | cons node passed ih =>
    obtain ⟨e', launched, hnext, hhistory, hdone⟩ :=
      exists_startNext w c.shared input node (passed ++ rest)
    have ho : (code w registry β).next c.shared 0
        (.start (node :: (passed ++ rest)) input) (.take .next) =
          some ⟨e', .start (passed ++ rest) input, launched⟩ := by
      simp only [code, next, hnext, Option.map_some]
    have hself := Config.getElem?_advance_self
      (o := ⟨e', .start (passed ++ rest) input, launched⟩) hstart
    obtain ⟨acts, c', hrun, hstart', hhistory', hdone'⟩ := ih hself
    exact ⟨_, c', Run.cons trivial (Code.step_run hstart ho) hrun, hstart',
      hhistory'.trans hhistory, hdone'.trans hdone⟩

theorem exists_run_called (input : Data β) (hmem : node ∈ w.nodes)
    (hstart : isStartNode w node = true) (hrunnable : Runnable registry node) :
    ∃ acts c, Run (code w registry β).step anyStep (started w input) acts c ∧
      c.shared.history = [.called node (.value input)] := by
  obtain ⟨passed, rest, hsplit⟩ := append_of_mem hmem
  obtain ⟨acts, c₁, hrun, hthread, hhistory, hdone⟩ :=
    exists_run_start w registry (c := started w input) passed (by rw [started, hsplit]; rfl)
  have hdone' : c₁.shared.done .execution = false := by
    rw [hdone]
    rfl
  -- the loop launches the node, and the node comes to its handler
  have hlaunch : (code w registry β).next c₁.shared 0 (.start (node :: rest) input) (.take .next) =
        some ⟨c₁.shared.markNodeActive node.id, .start rest input,
          [.node .execution node (.value input) .called]⟩ := by
    simp only [code, next, startNext, hstart, if_true, Option.map_some]
  have henter : ∀ {e : Engine β} (i : ℕ), e.done .execution = false → (code w registry β).next e i
        (.node .execution node (.value input) .called) (.take .next) =
          some ⟨e, .node .execution node (.value input) (.trying 0), []⟩ := by
    intro e i hdone
    simp [code, next, nodeNext, hdone, hrunnable.registered, hrunnable.attempts]
  have hcall : ∀ {e : Engine β} (i : ℕ), e.done .execution = false → (code w registry β).next e i
        (.node .execution node (.value input) (.trying 0)) (.take .next) =
          some ⟨e.record (.called node (.value input)),
            .node .execution node (.value input) (.handling 0), []⟩ := by
    intro e i hdone
    simp [code, next, nodeNext, hdone]
  have hnew : (c₁.advance 0 ⟨c₁.shared.markNodeActive node.id,
      .start rest input, [.node .execution node (.value input)
        .called]⟩).threads[(c₁.threads.set 0 (.start rest input)).length]? =
          some (.node .execution node (.value input) .called) :=
    getElem?_concat_length
  refine ⟨_, _, ((hrun.snoc trivial (Code.step_run hthread hlaunch)).snoc
    trivial (Code.step_run hnew (henter _ hdone'))).snoc trivial
      (Code.step_run (Config.getElem?_advance_self hnew) (hcall _ hdone')), ?_⟩
  change c₁.shared.history ++ _ = _
  rw [hhistory]
  rfl

/-! ## The property -/

/-- The nodes of the error branches run only after an error, exactly if none of them
can run. -/
theorem afterError_iff (w : WorkflowDefinition) (registry : NodeType → Bool) (input : Data β) :
    (∀ acts c, Run (code w registry β).step anyStep (started w input) acts c →
      AfterError w c.shared.history) ↔ ∀ node, OnErrorOnly w node → ¬Runnable registry node := by
  constructor
  · intro hafter node honly hrunnable
    obtain ⟨acts, c, hrun, hhistory⟩ := exists_run_called input honly.mem
      honly.isStartNode hrunnable
    obtain ⟨n, -, -, hfailed⟩ := hafter acts c hrun node honly [] _ [] hhistory
    cases hfailed
  · intro hnone acts c hrun node honly before input' after hhistory
    have hcalled := (callsRunnable_of_run hrun).called node input'
    rw [hhistory] at hcalled
    exact absurd (hcalled (mem_append_right _ mem_cons_self)) (hnone node honly)

def compensated : WorkflowDefinition :=
  ⟨"w", [{ id := "a", type := .other "task", onError := ["b"] },
    { id := "b", type := .other "task" }]⟩

/-- The compensation runs although nothing has failed. -/
theorem compensation_without_error :
    registerWorkflow compensated = .ok () ∧
      OnErrorOnly compensated { id := "b", type := .other "task" } ∧
      ∃ acts c, Run (code compensated (fun _ => true) Unit).step anyStep
          (started compensated (.plain ())) acts c ∧
        c.shared.history = [.called { id := "b", type := .other "task" } (.value (.plain ()))] := by
  refine ⟨rfl, ⟨by decide, rfl, by decide, by decide⟩, ?_⟩
  exact ⟨_, exists_run _ _ _
    [.run 0 (.take .next), .run 0 (.take .next), .run 2 (.take .next), .run 2 (.take .next)] _
    (by decide +kernel)⟩

end Fluxor.Workflow.Engine
