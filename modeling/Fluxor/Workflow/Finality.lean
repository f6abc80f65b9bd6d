import Fluxor.Workflow.Engine

/-!
# The end of an execution

Once an execution has completed, failed or been cancelled, its status, its error
and its end time should not change. `CancelExecution` looks at the status in the
section that writes it; `checkExecutionComplete` looks at it in one section and
`completeExecution` writes it in another, and for an output with `Stop` nobody looks.
The end is final if no two goroutines are on their way to the write at once, nobody
cancels the execution meanwhile, and an output with `Stop` comes while it runs.
-/

namespace Fluxor.Workflow.Engine

open Goroutines Transition

variable {β : Type*} {w : WorkflowDefinition} {registry : NodeType → Bool}
  {e e' : Engine β} {choice : Choice β} {t : Thread β}
  {o : Outcome (Engine β) (Thread β)} {c c' : Config (Engine β) (Thread β)}

/-- What the end of an execution fixes. -/
structure SameEnd (e e' : Engine β) : Prop where
  status : e'.status = e.status
  error : e'.error = e.error
  endTime : e'.endTime = e.endTime

theorem SameEnd.trans {e'' : Engine β} (h : SameEnd e e') (h' : SameEnd e' e'') : SameEnd e e'' :=
  ⟨h'.status.trans h.status, h'.error.trans h.error, h'.endTime.trans h.endTime⟩

/-- The goroutine is on its way to the write of `completeExecution`: it has seen the
execution running, or has an output with `Stop`. -/
def ending : Thread β → Bool
  | .node _ _ _ (.check _ .counting) => true
  | .node _ _ _ (.check _ .judging) => true
  | .node _ _ _ (.check _ (.completing _)) => true
  | _ => false

def NobodyEnds (c : Config (Engine β) (Thread β)) : Prop := ∀ u ∈ c.threads, ending u = false

/-- Nobody is on the way to the write when a goroutine looks at the status or
`CancelExecution` writes it; an output with `Stop` is stored while the execution runs. -/
def Timely (c : Config (Engine β) (Thread β)) : Thread β → Prop
  | .node _ _ _ (.check _ .checking) => NobodyEnds c
  | .node _ _ _ (.storing (some output)) =>
    output.stop = true → c.shared.status = .running ∧ NobodyEnds c
  | .cancel .called => NobodyEnds c
  | _ => True

def Apart (c : Config (Engine β) (Thread β)) : Move (Thread β) (Choice β) → Prop
  | .spawn _ => True
  | .run i _ => ∀ t ∈ c.threads[i]?, Timely c t

instance (c : Config (Engine β) (Thread β)) : Decidable (NobodyEnds c) :=
  inferInstanceAs (Decidable (∀ u ∈ c.threads, _))

instance (c : Config (Engine β) (Thread β)) (t : Thread β) : Decidable (Timely c t) := by
  delta Timely
  split <;> infer_instance

instance (c : Config (Engine β) (Thread β)) (m : Move (Thread β) (Choice β)) :
    Decidable (Apart c m) := by
  delta Apart
  cases m <;> infer_instance

theorem CheckStep.sameEnd {st : Check} {st' : Option Check} (h : CheckStep e st e' st')
    (hst : ∀ err, st ≠ .completing err) : SameEnd e e' := by
  cases h with
  | complete => exact absurd rfl (hst _)
  | _ => exact ⟨rfl, rfl, rfl⟩

theorem NodeStep.sameEnd {ctx : Ctx} {node : NodeDefinition} {input : Input β} {st st' : Stage β}
    {launched : List (Thread β)}
    (h : NodeStep w registry e ctx node input choice st e' st' launched)
    (hst : ∀ deferred err, st ≠ .check deferred (.completing err)) : SameEnd e e' := by
  cases h with
  | check h | checked h =>
    refine h.sameEnd ?_
    rintro err rfl
    exact hst _ err rfl
  | _ => exact ⟨rfl, rfl, rfl⟩

/-- A goroutine that is not on its way to the write of `completeExecution` changes the
end only if it cancels a running execution. -/
theorem Step.sameEnd_or_cancel (h : Step w registry e choice t o) (ht : ending t = false) :
    SameEnd e o.shared ∨ t = .cancel .called ∧ e.status = .running := by
  cases h with
  | node h =>
    refine .inl (h.sameEnd ?_)
    rintro deferred err rfl
    cases ht
  | cancel h =>
    cases h with
    | cancel hrunning => exact .inr ⟨rfl, hrunning⟩
    | _ => exact .inl ⟨rfl, rfl, rfl⟩
  | _ => exact .inl ⟨rfl, rfl, rfl⟩

theorem CheckStep.running_of_ending {st st' : Check} {ctx : Ctx} {node : NodeDefinition}
    {input : Input β} {deferred : Bool} (h : CheckStep e st e' (some st'))
    (hin : ending (.node ctx node input (.check deferred st')) = true) :
    (ending (.node ctx node input (.check deferred st)) = true ∨ st = .checking ∧
      e.status = .running) ∧ e'.status = e.status := by
  cases h with
  | running _ hrunning => exact ⟨.inr ⟨rfl, hrunning⟩, rfl⟩
  | empty | judge => exact ⟨.inl rfl, rfl⟩
  | _ => cases hin

/-- A goroutine is on the way since a step that has looked at the status, or since it
has stored an output with `Stop`. -/
theorem Step.running_of_ending (h : Step w registry e choice t o) (hok : Timely c t)
    (hc : c.shared = e) (hin : ending o.thread = true) :
    (ending t = true ∨ NobodyEnds c ∧ e.status = .running) ∧ o.shared.status = e.status := by
  cases h with
  | node h =>
    cases h with
    | stop _ hstop =>
      obtain ⟨hrunning, hnobody⟩ := hok hstop
      exact ⟨.inr ⟨hnobody, hc ▸ hrunning⟩, rfl⟩
    | check h =>
      obtain ⟨hfrom, hstatus⟩ := h.running_of_ending hin
      refine ⟨hfrom.imp_right ?_, hstatus⟩
      rintro ⟨rfl, hrunning⟩
      exact ⟨hok, hrunning⟩
    | @checked deferred => cases deferred <;> cases hin
    | _ => cases hin
  | _ => cases hin

theorem ending_of_entry (h : (code w registry β).entry t = true) : ending t = false := by
  cases t with
  | start | node => cases h
  | _ => rfl

/-- At most one goroutine is on the way to the write, and then the execution runs. -/
def OneEnds (c : Config (Engine β) (Thread β)) : Prop :=
  c.Exclusive ending fun e _ => e.status = .running

theorem OneEnds.step {i : ℕ} (h : OneEnds c) (ht : c.threads[i]? = some t) (hok : Timely c t)
    (hstep : Step w registry c.shared choice t o) : OneEnds (c.advance i o) := by
  refine Config.Exclusive.advance h ht ?_ ?_ ?_ ?_
  · intro u hu
    obtain ⟨ctx, node, input, rfl⟩ := hstep.launched_called u hu
    rfl
  · intro hout hin
    rcases (hstep.running_of_ending hok rfl hin).1 with hend | ⟨hnobody, -⟩
    · cases hout.symm.trans hend
    · exact hnobody
  · intro hin
    obtain ⟨hfrom, hstatus⟩ := hstep.running_of_ending hok rfl hin
    rw [hstatus]
    exact hfrom.elim (h.relies t (List.mem_of_getElem? ht)) And.right
  · intro hout u hu hin hrunning
    rcases hstep.sameEnd_or_cancel hout with hsame | ⟨rfl, -⟩
    · exact hsame.status.trans hrunning
    · cases (hok u hu).symm.trans hin

theorem oneEnds_of_run {acts : List (Move (Thread β) (Choice β))}
    (hrun : Run (code w registry β).step Apart c acts c') (h : OneEnds c) : OneEnds c' := by
  refine Code.run_invariant ?_ ?_ hrun h
  · intro c t hc _ hentry
    exact Config.Exclusive.spawn hc (ending_of_entry hentry)
  · intro c i b t o hc hok ht ho
    exact hc.step ht (hok t ht) (step_of_next ho)

theorem oneEnds_started (input : Data β) : OneEnds (started w input) := by
  refine ⟨fun t ht hin => ?_, fun {i j t u} hi hj hin _ => ?_⟩
  · rw [List.mem_singleton.mp ht] at hin
    cases hin
  · rw [List.mem_singleton.mp (List.mem_of_getElem? hi)] at hin
    cases hin

/-- Once the execution has ended, nothing changes its status, its error or its end time. -/
theorem final_of_apart {input : Data β} {acts acts' : List (Move (Thread β) (Choice β))}
    (hrun : Run (code w registry β).step Apart (started w input) acts c)
    (hended : c.shared.status ≠ .running)
    (hlater : Run (code w registry β).step Apart c acts' c') : SameEnd c.shared c'.shared := by
  refine (Code.run_invariant (I := fun d => OneEnds d ∧ SameEnd c.shared d.shared) ?_ ?_ hlater
    ⟨oneEnds_of_run hrun (oneEnds_started input), rfl, rfl, rfl⟩).2
  · intro d t hd _ hentry
    exact ⟨Config.Exclusive.spawn hd.1 (ending_of_entry hentry), hd.2⟩
  · intro d i b t o hd hok ht ho
    have hstep := step_of_next ho
    refine ⟨hd.1.step ht (hok t ht) hstep, hd.2.trans ?_⟩
    have hended : d.shared.status ≠ .running := by rwa [hd.2.status]
    -- nobody is on the way to the write any more
    have hout : ending t = false :=
      Bool.eq_false_iff.mpr fun hin => hended (hd.1.relies t (List.mem_of_getElem? ht) hin)
    exact (hstep.sameEnd_or_cancel hout).resolve_right fun h => hended h.2

def single : WorkflowDefinition := ⟨"w", [{ id := "a", type := .manual }]⟩

/-- The node comes to `completeExecution`; then come the moves `acts`. -/
def stopping (acts : List (Move (Thread Unit) (Choice Unit))) :
    List (Move (Thread Unit) (Choice Unit)) :=
  .run 0 (.take .next) :: .run 1 (.take .next) :: .run 1 (.take .next) ::
    .run 1 (.returns (some { data := .plain (), stop := true })) ::
    .run 1 (.take .next) :: acts

theorem exists_two_runs
    (ok : Config (Engine Unit) (Thread Unit) → Move (Thread Unit) (Choice Unit) → Prop)
    [∀ c a, Decidable (ok c a)] (acts acts' : List (Move (Thread Unit) (Choice Unit)))
    (P Q : Config (Engine Unit) (Thread Unit) → Prop) [DecidablePred P] [DecidablePred Q]
    (h : (exec (code single (fun _ => true) Unit).step ok
      (started single (.plain ())) acts).any (fun c => decide (P c ∧
        (exec (code single (fun _ => true) Unit).step ok c acts').any
          (fun c' => decide (Q c')) = true)) = true) :
    ∃ c c', Run (code single (fun _ => true) Unit).step ok
        (started single (.plain ())) acts c ∧ P c ∧
      Run (code single (fun _ => true) Unit).step ok c acts' c' ∧ Q c' := by
  obtain ⟨c, hrun, hP, hlater⟩ := exists_run _ ok _ acts _ h
  obtain ⟨c', hrun', hQ⟩ := exists_run _ ok c acts' _ hlater
  exact ⟨c, c', hrun, hP, hrun', hQ⟩

/-- A call of `CancelExecution` after the end changes nothing. -/
theorem final_of_apart_cancel :
    ∃ acts c acts' c', Run (code single (fun _ => true) Unit).step Apart
        (started single (.plain ())) acts c ∧
      c.shared.status = .completed ∧
      Run (code single (fun _ => true) Unit).step Apart c acts' c' ∧
      c'.threads[2]? = some (Thread.cancel .returned) ∧
      SameEnd c.shared c'.shared := by
  obtain ⟨c, c', hrun, hstatus, hrun', hcancel⟩ := exists_two_runs Apart
    (stopping [.run 1 (.time 1)]) [.spawn (.cancel .called), .run 2 (.time 2)]
    (fun c => c.shared.status = .completed)
    (fun c' => c'.threads[2]? = some (Thread.cancel .returned))
    (by decide +kernel)
  refine ⟨_, c, _, c', hrun, hstatus, hrun', hcancel, final_of_apart hrun ?_ hrun'⟩
  rw [hstatus]
  decide

/-- A node that stops the workflow completes a cancelled execution. -/
theorem cancelled_then_completed :
    registerWorkflow single = .ok () ∧ ∃ acts c acts' c',
      Run (code single (fun _ => true) Unit).step anyStep (started single (.plain ())) acts c ∧
      (c.shared.status = .cancelled ∧ c.shared.endTime = some 1) ∧
      Run (code single (fun _ => true) Unit).step anyStep c acts' c' ∧
      c'.shared.status = .completed ∧ c'.shared.endTime = some 2 := by
  refine ⟨rfl, ?_⟩
  obtain ⟨c, c', hrun, hc, hrun', hc'⟩ := exists_two_runs anyStep
    (stopping [.spawn (.cancel .called), .run 2 (.time 1)])
    [.run 1 (.time 2)]
    (fun c => c.shared.status = .cancelled ∧ c.shared.endTime = some 1)
    (fun c' => c'.shared.status = .completed ∧ c'.shared.endTime = some 2)
    (by decide +kernel)
  exact ⟨_, c, _, c', hrun, hc, hrun', hc'⟩

end Fluxor.Workflow.Engine
