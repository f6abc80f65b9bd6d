import Fluxor.Workflow.Finality

/-!
# Completion

`checkExecutionComplete` ends an execution when it finds no active node. But the
loop of `startExecution` may have nodes left, and merge nodes are not entered in the
set of active nodes. When an empty set is found only after the loop and without a
merge node in progress, and no node is launched that is in progress already, the
status changes only when nothing is in progress (`Quiet`).
-/

namespace Fluxor.Workflow

def Stage.inProgress {β : Type*} : Stage β → Bool
  | .check false _ | .hanging | .returned => false
  | _ => true

def Check.decided : Check → Bool
  | .checking | .counting => false
  | _ => true

namespace Engine

open Goroutines Config Transition List

variable {β : Type*} {w : WorkflowDefinition} {registry : NodeType → Bool}
  {e e' : Engine β} {choice : Choice β} {t : Thread β} {i : ℕ}
  {o : Outcome (Engine β) (Thread β)} {c c' : Config (Engine β) (Thread β)}

/-! ## What is in progress -/

def inProgress : Thread β → ℕ
  | .node _ _ _ st => if st.inProgress then 1 else 0
  | _ => 0

def running (id : String) : Thread β → ℕ
  | .node _ node _ st => if node.id = id ∧ st.inProgress then 1 else 0
  | _ => 0

def merging : Thread β → ℕ
  | .node _ node _ st => if node.type = .merge ∧ st.inProgress then 1 else 0
  | _ => 0

def startsLeft (w : WorkflowDefinition) : Thread β → ℕ
  | .start rest _ => rest.countP fun node => isStartNode w node
  | _ => 0

structure Quiet (w : WorkflowDefinition) (c : Config (Engine β) (Thread β)) : Prop where
  nodes : c.total inProgress = 0
  starts : c.total (startsLeft w) = 0

/-! ## The executions -/

/-- There is no message and no cancellation, and no handler stops the workflow. -/
def Undisturbed (_ : Config (Engine β) (Thread β)) : Move (Thread β) (Choice β) → Prop
  | .spawn _ => False
  | .run _ (.returns (some output)) => output.stop = false
  | .run _ _ => True

variable (w)

/-- A node is launched only while no node of its name is in progress; and an empty
set of active nodes is found only when no start node is left and no merge node is in
progress. -/
def StaysTidy (c : Config (Engine β) (Thread β)) : Thread β → Prop
  | .start (node :: _) _ => isStartNode w node = true → c.total (running node.id) = 0
  | .node _ _ _ (.erring (id :: _)) => c.total (running id) = 0
  | .node _ _ _ (.activating next _ _) => c.total (running next.id) = 0
  | .node _ _ _ (.merging next _ data) =>
    shouldProceed next.mode (c.shared.receive w next data) = true → c.total (running next.id) = 0
  | .node _ _ _ (.check _ .counting) => c.shared.activeNodes = ∅ →
      c.total (startsLeft w) = 0 ∧ c.total merging = 0
  | _ => True

def Tidy (c : Config (Engine β) (Thread β)) : Move (Thread β) (Choice β) → Prop
  | .spawn _ => True
  | .run i _ => ∀ t ∈ c.threads[i]?, StaysTidy w c t

instance (c : Config (Engine β) (Thread β)) : Decidable (Quiet w c) :=
  decidable_of_iff (c.total inProgress = 0 ∧ c.total (startsLeft w) = 0)
    ⟨fun h => ⟨h.1, h.2⟩, fun h => ⟨h.1, h.2⟩⟩

instance (c : Config (Engine β) (Thread β)) (m : Move (Thread β) (Choice β)) :
    Decidable (Undisturbed c m) :=
  match m with
  | .run _ (.returns (some _)) | .run _ (.returns none) | .run _ (.take _) | .run _ (.time _)
  | .run _ (.fails _) | .spawn _ => by delta Undisturbed; infer_instance

instance (c : Config (Engine β) (Thread β))
    (t : Thread β) : Decidable (StaysTidy w c t) :=
  match t with
  | .node _ _ _ (.erring (_ :: _)) | .node _ _ _ (.activating ..) | .node _ _ _ (.merging ..)
  | .node _ _ _ (.check _ .counting) | .node _ _ _ (.check _ .checking)
  | .node _ _ _ (.check _ .judging) | .node _ _ _ (.check _ (.completing _))
  | .node _ _ _ (.check _ .closing) | .node _ _ _ (.check _ .clearing)
  | .node _ _ _ (.check _ .cleaning) | .node _ _ _ .called | .node _ _ _ .unknown
  | .node _ _ _ (.trying _) | .node _ _ _ (.handling _) | .node _ _ _ (.waiting _)
  | .node _ _ _ (.failing _) | .node _ _ _ (.erring []) | .node _ _ _ (.storing _)
  | .node _ _ _ (.launching _ _) | .node _ _ _ .leaving | .node _ _ _ .panicking
  | .node _ _ _ .hanging | .node _ _ _ .returned | .start (_ :: _) _ | .start [] _
  | .message _ _ _ | .cancel _ | .expire _ _ => by delta StaysTidy; infer_instance

instance (c : Config (Engine β) (Thread β))
    (m : Move (Thread β) (Choice β)) : Decidable (Tidy w c m) :=
  match m with
  | .spawn _ | .run _ _ => by delta Tidy; infer_instance

/-! ## The invariant -/

variable {w}

/-- A goroutine belongs to the start or to a node; it does not stop the workflow,
and brings inputs to merge nodes only. -/
def Regular (_ : Engine β) (_ : ℕ) : Thread β → Prop
  | .start _ _ => True
  | .node _ _ _ st =>
    (∀ output, st = .storing (some output) → output.stop = false) ∧
      ∀ next rest data, st = .merging next rest data → next.type = .merge
  | .message _ _ _ | .cancel _ | .expire _ _ => False

def Marked (e : Engine β) (_ : ℕ) : Thread β → Prop
  | .node _ node _ st => st.inProgress = true → node.type ≠ .merge → node.id ∈ e.activeNodes
  | _ => True

structure Accounted (w : WorkflowDefinition) (c : Config (Engine β) (Thread β)) : Prop where
  regular : c.All Regular
  marked : c.All Marked
  single : ∀ id, c.total (running id) ≤ 1
  /-- An execution is ended when nothing is in progress. -/
  decided : ∀ (j : ℕ) (ctx : Ctx) (node : NodeDefinition) (input : Input β)
    (deferred : Bool) (st : Check),
    c.threads[j]? = some (.node ctx node input (.check deferred st)) → st.decided = true → Quiet w c

variable {ctx : Ctx} {node : NodeDefinition} {input : Input β} {st : Stage β}

theorem Quiet.not_inProgress (h : Quiet w c) {j : ℕ}
    (hj : c.threads[j]? = some (.node ctx node input st)) : st.inProgress = false := by
  have hle : inProgress (.node ctx node input st : Thread β) ≤
      c.total inProgress := Config.le_total hj
  grind [nodes, inProgress]

variable {st' : Stage β}

theorem Accounted.id_ne (h : Accounted w c) {j j' : ℕ} {ctx' : Ctx} {node' : NodeDefinition}
    {input' : Input β} (hjj' : j ≠ j') (hj : c.threads[j]? = some (.node ctx node input st))
    (hj' : c.threads[j']? = some (.node ctx' node' input' st')) (hst : st.inProgress = true)
    (hst' : st'.inProgress = true) : node.id ≠ node'.id := by
  intro hid
  have htwo : running node.id (.node ctx node input st : Thread β) +
      running node.id (.node ctx' node' input' st' : Thread β) ≤
        c.total (running node.id) := add_le_total hjj' hj hj'
  grind [single, running]

/-! ## What a step does -/

variable {launched : List (Thread β)}

section

variable (h : NodeStep w registry e ctx node input choice st e' st' launched)

include h

theorem NodeStep.inProgress (hst' : st'.inProgress = true) : st.inProgress = true := by
  cases h with
  | @check deferred | @checked deferred =>
    cases deferred with
    | true => rfl
    | false => cases hst'
  | leave | unwind => cases hst'
  | _ => rfl

section

omit h

theorem NodeStep.launches
    (h : NodeStep w registry c.shared ctx node input choice st e' st' launched)
    (hregular : Regular c.shared i (.node ctx node input st))
    (hok : StaysTidy w c (.node ctx node input st)) :
    launched = [] ∨ st.inProgress = true ∧ ∃ next input',
      launched = [.node ctx next input' .called] ∧
      (next.type ≠ .merge → next.id ∈ e'.activeNodes) ∧ c.total (running next.id) = 0 := by
  cases h with
  | err hfind =>
    obtain rfl := (findNode_mem hfind).2
    exact .inr ⟨rfl, _, _, rfl, fun _ => Finset.mem_insert_self _ _, hok⟩
  | activate => exact .inr ⟨rfl, _, _, rfl, fun _ => Finset.mem_insert_self _ _, hok⟩
  | fire hproceed =>
    exact .inr ⟨rfl, _, _, rfl, fun htype => absurd (hregular.2 _ _ _ rfl) htype, hok hproceed⟩
  | _ => exact .inl rfl

theorem Step.launches (h : Step w registry c.shared choice t o) (hregular : Regular c.shared i t)
    (hok : StaysTidy w c t) :
    o.started = [] ∨ ∃ ctx next input, o.started = [.node ctx next input .called] ∧
      (next.type ≠ .merge → next.id ∈ o.shared.activeNodes) ∧ c.total (running next.id) = 0 := by
  cases h with
  | launch hstart => exact .inr ⟨_, _, _, rfl, fun _ => Finset.mem_insert_self _ _, hok hstart⟩
  | node h =>
    rcases h.launches hregular hok with
      hnone | ⟨-, next, input, hlaunched, hactive, hfree⟩
    · exact .inl hnone
    grind
  | message => exact hregular.elim
  | _ => exact .inl rfl

theorem Step.running_le (h : Step w registry e choice t o) (id : String) :
    running id o.thread ≤ running id t := by
  cases h <;> grind [running, NodeStep.inProgress]

theorem CheckStep.activeNodes_eq {st : Check} {st' : Option Check} (h : CheckStep e st e' st') :
    e'.activeNodes = e.activeNodes ∨ st = .clearing := by
  cases h with
  | @complete err _ => cases err <;> exact .inl rfl
  | clear => exact .inr rfl
  | _ => exact .inl rfl

end

theorem NodeStep.active {id : String} (hid : id ∈ e.activeNodes) :
    id ∈ e'.activeNodes ∨ (st.inProgress = true ∧ st'.inProgress = false ∧ id = node.id) ∨
      ∃ deferred, st = .check deferred .clearing := by
  cases h with
  | err | activate => exact .inl (Finset.mem_insert_of_mem hid)
  | leave | unwind =>
    by_cases hnode : id = node.id
    · exact .inr (.inl ⟨rfl, rfl, hnode⟩)
    · exact .inl (Finset.mem_erase.mpr ⟨hnode, hid⟩)
  | check | checked => grind [CheckStep.activeNodes_eq]
  | _ => exact .inl hid

theorem NodeStep.regular
    (hchoice : ∀ output, choice = .returns (some output) → output.stop = false) :
    Regular e' i (.node ctx node input st') := by
  constructor
  · intro output hst'
    cases h with
    | returns heq =>
      cases hst'
      exact hchoice output heq
    | @checked deferred => cases deferred <;> cases hst'
    | _ => cases hst'
  · intro next rest data hst'
    cases h with
    | toMerge _ htype =>
      cases hst'
      exact htype
    | @checked deferred => cases deferred <;> cases hst'
    | _ => cases hst'

end

theorem Step.startsLeft_le (h : Step w registry e choice t o) :
    startsLeft w o.thread ≤ startsLeft w t := by
  cases h <;> grind [startsLeft]

theorem Step.total_startsLeft_le (h : Step w registry c.shared choice t o)
    (ht : c.threads[i]? = some t) :
    (c.advance i o).total (startsLeft w) ≤ c.total (startsLeft w) := by
  have htotal := total_advance (w := startsLeft w) (o := o) ht
  have hzero : (o.started.map (startsLeft w)).sum = 0 := by
    rw [sum_eq_zero_iff]
    intro n hn
    obtain ⟨u, hu, rfl⟩ := mem_map.mp hn
    obtain ⟨ctx, node, input, rfl⟩ := h.launched_called u hu
    rfl
  have := h.startsLeft_le
  omega

theorem Quiet.advance (h : Quiet w c) (hregular : c.All Regular) (ht : c.threads[i]? = some t)
    (hstep : Step w registry c.shared choice t o) (hok : StaysTidy w c t) :
    Quiet w (c.advance i o) := by
  refine ⟨?_, ?_⟩
  · have htotal := total_advance (w := inProgress) (o := o) ht
    rw [h.nodes] at htotal
    have hown := hregular i t ht
    cases hstep with
    | @launch node rest input hstart =>
      have hle : startsLeft w (.start (node :: rest) input : Thread β) ≤
          c.total (startsLeft w) := Config.le_total ht
      grind [starts, startsLeft]
    | pass =>
      change 0 + _ = 0 + 0 + 0 at htotal
      omega
    | @node ctx node input st e' st' launched hstep =>
      have hnot := h.not_inProgress ht
      have hnot' : st'.inProgress = false := by grind [NodeStep.inProgress]
      rcases hstep.launches (i := i) hown hok with rfl | ⟨hst, -⟩ <;> grind [inProgress]
    | _ => exact hown.elim
  grind [Step.total_startsLeft_le, starts]

theorem Accounted.quiet_of_empty (h : Accounted w c) (hempty : c.shared.activeNodes = ∅)
    (hstarts : c.total (startsLeft w) = 0) (hmerging : c.total merging = 0) : Quiet w c := by
  refine ⟨?_, hstarts⟩
  by_contra hne
  obtain ⟨j, u, hj, hu⟩ := exists_of_total_ne_zero hne
  cases u with
  | node ctx node input st =>
    have hst : st.inProgress = true := by
      by_contra hst
      simp [inProgress, hst] at hu
    have htype : node.type ≠ .merge := by grind [merging, Config.le_total]
    have hactive := h.marked j _ hj hst htype
    grind
  | _ => exact hu rfl

section

variable (h : Accounted w c) (ht : c.threads[i]? = some t)
    (hstep : Step w registry c.shared choice t o) (hok : StaysTidy w c t)

include h ht hstep hok

theorem Accounted.marked_advance : (c.advance i o).All Marked := by
  have hregular := h.regular i t ht
  have hmarked := h.marked i t ht
  have hlaunched : ∀ j u, c.threads.length ≤ j → u ∈ o.started → Marked o.shared j u := by
    intro j u _ hu
    rcases hstep.launches hregular hok with
      hnone | ⟨ctx, next, input, hlaunched, hactive, -⟩
    · rw [hnone] at hu
      cases hu
    · rw [hlaunched] at hu
      cases mem_singleton.mp hu
      exact fun _ htype => hactive htype
  cases hstep with
  | launch =>
    refine h.marked.advance trivial ?_ hlaunched
    intro j u _ _ hu
    cases u with
    | node => exact fun hst htype => Finset.mem_insert_of_mem (hu hst htype)
    | _ => trivial
  | pass => exact h.marked.advance_alone rfl trivial fun _ _ _ _ hu => hu
  | @node ctx node input st e' st' launched hstep =>
    have hclearing : ∀ {j : ℕ} {ctx' : Ctx} {node' : NodeDefinition}
        {input' : Input β} {st'' : Stage β},
        c.threads[j]? = some (.node ctx' node' input' st'') →
        st''.inProgress = true →
        ¬∃ deferred, st = .check deferred .clearing := by
      rintro j ctx' node' input' st'' hj hst'' ⟨deferred, rfl⟩
      have hquiet := h.decided i ctx node input deferred _ ht rfl
      grind [Quiet.not_inProgress]
    refine h.marked.advance ?_ ?_ hlaunched
    · intro hst' htype
      have hst := hstep.inProgress hst'
      rcases hstep.active (hmarked hst htype) with
        hactive | ⟨-, hnot, -⟩ | hclear
      · exact hactive
      · rw [hst'] at hnot
        cases hnot
      · exact absurd hclear (hclearing ht hst)
    · intro j u hji hj hu
      cases u with
      | node =>
        intro hst'' htype
        rcases hstep.active (hu hst'' htype) with
          hactive | ⟨hst, -, hid⟩ | hclear
        · exact hactive
        · exact absurd hid (h.id_ne hji hj ht hst'' hst)
        · exact absurd hclear (hclearing hj hst'')
      | _ => trivial
  | _ => exact hregular.elim

theorem Accounted.single_advance (id : String) : (c.advance i o).total (running id) ≤ 1 := by
  have htotal := total_advance (w := running id) (o := o) ht
  have hsingle := h.single id
  have hle := hstep.running_le id
  rcases hstep.launches (h.regular i t ht) hok with
    hnone | ⟨ctx, next, input, hlaunched, -, hfree⟩
  · grind
  grind [running]

end

theorem Accounted.quiet_of_decided (h : Accounted w c) {deferred : Bool} {check : Check}
    (ht : c.threads[i]? = some (.node ctx node input st))
    (hstep : NodeStep w registry c.shared ctx node input choice st e' st' launched)
    (hok : StaysTidy w c (.node ctx node input st)) (hst' : st' = .check deferred check)
    (hdecided : check.decided = true) : Quiet w c := by
  have hregular := h.regular i _ ht
  have hbefore : ∀ {deferred check}, st = .check deferred check →
      check.decided = true → Quiet w c := by
    grind [decided]
  cases hstep with
  | stop _ hstop =>
    rw [hregular.1 _ rfl] at hstop
    cases hstop
  | check hstep =>
    cases hst'
    cases hstep with
    | running => cases hdecided
    | empty hempty =>
      obtain ⟨hstarts, hmerging⟩ := hok hempty
      exact h.quiet_of_empty hempty hstarts hmerging
    | _ => exact hbefore rfl rfl
  | @checked deferred => cases deferred <;> cases hst'
  | unhandled | last | leave =>
    cases hst'
    cases hdecided
  | _ => cases hst'

theorem Accounted.advance (h : Accounted w c) (ht : c.threads[i]? = some t)
    (hstep : Step w registry c.shared choice t o) (hok : StaysTidy w c t)
    (hchoice : ∀ output, choice = .returns (some output) → output.stop = false) :
    Accounted w (c.advance i o) := by
  refine ⟨h.regular.advance ?_ (fun _ _ _ _ hu => hu) ?_,
    h.marked_advance ht hstep hok, h.single_advance ht hstep hok, ?_⟩
  · have hown := h.regular i t ht
    cases hstep with
    | node hstep => exact hstep.regular (i := i) hchoice
    | launch | pass => trivial
    | _ => exact hown.elim
  · intro j u _ hu
    obtain ⟨ctx, node, input, rfl⟩ := hstep.launched_called u hu
    constructor <;> grind
  · intro j ctx node input deferred st hj hdecided
    suffices Quiet w c from this.advance h.regular ht hstep hok
    rcases getElem?_advance hj with
      ⟨rfl, ho⟩ | ⟨-, hj⟩ | ⟨-, hu⟩
    · cases hstep with
      | node hstep =>
        cases ho
        exact h.quiet_of_decided ht hstep hok rfl hdecided
      | _ => cases ho
    · grind [decided]
    grind [Step.launched_called]

/-! ## Every run -/

abbrev TidyStep (w : WorkflowDefinition) (c : Config (Engine β) (Thread β))
    (a : Move (Thread β) (Choice β)) : Prop :=
  Undisturbed c a ∧ Tidy w c a

theorem accounted_of_run {input : Data β} {acts : List (Move (Thread β) (Choice β))}
    (hrun : Run (code w registry β).step (TidyStep w) (started w input) acts c) :
    Accounted w c := by
  refine Code.run_invariant (I := Accounted w) ?_ ?_ hrun ?_
  · intro c t _ hok _
    exact hok.1.elim
  · intro c i b t o hI hok ht ho
    refine hI.advance ht (step_of_next ho) (hok.2 t ht) ?_
    rintro output rfl
    exact hok.1
  · have hstart : ∀ {j : ℕ} {u : Thread β},
        (started w input).threads[j]? = some u → u = .start w.nodes input := by
      intro j u hu
      exact mem_singleton.mp (mem_of_getElem? hu)
    refine ⟨?_, ?_, ?_, ?_⟩
    · intro j u hu
      rw [hstart hu]
      trivial
    · intro j u hu
      rw [hstart hu]
      trivial
    · intro id
      exact Nat.zero_le 1
    grind

theorem Step.status_eq (h : Step w registry e choice t o) (hregular : Regular e i t)
    (hended : o.shared.status ≠ e.status) :
    ∃ ctx node input deferred err,
      t = .node ctx node input (.check deferred (.completing err)) := by
  cases h with
  | node => grind [SameEnd.status, NodeStep.sameEnd]
  | launch | pass => exact absurd rfl hended
  | _ => exact hregular.elim

/-- The status leaves `running` only when no node is in progress and no start node
is still to be launched. -/
theorem quiet_of_tidy {input : Data β} {acts : List (Move (Thread β) (Choice β))}
    {a : Move (Thread β) (Choice β)}
    (hrun : Run (code w registry β).step (TidyStep w) (started w input) acts c)
    (hok : TidyStep w c a) (hstep : (code w registry β).step c a = some c')
    (hrunning : c.shared.status = .running) (hended : c'.shared.status ≠ .running) : Quiet w c := by
  have hI := accounted_of_run hrun
  rcases Code.step_cases hstep with
    ⟨t, rfl, -, rfl⟩ | ⟨i, b, t, o, rfl, ht, ho, rfl⟩
  · exact hok.1.elim
  · obtain ⟨ctx, node, input, deferred, err, rfl⟩ :=
      (step_of_next ho).status_eq (hI.regular i t ht) (by
        rw [hrunning]
        exact hended)
    exact hI.decided i ctx node input deferred _ ht rfl

/-- A run of `w` in which the status leaves `running`, in a state of which `P` holds. -/
def EndsIn (w : WorkflowDefinition) (ok : Config (Engine Unit) (Thread Unit) →
      Move (Thread Unit) (Choice Unit) → Prop)
    (P : Config (Engine Unit) (Thread Unit) → Prop) : Prop :=
  ∃ acts c a c', Run (code w (fun _ => true) Unit).step ok (started w (.plain ())) acts c ∧ ok c a ∧
    (code w (fun _ => true) Unit).step c a = some c' ∧
    c.shared.status = .running ∧ c'.shared.status = .completed ∧ P c

theorem endsIn_of_exec
    {ok : Config (Engine Unit) (Thread Unit) → Move (Thread Unit) (Choice Unit) → Prop}
    [∀ c a, Decidable (ok c a)] {P : Config (Engine Unit) (Thread Unit) → Prop} [DecidablePred P]
    (acts : List (Move (Thread Unit) (Choice Unit))) (a : Move (Thread Unit) (Choice Unit))
    (h : (exec (code w (fun _ => true) Unit).step ok (started w (.plain ()))
      acts).any (fun c => decide ((ok c a ∧ c.shared.status = .running ∧ P c) ∧
        ((code w (fun _ => true) Unit).step c a).any
          (fun c' => decide (c'.shared.status = .completed)) = true)) = true) : EndsIn w ok P := by
  obtain ⟨c, hrun, ⟨hok, hrunning, hP⟩, hstep⟩ := exists_run _ ok _ acts _ h
  cases hnext : (code w (fun _ => true) Unit).step c a with
  | none =>
    rw [hnext] at hstep
    cases hstep
  | some c' =>
    rw [hnext] at hstep
    exact ⟨acts, c, a, c', hrun, hok, hnext, hrunning, of_decide_eq_true hstep, hP⟩

def toOutput (i : ℕ) : List (Move (Thread Unit) (Choice Unit)) :=
  [.run i (.take .next), .run i (.take .next),
    .run i (.returns (some { data := .plain () })), .run i (.take .next)]

def toEnd (i : ℕ) : List (Move (Thread Unit) (Choice Unit)) :=
  [.run i (.take .next), .run i (.take .next), .run i (.take .next), .run i (.take .next)]

def twoStarts : WorkflowDefinition :=
  ⟨"w", [{ id := "a", type := .manual }, { id := "b", type := .manual }]⟩

/-- An execution of two start nodes, both launched before the first ends. -/
theorem quiet_of_tidy_two : EndsIn twoStarts (TidyStep twoStarts) (Quiet twoStarts) := by
  obtain ⟨acts, c, a, c', hrun, hok, hstep, hrunning, hcompleted, -⟩ :
      EndsIn twoStarts (TidyStep twoStarts) fun _ => True :=
    endsIn_of_exec (flatten [[.run 0 (.take .next), .run 0 (.take .next)], toOutput 1,
        [.run 1 (.take .next), .run 1 (.take .next), .run 1 (.take .next), .run 1 (.take .next),
          .run 1 (.take .next)],
        toOutput 2, [.run 2 (.take .next), .run 2 (.take .next)], toEnd 2])
      (.run 2 (.time 1)) (by decide +kernel)
  refine ⟨acts, c, a, c', hrun, hok, hstep, hrunning, hcompleted, ?_⟩
  refine quiet_of_tidy hrun hok hstep hrunning ?_
  rw [hcompleted]
  decide

def oneMerge : WorkflowDefinition :=
  ⟨"w", [{ id := "a", type := .manual, next := ["m"] }, { id := "m", type := .merge }]⟩

def twice : WorkflowDefinition :=
  ⟨"w", [{ id := "a", type := .manual, next := ["b", "b"] }, { id := "b", type := .other "task" }]⟩

/-- The execution ends before the second start node is launched, before a merge node
has begun, and before the second run of a node. -/
theorem ends_while_running :
    (registerWorkflow twoStarts = .ok () ∧ EndsIn twoStarts Undisturbed (¬Quiet twoStarts ·)) ∧
      (registerWorkflow oneMerge = .ok () ∧ EndsIn oneMerge Undisturbed (¬Quiet oneMerge ·)) ∧
      registerWorkflow twice = .ok () ∧ EndsIn twice Undisturbed (¬Quiet twice ·) := by
  refine ⟨⟨rfl, ?_⟩, ⟨rfl, ?_⟩, rfl, ?_⟩
  · exact endsIn_of_exec (flatten [[.run 0 (.take .next)], toOutput 1,
        [.run 1 (.take .next), .run 1 (.take .next)], toEnd 1])
      (.run 1 (.time 1)) (by decide +kernel)
  · exact endsIn_of_exec (flatten [[.run 0 (.take .next), .run 0 (.take .next)], toOutput 1,
        [.run 1 (.take .next), .run 1 (.take .next), .run 1 (.take .next)],
        toEnd 1])
      (.run 1 (.time 1)) (by decide +kernel)
  · exact endsIn_of_exec (flatten [[.run 0 (.take .next), .run 0 (.take .next)], toOutput 1,
        [.run 1 (.take .next), .run 1 (.take .next), .run 1 (.take .next),
          .run 1 (.take .next), .run 1 (.take .next), .run 1 (.take .next)],
        toOutput 2, [.run 2 (.take .next), .run 2 (.take .next)], toEnd 2])
      (.run 2 (.time 1)) (by decide +kernel)

end Engine

end Fluxor.Workflow
