import Fluxor.Support.Acyclic
import Fluxor.Support.Fairness
import Fluxor.Workflow.Engine

/-!
# The flow of data

Executions in which every handler succeeds without a word about the next nodes: no
goroutine is cancelled, blocks, panics or takes an error branch. What such an
execution does to the history and to the merge nodes is told by a few steps
(`FlowStep`); all else is to finish.
-/

namespace Fluxor.Workflow

open Relation List NodeDefinition

/-! ## The graph -/

variable (w : WorkflowDefinition)

def predecessors (id : String) : List NodeDefinition := w.nodes.filter fun node => id ∈ node.edges

def Edge (id id' : String) : Prop := ∃ node ∈ w.nodes, node.id = id ∧ id' ∈ node.edges

abbrev Leads (id id' : String) : Prop := ReflTransGen (Edge w) id id'

def SinglePredecessor : Prop :=
  ∀ node ∈ w.nodes, node.type ≠ .merge → (predecessors w node.id).length ≤ 1

def NodeDefinition.waitsAll (node : NodeDefinition) : Prop :=
  node.type = .merge ∧ node.mode = .waitAll

/-- The nodes have different names and known modes, and their handlers are
registered; and a trigger on the way to a node that waits for all its inputs follows
no other node. -/
structure Proper (w : WorkflowDefinition) (registry : NodeType → Bool) : Prop where
  ids : (w.nodes.map NodeDefinition.id).Nodup
  registered : ∀ node ∈ w.nodes, registry node.type = true
  attempted : ∀ node ∈ w.nodes, 0 < node.attempts
  modes : ∀ node ∈ w.nodes, node.type = .merge → node.mode ≠ .unknown
  triggers : ∀ m ∈ w.nodes, m.waitsAll → ∀ node ∈ w.nodes,
    Leads w node.id m.id → node.type.isTrigger = true → predecessors w node.id = []

variable {w : WorkflowDefinition} {node : NodeDefinition}

theorem mem_predecessors {id : String} :
    node ∈ predecessors w id ↔ node ∈ w.nodes ∧ id ∈ node.edges := by
  simp [predecessors]

theorem expectedInputs_eq {m : NodeDefinition}
    (h : ∀ node ∈ predecessors w m.id, node.edges.count m.id = 1) :
    expectedInputs w m = (predecessors w m.id).length := by
  simp only [mem_predecessors, and_imp] at h
  rw [expectedInputs, predecessors]
  generalize w.nodes = nodes at h ⊢
  induction nodes with
  | nil => rfl
  | cons => grind [edges]

theorem findNode_eq (h : (w.nodes.map NodeDefinition.id).Nodup) (hnode : node ∈ w.nodes) :
    findNode w node.id = some node := by
  cases hfind : findNode w node.id with
  | none => grind [findNode]
  | some =>
    obtain ⟨hother, hid⟩ := findNode_mem hfind
    rw [inj_on_of_nodup_map h hother hnode hid]

theorem isStartNode_eq :
    isStartNode w node = true ↔ node.type.isTrigger = true ∨ predecessors w node.id = [] := by
  simp [isStartNode, predecessors, filter_eq_nil_iff]

namespace Engine

open Goroutines Transition

variable {β : Type*} {w : WorkflowDefinition} {registry : NodeType → Bool}
  {e e' : Engine β} {choice : Choice β} {t : Thread β} {i : ℕ}
  {o : Outcome (Engine β) (Thread β)} {c : Config (Engine β) (Thread β)}

/-! ## The executions -/

/-- No message and no cancellation; every handler returns an output that neither
stops the workflow nor names the next nodes. -/
def Succeeding (_ : Config (Engine β) (Thread β)) : Move (Thread β) (Choice β) → Prop
  | .run _ (.returns (some output)) => output.stop = false ∧ output.nextNodes = []
  | .spawn _ | .run _ (.returns none) | .run _ (.fails _) => False
  | .run _ (.take _) | .run _ (.time _) => True

instance (c : Config (Engine β) (Thread β)) (m : Move (Thread β) (Choice β)) :
    Decidable (Succeeding c m) :=
  match m with
  | .run _ (.returns (some _)) | .run _ (.returns none) | .run _ (.take _) | .run _ (.time _)
  | .run _ (.fails _) | .spawn _ => by delta Succeeding; infer_instance

/-- The stages of a goroutine of `node` in such an execution. -/
def SteadyStage (w : WorkflowDefinition) (node : NodeDefinition) : Stage β → Prop
  | .called | .check _ _ | .leaving | .returned => True
  | .trying i | .handling i => i = 0
  | .storing (some output) => output.stop = false ∧ output.nextNodes = []
  | .launching rest _ => rest ⊆ node.edges
  | .activating next rest _ => findNode w next.id = some next ∧
      next.type ≠ .merge ∧ next.id ∈ node.edges ∧ rest ⊆ node.edges
  | .merging next rest _ => findNode w next.id = some next ∧
      next.type = .merge ∧ next.id ∈ node.edges ∧ rest ⊆ node.edges
  | .unknown | .waiting _ | .failing _ | .erring _ | .storing none
  | .panicking | .hanging => False

def Steady (w : WorkflowDefinition) (_ : Engine β) (_ : ℕ) : Thread β → Prop
  | .start rest _ => ∀ node ∈ rest, findNode w node.id = some node
  | .node ctx node _ st => ctx = .execution ∧ findNode w node.id = some node ∧ SteadyStage w node st
  | .message _ _ _ | .cancel _ | .expire _ _ => False

structure Flowing (w : WorkflowDefinition) (c : Config (Engine β) (Thread β)) : Prop where
  steady : c.All (Steady w)
  mu : c.shared.mu = false
  done : c.shared.done .execution = false

/-! ## The steps -/

structure SameFlow (w : WorkflowDefinition) (e e' : Engine β) : Prop where
  history : e'.history = e.history
  mergeStates : ∀ m ∈ w.nodes, e'.mergeStates m.id = e.mergeStates m.id

def finishing : Stage β → Bool
  | .launching [] _ | .check _ _ | .leaving | .returned => true
  | _ => false

def checkSteps : Check → ℕ
  | .checking => 7
  | .counting => 6
  | .judging => 5
  | .completing _ => 4
  | .closing => 3
  | .clearing => 2
  | .cleaning => 1

def finishSteps : Stage β → ℕ
  | .check true st => 8 + checkSteps st
  | .leaving => 8
  | .check false st => checkSteps st
  | .returned => 0
  | _ => 16

def afterStore (node : NodeDefinition) (output : NodeOutput β) : Stage β :=
  if determineNextNodes node output = [] then .check true .checking
  else .launching (determineNextNodes node output) output.data

/-- What a step does to the history, to the merge states and to the goroutines. -/
inductive FlowStep (w : WorkflowDefinition) (e : Engine β) :
    Thread β → Outcome (Engine β) (Thread β) → Prop
  | launch {node rest input e'} (hstart : isStartNode w node = true)
      (hfind : findNode w node.id = some node) (h : SameFlow w e e') :
      FlowStep w e (.start (node :: rest) input) ⟨e', .start rest input,
          [.node .execution node (.value input) .called]⟩
  | pass {node rest input} (hstart : isStartNode w node = false) :
      FlowStep w e (.start (node :: rest) input) ⟨e, .start rest input, []⟩
  | enter {node input} : FlowStep w e (.node .execution node input .called)
      ⟨e, .node .execution node input (.trying 0), []⟩
  | call {node input} : FlowStep w e (.node .execution node input (.trying 0))
      ⟨e.record (.called node input), .node .execution node input (.handling 0), []⟩
  | answer {node input output} : FlowStep w e (.node .execution node input (.handling 0))
        ⟨e, .node .execution node input (.storing (some output)), []⟩
  | store {node input output} (hfind : findNode w node.id = some node)
      (hown : output.nextNodes = []) :
      FlowStep w e (.node .execution node input (.storing (some output)))
        ⟨e.storeOutput node output, .node .execution node input (afterStore node output), []⟩
  | missing {node input id rest data} (hfind : findNode w id = none) :
      FlowStep w e (.node .execution node input (.launching (id :: rest) data))
        ⟨e, .node .execution node input (.launching rest data), []⟩
  | pick {node input next rest data st}
      (hst : st = .activating next rest data ∨ st = .merging next rest data) :
      FlowStep w e (.node .execution node input (.launching (next.id :: rest) data))
        ⟨e, .node .execution node input st, []⟩
  | activate {node input next rest data e'} (h : SameFlow w e e')
      (hfind : findNode w next.id = some next) (htype : next.type ≠ .merge) :
      FlowStep w e (.node .execution node input (.activating next rest data))
        ⟨e', .node .execution node input (.launching rest data),
          [.node .execution next (.value data) .called]⟩
  | fire {node input next rest data}
      (hfind : findNode w next.id = some next) (htype : next.type = .merge)
      (hnode : node ∈ predecessors w next.id)
      (h : shouldProceed next.mode (e.receive w next data) = true) :
      FlowStep w e (.node .execution node input (.merging next rest data))
        ⟨{ e.record (.delivered next data) with
            mergeStates := Function.update e.mergeStates next.id none },
          .node .execution node input (.launching rest data),
          [.node .execution next (.merged (e.receive w next data).data) .called]⟩
  | collect {node input next rest data}
      (hfind : findNode w next.id = some next) (htype : next.type = .merge)
      (hnode : node ∈ predecessors w next.id)
      (h : shouldProceed next.mode (e.receive w next data) = false) :
      FlowStep w e (.node .execution node input (.merging next rest data))
        ⟨{ e.record (.delivered next data) with
            mergeStates := Function.update e.mergeStates next.id (some (e.receive w next data)) },
          .node .execution node input (.launching rest data), []⟩
  | finish {node input st st' e'} (h : SameFlow w e e')
      (hst : finishing st = true) (hst' : finishing st' = true)
      (hless : finishSteps st' < finishSteps st) :
      FlowStep w e (.node .execution node input st) ⟨e', .node .execution node input st', []⟩

def KeepsStates (w : WorkflowDefinition) (e : Engine β) : Thread β → Prop
  | .node _ _ _ (.check _ .cleaning) => ∀ m ∈ w.nodes, e.mergeStates m.id = none
  | _ => True

def Keeps (w : WorkflowDefinition) (c : Config (Engine β) (Thread β)) :
    Move (Thread β) (Choice β) → Prop
  | .spawn _ => True
  | .run i _ => ∀ t ∈ c.threads[i]?, KeepsStates w c.shared t

theorem CheckStep.sameFlow {st : Check} {st' : Option Check} (h : CheckStep e st e' st')
    (hkeeps : st = .cleaning → ∀ m ∈ w.nodes, e.mergeStates m.id = none) : SameFlow w e e' := by
  cases h with
  | @complete err => cases err <;> exact ⟨rfl, fun _ _ => rfl⟩
  | clean => exact ⟨rfl, fun m hm => (hkeeps rfl m hm).symm⟩
  | _ => exact ⟨rfl, fun _ _ => rfl⟩

theorem CheckStep.calm {st : Check} {st' : Option Check} (h : CheckStep e st e' st') :
    e'.mu = e.mu ∧ e'.done = e.done := by
  cases h with
  | @complete err => cases err <;> exact ⟨rfl, rfl⟩
  | _ => exact ⟨rfl, rfl⟩

theorem CheckStep.steps_lt {st st' : Check} (h : CheckStep e st e' (some st')) :
    checkSteps st' < checkSteps st := by
  cases h <;> simp [checkSteps]

variable {node : NodeDefinition} {input : Input β} {st st' : Stage β} {launched : List (Thread β)}

section

variable (hproper : Proper w registry)

include hproper

theorem NodeStep.flowStep (hdone : e.done .execution = false)
    (hfind : findNode w node.id = some node) (hst : SteadyStage w node st)
    (hsuccess : (∀ message, choice ≠ .fails message) ∧ choice ≠ .returns none)
    (hkeeps : KeepsStates w e (.node .execution node input st))
    (h : NodeStep w registry e .execution node input choice st e' st' launched) :
    FlowStep w e (.node .execution node input st)
      ⟨e', .node .execution node input st', launched⟩ := by
  have hnode := (findNode_mem hfind).1
  cases h with
  | cancelled h | abort h | quit h =>
    rw [hdone] at h
    cases h
  | unregistered h =>
    rw [hproper.registered node hnode] at h
    cases h
  | skip h => exact absurd (hproper.attempted node hnode) (not_lt.mpr h)
  | enter => exact .enter
  | call => exact .call
  | callAgain _ hi => exact absurd hst hi
  | @returns i output h =>
    obtain rfl : i = 0 := hst
    cases output with
    | none => exact absurd h hsuccess.2
    | some => exact .answer
  | retry h | fail h => exact absurd h (hsuccess.1 _)
  | stop _ h =>
    rw [hst.1] at h
    cases h
  | @last output _ _ h =>
    have hafter : afterStore node output = .check true .checking := if_pos h
    rw [← hafter]
    exact .store hfind hst.2
  | @store output _ _ h =>
    have hafter : afterStore node output = .launching _ _ := if_neg h
    rw [← hafter]
    exact .store hfind hst.2
  | launched => exact .finish ⟨rfl, fun _ _ => rfl⟩ rfl rfl (by simp [finishSteps])
  | missing h => exact .missing h
  | toMerge h =>
    obtain rfl := (findNode_mem h).2
    exact .pick (.inr rfl)
  | toNode h =>
    obtain rfl := (findNode_mem h).2
    exact .pick (.inl rfl)
  | activate => exact .activate ⟨rfl, fun _ _ => rfl⟩ hst.1 hst.2.1
  | fire h => exact .fire hst.1 hst.2.1 (mem_predecessors.mpr ⟨hnode, hst.2.2.1⟩) h
  | collect h => exact .collect hst.1 hst.2.1 (mem_predecessors.mpr ⟨hnode, hst.2.2.1⟩) h
  | @check deferred _ _ _ h =>
    refine .finish (h.sameFlow ?_) rfl rfl ?_
    · rintro rfl
      exact hkeeps
    · have := h.steps_lt
      cases deferred
      · exact this
      · exact Nat.add_lt_add_left this 8
  | @checked deferred st _ h =>
    refine .finish (h.sameFlow ?_) rfl ?_ ?_
    · rintro rfl
      exact hkeeps
    · cases deferred <;> rfl
    · have : 0 < checkSteps st := by cases st <;> simp [checkSteps]
      cases deferred
      · exact this
      · exact Nat.lt_add_of_pos_right this
  | leave => exact .finish ⟨rfl, fun _ _ => rfl⟩ rfl rfl (by simp [finishSteps, checkSteps])
  | _ => exact hst.elim

/-! ## Every run -/

variable {ctx : Ctx}

omit hproper in
theorem NodeStep.calm (hst : SteadyStage w node st)
    (h : NodeStep w registry e ctx node input choice st e' st' launched) :
    e'.mu = e.mu ∧ e'.done = e.done := by
  cases h with
  | check h | checked h => exact h.calm
  | panic => exact hst.elim
  | _ => exact ⟨rfl, rfl⟩

theorem NodeStep.steadyStage
    (hfind : findNode w node.id = some node) (hst : SteadyStage w node st)
    (hsuccess : (∀ message, choice ≠ .fails message) ∧ ∀ output, choice = .returns output →
        SteadyStage w node (.storing output))
    (h : NodeStep w registry e ctx node input choice st e' st' launched) :
    SteadyStage w node st' := by
  have hnode := (findNode_mem hfind).1
  cases h with
  | enter | call => rfl
  | callAgain => exact hst
  | returns h => exact hsuccess.2 _ h
  | retry h | fail h => exact absurd h (hsuccess.1 _)
  | unregistered h =>
    rw [hproper.registered node hnode] at h
    cases h
  | skip h => exact absurd (hproper.attempted node hnode) (not_lt.mpr h)
  | store => exact fun id hid => mem_edges_of_determineNextNodes hst.2 hid
  | missing => exact fun id hid => hst (mem_cons_of_mem _ hid)
  | toMerge h htype | toNode h htype =>
    obtain ⟨hnext, rfl⟩ := findNode_mem h
    exact ⟨h, htype, hst mem_cons_self, fun id hid => hst (mem_cons_of_mem _ hid)⟩
  | activate | fire | collect => exact hst.2.2.2
  | @checked deferred => cases deferred <;> trivial
  | unknown | giveUp | again | unhandled | handled | erred | err | errMissing
  | panic | unwind => exact hst.elim
  | _ => trivial

omit hproper in
theorem FlowStep.started_steady (h : FlowStep w e t o) (j : ℕ) :
    ∀ u ∈ o.started, Steady w e' j u := by
  intro u hu
  cases h with
  | launch _ hfind | activate _ hfind | fire hfind =>
    obtain rfl := mem_singleton.mp hu
    exact ⟨rfl, hfind, trivial⟩
  | _ => cases hu

theorem flowStep_of_next (hc : Flowing w c)
    (ht : c.threads[i]? = some t) (hok : Succeeding c (.run i choice))
    (hkeeps : KeepsStates w c.shared t)
    (h : (code w registry β).next c.shared i t choice = some o) :
    FlowStep w c.shared t o ∧ Flowing w (c.advance i o) := by
  have hstep := step_of_next h
  have hsteady := hc.steady i t ht
  have hfails : ∀ message, choice ≠ .fails message := by
    rintro message rfl
    exact hok
  have hflow : FlowStep w c.shared t o ∧ Steady w o.shared i o.thread ∧
      o.shared.mu = c.shared.mu ∧ o.shared.done = c.shared.done := by
    cases hstep with
    | launch hstart =>
      exact ⟨.launch hstart (hsteady _ mem_cons_self) ⟨rfl, fun _ _ => rfl⟩,
        fun node hnode => hsteady node (mem_cons_of_mem _ hnode),
        rfl, rfl⟩
    | pass hstart =>
      exact ⟨.pass hstart, fun node hnode => hsteady node (mem_cons_of_mem _ hnode), rfl, rfl⟩
    | node hstep =>
      obtain ⟨rfl, hfind, hst⟩ := hsteady
      refine ⟨hstep.flowStep hproper hc.done hfind hst ⟨hfails, ?_⟩ hkeeps,
        ⟨rfl, hfind, hstep.steadyStage hproper hfind hst ⟨hfails, ?_⟩⟩,
        hstep.calm hst⟩
      · rintro rfl
        exact hok
      · rintro output rfl
        cases output with
        | none | some => exact hok
    | _ => exact hsteady.elim
  obtain ⟨hstep, hown, hmu, hdone⟩ := hflow
  refine ⟨hstep, hc.steady.advance hown ?_ ?_, hmu.trans hc.mu, ?_⟩
  · intro j u _ _ hu
    cases u with
    | start | node => exact hu
    | _ => exact hu.elim
  · exact fun j u _ hu => hstep.started_steady j u hu
  · change o.shared.done .execution = false
    rw [hdone]
    exact hc.done

theorem flowing_started (input : Data β) :
    Flowing w (started w input) := by
  refine ⟨?_, rfl, rfl⟩
  intro j u hu
  obtain rfl := mem_singleton.mp (mem_of_getElem? hu)
  exact fun node hnode => findNode_eq hproper.ids hnode

variable {ok : Config (Engine β) (Thread β) → Move (Thread β) (Choice β) → Prop}

theorem flow_invariant {input : Data β} {I : Config (Engine β) (Thread β) → Prop}
    (hok : ∀ c a, ok c a → Succeeding c a ∧ Keeps w c a)
    (hstart : I (started w input)) (hstep : ∀ {c i b t o}, Flowing w c → I c → ok c (.run i b) →
      c.threads[i]? = some t → FlowStep w c.shared t o → I (c.advance i o))
    {acts : List (Move (Thread β) (Choice β))}
    (hrun : Run (code w registry β).step ok (started w input) acts c) : Flowing w c ∧ I c := by
  refine Code.run_invariant (I := fun c => Flowing w c ∧ I c) ?_ ?_ hrun
    ⟨flowing_started hproper input, hstart⟩
  · intro c t _ hspawn _
    exact (hok _ _ hspawn).1.elim
  · rintro c i b t o ⟨hc, hI⟩ hrun ht ho
    obtain ⟨hsuccess, hkeeps⟩ := hok _ _ hrun
    obtain ⟨hflow, hc'⟩ := flowStep_of_next hproper hc ht hsuccess (hkeeps t ht) ho
    exact ⟨hc', hstep hc hI hrun ht hflow⟩

end

/-! ## The end of an execution -/

def finished : Thread β → Bool
  | .start [] _ | .node _ _ _ .returned => true
  | _ => false

def Finished (c : Config (Engine β) (Thread β)) : Prop := ∀ t ∈ c.threads, finished t = true

theorem checkNext_isSome (hmu : e.mu = false) (st : Check) :
    (e.checkNext st (.time 0)).isSome = true := by
  cases st <;> grind [checkNext]

theorem nodeNext_isSome (registry : NodeType → Bool) (ctx : Ctx) (node : NodeDefinition)
    (input : Input β) (hmu : e.mu = false) (hreturned : st ≠ .returned) (hhanging : st ≠ .hanging) :
    ∃ choice, (e.nodeNext w registry ctx node input st choice).isSome = true := by
  cases st with
  | called | trying =>
    refine ⟨.time 0, ?_⟩
    simp only [nodeNext]
    split_ifs <;> rfl
  | handling => exact ⟨.returns none, rfl⟩
  | waiting => exact ⟨.take .after, rfl⟩
  | unknown =>
    refine ⟨.time 0, ?_⟩
    simp [nodeNext, hmu]
  | failing =>
    refine ⟨.time 0, ?_⟩
    grind [nodeNext]
  | erring rest | launching rest =>
    refine ⟨.time 0, ?_⟩
    cases rest <;> grind [nodeNext]
  | storing output =>
    refine ⟨.time 0, ?_⟩
    cases output <;> grind [nodeNext]
  | check =>
    refine ⟨.time 0, ?_⟩
    grind [checkNext_isSome, nodeNext]
  | activating | merging | leaving | panicking => exact ⟨.time 0, rfl⟩
  | returned => exact absurd rfl hreturned
  | hanging => exact absurd rfl hhanging

theorem node_enabled (hmu : c.shared.mu = false)
    (ht : c.threads[i]? = some (.node ctx node input st)) (hreturned : st ≠ .returned)
    (hhanging : st ≠ .hanging) : (code w registry β).Enabled c i := by
  obtain ⟨choice, hnext⟩ := nodeNext_isSome registry ctx node input hmu hreturned hhanging
  refine Code.enabled_of_next (b := choice) ht ?_
  change ((c.shared.nodeNext w registry ctx node input st choice).map _).isSome = _
  rwa [Option.isSome_map]

theorem start_enabled {rest : List NodeDefinition} {input : Data β}
    (ht : c.threads[i]? = some (.start (node :: rest) input)) :
    (code w registry β).Enabled c i := by
  refine Code.enabled_of_next (b := .time 0) ht ?_
  change ((c.shared.startNext w input (node :: rest)).map _).isSome = _
  rw [Option.isSome_map, startNext]
  split <;> rfl

theorem Flowing.enabled (hc : Flowing w c) (ht : c.threads[i]? = some t) (h : finished t = false) :
    (code w registry β).Enabled c i := by
  have hsteady := hc.steady i t ht
  cases t with
  | start rest =>
    cases rest with
    | nil => cases h
    | cons => exact start_enabled ht
  | node =>
    obtain ⟨-, -, hst⟩ := hsteady
    refine node_enabled hc.mu ht ?_ ?_
    · rintro rfl
      cases h
    · rintro rfl
      exact hst
  | _ => exact hsteady.elim

def successors (w : WorkflowDefinition) (id : String) : List String :=
  ((findNode w id).map NodeDefinition.edges).getD []

section Rank

variable {weight : String → ℕ}

def ahead (weight : String → ℕ) (ids : List String) : ℕ := (ids.map fun id => weight id + 2).sum

def stageRank (weight : String → ℕ) (node : NodeDefinition) : Stage β → ℕ
  | .called => 20 + ahead weight node.edges
  | .trying _ => 19 + ahead weight node.edges
  | .handling _ => 18 + ahead weight node.edges
  | .storing _ => 17 + ahead weight node.edges
  | .launching rest _ => 16 + ahead weight rest
  | .activating next rest _ | .merging next rest _ => 17 + weight next.id + ahead weight rest
  | st => finishSteps st

/-- A bound on the steps of a goroutine and of those it launches, given one for the nodes. -/
def rank (weight : String → ℕ) : Thread β → ℕ
  | .start rest _ => (rest.map fun node => weight node.id + 1).sum
  | .node _ node _ st => stageRank weight node st
  | _ => 0

theorem ahead_cons (id : String) (rest : List String) :
    ahead weight (id :: rest) = weight id + 2 + ahead weight rest :=
  sum_cons

theorem ahead_determineNextNodes_le (weight : String → ℕ) (node : NodeDefinition)
    {output : NodeOutput β} (hown : output.nextNodes = []) :
    ahead weight (determineNextNodes node output) ≤ ahead weight node.edges := by
  grind [determineNextNodes, ahead, edges]

theorem stageRank_of_finishing {node : NodeDefinition} {st : Stage β} (h : finishing st = true) :
    stageRank weight node st = finishSteps st := by
  revert h
  fun_cases finishing st <;> intro h <;> first | rfl | cases h

theorem FlowStep.rank_lt
    (hweight : ∀ id, weight id = 20 + ((successors w id).map fun id => weight id + 2).sum)
    (h : FlowStep w e t o) :
    rank weight o.thread + (o.started.map (rank weight)).sum < rank weight t := by
  have hnode : ∀ {node : NodeDefinition}, findNode w node.id = some node →
      weight node.id = 20 + ahead weight node.edges := by
    intro node hfind
    rw [hweight, successors, hfind]
    rfl
  cases h with
  | launch _ hfind =>
    have := hnode hfind
    simp only [rank, stageRank, map_cons, map_nil, sum_cons, sum_nil]
    omega
  | pass =>
    simp only [map_nil, sum_nil, rank, map_cons, sum_cons]
    omega
  | enter | call | answer =>
    simp only [map_nil, sum_nil, rank, stageRank]
    omega
  | @store node input output _ hown =>
    have hle := ahead_determineNextNodes_le weight node hown
    simp only [map_nil, sum_nil, rank, afterStore]
    split <;> simp only [stageRank, finishSteps, checkSteps] <;> omega
  | missing =>
    simp only [map_nil, sum_nil, rank, stageRank, ahead_cons]
    omega
  | pick hst =>
    rcases hst with rfl | rfl <;>
      simp only [map_nil, sum_nil, rank, stageRank, ahead_cons] <;>
      omega
  | activate _ hfind | fire hfind =>
    have := hnode hfind
    simp only [rank, stageRank, map_cons, map_nil, sum_cons, sum_nil]
    omega
  | collect =>
    simp only [map_nil, sum_nil, rank, stageRank]
    omega
  | finish _ hst hst' hless =>
    simp only [map_nil, sum_nil, rank,
      stageRank_of_finishing hst, stageRank_of_finishing hst']
    exact hless

end Rank

variable (β) in
theorem exists_rank (hacyclic : Graph.Acyclic (Edge w)) :
    ∃ rank : Thread β → ℕ, ∀ {e : Engine β} {t o}, FlowStep w e t o →
      rank o.thread + (o.started.map rank).sum < rank t := by
  have hwf : WellFounded fun id' id => id' ∈ successors w id := by
    refine Subrelation.wf ?_ (hacyclic.wellFounded_swap
      (w.nodes.map NodeDefinition.id).finite_toSet ?_)
    · intro id' id h
      rw [successors] at h
      cases hfind : findNode w id with
      | none =>
        rw [hfind] at h
        cases h
      | some node =>
        rw [hfind] at h
        exact ⟨node, (findNode_mem hfind).1, (findNode_mem hfind).2, h⟩
    · rintro id id' ⟨node, hnode, rfl, -⟩
      exact mem_map_of_mem hnode
  obtain ⟨weight, hweight⟩ := Graph.exists_weight hwf 20 2
  exact ⟨rank weight, fun h => h.rank_lt hweight⟩

theorem eventually_finished {input : Data β} (hproper : Proper w registry)
    (hacyclic : Graph.Acyclic (Edge w)) (hok : ∀ c a, ok c a → Succeeding c a ∧ Keeps w c a)
    {x : Execution (code w registry β) ok (started w input)} (hfair : x.Fair) :
    ∃ N, (∀ n, N ≤ n → x.config n = x.config N) ∧ Finished (x.config N) := by
  have hflowing : ∀ n, Flowing w (x.config n) := by
    intro n
    obtain ⟨acts, hrun⟩ := x.exists_run n
    exact (flow_invariant (I := fun _ => True) hproper hok trivial
      (fun _ _ _ _ _ => trivial) hrun).1
  obtain ⟨rank, hrank⟩ := exists_rank β hacyclic
  obtain ⟨N, hrest, hstuck⟩ := Execution.eventually_rests hfair (fun c => c.total rank) (by
      intro n mv hmove
      obtain ⟨hsuccess, hkeeps⟩ := hok _ _ (x.guard hmove)
      rcases Code.step_cases (x.next hmove) with
        ⟨t, rfl, -, -⟩ | ⟨i, b, t, o, rfl, ht, ho, hc⟩
      · exact hsuccess.elim
      · have hless := hrank (flowStep_of_next hproper (hflowing n) ht hsuccess (hkeeps t ht) ho).1
        grind [Config.total_advance])
  refine ⟨N, hrest, ?_⟩
  intro t ht
  obtain ⟨i, hi⟩ := mem_iff_getElem?.mp ht
  by_contra hnot
  exact hstuck i ((hflowing N).enabled hi (by simpa using hnot))

end Engine

end Fluxor.Workflow
