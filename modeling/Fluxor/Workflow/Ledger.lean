import Fluxor.Workflow.Flow

/-!
# The books of an execution

What is on its way to a node, what has come to it, and with which inputs it has
been launched add up in every state of a flowing execution.
-/

namespace Fluxor.Workflow

namespace Engine

open Goroutines Config Transition Function List

variable {β : Type*} {w : WorkflowDefinition} {e e' : Engine β}
  {t : Thread β} {i : ℕ} {o : Outcome (Engine β) (Thread β)}
  {c : Config (Engine β) (Thread β)} {id : String}

/-! ## What the history tells -/

def calls (id : String) (history : List (Event β)) : List (Input β) :=
  history.filterMap fun
    | .called node input => if node.id = id then some input else none
    | _ => none

def deliveries (id : String) (history : List (Event β)) : List (Data β) :=
  history.filterMap fun
    | .delivered node data => if node.id = id then some data else none
    | _ => none

def selected (id : String) (history : List (Event β)) : List (Data β) :=
  history.filterMap fun
    | .succeeded node output =>
      if id ∈ determineNextNodes node output then some output.data else none
    | _ => none

def ran (history : List (Event β)) : List NodeDefinition :=
  history.filterMap fun
    | .succeeded node _ => some node
    | _ => none

/-- The outputs that are to come to node `id`, each as often as it is named. -/
def arrivals (id : String) (history : List (Event β)) : Multiset (Data β) :=
  (history.map fun
    | .succeeded node output => Multiset.replicate
        ((determineNextNodes node output).count id) output.data
    | _ => 0).sum

/-! ## What the goroutines hold -/

def isCalled : Stage β → Bool
  | .called | .trying _ => false
  | _ => true

def isStored : Stage β → Bool
  | .called | .trying _ | .handling _ | .storing _ => false
  | _ => true

def inputs (p : Stage β → Bool) (id : String) : Thread β → Multiset (Input β)
  | .node _ node input st => if node.id = id ∧ p st = true then {input} else 0
  | _ => 0

abbrev launched (id : String) (c : Config (Engine β) (Thread β)) : Multiset (Input β) :=
  c.total (inputs (fun _ => true) id)

def heading (id : String) : Thread β → Multiset (Data β)
  | .node _ _ _ (.launching rest data) => Multiset.replicate (rest.count id) data
  | .node _ _ _ (.activating next rest data)
  | .node _ _ _ (.merging next rest data) => Multiset.replicate ((next.id :: rest).count id) data
  | _ => 0

/-- How often the loop of `startExecution` is still to launch node `id`. -/
def startsOf (w : WorkflowDefinition) (id : String) : Thread β → ℕ
  | .start rest _ => rest.countP fun node => isStartNode w node && node.id = id
  | _ => 0

/-- What merge node `id` has collected. -/
def pending (e : Engine β) (id : String) : List (Data β) :=
  ((e.mergeStates id).map MergeState.data).getD []

/-- What a merge node was launched with. -/
def collected : Input β → Multiset (Data β)
  | .value _ => 0
  | .merged data => data

variable {st : Stage β}

theorem finishing_isStored (h : finishing st = true) : isStored st = true := by
  revert h
  fun_cases finishing st <;> intro h <;> first | rfl | cases h

variable {node : NodeDefinition}

theorem finishing_heading {ctx : Ctx} {input : Input β} (h : finishing st = true) :
    heading id (.node ctx node input st) = 0 := by
  revert h
  fun_cases finishing st <;> intro h <;> first | rfl | cases h

/-! ## What a step books -/

section History

variable (history history' : List (Event β))

@[simp] theorem arrivals_append : arrivals id (history ++ history') =
    arrivals id history + arrivals id history' := by
  grind [arrivals]

end History

theorem deliveries_record (id : String) (next : NodeDefinition) (data : Data β) :
    deliveries id (e.record (.delivered next data)).history =
      deliveries id e.history ++ if next.id = id then [data] else [] := by
  grind [record, deliveries]

theorem isStored_afterStore (node : NodeDefinition) (output : NodeOutput β) :
    isStored (afterStore node output) = true := by
  rw [afterStore]
  split <;> rfl

theorem isCalled_of_isStored (h : isStored st = true) : isCalled st = true := by
  cases st <;> first | rfl | cases h

variable {output : NodeOutput β}

theorem heading_afterStore {ctx : Ctx} {input : Input β} :
    heading id (.node ctx node input (afterStore node output)) =
      Multiset.replicate ((determineNextNodes node output).count id) output.data := by
  rw [afterStore]
  split
  next hnone =>
    rw [hnone]
    rfl
  · rfl

theorem FlowStep.calls_eq (h : FlowStep w e t o) :
    inputs isCalled id o.thread + (o.started.map (inputs isCalled id)).sum + calls id e.history =
      calls id o.shared.history + inputs isCalled id t := by
  cases h with
  | launch _ _ h => simp [inputs, isCalled, h.history]
  | pass => simp [inputs]
  | enter => simp [inputs, isCalled]
  | @call node =>
    by_cases hid : node.id = id
    · simpa [inputs, isCalled, record, calls, hid] using (perm_append_singleton _ _).symm
    · simp [inputs, isCalled, record, calls, hid]
  | store =>
    simp only [inputs, isCalled_of_isStored (isStored_afterStore _ _)]
    simp [storeOutput, record, calls, isCalled, add_comm]
  | answer | missing => simp [inputs, isCalled, add_comm]
  | pick => grind [inputs, isCalled]
  | activate h => simp [inputs, isCalled, h.history, add_comm]
  | fire | collect => simp [inputs, isCalled, record, calls, add_comm]
  | finish => grind [inputs, isCalled_of_isStored, finishing_isStored, SameFlow.history]

theorem FlowStep.ran_eq (h : FlowStep w e t o) :
    (inputs isStored id o.thread).card + (o.started.map fun u => (inputs isStored id u).card).sum +
        (ran e.history).countP (fun node => node.id = id) =
      (ran o.shared.history).countP (fun node => node.id = id) + (inputs isStored id t).card := by
  cases h with
  | launch _ _ h => simp [inputs, isStored, h.history]
  | pass => simp [inputs]
  | enter | answer => simp [inputs, isStored]
  | call => simp [inputs, isStored, record, ran]
  | @store node =>
    by_cases hid : node.id = id
    · simp only [inputs, isStored_afterStore]
      simp [storeOutput, record, ran, isStored, hid, add_comm]
    · simp [inputs, storeOutput, record, ran, hid]
  | missing => simp [inputs, isStored, add_comm]
  | pick => grind [inputs, isStored]
  | activate h => simp [inputs, isStored, h.history, add_comm]
  | fire | collect => simp [inputs, isStored, record, ran, add_comm]
  | finish => grind [inputs, finishing_isStored, SameFlow.history]

/-- A node launched by the loop of `startExecution` or for each output that comes to it. -/
def Direct (w : WorkflowDefinition) (node : NodeDefinition) : Prop :=
  findNode w node.id = some node ∧ (node.type ≠ .merge ∨ predecessors w node.id = [])

/-- How often node `id` has been launched or is going to be by a goroutine. -/
def due (w : WorkflowDefinition) (id : String) (t : Thread β) : ℕ :=
  (inputs (fun _ => true) id t).card + (heading id t).card + startsOf w id t

variable {m : NodeDefinition}

theorem FlowStep.due_eq (hm : Direct w m) (h : FlowStep w e t o) (k : ℕ) :
    due w m.id o.thread + (o.started.map (due w m.id)).sum + ((arrivals m.id e.history).card + k) =
      (arrivals m.id o.shared.history).card + k + due w m.id t := by
  have hmerge : ∀ {next node : NodeDefinition},
      findNode w next.id = some next → next.type = .merge →
      node ∈ predecessors w next.id → next.id ≠ m.id := by
    intro next node hfind htype hnode hid
    obtain rfl : next = m := by
      rw [hid, hm.1] at hfind
      exact (Option.some.inj hfind).symm
    rcases hm.2 with hne | hnone
    · exact hne htype
    · rw [hnone] at hnode
      cases hnode
  cases h with
  | @launch node rest input _ hstart _ h =>
    by_cases hid : node.id = m.id <;>
      simp [due, inputs, heading, startsOf, h.history, hstart, hid] <;>
      omega
  | pass hstart => simp [due, inputs, heading, startsOf, hstart]; omega
  | enter | answer => simp [due, inputs, heading, startsOf]; omega
  | call => simp [due, inputs, heading, startsOf, record, arrivals]; omega
  | store =>
    simp only [due, heading_afterStore]
    simp [inputs, startsOf, storeOutput, record, arrivals, heading]
    omega
  | @missing _ _ id _ _ hfind =>
    have hne : id ≠ m.id := by
      rintro rfl
      rw [hm.1] at hfind
      cases hfind
    simp [due, inputs, heading, startsOf, hne]
    omega
  | pick hst =>
    rcases hst with rfl | rfl <;>
      simp [due, inputs, heading, startsOf] <;> omega
  | @activate _ _ next _ _ _ h =>
    by_cases hid : next.id = m.id <;>
      simp [due, inputs, heading, startsOf, h.history, hid] <;> omega
  | @fire _ _ next _ _ hfind htype hnode =>
    have hne := hmerge hfind htype hnode
    simp [due, inputs, heading, startsOf, record, arrivals, hne]
    omega
  | @collect _ _ next _ _ hfind htype hnode =>
    have hne := hmerge hfind htype hnode
    simp [due, inputs, heading, startsOf, record, arrivals, hne]
    omega
  | finish h hst hst' =>
    simp [due, inputs, finishing_heading hst, finishing_heading hst', startsOf, h.history]
    omega

structure Joined (w : WorkflowDefinition) (m : NodeDefinition) : Prop where
  find : findNode w m.id = some m
  type : m.type = .merge
  mode : m.mode ≠ .unknown
  predecessors : predecessors w m.id ≠ []

variable {next : NodeDefinition}

section

variable (hm : Joined w m) (hfind : findNode w next.id = some next)

include hm hfind

theorem Joined.eq (hid : next.id = m.id) : next = m := by
  grind [find]

theorem Joined.id_ne_of_start (hstart : isStartNode w next = true) : next.id ≠ m.id := by
  intro hid
  obtain rfl := hm.eq hfind hid
  rcases isStartNode_eq.mp hstart with htrigger | hnone
  · rw [hm.type] at htrigger
    cases htrigger
  · exact hm.predecessors hnone

theorem Joined.id_ne_of_type (htype : next.type ≠ .merge) : next.id ≠ m.id := by
  grind [eq, type]

end

theorem FlowStep.heading_eq (hm : Joined w m) (h : FlowStep w e t o) :
    deliveries m.id o.shared.history +
        (heading m.id o.thread + (o.started.map (heading m.id)).sum) +
        arrivals m.id e.history =
      arrivals m.id o.shared.history + (deliveries m.id e.history + heading m.id t) := by
  cases h with
  | launch _ _ h => simp [heading, h.history, add_comm]
  | pass | enter | answer => simp [heading, add_comm]
  | call => simp [heading, record, arrivals, deliveries, add_comm]
  | @store node input output =>
    have harrivals : arrivals m.id (e.storeOutput node output).history =
        arrivals m.id e.history + Multiset.replicate
          ((determineNextNodes node output).count m.id) output.data := by
      simp [storeOutput, record, arrivals]
    have hdeliveries : deliveries m.id (e.storeOutput node output).history =
        deliveries m.id e.history := by
      simp [storeOutput, record, deliveries]
    rw [harrivals, hdeliveries]
    simp only [heading_afterStore]
    change _ + (_ + 0) + _ = _ + (_ + 0)
    abel
  | @missing _ _ id _ _ hfind => grind [Joined.find, heading]
  | pick => grind [heading]
  | activate h hfind htype =>
    have hne := hm.id_ne_of_type hfind htype
    simp [heading, h.history, hne, add_comm]
  | @fire node input next rest data | @collect node input next rest data =>
    have harrivals : arrivals m.id (e.record (.delivered next data)).history =
        arrivals m.id e.history := by
      simp [record, arrivals]
    have hbooked : (deliveries m.id (e.record (.delivered next data)).history : Multiset (Data β)) +
          heading m.id (.node .execution node input (.launching rest data)) =
        deliveries m.id e.history + heading m.id
          (.node .execution node input (.merging next rest data)) := by
      rw [deliveries_record]
      by_cases hid : next.id = m.id
      · rw [if_pos hid, ← Multiset.coe_add, Multiset.coe_singleton,
          add_assoc, Multiset.singleton_add]
        simp only [heading, hid, count_cons_self, Multiset.replicate_succ]
      grind [heading]
    simp only [harrivals]
    change _ + (_ + 0) + _ = _
    rw [← hbooked]
    abel
  | finish => grind [finishing_heading, SameFlow.history]

/-! ## Merge nodes -/

/-- The number of inputs with which a merge node is launched. -/
def required (w : WorkflowDefinition) (m : NodeDefinition) : ℕ :=
  if m.mode = .waitAny then 1 else expectedInputs w m

structure Collecting (w : WorkflowDefinition) (m : NodeDefinition)
    (state : MergeState β) : Prop where
  expected : state.expectedInputs = expectedInputs w m
  received : state.receivedInputs = state.data.length
  incomplete : state.data.length < required w m

theorem Joined.required_pos (hm : Joined w m) : 0 < required w m := by
  rw [required]
  split
  · exact Nat.one_pos
  · obtain ⟨node, hnode⟩ := exists_mem_of_ne_nil _ hm.predecessors
    obtain ⟨hnode, hedge⟩ := mem_predecessors.mp hnode
    have hle : node.edges.count m.id ≤ expectedInputs w m := le_sum_of_mem (mem_map_of_mem hnode)
    exact (count_pos_iff.mpr hedge).trans_le hle

theorem receive_data (w : WorkflowDefinition) (e : Engine β) (m : NodeDefinition) (data : Data β) :
    (e.receive w m data).data = pending e m.id ++ [data] := by
  rw [receive, pending]
  cases e.mergeStates m.id <;> rfl

theorem Joined.receive (hm : Joined w m)
    (hstates : ∀ state ∈ e.mergeStates m.id, Collecting w m state) (data : Data β) :
    (shouldProceed m.mode (e.receive w m data) = true ∧
        (e.receive w m data).data.length = required w m) ∨
      (shouldProceed m.mode (e.receive w m data) = false ∧
        Collecting w m (e.receive w m data)) := by
  obtain ⟨hexpected, hreceived, hle⟩ : (e.receive w m data).expectedInputs = expectedInputs w m ∧
        (e.receive w m data).receivedInputs = (e.receive w m data).data.length ∧
        (e.receive w m data).data.length ≤ required w m := by
    cases hstate : e.mergeStates m.id with
    | none => grind [Engine.receive, required_pos]
    | some state =>
      have h := hstates state hstate
      simp only [Engine.receive, hstate, Option.getD_some,
        length_append, length_singleton, h.received]
      exact ⟨h.expected, trivial, h.incomplete⟩
  have hpos : 0 < (e.receive w m data).data.length := by
    rw [receive_data]
    simp
  cases hmode : m.mode with
  | waitAny => grind [required, shouldProceed]
  | waitAll =>
    have hrequired : required w m = expectedInputs w m := by simp [required, hmode]
    rw [shouldProceed, hexpected, hreceived, ← hrequired]
    rcases Nat.lt_or_ge (e.receive w m data).data.length (required w m) with hlt | hge
    · right
      exact ⟨decide_eq_false (by omega), hexpected, hreceived, hlt⟩
    grind
  | unknown => exact absurd hmode hm.mode

/-- A step leaves merge node `m` alone or brings an input, which launches it or is collected. -/
inductive MergeStep (w : WorkflowDefinition) (m : NodeDefinition)
    (e e' : Engine β) (launched : Multiset (Input β)) : Prop
  | idle (hstate : e'.mergeStates m.id = e.mergeStates m.id)
      (hdeliveries : deliveries m.id e'.history = deliveries m.id e.history)
      (hlaunched : launched = 0)
  | fire (data : Data β) (h : shouldProceed m.mode (e.receive w m data) = true)
      (hstate : e'.mergeStates m.id = none)
      (hdeliveries : deliveries m.id e'.history = deliveries m.id e.history ++ [data])
      (hlaunched : launched = {.merged (e.receive w m data).data})
  | collect (data : Data β) (h : shouldProceed m.mode (e.receive w m data) = false)
      (hstate : e'.mergeStates m.id = some (e.receive w m data))
      (hdeliveries : deliveries m.id e'.history = deliveries m.id e.history ++ [data])
      (hlaunched : launched = 0)

theorem FlowStep.mergeStep (hm : Joined w m) (h : FlowStep w e t o) :
    MergeStep w m e o.shared (o.started.map (inputs (fun _ => true) m.id)).sum := by
  have hother : ∀ {next : NodeDefinition} {input : Input β},
      next.id ≠ m.id → (([.node .execution next input .called] :
        List (Thread β)).map (inputs (fun _ => true) m.id)).sum = 0 := by
    intro next input hne
    simp [inputs, hne]
  have hmem := (findNode_mem hm.find).1
  cases h with
  | launch hstart hfind h =>
    exact .idle (h.mergeStates m hmem) (by rw [h.history]) (hother (hm.id_ne_of_start hfind hstart))
  | activate h hfind htype =>
    exact .idle (h.mergeStates m hmem) (by rw [h.history]) (hother (hm.id_ne_of_type hfind htype))
  | finish h => exact .idle (h.mergeStates m hmem) (by rw [h.history]) rfl
  | call | store =>
    refine .idle rfl ?_ rfl
    simp [storeOutput, record, deliveries]
  | @fire node input next rest data hfind htype _ h =>
    by_cases hid : next.id = m.id
    · obtain rfl := hm.eq hfind hid
      refine .fire data h (update_self ..) ?_ ?_
      · grind [deliveries_record]
      · simp [inputs]
    · refine .idle (update_of_ne (Ne.symm hid) ..) ?_ (hother hid)
      grind [deliveries_record]
  | @collect node input next rest data hfind htype _ h =>
    by_cases hid : next.id = m.id
    · obtain rfl := hm.eq hfind hid
      refine .collect data h (update_self ..) ?_ rfl
      grind [deliveries_record]
    · refine .idle (update_of_ne (Ne.symm hid) ..) ?_ rfl
      grind [deliveries_record]
  | _ => exact .idle rfl rfl rfl

theorem FlowStep.launched_eq (h : FlowStep w c.shared t o) (ht : c.threads[i]? = some t) :
    launched id (c.advance i o) = launched id c +
      (o.started.map (inputs (fun _ => true) id)).sum := by
  have hown : inputs (fun _ => true) id o.thread = inputs (fun _ => true) id t := by cases h <;> rfl
  have htotal := total_advance (w := inputs (fun _ => true) id) (o := o) ht
  rw [hown, add_right_comm, add_comm _ (inputs _ id t)] at htotal
  exact add_left_cancel htotal

/-! ## The books -/

structure Ledger (w : WorkflowDefinition) (c : Config (Engine β) (Thread β)) : Prop where
  called : ∀ id, c.total (inputs isCalled id) = calls id c.shared.history
  stored : ∀ id, (c.total fun t => (inputs isStored id t).card) =
    (ran c.shared.history).countP fun node => node.id = id
  launches : ∀ m, Direct w m → c.total (due w m.id) = (arrivals m.id c.shared.history).card +
      w.nodes.countP fun node => isStartNode w node && node.id = m.id
  arriving : ∀ m, Joined w m → deliveries m.id c.shared.history + c.total (heading m.id) =
      arrivals m.id c.shared.history
  collecting : ∀ m, Joined w m → ∀ state ∈ c.shared.mergeStates m.id, Collecting w m state
  merged : ∀ m, Joined w m → ∀ input ∈ launched m.id c,
    ∃ data, input = .merged data ∧ data.length = required w m
  collection : ∀ m, Joined w m → (pending c.shared m.id : Multiset (Data β)) +
        ((launched m.id c).map collected).sum =
      deliveries m.id c.shared.history
  outputs : ∀ node output, .succeeded node output ∈ c.shared.history →
    node ∈ w.nodes ∧ output.nextNodes = []

section

variable (hc : Ledger w c) (hm : Joined w m) (h : FlowStep w c.shared t o)

include hc hm h

theorem Ledger.collecting_advance : ∀ state ∈ o.shared.mergeStates m.id, Collecting w m state := by
  cases h.mergeStep hm <;> grind [collecting, Joined.receive]

theorem Ledger.merged_advance (ht : c.threads[i]? = some t) :
    ∀ input ∈ launched m.id (c.advance i o),
      ∃ data, input = .merged data ∧ data.length = required w m := by
  rw [h.launched_eq ht]
  cases h.mergeStep hm with
  | idle _ _ hlaunched | collect _ _ _ _ hlaunched =>
    rw [hlaunched, add_zero]
    exact hc.merged m hm
  | fire data hproceed _ _ hlaunched =>
    rw [hlaunched]
    intro input hinput
    rcases Multiset.mem_add.mp hinput with hold | hnew
    · exact hc.merged m hm input hold
    · refine ⟨_, Multiset.mem_singleton.mp hnew, ?_⟩
      grind [Joined.receive, collecting]

theorem Ledger.collection_advance (ht : c.threads[i]? = some t) :
    (pending o.shared m.id : Multiset (Data β)) +
        ((launched m.id (c.advance i o)).map collected).sum = deliveries m.id o.shared.history := by
  have hbefore := hc.collection m hm
  rw [h.launched_eq ht]
  cases h.mergeStep hm with
  | idle => grind [pending]
  | fire data _ hstate hdeliveries hlaunched =>
    have hnone : pending o.shared m.id = [] := by
      rw [pending, hstate]
      rfl
    rw [hlaunched, hdeliveries, hnone, Multiset.map_add, Multiset.sum_add,
      Multiset.map_singleton, Multiset.sum_singleton, ← Multiset.coe_add,
      ← hbefore, collected, receive_data, ← Multiset.coe_add,
      Multiset.coe_nil]
    abel
  | collect data _ hstate hdeliveries hlaunched =>
    have hsome : pending o.shared m.id = pending c.shared m.id ++ [data] := by
      grind [receive_data, pending]
    rw [hlaunched, add_zero, hdeliveries, hsome, ← Multiset.coe_add, ← Multiset.coe_add, ← hbefore]
    abel

end

theorem FlowStep.outputs (h : FlowStep w e t o) (hmem : .succeeded node output ∈ o.shared.history) :
    .succeeded node output ∈ e.history ∨ node ∈ w.nodes ∧ output.nextNodes = [] ∧
        ∃ input, t = .node .execution node input (.storing (some output)) := by
  cases h with
  | launch _ _ h | activate h | finish h =>
    rw [h.history] at hmem
    exact .inl hmem
  | call | fire | collect => rcases mem_append.mp hmem with hold | hnew <;> grind
  | store =>
    rcases mem_append.mp hmem with hold | hnew
    · exact .inl hold
    · cases mem_singleton.mp hnew
      grind [findNode_mem]
  | _ => exact .inl hmem

theorem Ledger.advance (hc : Ledger w c) (h : FlowStep w c.shared t o)
    (ht : c.threads[i]? = some t) : Ledger w (c.advance i o) where
  called id := total_advance_eq (hc.called id) ht h.calls_eq
  stored id := total_advance_eq (hc.stored id) ht h.ran_eq
  launches m hm := total_advance_eq (hc.launches m hm) ht (h.due_eq hm _)
  arriving m hm := balance_advance (hc.arriving m hm) ht (h.heading_eq hm)
  collecting m hm := hc.collecting_advance hm h
  merged m hm := hc.merged_advance hm h ht
  collection m hm := hc.collection_advance hm h ht
  outputs node output hmem := by
    rcases h.outputs hmem with hold | ⟨hnode, hown, -⟩ <;> grind [outputs]

theorem ledger_started (w : WorkflowDefinition) (input : Data β) : Ledger w (started w input) where
  called id := rfl
  stored id := rfl
  launches m hm := by
    simp [started, total, due, inputs, heading, startsOf, arrivals]
  arriving m hm := rfl
  collecting m hm state hstate := by cases hstate
  merged m hm input hinput := by cases hinput
  collection m hm := rfl
  outputs node output hmem := by cases hmem

theorem Ledger.pending_lt (hc : Ledger w c) (hm : Joined w m) :
    (pending c.shared m.id).length < required w m := by
  rw [pending]
  cases hstate : c.shared.mergeStates m.id with
  | none => exact hm.required_pos
  | some state => exact (hc.collecting m hm state hstate).incomplete

theorem Ledger.length_deliveries (hc : Ledger w c) (hm : Joined w m) :
    (pending c.shared m.id).length + (launched m.id c).card * required w m =
      (deliveries m.id c.shared.history).length := by
  have hcard : ((launched m.id c).map collected).sum.card =
      (launched m.id c).card * required w m := by
    change Multiset.cardHom ((launched m.id c).map collected).sum = _
    rw [map_multiset_sum, Multiset.map_map, Multiset.map_congr rfl
      (g := fun _ => required w m), Multiset.map_const',
      Multiset.sum_replicate, nsmul_eq_mul, Nat.cast_id]
    intro input hinput
    obtain ⟨data, rfl, hlength⟩ := hc.merged m hm input hinput
    exact hlength
  have hsum := congrArg Multiset.card (hc.collection m hm)
  rwa [Multiset.card_add, hcard] at hsum

/-! ## The books at the end -/

section Closing

variable (hc : Ledger w c) (hfinished : Finished c)

include hfinished

theorem Finished.inputs_eq {p : Stage β → Bool} (hp : p .returned = true) (id : String) :
    c.total (inputs p id) = launched id c := by
  refine total_congr fun t ht => ?_
  have hend := hfinished t ht
  revert hend
  fun_cases finished t <;> intro hend
  · rfl
  · simp [inputs, hp]
  · cases hend

theorem Finished.heading_eq (id : String) : c.total (heading id) = 0 := by
  rw [total, sum_eq_zero]
  intro x hx
  obtain ⟨t, ht, rfl⟩ := mem_map.mp hx
  have hend := hfinished t ht
  revert hend
  fun_cases finished t <;> intro hend <;> first | rfl | cases hend

theorem Finished.due_eq (id : String) : c.total (due w id) = (launched id c).card := by
  change _ = Multiset.cardHom (launched id c)
  rw [map_total]
  refine total_congr fun t ht => ?_
  have hend := hfinished t ht
  revert hend
  fun_cases finished t <;> intro hend
  · rfl
  · rfl
  · cases hend

include hc

theorem Ledger.calls_eq (id : String) :
    (calls id c.shared.history : Multiset (Input β)) = launched id c := by
  rw [← hc.called id]
  exact hfinished.inputs_eq rfl id

theorem Ledger.countP_ran (id : String) :
    ((ran c.shared.history).countP fun node => node.id = id) = (launched id c).card := by
  change _ = Multiset.cardHom (launched id c)
  rw [← hc.stored id, ← hfinished.inputs_eq (p := isStored) rfl id, map_total]
  rfl

variable {m : NodeDefinition}

theorem Ledger.card_launched (hm : Direct w m) :
    (launched m.id c).card = (arrivals m.id c.shared.history).card +
      w.nodes.countP fun node => isStartNode w node && node.id = m.id := by
  rw [← hc.launches m hm, hfinished.due_eq]

/-- A merge node that got what it requires was called once, with all of it. -/
theorem Ledger.calls_of_required (hm : Joined w m)
    (h : (deliveries m.id c.shared.history).length = required w m) :
    ∃ data, launched m.id c = {.merged data} ∧ calls m.id c.shared.history = [.merged data] ∧
      data.Perm (deliveries m.id c.shared.history) := by
  have hlength := hc.length_deliveries hm
  have hlt := hc.pending_lt hm
  have hpos := hm.required_pos
  rw [h] at hlength
  have hone : (launched m.id c).card = 1 := by
    rcases hk : (launched m.id c).card with _ | _ | k
    · rw [hk] at hlength
      omega
    · rfl
    · rw [hk, add_mul, one_mul] at hlength
      grind
  have hnone : pending c.shared m.id = [] := by
    rw [hone, one_mul] at hlength
    exact eq_nil_of_length_eq_zero (by omega)
  obtain ⟨input, hinput⟩ := Multiset.card_eq_one.mp hone
  obtain ⟨data, rfl, -⟩ := hc.merged m hm input (by
    rw [hinput]
    exact Multiset.mem_singleton_self _)
  refine ⟨data, hinput, ?_, ?_⟩
  · have hcalls := hc.calls_eq hfinished m.id
    rw [hinput] at hcalls
    exact Multiset.coe_eq_singleton.mp hcalls
  · have hdata := hc.collection m hm
    rw [hnone, hinput, Multiset.map_singleton, Multiset.sum_singleton] at hdata
    exact Multiset.coe_eq_coe.mp ((zero_add _).symm.trans hdata)

theorem Ledger.deliveries_eq (hm : Joined w m) :
    (deliveries m.id c.shared.history : Multiset (Data β)) = arrivals m.id c.shared.history := by
  grind [arriving, Finished.heading_eq]

end Closing

end Engine

end Fluxor.Workflow
