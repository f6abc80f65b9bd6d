import Fluxor.Workflow.Ledger

/-!
# Merge nodes

A merge node that waits for all its inputs expects one for each reference to it,
whether or not that is selected; a merge node that waits for any input is launched
by each; and the end of an execution removes what the merge nodes have collected.

When an input comes only to a node all of whose inputs are bound to come, no second
input comes to a node that waits for any, and nothing collected is removed, each
merge node that gets an input is executed once (`MergedOnce`).
-/

namespace Fluxor.Workflow

namespace Engine

open Goroutines Transition Relation List Fluxor.Graph

variable {β : Type*} {w : WorkflowDefinition} {registry : NodeType → Bool}
  {e : Engine β} {t : Thread β} {i : ℕ}
  {o : Outcome (Engine β) (Thread β)} {c : Config (Engine β) (Thread β)}
  {m p : NodeDefinition}

/-- The handler of merge node `m` was called once: with the outputs of all nodes
that selected it, or with the first one. -/
def MergedOnce (m : NodeDefinition) (history : List (Event β)) : Prop :=
  ∃ data, calls m.id history = [.merged data] ∧
    (m.mode = .waitAll → data.Perm (selected m.id history)) ∧
    (m.mode = .waitAny → data = (deliveries m.id history).take 1)

/-! ## The condition -/

variable (w)

/-- The output does not take each step to node `m` once. -/
def Skips (m node : NodeDefinition) (output : NodeOutput β) : Prop :=
  ∃ next ∈ w.nodes, next.id ∈ node.edges ∧ Leads w next.id m.id ∧
    ((determineNextNodes node output).count next.id ≠ 1 ∨
      next.waitsAll ∧ node.edges.count next.id ≠ 1)

/-- An output that skips a merge node is stored only when that has got no input; an
input comes only when no output has skipped the node, or, in mode `waitAny`, no
other input has come; and the merge states are removed only when there are none. -/
def StaysComplete (e : Engine β) : Thread β → Prop
  | .node _ node _ (.storing (some output)) => ∀ m ∈ w.nodes, m.waitsAll →
      Skips w m node output → deliveries m.id e.history = []
  | .node _ _ _ (.merging next _ _) =>
    (next.mode = .waitAll → ∀ node output,
      .succeeded node output ∈ e.history → ¬Skips w next node output) ∧
    (next.mode = .waitAny → deliveries next.id e.history = [])
  | t => KeepsStates w e t

def Complete (c : Config (Engine β) (Thread β)) : Move (Thread β) (Choice β) → Prop
  | .spawn _ => True
  | .run i _ => ∀ t ∈ c.threads[i]?, StaysComplete w c.shared t

abbrev CompleteStep (c : Config (Engine β) (Thread β)) (a : Move (Thread β) (Choice β)) : Prop :=
  Succeeding c a ∧ Complete w c a

variable {w}

theorem StaysComplete.keepsStates (h : StaysComplete w e t) : KeepsStates w e t := by
  revert h
  fun_cases StaysComplete w e t <;> intro h
  · trivial
  · trivial
  · exact h

theorem CompleteStep.keeps {a : Move (Thread β) (Choice β)} (h : CompleteStep w c a) :
    Succeeding c a ∧ Keeps w c a := by
  refine ⟨h.1, ?_⟩
  cases a with
  | spawn => trivial
  | run => exact fun t ht => (h.2 t ht).keepsStates

/-! ## What the condition keeps -/

structure Selective (w : WorkflowDefinition) (history : List (Event β)) : Prop where
  referenced : ∀ id, deliveries id history ≠ [] → predecessors w id ≠ []
  single : ∀ m ∈ w.nodes, m.type = .merge → m.mode = .waitAny → (deliveries m.id history).length ≤ 1
  complete : ∀ m ∈ w.nodes, m.waitsAll → deliveries m.id history ≠ [] →
    ∀ node output, .succeeded node output ∈ history → ¬Skips w m node output

theorem FlowStep.delivers (h : FlowStep w e t o) (id : String) :
    deliveries id o.shared.history = deliveries id e.history ∨ ∃ node input next rest data,
        t = .node .execution node input (.merging next rest data) ∧
        findNode w next.id = some next ∧ next.id = id ∧
        node ∈ predecessors w id ∧
        deliveries id o.shared.history = deliveries id e.history ++ [data] := by
  cases h with
  | launch _ _ h | activate h | finish h => exact .inl (by rw [h.history])
  | call | store =>
    left
    simp [storeOutput, record, deliveries]
  | @fire node input next rest data hfind _ hnode
  | @collect node input next rest data hfind _ hnode =>
    have hrecord := deliveries_record (e := e) id next data
    by_cases hid : next.id = id
    · subst hid
      rw [if_pos rfl] at hrecord
      exact .inr ⟨node, input, next, rest, data, rfl, hfind, rfl, hnode, hrecord⟩
    · rw [if_neg hid, append_nil] at hrecord
      exact .inl hrecord
  | _ => exact .inl rfl

theorem Selective.advance (hs : Selective w e.history) (h : FlowStep w e t o)
    (hok : StaysComplete w e t) (hids : (w.nodes.map NodeDefinition.id).Nodup) :
    Selective w o.shared.history := by
  refine ⟨?_, ?_, ?_⟩
  · grind [FlowStep.delivers, referenced]
  · intro m hm htype hmode
    rcases h.delivers m.id with
      heq | ⟨node, input, next, rest, data, rfl, hfind, hid, -, hdeliveries⟩
    · rw [heq]
      exact hs.single m hm htype hmode
    · rw [hid, findNode_eq hids hm] at hfind
      cases hfind
      rw [hdeliveries, hok.2 hmode]
      exact le_rfl
  · intro m hm hwaits hne node output hmem
    have hdelivers := h.delivers m.id
    rcases h.outputs hmem with hold | ⟨-, -, input, rfl⟩
    · rcases hdelivers with
        heq | ⟨node', input, next, rest, data, rfl, hfind, hid, -, -⟩
      · grind [complete]
      · rw [hid, findNode_eq hids hm] at hfind
        cases hfind
        exact hok.1 hwaits.2 node output hold
    · rcases hdelivers with heq | ⟨_, _, _, _, _, hstage, -⟩
      · rw [heq] at hne
        exact fun hskips => hne (hok m hm hwaits hskips)
      · cases hstage

/-! ## Who has run at the end -/

theorem arrivals_eq {id : String} {history : List (Event β)}
    (h : ∀ node output, .succeeded node output ∈ history →
      (determineNextNodes node output).count id = if id ∈ node.edges then 1 else 0) :
    arrivals id history = selected id history ∧ (selected id history).length =
        (ran history).countP fun node => id ∈ node.edges := by
  induction history with
  | nil => exact ⟨rfl, rfl⟩
  | cons event history ih =>
    obtain ⟨harrivals, hlength⟩ := ih fun node output hmem => h node output (mem_cons_of_mem _ hmem)
    have hcons : arrivals id (event :: history) = arrivals id [event] + arrivals id history :=
      arrivals_append [event] history
    rw [hcons, harrivals]
    cases event with
    | succeeded node output =>
      have hcount := h node output mem_cons_self
      by_cases hedge : id ∈ node.edges
      · rw [if_pos hedge] at hcount
        have hmem : id ∈ determineNextNodes node output := count_pos_iff.mp (by omega)
        simp [arrivals, selected, ran, hcount, hmem, hedge] at hlength ⊢
        exact hlength
      · rw [if_neg hedge] at hcount
        have hmem := count_eq_zero.mp hcount
        simp [arrivals, selected, ran, hcount, hmem, hedge] at hlength ⊢
        exact hlength
    | _ => exact ⟨zero_add _, hlength⟩

section Closing

variable (hproper : Proper w registry) (hc : Ledger w c) (hfinished : Finished c)

include hc hproper in
theorem ran_perm_predecessors {id : String} (h : ∀ q ∈ predecessors w id,
      ((ran c.shared.history).countP fun node => node.id = q.id) = 1) :
    ((ran c.shared.history).filter fun node => id ∈ node.edges).Perm (predecessors w id) := by
  have hran : ∀ {node}, node ∈ ran c.shared.history → node ∈ w.nodes := by
    intro node hnode
    obtain ⟨event, hevent, hsome⟩ := mem_filterMap.mp hnode
    cases event with
    | succeeded node' output =>
      cases hsome
      exact (hc.outputs node output hevent).1
    | _ => cases hsome
  have hmem : ∀ node, (node ∈ (ran c.shared.history).filter fun node => id ∈ node.edges) ↔
        node ∈ predecessors w id := by
    intro node
    rw [mem_predecessors, mem_filter, decide_eq_true_eq]
    refine ⟨fun hnode => ⟨hran hnode.1, hnode.2⟩, fun hnode => ⟨?_, hnode.2⟩⟩
    have hone := h node (mem_predecessors.mpr hnode)
    obtain ⟨node', hnode', hid⟩ := countP_pos_iff.mp (by
      rw [hone]
      exact Nat.one_pos)
    have heq := inj_on_of_nodup_map hproper.ids (hran hnode') hnode.1 (of_decide_eq_true hid)
    rwa [heq] at hnode'
  refine (perm_ext_iff_of_nodup ?_ ?_).mpr hmem
  · rw [nodup_iff_count_le_one]
    intro node
    by_cases hnode : node ∈ (ran c.shared.history).filter fun node => id ∈ node.edges
    · rw [← h node ((hmem node).mp hnode)]
      refine (filter_sublist.count_le node).trans ?_
      refine countP_mono_left fun node' _ heq => ?_
      rw [beq_iff_eq.mp heq]
      exact decide_eq_true rfl
    grind
  · exact hproper.ids.of_map.filter _

def Unskipped (w : WorkflowDefinition) (m : NodeDefinition) (history : List (Event β)) : Prop :=
  ∀ node output, .succeeded node output ∈ history → ¬Skips w m node output

section

variable (hm : Unskipped w m c.shared.history)

include hm

include hc in
theorem Unskipped.count_eq (hp : p ∈ w.nodes)
    (hleads : Leads w p.id m.id) {node : NodeDefinition} {output : NodeOutput β}
    (h : .succeeded node output ∈ c.shared.history) :
    (determineNextNodes node output).count p.id = if p.id ∈ node.edges then 1 else 0 := by
  split
  next hedge =>
    by_contra hcount
    exact hm node output h ⟨p, hp, hedge, hleads, .inl hcount⟩
  next hedge =>
    refine count_eq_zero.mpr fun hmem => hedge ?_
    exact mem_edges_of_determineNextNodes (hc.outputs node output h).2 hmem

include hproper hc in
theorem Unskipped.card_arrivals (hp : p ∈ w.nodes)
    (hleads : Leads w p.id m.id) (hran : ∀ q ∈ predecessors w p.id,
      ((ran c.shared.history).countP fun node => node.id = q.id) = 1) :
    arrivals p.id c.shared.history = selected p.id c.shared.history ∧
      (arrivals p.id c.shared.history).card = (predecessors w p.id).length := by
  obtain ⟨harrivals, hlength⟩ := arrivals_eq fun _ _ hmem => hm.count_eq hc hp hleads hmem
  refine ⟨harrivals, ?_⟩
  rw [harrivals, Multiset.coe_card, hlength, countP_eq_length_filter]
  exact (ran_perm_predecessors hproper hc hran).length_eq

theorem Unskipped.expectedInputs_eq (hp : p ∈ w.nodes)
    (hleads : Leads w p.id m.id) (hwaits : p.waitsAll)
    (hran : ∀ q ∈ predecessors w p.id, q ∈ ran c.shared.history) :
    expectedInputs w p = (predecessors w p.id).length := by
  refine Workflow.expectedInputs_eq fun q hq => ?_
  obtain ⟨event, hevent, hsome⟩ := mem_filterMap.mp (hran q hq)
  cases event with
  | succeeded node output =>
    cases hsome
    by_contra hcount
    exact hm q output hevent ⟨p, hp, (mem_predecessors.mp hq).2, hleads, .inr ⟨hwaits, hcount⟩⟩
  | _ => cases hsome

end

include hproper in
theorem starts_eq (hp : p ∈ w.nodes) :
    (w.nodes.countP fun node => isStartNode w node && node.id = p.id) =
      if isStartNode w p = true then 1 else 0 := by
  have hsame : ∀ node ∈ w.nodes, node.id = p.id ↔ node = p := by
    intro node hnode
    refine ⟨fun hid => ?_, fun heq => by rw [heq]⟩
    exact inj_on_of_nodup_map hproper.ids hnode hp hid
  split
  next hstart =>
    rw [← count_eq_one_of_mem hproper.ids.of_map hp, count]
    refine countP_congr fun node hnode => ?_
    grind
  grind

include hproper hc hfinished in
theorem Unskipped.required_eq (hs : Selective w c.shared.history)
    (hun : Unskipped w m c.shared.history) (hp : p ∈ w.nodes) (hleads : Leads w p.id m.id)
    (hjoined : Joined w p) (hran : ∀ q ∈ predecessors w p.id,
      ((ran c.shared.history).countP fun node => node.id = q.id) = 1) :
    (deliveries p.id c.shared.history).length = required w p := by
  obtain ⟨-, hcard⟩ := hun.card_arrivals hproper hc hp hleads hran
  rw [← hc.deliveries_eq hfinished hjoined, Multiset.coe_card] at hcard
  have hpos := length_pos_iff.mpr hjoined.predecessors
  cases hmode : p.mode with
  | waitAny => grind [Selective.single, Joined.type, required]
  | waitAll =>
    rw [hcard, required, if_neg (by simp [hmode]), hun.expectedInputs_eq hp
      hleads ⟨hjoined.type, hmode⟩]
    intro q hq
    have hperm := ran_perm_predecessors hproper hc hran
    exact (mem_filter.mp (hperm.mem_iff.mpr hq)).1
  | unknown => exact absurd hmode hjoined.mode

include hproper hc hfinished in
theorem Unskipped.launched_once (hacyclic : Acyclic (Edge w))
    (hsingle : SinglePredecessor w) (hs : Selective w c.shared.history) (hm : m ∈ w.nodes)
    (hwaits : m.waitsAll) (hun : Unskipped w m c.shared.history) (hp : p ∈ w.nodes)
    (hleads : Leads w p.id m.id) : (launched p.id c).card = 1 := by
  have hwf : WellFounded (Edge w) := hacyclic.wellFounded
    (w.nodes.map NodeDefinition.id).finite_toSet (by
      rintro _ _ ⟨node, hnode, rfl, -⟩
      exact mem_map_of_mem hnode)
  induction hid : p.id using hwf.induction generalizing p with
  | _ id ih =>
    subst hid
    have hran : ∀ q ∈ predecessors w p.id,
        ((ran c.shared.history).countP fun node => node.id = q.id) = 1 := by
      intro q hq
      obtain ⟨hq, hedge⟩ := mem_predecessors.mp hq
      have hstep : Edge w q.id p.id := ⟨q, hq, rfl, hedge⟩
      rw [hc.countP_ran hfinished]
      exact ih q.id hstep hq (hleads.head hstep) rfl
    obtain ⟨-, hcard⟩ := hun.card_arrivals hproper hc hp hleads hran
    have hfind := findNode_eq hproper.ids hp
    by_cases hnone : predecessors w p.id = []
    · have hstart : isStartNode w p = true := isStartNode_eq.mpr (.inr hnone)
      rw [hc.card_launched hfinished ⟨hfind, .inr hnone⟩, hcard, hnone,
        starts_eq hproper hp, if_pos hstart]
      rfl
    · by_cases htype : p.type = .merge
      · have hjoined : Joined w p := ⟨hfind, htype, hproper.modes p hp htype, hnone⟩
        obtain ⟨data, hlaunched, -⟩ := hc.calls_of_required hfinished
          hjoined (hun.required_eq hproper hc hfinished hs hp hleads hjoined hran)
        rw [hlaunched]
        rfl
      · have hone : (predecessors w p.id).length = 1 := by
          have := hsingle p hp htype
          have := length_pos_iff.mpr hnone
          omega
        have hstart : ¬isStartNode w p = true := by grind [isStartNode_eq, Proper.triggers]
        rw [hc.card_launched hfinished ⟨hfind, .inl htype⟩, hcard, hone,
          starts_eq hproper hp, if_neg hstart]

include hproper hc hfinished in
theorem mergedOnce_of_finished (hacyclic : Acyclic (Edge w)) (hsingle : SinglePredecessor w)
    (hs : Selective w c.shared.history) (hm : m ∈ w.nodes) (htype : m.type = .merge)
    (hne : deliveries m.id c.shared.history ≠ []) : MergedOnce m c.shared.history := by
  have hjoined : Joined w m := ⟨findNode_eq hproper.ids hm, htype,
    hproper.modes m hm htype, hs.referenced m.id hne⟩
  cases hmode : m.mode with
  | waitAny =>
    have hone : (deliveries m.id c.shared.history).length = 1 := by
      have := hs.single m hm htype hmode
      have := length_pos_iff.mpr hne
      omega
    obtain ⟨data, -, hcalls, hperm⟩ := hc.calls_of_required hfinished hjoined
      (by rw [hone, required, if_pos hmode])
    refine ⟨data, hcalls, fun h => ?_, fun _ => ?_⟩
    · rw [hmode] at h
      cases h
    · obtain ⟨d, hd⟩ := length_eq_one_iff.mp hone
      rw [hd] at hperm ⊢
      exact perm_singleton.mp hperm
  | waitAll =>
    have hwaits : m.waitsAll := ⟨htype, hmode⟩
    have hun : Unskipped w m c.shared.history := hs.complete m hm hwaits hne
    have hran : ∀ q ∈ predecessors w m.id,
        ((ran c.shared.history).countP fun node => node.id = q.id) = 1 := by
      intro q hq
      obtain ⟨hq, hedge⟩ := mem_predecessors.mp hq
      rw [hc.countP_ran hfinished]
      exact hun.launched_once hproper hc hfinished hacyclic hsingle hs hm
        hwaits hq (.single ⟨q, hq, rfl, hedge⟩)
    obtain ⟨data, -, hcalls, hperm⟩ := hc.calls_of_required hfinished hjoined
      (hun.required_eq hproper hc hfinished hs hm .refl hjoined hran)
    obtain ⟨hselected, -⟩ := hun.card_arrivals hproper hc hm .refl hran
    rw [← hc.deliveries_eq hfinished hjoined] at hselected
    refine ⟨data, hcalls, fun _ => ?_, fun h => ?_⟩
    · exact hperm.trans (Multiset.coe_eq_coe.mp hselected)
    · rw [hmode] at h
      cases h
  | unknown => exact absurd hmode hjoined.mode

end Closing

/-! ## Every execution -/

/-- In every fair execution that meets the condition no node is left to run from
some moment on, and each merge node with an input has been executed once. -/
theorem merged_once_of_complete {input : Data β} (hproper : Proper w registry)
    (hacyclic : Graph.Acyclic (Edge w)) (hsingle : SinglePredecessor w)
    {x : Execution (code w registry β) (CompleteStep w) (started w input)} (hfair : x.Fair) :
    ∃ N, ∀ n, N ≤ n → Finished (x.config n) ∧ ∀ m ∈ w.nodes, m.type = .merge →
        deliveries m.id (x.config n).shared.history ≠ [] →
          MergedOnce m (x.config n).shared.history := by
  obtain ⟨N, hrest, hfinished⟩ := eventually_finished hproper hacyclic (fun _ _ h => h.keeps) hfair
  obtain ⟨acts, hrun⟩ := x.exists_run N
  obtain ⟨-, hc, hs⟩ := flow_invariant
    (I := fun c => Ledger w c ∧ Selective w c.shared.history) hproper
    (fun _ _ h => h.keeps) ⟨ledger_started w input, by
      refine ⟨fun id h => absurd rfl h, fun _ _ _ _ => Nat.zero_le 1, ?_⟩
      intro m _ _ h
      exact absurd rfl h⟩ (by
      rintro c i b t o - ⟨hc, hs⟩ hok ht h
      exact ⟨hc.advance h ht, hs.advance h (hok.2 t ht) hproper.ids⟩) hrun
  refine ⟨N, fun n hn => ?_⟩
  rw [hrest n hn]
  exact ⟨hfinished, fun m hm htype hne => mergedOnce_of_finished hproper hc
    hfinished hacyclic hsingle hs hm htype hne⟩

theorem acyclic_of_edges (rank : String → ℕ)
    (h : ∀ node ∈ w.nodes, ∀ id ∈ node.edges, rank node.id < rank id) : Acyclic (Edge w) := by
  refine acyclic_of_rank rank ?_
  rintro _ id ⟨node, hnode, rfl, hedge⟩
  exact h node hnode id hedge

instance (w : WorkflowDefinition) : Decidable (SinglePredecessor w) :=
  inferInstanceAs (Decidable (∀ node ∈ w.nodes, node.type ≠ .merge →
    (predecessors w node.id).length ≤ 1))

instance (c : Config (Engine β) (Thread β)) : Decidable (Finished c) :=
  inferInstanceAs (Decidable (∀ t ∈ c.threads, finished t = true))

theorem Finished.next_eq_none (h : Finished c) (i : ℕ) (t : Thread β) (b : Choice β)
    (ht : c.threads[i]? = some t) : (code w registry β).next c.shared i t b = none := by
  have hend := h t (mem_of_getElem? ht)
  cases hnext : (code w registry β).next c.shared i t b with
  | none => rfl
  | some =>
    have hstep := step_of_next hnext
    revert hend hstep
    fun_cases finished t <;> intro hend hstep
    · cases hstep
    · cases hstep with
      | node h => cases h
    · cases hend

/-- The moves of goroutine `i`: its handler returns `output`, and `k` steps
follow. -/
def moves (i : ℕ) (output : NodeOutput Unit) (k : ℕ) : List (Move (Thread Unit) (Choice Unit)) :=
  ([.run i (.time 0), .run i (.time 0), .run i (.returns (some output))] :
      List (Move (Thread Unit) (Choice Unit))) ++
    replicate k (Move.run i (Choice.time 0))

variable (w)

/-- The output names every node that may follow, once. -/
def isFull (node : NodeDefinition) (output : NodeOutput Unit) : Bool :=
  w.nodes.all fun next => next.id ∉ node.edges ||
    (determineNextNodes node output).count next.id == 1 && node.edges.count next.id == 1

/-- A condition on the executions that can be checked. -/
def isFullAt (e : Engine Unit) : Thread Unit → Bool
  | .node _ node _ (.storing (some output)) => isFull w node output
  | .node _ _ _ (.merging next _ _) => next.mode == .waitAll && e.history.all fun
        | .succeeded node output => isFull w node output
        | _ => true
  | .node _ _ _ (.check _ .cleaning) => w.nodes.all fun m => (e.mergeStates m.id).isNone
  | _ => true

def isFullStep (c : Config (Engine Unit) (Thread Unit)) : Move (Thread Unit) (Choice Unit) → Bool
  | .spawn _ => true
  | .run i _ => c.threads[i]?.all (isFullAt w c.shared)

variable {w}

theorem not_skips_of_isFull {node : NodeDefinition} {output : NodeOutput Unit}
    (h : isFull w node output = true) : ¬Skips w m node output := by
  rintro ⟨next, hnext, hedge, -, hcount⟩
  have hfull := all_eq_true.mp h next hnext
  grind

theorem staysComplete_of_isFullAt {e : Engine Unit} {t : Thread Unit} (h : isFullAt w e t = true) :
    StaysComplete w e t := by
  revert h
  fun_cases isFullAt w e t <;> intro h
  · exact fun m _ _ hskips => absurd hskips (not_skips_of_isFull h)
  · obtain ⟨hmode, hall⟩ := Bool.and_eq_true_iff.mp h
    refine ⟨fun _ node output hmem => ?_, fun hany => ?_⟩
    · grind [not_skips_of_isFull]
    · rw [hany] at hmode
      cases hmode
  · exact fun m hm => Option.isNone_iff_eq_none.mp (all_eq_true.mp h m hm)
  grind [StaysComplete, KeepsStates]

theorem complete_of_isFullStep {c : Config (Engine Unit) (Thread Unit)}
    {a : Move (Thread Unit) (Choice Unit)} (h : isFullStep w c a = true) : Complete w c a := by
  cases a with
  | spawn => trivial
  | run =>
    intro t ht
    grind [staysComplete_of_isFullAt, isFullStep]

def diamond : WorkflowDefinition :=
  ⟨"w", [{ id := "a", type := .manual, next := ["b", "c"] },
    { id := "b", type := .other "task", next := ["m"] },
    { id := "c", type := .other "task", next := ["m"] },
    { id := "m", type := .merge }]⟩

/-- An execution of the diamond. -/
theorem merged_once_of_complete_diamond :
    ∃ x : Execution (code diamond (fun _ => true) Unit) (CompleteStep diamond)
      (started diamond (.plain ())), x.Fair ∧ ∃ n, ∃ m ∈ diamond.nodes,
        m.waitsAll ∧ deliveries m.id (x.config n).shared.history ≠ [] ∧
          MergedOnce m (x.config n).shared.history := by
  obtain ⟨c, hrun, hend, hne⟩ := exists_run (code diamond (fun _ => true) Unit).step
    (fun c a => Succeeding c a ∧ isFullStep diamond c a = true)
    (started diamond (.plain ()))
    (flatten [replicate 4 (.run 0 (.time 0)),
      moves 1 { data := .plain () } 9, moves 2 { data := .plain () } 7,
      moves 3 { data := .plain () } 12, moves 4 { data := .plain () } 4])
    (fun c => Finished c ∧ deliveries "m" c.shared.history ≠ [])
    (by decide +kernel)
  have hcomplete : Run _ (CompleteStep diamond) _ _ c :=
    Run.mono (fun h => ⟨h.1, complete_of_isFullStep h.2⟩) hrun
  obtain ⟨x, N, hfair, -, hN⟩ := exists_fair hcomplete hend.next_eq_none
  have hproper : Proper diamond fun _ => true := by
    refine ⟨by decide, fun _ _ => rfl, by decide, by decide, ?_⟩
    intro _ _ _ node hnode _ htrigger
    exact (by decide : ∀ node ∈ diamond.nodes,
      node.type.isTrigger = true → predecessors diamond node.id = [])
      node hnode htrigger
  have hacyclic : Acyclic (Edge diamond) :=
    acyclic_of_edges (fun id => if id = "a" then 0 else if id = "m" then 2
      else 1) (by decide)
  obtain ⟨M, hM⟩ := merged_once_of_complete hproper hacyclic (by decide) hfair
  refine ⟨x, hfair, max M N, { id := "m", type := .merge }, by decide,
    ⟨rfl, rfl⟩, ?_⟩
  have hne' : deliveries "m" (x.config (max M N)).shared.history ≠ [] := by
    rwa [hN _ (le_max_right M N)]
  exact ⟨hne', (hM _ (le_max_left M N)).2 _ (by decide) rfl hne'⟩

/-! ## Executions that merge badly -/

/-- An acyclic workflow is registered, and in an execution that ends a merge node
got an input and was not executed once with what it should get. -/
def MergesBadly (w : WorkflowDefinition) : Prop :=
  registerWorkflow w = .ok () ∧ Graph.Acyclic (Edge w) ∧ SinglePredecessor w ∧
    ∃ acts c, Run (code w (fun _ => true) Unit).step Succeeding
        (started w (.plain ())) acts c ∧ Finished c ∧
      ∃ m ∈ w.nodes, m.type = .merge ∧ deliveries m.id c.shared.history ≠ [] ∧
        ¬MergedOnce m c.shared.history

theorem mergesBadly_of_exec (rank : String → ℕ) (acts : List (Move (Thread Unit) (Choice Unit)))
    (hregister : registerWorkflow w = .ok ())
    (hrank : ∀ node ∈ w.nodes, ∀ id ∈ node.edges, rank node.id < rank id)
    (hsingle : SinglePredecessor w) (hm : m ∈ w.nodes ∧ m.type = .merge)
    (h : (exec (code w (fun _ => true) Unit).step Succeeding
      (started w (.plain ())) acts).any (fun c => decide (Finished c ∧
        deliveries m.id c.shared.history ≠ [] ∧
        (calls m.id c.shared.history).length ≠ 1)) = true) : MergesBadly w := by
  obtain ⟨c, hrun, hend, hne, hcalls⟩ := exists_run _ _ _ _ _ h
  refine ⟨hregister, acyclic_of_edges rank hrank, hsingle, acts, c, hrun, hend,
    m, hm.1, hm.2, hne, ?_⟩
  rintro ⟨data, honce, -⟩
  rw [honce] at hcalls
  exact hcalls rfl

def bothArms : WorkflowDefinition :=
  ⟨"w", [ { id := "a", type := .manual, trueNext := ["m"], falseNext := ["m"] },
    { id := "m", type := .merge }]⟩

def twoInputs (mode : MergeMode) : WorkflowDefinition :=
  ⟨"w", [{ id := "a", type := .manual, next := ["m"] },
    { id := "b", type := .manual, next := ["m"] },
    { id := "m", type := .merge, mode := mode }]⟩

/-- A merge node waits for the arm that was not taken; it is executed for each of
its inputs; and what it has collected is removed. -/
theorem merges_badly :
    MergesBadly bothArms ∧ MergesBadly (twoInputs .waitAny) ∧ MergesBadly (twoInputs .waitAll) := by
  refine ⟨?_, ?_, ?_⟩
  · exact mergesBadly_of_exec (m := { id := "m", type := .merge })
      (fun id => if id = "m" then 1 else 0)
      (flatten [[.run 0 (.time 0), .run 0 (.time 0)], moves 1 { data := .condition true () } 12])
      rfl (by decide) (by decide) (by decide) (by decide +kernel)
  · exact mergesBadly_of_exec (m := { id := "m", type := .merge, mode := .waitAny })
      (fun id => if id = "m" then 1 else 0)
      (flatten [[.run 0 (.time 0), .run 0 (.time 0), .run 0 (.time 0)],
        moves 1 { data := .plain () } 7, moves 2 { data := .plain () } 12,
        moves 3 { data := .plain () } 4, moves 4 { data := .plain () } 4])
      rfl (by decide) (by decide) (by decide) (by decide +kernel)
  · exact mergesBadly_of_exec (m := { id := "m", type := .merge })
      (fun id => if id = "m" then 1 else 0)
      (flatten [[.run 0 (.time 0)], moves 1 { data := .plain () } 12,
        [.run 0 (.time 0), .run 0 (.time 0)],
        moves 2 { data := .plain () } 6])
      rfl (by decide) (by decide) (by decide) (by decide +kernel)

end Engine

end Fluxor.Workflow
