import Mathlib.Algebra.GroupWithZero.Nat
import Mathlib.Algebra.BigOperators.Group.List.Basic

/-!
# Workflow definitions

The part of `pkg/workflow/types.go` that the engine reads, the checks of
`RegisterWorkflow`, and the questions about the graph that `pkg/workflow/engine.go`
asks: which nodes start, which nodes follow an output, and how many inputs a merge
node expects.
-/

namespace Fluxor.Workflow

/-- `NodeType`: the engine knows the triggers and the merge nodes; other types name handlers. -/
inductive NodeType
  | webhook | schedule | event | manual | merge
  | other (name : String)
  deriving DecidableEq

def NodeType.name : NodeType → String
  | .webhook => "webhook"
  | .schedule => "schedule"
  | .event => "event"
  | .manual => "manual"
  | .merge => "merge"
  | .other name => name

def NodeType.isTrigger : NodeType → Bool
  | .webhook | .schedule | .event | .manual => true
  | .merge | .other _ => false

/-- What the configuration of a merge node says under `mode`. -/
inductive MergeMode
  | waitAll | waitAny | unknown
  deriving DecidableEq

/-- `NodeDefinition`. A node without a `mode` waits for all inputs. The rest of the
configuration is for the handler only. -/
structure NodeDefinition where
  id : String
  type : NodeType
  mode : MergeMode := .waitAll
  next : List String := []
  onError : List String := []
  trueNext : List String := []
  falseNext : List String := []
  retryCount : ℤ := 0
  deriving DecidableEq

structure WorkflowDefinition where
  id : String
  nodes : List NodeDefinition

/-- The nodes that may follow when the node succeeds. -/
def NodeDefinition.edges (node : NodeDefinition) : List String :=
  node.next ++ node.trueNext ++ node.falseNext

/-- How often the handler is called before the node fails. -/
def NodeDefinition.attempts (node : NodeDefinition) : ℤ :=
  if node.retryCount = 0 then 1 else node.retryCount

def require (holds : Bool) (message : String) : Except String Unit :=
  if holds then .ok () else .error message

/-- The check of one list of references; `place` ends the message. -/
def checkReferences (known : List String) (node : NodeDefinition)
    (place : String) (refs : List String) : Except String Unit :=
  refs.forM fun next => require (next ∈ known)
    ("node " ++ node.id ++ " references unknown node " ++ next ++ place)

/-- `RegisterWorkflow`: the checks. The error branches are not checked. -/
def registerWorkflow (w : WorkflowDefinition) : Except String Unit := do
  require (w.id ≠ "") "workflow ID is required"
  require (w.nodes ≠ []) "workflow must have at least one node"
  w.nodes.forM fun node => require (node.id ≠ "") "node ID is required"
  let known := w.nodes.map NodeDefinition.id
  w.nodes.forM fun node => do
    checkReferences known node "" node.next
    checkReferences known node " in trueNext" node.trueNext
    checkReferences known node " in falseNext" node.falseNext

variable {node : NodeDefinition} {w : WorkflowDefinition}

/-- `isStartNode`: a trigger, or a node that no other one may be followed by. -/
def isStartNode (w : WorkflowDefinition) (node : NodeDefinition) : Bool :=
  node.type.isTrigger || w.nodes.all fun n => node.id ∉ n.edges

def findNode (w : WorkflowDefinition) (id : String) : Option NodeDefinition :=
  w.nodes.find? fun node => node.id = id

theorem findNode_mem {id : String} (h : findNode w id = some node) :
    node ∈ w.nodes ∧ node.id = id :=
  ⟨List.mem_of_find?_eq_some h, by simpa using List.find?_some h⟩

/-- The inputs that `handleMergeInput` expects for a node: one for each reference. -/
def expectedInputs (w : WorkflowDefinition) (node : NodeDefinition) : ℕ :=
  (w.nodes.map fun n => n.edges.count node.id).sum

/-- The data of an output: what the engine sees of it is a condition result. -/
inductive Data (β : Type*)
  | plain (value : β)
  | condition (result : Bool) (value : β)
  deriving DecidableEq

structure NodeOutput (β : Type*) where
  data : Data β
  nextNodes : List String := []
  stop : Bool := false
  deriving DecidableEq

def determineNextNodes {β : Type*} (node : NodeDefinition) (output : NodeOutput β) : List String :=
  if output.nextNodes ≠ [] then output.nextNodes
  else
    match output.data with
    | .condition true _ => node.trueNext
    | .condition false _ => node.falseNext
    | .plain _ => node.next

theorem mem_edges_of_determineNextNodes {β : Type*} {output : NodeOutput β}
    (hown : output.nextNodes = []) {id : String} (h : id ∈ determineNextNodes node output) :
    id ∈ node.edges := by
  rw [determineNextNodes, if_neg (by simpa using hown)] at h
  rw [NodeDefinition.edges, List.mem_append, List.mem_append]
  split at h
  · exact .inl (.inr h)
  · exact .inr h
  · exact .inl (.inl h)

end Fluxor.Workflow
