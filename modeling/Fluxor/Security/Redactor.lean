import Mathlib.Algebra.Order.BigOperators.Group.List
import Mathlib.Algebra.Order.Ring.Nat
import Mathlib.Data.List.Perm.Subperm

/-!
# Redaction

`Redact` of `pkg/security/redaction/redactor.go`, for the detections that `Detect`
lists type by type, in the order of a map. `Redact` goes through them from the last
to the first and takes their positions for positions in the text made so far, which
they are, whatever the replacements, exactly if the detections ascend.
-/

namespace Fluxor.Security

open List

variable {α β τ : Type*}

/-- `Detection`, with the text that `applyStrategy` gives for it. -/
structure Detection (α : Type*) where
  (startPos endPos : ℕ)
  redacted : List α

/-- A round of the loop; `none` if a slice is out of range. -/
def Detection.replace (d : Detection α) (result : List α) : Option (List α) :=
  if d.startPos ≤ result.length ∧ d.endPos ≤ result.length then
    some (result.take d.startPos ++ d.redacted ++ result.drop d.endPos)
  else none

def redact (text : List α) (detections : List (Detection α)) : Option (List α) :=
  detections.foldr (fun d result => result.bind d.replace) (some text)

/-- The spans lie in a text of the given length, one behind the other. -/
def Ascending (length : ℕ) (detections : List (Detection α)) : Prop :=
  (∀ d ∈ detections, d.startPos ≤ d.endPos ∧ d.endPos ≤ length) ∧
    detections.Pairwise (·.endPos ≤ ·.startPos)

/-- The position is in no span. -/
def outside (detections : List (Detection α)) (pos : ℕ) : Bool :=
  detections.all fun d => decide (pos < d.startPos ∨ d.endPos ≤ pos)

/-! ## Where the bytes come from -/

def Detection.map (f : α → β) (d : Detection α) : Detection β :=
  ⟨d.startPos, d.endPos, d.redacted.map f⟩

variable {text : List α} {ds : List (Detection α)}

theorem Ascending.map {n : ℕ} (h : Ascending n ds) (f : Detection α → Detection β)
    (hf : ∀ d, (f d).startPos = d.startPos ∧ (f d).endPos = d.endPos) : Ascending n (ds.map f) := by
  refine ⟨forall_mem_map.mpr fun d hd => ?_, pairwise_map.mpr (h.2.imp fun hle => ?_)⟩
  · rw [(hf d).1, (hf d).2]
    exact h.1 d hd
  · rwa [(hf _).2, (hf _).1]

/-- The positions that are left when the bytes at the given spans are removed. -/
def remove (n : ℕ) (ds : List (Detection α)) : Option (List ℕ) :=
  redact (range n) (ds.map fun d => ⟨d.startPos, d.endPos, []⟩)

/-- The sum of the positions in the spans. -/
def weight (ds : List (Detection α)) : ℕ :=
  (ds.map fun d => (range' d.startPos (d.endPos - d.startPos)).sum).sum

end Fluxor.Security
