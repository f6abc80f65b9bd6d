import Fluxor.Support.Transition
import Mathlib.Algebra.Order.Ring.Int
import Mathlib.Data.List.Perm.Subperm

/-!
# Seats

`SeatManager` of `pkg/buckey_storage/seats.go`, for the calls of one scope: each
scope has a key of its own, and the calls are serial. The operations of the
storage may fail without effect. `Acquire` takes a `Get` that fails for a scope
without holders, and then overwrites those that are stored. Holders are non-empty
strings; `json` is what the JSON encoding makes of one (invalid UTF-8 becomes U+FFFD).
-/

namespace Fluxor.Storage

open Transition Function List

/-- The stored holders, and those whose last successful call was an `Acquire`. -/
structure Seats (η : Type*) where
  holders : List η := []
  seated : η → Bool := fun _ => false

namespace Seats

/-- The operations of the storage that fail during a call. -/
structure Failures where
  get : Bool := false
  put : Bool := false
  delete : Bool := false

inductive Call (η : Type*)
  | acquire (holderID : η) (fails : Failures)
  | release (holderID : η) (fails : Failures)

variable {η : Type*} [DecidableEq η] (json : η → η) (limit : ℤ) (s : Seats η) (holderID : η)
  (fails : Failures)

def succeeds (seated : Bool) : Seats η :=
  { s with seated := update s.seated holderID seated }

/-- Marshal the holders and put them into the storage. -/
def put (holders : List η) : Seats η :=
  { s with holders := holders.map json }

def acquire : Seats η :=
  let holders := if fails.get then [] else s.holders
  if limit ≤ 0 then s
  else if holderID ∈ holders then s.succeeds holderID true
  else if limit ≤ holders.length then s
  else if fails.put then s
  else (s.put json (holders ++ [holderID])).succeeds holderID true

def release : Seats η :=
  let next := s.holders.filter (· ≠ holderID)
  if fails.get ∨ s.holders = [] then s.succeeds holderID false
  else if next = [] ∧ fails.delete ∨ next ≠ [] ∧ fails.put then s
  else (s.put json next).succeeds holderID false

def step (s : Seats η) : Call η → Option (Seats η)
  | .acquire holderID fails => some (s.acquire json limit holderID fails)
  | .release holderID fails => some (s.release json holderID fails)

/-- An `Acquire` can read the storage, and JSON keeps its holder as it is. -/
def Readable (_ : Seats η) : Call η → Prop
  | .acquire holderID fails => fails.get = false ∧ json holderID = holderID
  | .release .. => True

instance (call : Call η) : Decidable (s.Readable json call) :=
  match call with
  | .acquire .. | .release .. => by delta Readable; infer_instance

structure Kept (s : Seats η) : Prop where
  nodup : s.holders.Nodup
  length_le : s.holders.length ≤ limit.toNat
  seated : ∀ holderID, s.seated holderID → holderID ∈ s.holders
  fixed : ∀ holderID ∈ s.holders, json holderID = holderID

variable {json limit s holderID fails} {other : η}

omit [DecidableEq η] in
theorem put_eq {holders : List η} (h : ∀ holderID ∈ holders, json holderID = holderID) :
    s.put json holders = { s with holders := holders } := by
  rw [put, map_congr_left h, map_id']

theorem Kept.acquired (h : Kept json limit s) (hmem : holderID ∈ s.holders) :
    Kept json limit (s.succeeds holderID true) := by
  refine ⟨h.nodup, h.length_le, fun other hother => ?_, h.fixed⟩
  by_cases heq : other = holderID
  · exact heq ▸ hmem
  · exact h.seated other ((update_of_ne heq ..).symm.trans hother)

theorem Kept.acquire (h : Kept json limit s) (hget : fails.get = false)
    (hjson : json holderID = holderID) : Kept json limit (s.acquire json limit holderID fails) := by
  have hfixed : ∀ other ∈ s.holders ++ [holderID], json other = other := by
    intro other hother
    rcases mem_append.mp hother with hother | hother
    · exact h.fixed other hother
    · rw [mem_singleton.mp hother, hjson]
  simp only [Seats.acquire, hget, Bool.false_eq_true, if_false]
  split_ifs with _ hmem
  · exact h
  · exact h.acquired hmem
  · exact h
  · exact h
  · rw [put_eq hfixed]
    refine Kept.acquired ⟨?_, ?_, fun other hother => ?_, hfixed⟩ ?_
    · refine nodup_append.mpr ⟨h.nodup, by simp, fun other hother last hlast heq => ?_⟩
      exact hmem (mem_singleton.mp hlast ▸ heq ▸ hother)
    · rw [length_append, length_singleton]
      omega
    · exact mem_append_left _ (h.seated other hother)
    · exact mem_append_right _ (mem_singleton_self _)

theorem seated_released (h : (s.succeeds holderID false).seated other) :
    other ≠ holderID ∧ s.seated other := by
  by_cases heq : other = holderID
  · simp [succeeds, heq] at h
  · exact ⟨heq, (update_of_ne heq ..).symm.trans h⟩

theorem Kept.release (h : Kept json limit s) :
    Kept json limit (s.release json holderID fails) := by
  rw [Seats.release]
  split
  · exact ⟨h.nodup, h.length_le,
      fun other hother => h.seated other (seated_released hother).2, h.fixed⟩
  · split
    · exact h
    · have hfixed : ∀ other ∈ s.holders.filter (· ≠ holderID), json other = other := by
        intro other hother
        exact h.fixed other (mem_of_mem_filter hother)
      rw [put_eq hfixed]
      refine ⟨h.nodup.filter _, (length_filter_le ..).trans h.length_le, fun other hother => ?_,
        hfixed⟩
      obtain ⟨hne, hseated⟩ := seated_released hother
      exact mem_filter.mpr ⟨h.seated other hseated, by simpa using hne⟩

/-- If every `Acquire` can read the storage and JSON keeps its holder, no seat is oversold
or lost. -/
theorem kept_of_readable {calls : List (Call η)}
    (hrun : Run (step json limit) (Readable json) {} calls s) :
    s.holders.Nodup ∧ s.holders.length ≤ limit.toNat ∧
      (∀ holderID, s.seated holderID → holderID ∈ s.holders) ∧
      ∀ seated : List η, seated.Nodup → (∀ holderID ∈ seated, s.seated holderID) →
        seated.length ≤ limit.toNat := by
  have h : Kept json limit s := by
    refine hrun.invariant (I := Kept json limit) ?_ ⟨nodup_nil, Nat.zero_le _, by simp, nofun⟩
    intro s call t h hread hstep
    cases call with
    | acquire =>
      cases hstep
      exact h.acquire hread.1 hread.2
    | release =>
      cases hstep
      exact h.release
  refine ⟨h.nodup, h.length_le, h.seated, fun seated hnodup hall => ?_⟩
  have hsub := hnodup.subperm fun holderID hmem => h.seated holderID (hall holderID hmem)
  exact hsub.length_le.trans h.length_le

/-- Two holders take the seats of a scope with two seats. -/
theorem kept_of_readable_two : ∃ calls, ∃ s : Seats ℕ,
    Run (step (min 3) 2) (Readable (min 3)) {} calls s ∧
      s.holders = [1, 2] ∧ s.holders.length ≤ 2 := by
  obtain ⟨s, hrun, hholders⟩ := exists_run (step (min 3) 2) (Readable (min 3)) ({} : Seats ℕ)
    [.acquire 1 {}, .acquire 2 {}, .acquire 3 {}] (fun s => s.holders = [1, 2]) (by decide)
  exact ⟨_, s, hrun, hholders, (kept_of_readable hrun).2.1⟩

/-- A read that fails takes the seat of the first holder away. -/
theorem acquire_erases : ∃ calls, ∃ s : Seats ℕ, Run (step id 1) anyStep {} calls s ∧
    s.seated 1 = true ∧ s.seated 2 = true ∧ s.holders = [2] := by
  obtain ⟨s, hrun, hs⟩ := exists_run (step id 1) anyStep ({} : Seats ℕ)
    [.acquire 1 {}, .acquire 2 ⟨true, false, false⟩]
    (fun s => s.seated 1 = true ∧ s.seated 2 = true ∧ s.holders = [2]) (by decide)
  exact ⟨_, s, hrun, hs⟩

end Seats

end Fluxor.Storage
