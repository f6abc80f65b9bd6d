import Mathlib.Algebra.Order.Ring.Int
import Mathlib.Data.List.ReduceOption

/-!
# Quorum reads

`GetQuorum` of `pkg/buckey_storage/replicated.go`. The vote is won by a value
that is counted most often, in an iteration over a map, and not by one that more
than half of the replicas hold.
-/

namespace Fluxor.Storage

open List

inductive QuorumError
  | notFound
  | tooFew (had : ℕ) (need : ℤ)
  | divergent
  deriving DecidableEq

variable {β : Type*} [DecidableEq β]

abbrev Replicas (β : Type*) := List (Option β)

def Replicas.values (r : Replicas β) : List β :=
  reduceOption r

/-- The loop over `contentCounts`, in the given order of the contents. -/
def vote (values : List β) : List β → ℕ × Option β → ℕ × Option β
  | [], best => best
  | v :: order, best =>
    vote values order (if best.1 < values.count v then (values.count v, some v) else best)

/-- `GetQuorum`, with the replicas it leaves. -/
def getQuorum (r : Replicas β) (minReads : ℤ) (order : List β) :
    Except QuorumError β × Replicas β :=
  if r.values.length < max 1 minReads then
    (.error (if r.values = [] then .notFound else .tooFew r.values.length (max 1 minReads)), r)
  else
    match vote r.values order (0, none) with
    | (_, none) => (.error .divergent, r)
    | (_, some majority) =>
      (.ok majority, r.map fun b => if b = some majority then b else some majority)

/-- More than half of the replicas that hold the key hold this value. -/
def Majority (values : List β) (v : β) : Prop :=
  values.length < 2 * values.count v

/-- Only a value with the majority is returned, and all replicas hold it then;
without one the replicas diverge, and an error changes nothing. -/
structure NeedsMajority (r : Replicas β) (minReads : ℤ)
    (result : Except QuorumError β × Replicas β) : Prop where
  ok : ∀ v, result.1 = .ok v → Majority r.values v ∧ ∀ b ∈ result.2, b = some v
  divergent : minReads ≤ r.values.length → (¬∃ v, Majority r.values v) →
    result.1 = .error .divergent
  error : ∀ e, result.1 = .error e → result.2 = r

variable {values order : List β} {best : ℕ × Option β} {r : Replicas β} {minReads : ℤ}

theorem vote_spec (h : best.1 = best.2.elim 0 values.count) :
    (vote values order best).1 = (vote values order best).2.elim 0 values.count ∧
      best.1 ≤ (vote values order best).1 ∧
      ∀ v ∈ order, values.count v ≤ (vote values order best).1 := by
  induction order generalizing best with
  | nil => exact ⟨h, Nat.le_refl _, by simp⟩
  | cons v order ih =>
    rw [vote]
    split
    next hlt =>
      obtain ⟨hcount, hle, hall⟩ := @ih (values.count v, some v) rfl
      exact ⟨hcount, hlt.le.trans hle, forall_mem_cons.mpr ⟨hle, hall⟩⟩
    next hlt =>
      obtain ⟨hcount, hle, hall⟩ := ih h
      exact ⟨hcount, hle, forall_mem_cons.mpr ⟨(Nat.le_of_not_lt hlt).trans hle, hall⟩⟩

theorem getQuorum_eq (horder : r.values ⊆ order) (henough : ¬r.values.length < max 1 minReads) :
    ∃ v, getQuorum r minReads order = (.ok v, r.map fun _ => some v) ∧
      ∀ u, r.values.count u ≤ r.values.count v := by
  have hne : r.values ≠ [] := by
    intro hnil
    exact henough (by simp [hnil])
  obtain ⟨w, hw⟩ := exists_mem_of_ne_nil _ hne
  obtain ⟨hcount, -, hall⟩ := @vote_spec β _ r.values order (0, none) rfl
  rw [getQuorum, if_neg henough]
  cases hvote : vote r.values order (0, none) with
  | mk n winner =>
    rw [hvote] at hcount hall
    cases winner with
    | none =>
      have hpos := (count_pos_iff.mpr hw).trans_le (hall w (horder hw))
      exact absurd hcount hpos.ne'
    | some v =>
      refine ⟨v, congrArg (Prod.mk _) (map_congr_left fun b _ => ite_eq_right_iff.mpr id), ?_⟩
      intro u
      by_cases hu : u ∈ r.values
      · exact (hall u (horder hu)).trans_eq hcount
      · rw [count_eq_zero.mpr hu]
        exact Nat.zero_le _

/-- A quorum read needs the majority exactly if a value has it or too few hold the key. -/
theorem getQuorum_needsMajority_iff (r : Replicas β) (minReads : ℤ) (order : List β)
    (horder : r.values ⊆ order) : NeedsMajority r minReads (getQuorum r minReads order) ↔
      r.values.length < minReads ∨ ∃ v, Majority r.values v := by
  by_cases henough : r.values.length < max 1 minReads
  · have herror : ∃ e, getQuorum r minReads order = (.error e, r) ∧ e ≠ .divergent := by
      refine ⟨_, if_pos henough, ?_⟩
      split <;> simp
    obtain ⟨e, heq, hne⟩ := herror
    rw [heq]
    constructor
    · intro h
      by_contra hnot
      rw [not_or] at hnot
      exact hne (Except.error.inj (h.divergent (not_lt.mp hnot.1) hnot.2))
    · intro h
      refine ⟨by simp, fun hmin hnone => ?_, fun _ _ => rfl⟩
      exact absurd h (not_or.mpr ⟨not_lt.mpr hmin, hnone⟩)
  · obtain ⟨v, heq, hmost⟩ := getQuorum_eq horder henough
    rw [heq]
    constructor
    · exact fun h => .inr ⟨v, (h.ok v rfl).1⟩
    · intro h
      obtain ⟨u, hu⟩ := h.resolve_left fun hlt => henough (lt_max_of_lt_right hlt)
      have hv : Majority r.values v := hu.trans_le (Nat.mul_le_mul_left 2 (hmost u))
      refine ⟨fun w hw => ?_, fun _ hnone => absurd ⟨v, hv⟩ hnone, by simp⟩
      cases hw
      exact ⟨hv, by simp⟩

theorem getQuorum_needsMajority_two :
    NeedsMajority [some 1, some 1, none] 2 (getQuorum [some 1, some 1, none] 2 [1]) :=
  (getQuorum_needsMajority_iff _ _ _ (by decide)).mpr (.inr ⟨1, by rw [Majority]; decide⟩)

/-- Three replicas hold three values, and the first of them wins. -/
theorem getQuorum_divergent :
    getQuorum [some 1, some 2, some 3] 2 [1, 2, 3] = (.ok 1, [some 1, some 1, some 1]) := by
  decide

/-- After a quorum read all replicas agree: every further one returns the same value, in
whatever order it counts, and changes nothing. -/
theorem getQuorum_again {v : β} (h : getQuorum r minReads order = (.ok v, r'))
    {minReads' : ℤ} {order' : List β} (henough : minReads' ≤ r.length) (horder' : v ∈ order') :
    getQuorum r' minReads' order' = (.ok v, r') := by
  have hr' : r' = replicate r.length (some v) ∧ r ≠ [] := by
    rw [getQuorum] at h
    split at h
    · cases h
    next hread =>
      split at h
      · cases h
      · obtain ⟨hv, rfl⟩ := Prod.mk.inj h
        cases hv
        refine ⟨?_, ?_⟩
        · rw [← map_const]
          exact map_congr_left fun b _ => ite_eq_right_iff.mpr id
        · rintro rfl
          exact hread (lt_max_of_lt_left one_pos)
  obtain ⟨rfl, hne⟩ := hr'
  have hvalues : Replicas.values (replicate r.length (some v)) = replicate r.length v := by
    simp [Replicas.values, reduceOption]
  have hpos := length_pos_iff.mpr hne
  obtain ⟨u, hu, hmost⟩ := @getQuorum_eq β _ order' (replicate r.length (some v)) minReads'
    (by simp [hvalues, replicate_subset, horder']) (by rw [hvalues, length_replicate]; omega)
  have hle := hmost v
  rw [hvalues, count_replicate_self, count_replicate] at hle
  obtain rfl : v = u := by grind
  rw [hu]
  simp

theorem getQuorum_again_three : getQuorum [some 1, some 1, some 1] 3 [2, 1] =
    (.ok 1, [some 1, some 1, some 1]) :=
  getQuorum_again (by decide : getQuorum [some 1, some 2, some 3] 2 [1, 2, 3] = _) (by decide)
    (by decide)

end Fluxor.Storage
