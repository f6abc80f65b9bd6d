import Mathlib.Order.Lattice

/-!
# Searching with jumps

A search goes from a position to later ones until it stops. If no jump passes over a
position with the wanted property, and the search stops only at one, then it finds
the first one (`jumpSearch_least`). That it stops within a number of attempts is
shown phase by phase (`Stops.of_phase`).
-/

namespace Fluxor.Support

variable {α β : Type*}

/-- Search with a bounded number of attempts; `jump` is `none` where the search stops. -/
def jumpSearch (jump : α → Option α) : ℕ → α → Option α
  | 0, _ => none
  | attempts + 1, a =>
    match jump a with
    | none => some a
    | some a' => jumpSearch jump attempts a'

variable {jump : α → Option α} {n n' : ℕ} {a a' b : α}

theorem jumpSearch_map {jump' : β → Option β} {f : α → β}
    (hjump : ∀ a, jump' (f a) = (jump a).map f) (n : ℕ) (a : α) :
    jumpSearch jump' n (f a) = (jumpSearch jump n a).map f := by
  induction n generalizing a with
  | zero => rfl
  | succ n ih =>
    simp only [jumpSearch, hjump]
    cases jump a with
    | none => rfl
    | some a' => exact ih a'

/-- A search whose jumps pass over no position with the property finds the first one. -/
theorem jumpSearch_least [LinearOrder α] {P : α → Prop} (hstop : ∀ a, jump a = none → P a)
    (hjump : ∀ a a', jump a = some a' → a < a' ∧ ∀ b, a ≤ b → b < a' → ¬P b)
    (h : jumpSearch jump n a = some b) : a ≤ b ∧ P b ∧ ∀ c, a ≤ c → c < b → ¬P c := by
  induction n generalizing a with
  | zero => cases h
  | succ n ih =>
    simp only [jumpSearch] at h
    cases ha : jump a with
    | none =>
      simp only [ha] at h
      obtain rfl := Option.some.inj h
      exact ⟨le_refl a, hstop a ha, fun c hac hca => absurd hac hca.not_ge⟩
    | some a' =>
      simp only [ha] at h
      obtain ⟨hlt, hskip⟩ := hjump a a' ha
      obtain ⟨hle, hP, hleast⟩ := ih h
      refine ⟨hlt.le.trans hle, hP, ?_⟩
      intro c hac hcb
      rcases lt_or_ge c a' with hc | hc
      · exact hskip c hac hc
      · exact hleast c hc hcb

/-- The search from a position stops within the given number of attempts. -/
def Stops (jump : α → Option α) (n : ℕ) (a : α) : Prop :=
  ∃ b, jumpSearch jump n a = some b

theorem Stops.of_none (h : jump a = none) : Stops jump (n + 1) a :=
  ⟨a, by simp only [jumpSearch, h]⟩

theorem stops_succ_iff (h : jump a = some a') : Stops jump (n + 1) a ↔ Stops jump n a' := by
  simp only [Stops, jumpSearch, h]

theorem Stops.mono (hle : n ≤ n') (h : Stops jump n a) : Stops jump n' a := by
  induction n generalizing a n' with
  | zero =>
    obtain ⟨b, hb⟩ := h
    cases hb
  | succ n ih =>
    obtain ⟨k, rfl⟩ : ∃ k, n' = k + 1 := ⟨n' - 1, by omega⟩
    cases ha : jump a with
    | none => exact .of_none ha
    | some =>
      rw [stops_succ_iff ha] at h ⊢
      exact ih (by omega) h

/-- Positions of a phase with their ranks: from each the search stops within `k`
attempts or jumps to one with a smaller rank. -/
theorem Stops.of_phase {I : α → Prop} {rank : α → ℕ} {k : ℕ}
    (hphase : ∀ a, I a → Stops jump k a ∨ ∃ a', jump a = some a' ∧ I a' ∧ rank a' < rank a)
    (ha : I a) : Stops jump (rank a + k) a := by
  induction hr : rank a using Nat.strongRecOn generalizing a with
  | ind r ih =>
    subst hr
    rcases hphase a ha with hstops | ⟨a', hjump, ha', hlt⟩
    · exact hstops.mono (Nat.le_add_left _ _)
    · have hrest : Stops jump (rank a' + k + 1) a :=
        (stops_succ_iff hjump).mpr (ih (rank a') hlt ha' rfl)
      exact hrest.mono (by omega)

end Fluxor.Support
