import Mathlib.Algebra.GroupWithZero.Nat
import Mathlib.Order.WellFoundedSet

/-!
# Acyclic graphs

A graph with finitely many sources of edges and no cycle allows induction along its
edges in both directions. With lists of successors, each node can be given a weight
that pays for the weights of all its successors.
-/

namespace Fluxor.Graph

open Relation

variable {α : Type*} {r : α → α → Prop} {s : Set α}

def Acyclic (r : α → α → Prop) : Prop := ∀ a, ¬TransGen r a a

theorem acyclic_of_rank (rank : α → ℕ) (h : ∀ a b, r a b → rank a < rank b) : Acyclic r := by
  intro a hcycle
  have hgrows : ∀ b, TransGen r a b → rank a < rank b := by
    intro b hpath
    induction hpath with
    | single hab => exact h _ _ hab
    | tail _ hbc ih => exact ih.trans (h _ _ hbc)
  exact lt_irrefl _ (hgrows a hcycle)

section

variable (h : Acyclic r)

include h

theorem Acyclic.wellFoundedOn (hs : s.Finite) : s.WellFoundedOn (TransGen r) := by
  have : Std.Irrefl (TransGen r) := ⟨h⟩
  have : IsStrictOrder α (TransGen r) := {}
  exact hs.wellFoundedOn

theorem Acyclic.swap : Acyclic (Function.swap r) :=
  fun a hcycle => h a (transGen_swap.mp hcycle)

theorem Acyclic.wellFounded (hs : s.Finite) (hsource : ∀ a b, r a b → a ∈ s) :
    WellFounded r := by
  have hmem : ∀ a ∈ s, Acc r a := by
    intro a ha
    refine (h.wellFoundedOn hs).induction ha ?_
    intro b _ ih
    exact Acc.intro b fun c hcb => ih c (hsource c b hcb) (.single hcb)
  exact ⟨fun a => Acc.intro a fun b hba => hmem b (hsource b a hba)⟩

theorem Acyclic.wellFounded_swap (hs : s.Finite) (hsource : ∀ a b, r a b → a ∈ s) :
    WellFounded (Function.swap r) := by
  have hleaf : ∀ a, a ∉ s → Acc (Function.swap r) a := fun a ha =>
    Acc.intro a fun b hab => absurd (hsource a b hab) ha
  refine ⟨fun a => ?_⟩
  by_cases ha : a ∈ s
  · refine (h.swap.wellFoundedOn hs).induction ha ?_
    intro b _ ih
    refine Acc.intro b fun c hbc => ?_
    by_cases hc : c ∈ s
    · exact ih c hc (.single hbc)
    · exact hleaf c hc
  · exact hleaf a ha

end

/-- A node pays `cost` for itself, and for each successor its weight and `toll`. -/
theorem exists_weight {succ : α → List α} (h : WellFounded fun b a => b ∈ succ a) (cost toll : ℕ) :
    ∃ weight : α → ℕ, ∀ a, weight a = cost + ((succ a).map fun b => weight b + toll).sum := by
  let weight : α → ℕ := h.fix fun a ih =>
    cost + ((succ a).attach.map fun b => ih b.1 b.2 + toll).sum
  refine ⟨weight, fun a => ?_⟩
  change h.fix _ a = _
  rw [h.fix_eq]
  congr 2
  exact List.attach_map_val (f := fun b => weight b + toll)

end Fluxor.Graph
