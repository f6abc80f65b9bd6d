import Mathlib.Data.Finset.Erase
import Mathlib.Data.Finset.Insert

/-!
# Exclusive leases

Holders have resources. A table says who has a resource, and a set says which
resources are taken; both agree with what the holders have. Since the table is a
function, no resource has two holders.
-/

namespace Fluxor.Support

open Function

variable {H R : Type*} {holds holds' : H → R → Prop} {owner : R → Option H} {taken : Finset R}

/-- The table and the set say what the holders have. -/
structure Leased (holds : H → R → Prop) (owner : R → Option H) (taken : Finset R) : Prop where
  owner_iff : ∀ r p, owner r = some p ↔ holds p r
  taken_iff : ∀ r, r ∈ taken ↔ ∃ p, holds p r

namespace Leased

variable {r : R}

section

variable (h : Leased holds owner taken)

include h

theorem unique {p q : H} (hp : holds p r) (hq : holds q r) : p = q :=
  Option.some.inj (((h.owner_iff r p).mpr hp).symm.trans ((h.owner_iff r q).mpr hq))

theorem congr (hholds : ∀ p r, holds' p r ↔ holds p r) :
    Leased holds' owner taken := by
  constructor
  · intro r p
    rw [h.owner_iff, hholds]
  · intro r
    simp only [h.taken_iff, hholds]

theorem owner_eq_none (hr : r ∉ taken) : owner r = none := by
  cases howner : owner r with
  | none => rfl
  | some p => exact absurd ((h.taken_iff r).mpr ⟨p, (h.owner_iff r p).mp howner⟩) hr

end

variable [DecidableEq R]

section

variable (h : Leased holds owner taken)

include h

theorem take (hr : r ∉ taken) (p : H) (hholds : ∀ q r', holds' q r' ↔ holds q r' ∨ q = p ∧ r' = r) :
    Leased holds' (update owner r (some p)) (insert r taken) := by
  have hfree : ∀ q, ¬holds q r := fun q hq => hr ((h.taken_iff r).mpr ⟨q, hq⟩)
  constructor
  · intro r' q
    rw [hholds]
    by_cases hr' : r' = r
    · rw [hr', update_self, Option.some.injEq]
      simp [hfree, eq_comm]
    · rw [update_of_ne hr', h.owner_iff]
      simp [hr']
  · intro r'
    rw [Finset.mem_insert, h.taken_iff]
    simp only [hholds]
    constructor
    · rintro (rfl | ⟨q, hq⟩)
      · exact ⟨p, .inr ⟨rfl, rfl⟩⟩
      · exact ⟨q, .inl hq⟩
    · rintro ⟨q, hq | ⟨-, rfl⟩⟩
      · exact .inr ⟨q, hq⟩
      · exact .inl rfl

theorem release {p : H} (hp : holds p r)
    (honly : ∀ r', holds p r' → r' = r) (hholds : ∀ q r', holds' q r' ↔ holds q r' ∧ q ≠ p) :
    Leased holds' (update owner r none) (taken.erase r) := by
  constructor
  · intro r' q
    rw [hholds]
    by_cases hr' : r' = r
    · rw [hr', update_self]
      simp only [reduceCtorEq, false_iff, not_and, not_not]
      exact fun hq => h.unique hq hp
    · rw [update_of_ne hr', h.owner_iff]
      constructor
      · intro hq
        refine ⟨hq, ?_⟩
        rintro rfl
        exact hr' (honly r' hq)
      · exact fun hq => hq.1
  · intro r'
    rw [Finset.mem_erase, h.taken_iff]
    simp only [hholds]
    constructor
    · rintro ⟨hr', q, hq⟩
      refine ⟨q, hq, ?_⟩
      rintro rfl
      exact hr' (honly r' hq)
    · rintro ⟨q, hq, hne⟩
      refine ⟨?_, q, hq⟩
      rintro rfl
      exact hne (h.unique hq hp)

theorem release_free (hr : r ∉ taken) :
    update owner r none = owner ∧ taken.erase r = taken := by
  refine ⟨?_, Finset.erase_eq_of_notMem hr⟩
  rw [update_eq_self_iff]
  exact (h.owner_eq_none hr).symm

end

end Leased

end Fluxor.Support
