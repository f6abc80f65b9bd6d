import Mathlib.Data.Finset.Card
import Mathlib.Data.List.AList

/-!
# Registries

A registry keeps a set of values for each key. The set of a key is created
with its first value and removed with its last one, so that no key has an empty
set. What is registered is often described by a history: an entry counts since
it was last added, until it is removed.
-/

namespace Fluxor.Registry

open List Option AList

variable {κ β ε : Type*} [DecidableEq κ] [DecidableEq β] (table : AList fun _ : κ => Finset β)

/-- The set of a key; a key without an entry has the empty set. -/
def members (key : κ) : Finset β := (table.lookup key).getD ∅

def add (key : κ) (value : β) : AList fun _ : κ => Finset β :=
  table.insert key (insert value (members table key))

def remove (key : κ) (value : β) : AList fun _ : κ => Finset β :=
  match table.lookup key with
  | none => table
  | some values =>
    if (values.erase value).card = 0 then table.erase key
    else table.insert key (values.erase value)

def NoEmpty : Prop := ∀ key values, table.lookup key = some values → values.Nonempty

variable {table : AList fun _ : κ => Finset β} {key key' : κ} {value value' : β}

theorem members_add : members (add table key value) key' =
    if key' = key then insert value (members table key) else members table key' := by
  split
  next hkey => rw [members, add, hkey, lookup_insert, getD_some]
  next hkey => rw [members, add, lookup_insert_ne hkey, members]

theorem members_remove : members (remove table key value) key' =
    if key' = key then (members table key).erase value else members table key' := by
  rw [remove]
  split
  next hnone =>
    have hmembers : members table key = ∅ := by rw [members, hnone, getD_none]
    rw [hmembers, Finset.erase_empty]
    split
    next hkey => rw [hkey, hmembers]
    · rfl
  next values hvalues =>
    have hmembers : members table key = values := by rw [members, hvalues, getD_some]
    rw [hmembers]
    split
    next hempty =>
      by_cases hkey : key' = key
      · rw [if_pos hkey, hkey, members, lookup_erase, Finset.card_eq_zero.mp hempty, getD_none]
      · rw [if_neg hkey, members, lookup_erase_ne hkey, members]
    · by_cases hkey : key' = key
      · rw [if_pos hkey, hkey, members, lookup_insert, getD_some]
      · rw [if_neg hkey, members, lookup_insert_ne hkey, members]

theorem mem_members_add : value' ∈ members (add table key value) key' ↔
    (key' = key ∧ value' = value) ∨ value' ∈ members table key' := by
  rw [members_add]
  split
  next hkey =>
    subst hkey
    simp
  next hkey => simp [hkey]

theorem mem_members_remove : value' ∈ members (remove table key value) key' ↔
    ¬(key' = key ∧ value' = value) ∧ value' ∈ members table key' := by
  rw [members_remove]
  split
  next hkey =>
    subst hkey
    simp
  next hkey => simp [hkey]

theorem NoEmpty.add (h : NoEmpty table) : NoEmpty (Registry.add table key value) := by
  intro key' values hvalues
  by_cases hkey : key' = key
  · rw [Registry.add, hkey, lookup_insert] at hvalues
    cases hvalues
    exact Finset.insert_nonempty _ _
  · rw [Registry.add, lookup_insert_ne hkey] at hvalues
    exact h key' values hvalues

theorem NoEmpty.remove (h : NoEmpty table) : NoEmpty (Registry.remove table key value) := by
  intro key' values hvalues
  rw [Registry.remove] at hvalues
  split at hvalues
  · exact h key' values hvalues
  · split at hvalues
    · by_cases hkey : key' = key
      · rw [hkey, lookup_erase] at hvalues
        cases hvalues
      · rw [lookup_erase_ne hkey] at hvalues
        exact h key' values hvalues
    next hcard =>
      by_cases hkey : key' = key
      · rw [hkey, lookup_insert] at hvalues
        cases hvalues
        exact Finset.card_ne_zero.mp hcard
      · rw [lookup_insert_ne hkey] at hvalues
        exact h key' values hvalues

/-- An event of the first kind has happened, and none of the second since. -/
def Since (added removed : ε → Prop) (events : List ε) : Prop :=
  ∃ before event after, events = before ++ event :: after ∧ added event ∧
    ∀ later ∈ after, ¬removed later

variable {added removed : ε → Prop} {events : List ε} {event : ε}

theorem not_since_nil : ¬Since added removed [] := by
  rintro ⟨before, event, after, h, -⟩
  simp at h

theorem since_append_singleton : Since added removed (events ++ [event]) ↔
    added event ∨ Since added removed events ∧ ¬removed event := by
  constructor
  · rintro ⟨before, event', after, h, hadded, hafter⟩
    rcases eq_nil_or_concat after with rfl | ⟨after', last, rfl⟩
    · obtain ⟨-, hevent⟩ := append_inj' h rfl
      obtain rfl := singleton_inj.mp hevent
      exact .inl hadded
    · rw [concat_eq_append] at h hafter
      rw [← cons_append, ← append_assoc] at h
      obtain ⟨rfl, hlast⟩ := append_inj' h rfl
      obtain rfl := singleton_inj.mp hlast
      refine .inr ⟨⟨before, event', after', rfl, hadded, fun later hlater =>
        hafter later (mem_append_left _ hlater)⟩, hafter _ (by simp)⟩
  · rintro (hadded | ⟨⟨before, event', after, rfl, hadded, hafter⟩, hremoved⟩)
    · exact ⟨events, event, [], rfl, hadded, by simp⟩
    · refine ⟨before, event', after ++ [event], by simp, hadded, ?_⟩
      intro later hlater
      rcases mem_append.mp hlater with hmem | hmem
      · exact hafter later hmem
      · rwa [mem_singleton.mp hmem]

end Fluxor.Registry
