import Mathlib.Data.List.Nodup

/-!
# Slices over a shared backing array

A Go slice is a header over a backing array. A header that was captured earlier
keeps its own length but sees every later write to the array, such as a removal that
shifts elements in place. The array is therefore explicit here, and each operation
says what happens to all of its cells.
-/

namespace Fluxor.Support

open List

variable {α : Type*}

/-- A slice header of length `len` over the array `backing`. -/
structure Slice (α : Type*) where
  backing : List α
  len : ℕ
  len_le : len ≤ backing.length

namespace Slice

variable (s : Slice α)

def toList : List α := s.backing.take s.len

/-- The slice a list is stored in when the array has `spare` further cells. -/
def ofList (xs spare : List α) : Slice α where
  backing := xs ++ spare
  len := xs.length
  len_le := by simp

/-- `append(s[:i], s[i+1:]...)`: the cells from `i + 1` up to the length move one
place down, and the old last cell keeps its value. -/
def removeAt (i : ℕ) (hi : i < s.len) : Slice α where
  backing := s.backing.take i ++ (s.toList.drop (i + 1) ++ s.backing.drop (s.len - 1))
  len := s.len - 1
  len_le := by
    have := s.len_le
    simp only [toList, length_append, length_take, length_drop]
    omega

@[simp] theorem length_toList : s.toList.length = s.len := by
  simp [toList, s.len_le]

@[simp] theorem toList_ofList (xs spare : List α) : (ofList xs spare).toList = xs := by
  simp [toList, ofList]

@[simp] theorem len_removeAt (i : ℕ) (hi : i < s.len) : (s.removeAt i hi).len = s.len - 1 := rfl

theorem getElem?_toList {j : ℕ} (hj : j < s.len) : s.toList[j]? = s.backing[j]? := by
  simp [toList, hj]

section

variable (i : ℕ) (hi : i < s.len)

include i hi

theorem length_kept : (s.backing.take i ++ s.toList.drop (i + 1)).length = s.len - 1 := by
  have hlen := s.len_le
  simp only [length_append, length_take, length_drop, length_toList]
  omega

theorem toList_removeAt : (s.removeAt i hi).toList = s.toList.eraseIdx i := by
  have htake : s.toList.take i = s.backing.take i := by
    rw [toList, take_take, Nat.min_eq_left (Nat.le_of_lt hi)]
  have hkept := length_kept s i hi
  rw [eraseIdx_eq_take_drop_succ, htake]
  simp only [removeAt, toList] at hkept ⊢
  rw [← append_assoc, take_left' hkept]

theorem getElem?_removeAt_of_le {j : ℕ}
    (hj : s.len - 1 ≤ j) : (s.removeAt i hi).backing[j]? = s.backing[j]? := by
  have hkept := length_kept s i hi
  simp only [removeAt]
  rw [← append_assoc, getElem?_append_right (by omega), hkept, getElem?_drop]
  congr 1
  omega

theorem backing_removeAt_last (hlast : i + 1 = s.len) : (s.removeAt i hi).backing = s.backing := by
  have hdrop : s.toList.drop (i + 1) = [] := by
    rw [drop_eq_nil_iff, length_toList]
    omega
  have hi' : s.len - 1 = i := by omega
  simp only [removeAt, hdrop, nil_append, hi', take_append_drop]

end

/-- Remove the first element equal to `a` in place: search the slice, then close the
gap. -/
def remove [DecidableEq α] (s : Slice α) (a : α) : Slice α :=
  if h : s.toList.idxOf a < s.len then s.removeAt _ h else s

theorem toList_remove [DecidableEq α] (s : Slice α) (a : α) :
    (s.remove a).toList = s.toList.erase a := by
  rw [remove, erase_eq_eraseIdx_of_idxOf rfl]
  split
  · exact toList_removeAt s _ _
  next h =>
    rw [eraseIdx_of_length_le]
    simpa using h

theorem mem_of_mem_remove [DecidableEq α] {s : Slice α} {a b : α} (h : b ∈ (s.remove a).toList) :
    b ∈ s.toList := by
  rw [toList_remove] at h
  exact mem_of_mem_erase h

theorem not_mem_remove [DecidableEq α] {s : Slice α} (h : s.toList.Nodup) (a : α) :
    a ∉ (s.remove a).toList := by
  rw [toList_remove]
  exact h.not_mem_erase

theorem len_remove_le [DecidableEq α] (s : Slice α) (a : α) : (s.remove a).len ≤ s.len := by
  rw [remove]
  split
  · simp
  · exact Nat.le_refl _

end Slice
end Fluxor.Support
