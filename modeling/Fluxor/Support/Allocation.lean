import Mathlib.Algebra.Order.BigOperators.Group.List
import Mathlib.Algebra.Order.Group.Int
import Mathlib.Algebra.Ring.Int.Defs
import Mathlib.Data.List.Nodup

/-!
# First-come, first-served allocation

A quantity is handed out to the members of a queue, each of which takes at most what
it has available, the first member first. The queue, its members and where their
amounts are stored are left open.
-/

namespace Fluxor.Support

open List

variable {α : Type*}

/-- Hand out `q` along a queue: who gets something, with what they get. -/
def allocate (avail : α → ℤ) : ℤ → List α → List (α × ℤ)
  | _, [] => []
  | q, x :: xs =>
    if q ≤ 0 then []
    else (x, min q (avail x)) :: allocate avail (q - avail x) xs

/-- The members that still have something available after `q` is handed out. -/
def remaining (avail : α → ℤ) : ℤ → List α → List α
  | _, [] => []
  | q, x :: xs => if avail x ≤ q then remaining avail (q - avail x) xs else x :: xs

/-- What the list of shares gives to `x`. -/
def amount [DecidableEq α] (shares : List (α × ℤ)) (x : α) : ℤ :=
  (shares.map fun f => if f.1 = x then f.2 else 0).sum

def total (shares : List (α × ℤ)) : ℤ := (shares.map Prod.snd).sum

theorem total_singleton (x : α) (m : ℤ) : total [(x, m)] = m := by
  simp [total]

theorem total_append (shares shares' : List (α × ℤ)) :
    total (shares ++ shares') = total shares + total shares' := by
  simp [total]

variable {avail avail' : α → ℤ} {q : ℤ} {xs : List α}

theorem allocate_of_nonpos (hq : q ≤ 0) (xs : List α) : allocate avail q xs = [] := by
  cases xs with
  | nil => rfl
  | cons => rw [allocate, if_pos hq]

theorem allocate_congr (h : ∀ x ∈ xs, avail x = avail' x) :
    allocate avail q xs = allocate avail' q xs := by
  induction xs generalizing q with
  | nil => rfl
  | cons x xs ih =>
    rw [allocate, allocate, h x mem_cons_self, ih fun y hy => h y (mem_cons_of_mem x hy)]

theorem remaining_congr (h : ∀ x ∈ xs, avail x = avail' x) :
    remaining avail q xs = remaining avail' q xs := by
  induction xs generalizing q with
  | nil => rfl
  | cons x xs ih =>
    rw [remaining, remaining, h x mem_cons_self, ih fun y hy => h y (mem_cons_of_mem x hy)]

theorem allocate_pos (hpos : ∀ x ∈ xs, 0 < avail x) : ∀ f ∈ allocate avail q xs, 0 < f.2 := by
  induction xs generalizing q with
  | nil => simp [allocate]
  | cons x xs ih =>
    rw [allocate]
    split
    · simp
    next hq =>
      intro f hf
      rcases mem_cons.mp hf with rfl | hf
      · exact lt_min (not_le.mp hq) (hpos x mem_cons_self)
      · exact ih (fun y hy => hpos y (mem_cons_of_mem x hy)) f hf

theorem allocate_sublist (avail : α → ℤ) (q : ℤ) (xs : List α) :
    ((allocate avail q xs).map Prod.fst).Sublist xs := by
  induction xs generalizing q with
  | nil => exact List.Sublist.slnil
  | cons x xs ih =>
    rw [allocate]
    split
    · exact nil_sublist _
    · exact (ih _).cons_cons x

theorem sum_avail_nonneg (hpos : ∀ x ∈ xs, 0 < avail x) : 0 ≤ (xs.map avail).sum := by
  refine sum_nonneg ?_
  simpa using fun x hx => (hpos x hx).le

/-- Everything is handed out, up to what is available. -/
theorem total_allocate (hq : 0 ≤ q) (hpos : ∀ x ∈ xs, 0 < avail x) :
    total (allocate avail q xs) = min q (xs.map avail).sum := by
  induction xs generalizing q with
  | nil => simp [allocate, total, hq]
  | cons x xs ih =>
    obtain ⟨hx, htail⟩ := forall_mem_cons.mp hpos
    have hsum := sum_avail_nonneg htail
    rw [allocate, map_cons, sum_cons]
    split
    · have hzero : q = 0 := by omega
      simp only [total, map_nil, sum_nil]
      omega
    · by_cases hle : avail x ≤ q
      · have hrest := ih (by omega : 0 ≤ q - avail x) htail
        simp only [total, map_cons, sum_cons] at hrest ⊢
        omega
      · rw [allocate_of_nonpos (by omega) xs]
        simp only [total, map_cons, map_nil, sum_cons, sum_nil]
        omega

/-- A member gets something only when those before it get all they have. -/
theorem allocate_earlier [Preorder α] (hsorted : xs.Pairwise (· < ·)) {x y : α}
    (hy : y ∈ (allocate avail q xs).map Prod.fst) (hx : x ∈ xs) (hxy : x < y) :
    (x, avail x) ∈ allocate avail q xs := by
  induction xs generalizing q with
  | nil => cases hx
  | cons z zs ih =>
    have hz : ∀ w ∈ zs, z < w := fun w hw => rel_of_pairwise_cons hsorted hw
    rw [allocate] at hy ⊢
    split at hy
    · cases hy
    next hq =>
      rw [if_neg hq]
      rw [map_cons] at hy
      rcases mem_cons.mp hx with rfl | hxz
      · rcases mem_cons.mp hy with rfl | hy
        · exact absurd hxy (lt_irrefl y)
        · -- The next member got something, so `q` covers all of `x`.
          have hle : avail x ≤ q := by
            by_contra hlt
            rw [allocate_of_nonpos (by omega) zs] at hy
            cases hy
          rw [min_eq_right hle]
          exact mem_cons_self
      · rcases mem_cons.mp hy with rfl | hy
        · exact absurd (hxy.trans (hz x hxz)) (lt_irrefl x)
        · exact mem_cons_of_mem _ (ih hsorted.of_cons hy hxz)

theorem allocate_le {f : α × ℤ} (hf : f ∈ allocate avail q xs) : f.2 ≤ avail f.1 := by
  induction xs generalizing q with
  | nil => cases hf
  | cons => grind [allocate]

theorem remaining_suffix (avail : α → ℤ) (q : ℤ) (xs : List α) : (remaining avail q xs) <:+ xs := by
  induction xs generalizing q with
  | nil => exact suffix_rfl
  | cons x xs ih =>
    rw [remaining]
    split
    · exact (ih _).trans (suffix_cons x xs)
    · exact suffix_rfl

/-- Nobody has anything left exactly when `q` covers all that is available. -/
theorem remaining_eq_nil_iff (hpos : ∀ x ∈ xs, 0 < avail x) :
    remaining avail q xs = [] ↔ xs = [] ∨ (xs.map avail).sum ≤ q := by
  induction xs generalizing q with
  | nil => simp [remaining]
  | cons x xs ih =>
    have htail := (forall_mem_cons.mp hpos).2
    have hsum := sum_avail_nonneg htail
    rw [remaining, map_cons, sum_cons]
    split
    next hle =>
      rw [ih htail]
      constructor
      · rintro (rfl | hrest)
        · simp [hle]
        · right
          omega
      · rintro (habs | hrest)
        · cases habs
        · right
          omega
    next hlt =>
      constructor
      · intro habs
        cases habs
      · rintro (habs | hrest)
        · cases habs
        · omega

section Amount

variable [DecidableEq α] {shares : List (α × ℤ)} {x : α} {m : ℤ}

@[simp] theorem amount_nil (x : α) : amount [] x = 0 := rfl

@[simp] theorem amount_cons (f : α × ℤ) (shares : List (α × ℤ)) (x : α) :
    amount (f :: shares) x = (if f.1 = x then f.2 else 0) + amount shares x := by
  simp [amount]

theorem amount_append (shares shares' : List (α × ℤ)) (x : α) :
    amount (shares ++ shares') x = amount shares x + amount shares' x := by
  simp [amount]

theorem amount_nonneg (hpos : ∀ f ∈ shares, 0 ≤ f.2) (x : α) : 0 ≤ amount shares x := by
  refine sum_nonneg ?_
  simp only [mem_map, forall_exists_index, and_imp]
  rintro m f hf rfl
  split
  · exact hpos f hf
  · exact le_refl 0

theorem amount_of_not_mem (hx : x ∉ shares.map Prod.fst) : amount shares x = 0 := by
  induction shares with
  | nil => rfl
  | cons f shares ih =>
    rw [map_cons, mem_cons, not_or] at hx
    rw [amount_cons, if_neg (Ne.symm hx.1), ih hx.2, zero_add]

theorem amount_of_mem (hnodup : (shares.map Prod.fst).Nodup) (hmem : (x, m) ∈ shares) :
    amount shares x = m := by
  induction shares with
  | nil => cases hmem
  | cons f shares ih =>
    rw [map_cons, nodup_cons] at hnodup
    rw [amount_cons]
    rcases mem_cons.mp hmem with rfl | hmem
    · rw [if_pos rfl, amount_of_not_mem hnodup.1, add_zero]
    · have hfx : f.1 ≠ x := fun e =>
        hnodup.1 (e ▸ mem_map_of_mem hmem)
      rw [if_neg hfx, ih hnodup.2 hmem, zero_add]

/-- Summed over a queue with every receiver once, the shares are all that was handed out. -/
theorem sum_amount (hxs : xs.Nodup) (hsub : ∀ f ∈ shares, f.1 ∈ xs) :
    (xs.map (amount shares)).sum = total shares := by
  induction shares with
  | nil =>
    change (xs.map fun _ => (0 : ℤ)).sum = 0
    simp
  | cons f shares ih =>
    have hcount : xs.count f.1 = 1 := count_eq_one_of_mem hxs (hsub f mem_cons_self)
    have hf : (xs.map fun x => if f.1 = x then f.2 else 0).sum = f.2 := by
      simp only [eq_comm (a := f.1)]
      rw [sum_map_ite_eq, hcount]
      simp
    have hrest := ih fun g hg => hsub g (mem_cons_of_mem f hg)
    calc
      (xs.map (amount (f :: shares))).sum = (xs.map fun x => (if f.1 = x then f.2 else 0) +
            amount shares x).sum := by
        simp only [← amount_cons]
      _ = f.2 + total shares := by
        rw [sum_map_add, hf, hrest]
      _ = total (f :: shares) := by simp [total]

end Amount

end Fluxor.Support
