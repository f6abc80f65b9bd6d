import Mathlib.Data.List.Nodup
import Mathlib.Data.List.Perm.Subperm
import Mathlib.Data.Nat.Basic
import Mathlib.Order.Basic

/-!
# Doubly linked lists in a heap

Nodes are numbered in the order in which they are created, and a heap gives every
node its two pointers. A heap may hold any number of lists, also lists whose head
nobody knows, so the invariant `WellLinked` is about the pointers of all nodes: the
two pointers of neighbours agree, lists run from older to newer nodes, and no
pointer leads past the nodes created so far.

The list that starts at a node is computed by `toList`, which stops after as many
steps as there are nodes; `Follows` says without a bound what the `next` pointers
lead through. Under the invariant they agree, and the two edits, taking a node out
(`unlink`) and adding one behind the last (`linkAfter`), act on the lists as
expected.
-/

namespace Fluxor.Support

open Function List

/-- The two pointers of a node of a doubly linked list. -/
structure Links where
  (next prev : Option ℕ)
  deriving DecidableEq

def Links.clear : Links := ⟨none, none⟩

def setNext (h : ℕ → Links) (a : ℕ) (o : Option ℕ) : ℕ → Links := update h a { h a with next := o }

def setPrev (h : ℕ → Links) (a : ℕ) (o : Option ℕ) : ℕ → Links := update h a { h a with prev := o }

/-- Make the predecessor of `a`, if there is one, skip `a`. -/
def bypassNext (h : ℕ → Links) (a : ℕ) : ℕ → Links :=
  match (h a).prev with
  | some p => setNext h p (h a).next
  | none => h

/-- Make the successor of `a`, if there is one, skip `a`. -/
def bypassPrev (h : ℕ → Links) (a : ℕ) : ℕ → Links :=
  match (h a).next with
  | some n => setPrev h n (h a).prev
  | none => h

def unlink (h : ℕ → Links) (a : ℕ) : ℕ → Links :=
  update (bypassPrev (bypassNext h a) a) a Links.clear

def linkAfter (h : ℕ → Links) (tail a : ℕ) : ℕ → Links :=
  update (setNext h tail (some a)) a ⟨none, some tail⟩

/-- The nodes from `o` on, at most `fuel` of them. -/
def walk (h : ℕ → Links) : ℕ → Option ℕ → List ℕ
  | 0, _ => []
  | _ + 1, none => []
  | fuel + 1, some a => a :: walk h fuel (h a).next

/-- The last node from `a` on, or `none` when `fuel` steps do not reach it. -/
def lastFrom (h : ℕ → Links) : ℕ → ℕ → Option ℕ
  | 0, _ => none
  | fuel + 1, a =>
    match (h a).next with
    | none => some a
    | some b => lastFrom h fuel b

/-- The `next` pointers lead from `o` through exactly the nodes `xs`. -/
def Follows (h : ℕ → Links) : Option ℕ → List ℕ → Prop
  | o, [] => o = none
  | o, a :: xs => o = some a ∧ Follows h (h a).next xs

/-- The pointers lead from `o` through exactly the nodes `xs`, whose `prev` pointers
name the node before; `p` is before the first. -/
def DoublyLinked (h : ℕ → Links) : Option ℕ → Option ℕ → List ℕ → Prop
  | _, o, [] => o = none
  | p, o, a :: xs => o = some a ∧ (h a).prev = p ∧ DoublyLinked h (some a) (h a).next xs

/-- The pointers of neighbours agree, lists run from older to newer nodes, and
only the first `size` nodes are pointed to. -/
structure WellLinked (h : ℕ → Links) (size : ℕ) : Prop where
  next_iff : ∀ a b, (h a).next = some b ↔ (h b).prev = some a
  increasing : ∀ {a b}, (h a).next = some b → a < b
  bounded : ∀ {a b}, (h a).next = some b → b < size

variable {h h' : ℕ → Links} {size a b tail : ℕ} {o : Option ℕ} {xs : List ℕ}

theorem WellLinked.mono {size' : ℕ} (hw : WellLinked h size) (hle : size ≤ size') :
    WellLinked h size' where
  next_iff := hw.next_iff
  increasing := hw.increasing
  bounded hn := (hw.bounded hn).trans_le hle

/-! ## The list that starts at a node -/

theorem Follows.unique {ys : List ℕ} (hx : Follows h o xs) (hy : Follows h o ys) : xs = ys := by
  induction xs generalizing o ys with
  | nil =>
    cases ys with
    | nil => rfl
    | cons => cases hx.symm.trans hy.1
  | cons x xs ih =>
    cases ys with
    | nil => cases hx.1.symm.trans hy
    | cons y =>
      obtain rfl : x = y := Option.some.inj (hx.1.symm.trans hy.1)
      rw [ih hx.2 hy.2]

theorem Follows.head_eq {o' : Option ℕ} (hf : Follows h o xs) (hf' : Follows h' o' xs) :
    o = o' := by
  cases xs with
  | nil => exact Eq.trans hf (Eq.symm hf')
  | cons => exact hf.1.trans hf'.1.symm

/-- A list is read the same in heaps that agree on the `next` pointers of its
nodes. -/
theorem Follows.congr (hf : Follows h o xs) (hagree : ∀ x ∈ xs, (h' x).next = (h x).next) :
    Follows h' o xs := by
  induction xs generalizing o with
  | nil => exact hf
  | cons x xs ih =>
    refine ⟨hf.1, ?_⟩
    rw [hagree x mem_cons_self]
    exact ih hf.2 fun y hy => hagree y (mem_cons_of_mem x hy)

theorem Follows.next_mem (hf : Follows h o xs) (ha : a ∈ xs) (hn : (h a).next = some b) :
    b ∈ xs := by
  induction xs generalizing o with
  | nil => cases ha
  | cons x xs ih =>
    rcases mem_cons.mp ha with rfl | ha
    · cases xs with
      | nil => cases hn.symm.trans hf.2
      | cons y =>
        obtain rfl : b = y := Option.some.inj (hn.symm.trans hf.2.1)
        simp
    · exact mem_cons_of_mem x (ih hf.2 ha)

section

variable (hw : WellLinked h size) (hf : Follows h o xs)

include hw hf

theorem Follows.pairwise_lt : xs.Pairwise (· < ·) := by
  induction xs generalizing o with
  | nil => exact List.Pairwise.nil
  | cons x xs ih =>
    have htail := ih hf.2
    refine List.Pairwise.cons ?_ htail
    intro y hy
    cases xs with
    | nil => cases hy
    | cons z =>
      have hxz : x < z := hw.increasing hf.2.1
      rcases mem_cons.mp hy with rfl | hy
      · exact hxz
      · exact hxz.trans (rel_of_pairwise_cons htail hy)

theorem Follows.nodup : xs.Nodup := (hf.pairwise_lt hw).imp fun hlt => hlt.ne

theorem Follows.lt_size (ho : ∀ x ∈ o, x < size) : ∀ x ∈ xs, x < size := by
  induction xs generalizing o with
  | nil => simp
  | cons x xs ih =>
    intro y hy
    rcases mem_cons.mp hy with rfl | hy
    · exact ho y hf.1
    · exact ih hf.2 (fun z hz => hw.bounded hz) y hy

theorem Follows.length_le (ho : ∀ x ∈ o, x < size) : xs.length ≤ size := by
  have hsub : xs ⊆ range size := fun x hx => mem_range.mpr (hf.lt_size hw ho x hx)
  simpa using ((hf.nodup hw).subperm hsub).length_le

end

theorem Follows.walk_eq (hf : Follows h o xs) {fuel : ℕ} (hfuel : xs.length ≤ fuel) :
    walk h fuel o = xs := by
  induction xs generalizing o fuel with
  | nil =>
    obtain rfl : o = none := hf
    cases fuel <;> rfl
  | cons =>
    obtain ⟨rfl, hf⟩ := hf
    cases fuel <;> grind [walk]

theorem WellLinked.exists_follows (hw : WellLinked h size) (ho : ∀ x ∈ o, x < size) :
    ∃ xs, Follows h o xs := by
  cases o with
  | none => exact ⟨[], rfl⟩
  | some a =>
    have ha : a < size := ho a rfl
    -- Strong induction on how many nodes are newer than `a`.
    induction hk : size - a using Nat.strongRecOn generalizing a with
    | ind k ih =>
      cases hn : (h a).next with
      | none => exact ⟨[a], rfl, hn⟩
      | some b =>
        have hab := hw.increasing hn
        have hb := hw.bounded hn
        obtain ⟨xs, hxs⟩ := ih (size - b) (by omega) b (fun x hx => by cases hx; exact hb) hb rfl
        exact ⟨a :: xs, rfl, hn ▸ hxs⟩

/-- The list that starts at `o` in a heap of `size` nodes. -/
def toList (h : ℕ → Links) (size : ℕ) (o : Option ℕ) : List ℕ := walk h size o

section

variable (hw : WellLinked h size)

include hw

theorem WellLinked.follows_toList (ho : ∀ x ∈ o, x < size) : Follows h o (toList h size o) := by
  grind [exists_follows, toList, Follows.walk_eq, Follows.length_le]

omit hw in
theorem Follows.eq_nil_iff (hf : Follows h o xs) : xs = [] ↔ o = none := by
  cases xs with
  | nil => exact iff_of_true rfl hf
  | cons => simp [hf.1]

theorem Follows.doublyLinked (hf : Follows h o xs) {p : Option ℕ}
    (hp : ∀ x ∈ o, (h x).prev = p) : DoublyLinked h p o xs := by
  induction xs generalizing o p with
  | nil => exact hf
  | cons x xs ih =>
    refine ⟨hf.1, hp x hf.1, ih hf.2 ?_⟩
    intro y hy
    exact (hw.next_iff x y).mp hy

/-! ## Taking a node out -/

theorem WellLinked.next_ne : (h a).next ≠ some a :=
  fun hn => (hw.increasing hn).false

theorem WellLinked.prev_ne : (h a).prev ≠ some a :=
  fun hp => hw.next_ne ((hw.next_iff a a).mpr hp)

theorem WellLinked.prev_ne_of_end (hend : (h a).next = none) : (h b).prev ≠ some a := by
  intro hp
  rw [(hw.next_iff a b).mpr hp] at hend
  cases hend

theorem WellLinked.eq_clear (ha : size ≤ a) : h a = Links.clear := by
  cases hlinks : h a with
  | mk next prev =>
    have hnext : next = none := by
      cases next with
      | none => rfl
      | some b =>
        have hn : (h a).next = some b := by rw [hlinks]
        have := hw.increasing hn
        have := hw.bounded hn
        omega
    have hprev : prev = none := by
      cases prev with
      | none => rfl
      | some b =>
        have hp : (h a).prev = some b := by rw [hlinks]
        have := hw.bounded ((hw.next_iff b a).mpr hp)
        omega
    rw [hnext, hprev, Links.clear]

theorem WellLinked.bypassNext_self : bypassNext h a a = h a := by
  unfold bypassNext
  cases hp : (h a).prev with
  | none => rfl
  | some p =>
    have hpa : a ≠ p := fun e => hw.prev_ne (e ▸ hp)
    simp [setNext, hpa]

theorem WellLinked.next_unlink (b : ℕ) : (unlink h a b).next = if b = a then none
      else if (h b).next = some a then (h a).next else (h b).next := by
  by_cases hb : b = a
  · simp [unlink, hb, Links.clear]
  rw [if_neg hb, unlink, update_of_ne hb]
  have hstep : (bypassNext h a b).next =
      if (h b).next = some a then (h a).next else (h b).next := by
    unfold bypassNext
    simp only [hw.next_iff b a]
    cases hp : (h a).prev with
    | none => simp
    | some p =>
      by_cases hbp : b = p
      · simp [setNext, hbp]
      · simp [setNext, hbp, Ne.symm hbp]
  rw [← hstep]
  unfold bypassPrev
  cases (bypassNext h a a).next with
  | none => rfl
  | some n =>
    by_cases hbn : b = n
    all_goals simp [setPrev, hbn]

theorem WellLinked.prev_unlink (b : ℕ) : (unlink h a b).prev = if b = a then none
      else if (h b).prev = some a then (h a).prev else (h b).prev := by
  by_cases hb : b = a
  · simp [unlink, hb, Links.clear]
  rw [if_neg hb, unlink, update_of_ne hb]
  have hstep : ∀ x, (bypassNext h a x).prev = (h x).prev := by
    intro x
    unfold bypassNext
    cases (h a).prev with
    | none => rfl
    | some p =>
      by_cases hxp : x = p
      all_goals simp [setNext, hxp]
  unfold bypassPrev
  rw [hw.bypassNext_self]
  simp only [← hw.next_iff a b]
  cases hn : (h a).next with
  | none => simp [hstep]
  | some n =>
    by_cases hbn : b = n
    · simp [setPrev, hbn]
    · simp [setPrev, hbn, Ne.symm hbn, hstep]

theorem WellLinked.prev_unlink_eq_none (hb : (h b).prev = none) : (unlink h a b).prev = none := by
  rw [hw.prev_unlink, hb]
  simp

theorem WellLinked.unlink (a : ℕ) : WellLinked (unlink h a) size where
  next_iff x y := by
    rw [hw.next_unlink, hw.prev_unlink]
    by_cases hx : x = a
    · grind [prev_ne]
    grind [next_iff]
  increasing {x y} hn := by
    rw [hw.next_unlink] at hn
    split at hn
    · cases hn
    · split at hn
      next hxa => exact (hw.increasing hxa).trans (hw.increasing hn)
      · exact hw.increasing hn
  bounded {x y} hn := by
    rw [hw.next_unlink] at hn
    split at hn
    · cases hn
    · split at hn
      all_goals exact hw.bounded hn

end

/-- Where a pointer leads once `a` is taken out. -/
def bypass (h : ℕ → Links) (a : ℕ) (o : Option ℕ) : Option ℕ :=
  if o = some a then (h a).next else o

theorem Follows.unlink (hw : WellLinked h size) (hf : Follows h o xs) (a : ℕ) :
    Follows (unlink h a) (bypass h a o) (xs.erase a) := by
  induction xs generalizing o with
  | nil =>
    obtain rfl : o = none := hf
    rfl
  | cons x xs ih =>
    have hnodup := hf.nodup hw
    obtain ⟨rfl, hf⟩ := hf
    by_cases hx : x = a
    · grind [bypass, congr, next_mem, WellLinked.next_unlink]
    · rw [erase_cons_tail (by simpa using hx), bypass, if_neg (by simpa using hx)]
      refine ⟨rfl, ?_⟩
      rw [hw.next_unlink, if_neg hx]
      exact ih hf

/-! ## Adding a node behind the last -/

theorem linkAfter_apply (b : ℕ) : linkAfter h tail a b =
      if b = a then ⟨none, some tail⟩ else if b = tail then ⟨some a, (h b).prev⟩ else h b := by
  rw [linkAfter, setNext, update_apply, update_apply]
  grind

theorem next_linkAfter (b : ℕ) : (linkAfter h tail a b).next =
      if b = a then none else if b = tail then some a else (h b).next := by
  rw [linkAfter_apply]
  split_ifs <;> rfl

theorem prev_linkAfter (b : ℕ) :
    (linkAfter h tail a b).prev = if b = a then some tail else (h b).prev := by
  rw [linkAfter_apply]
  split_ifs <;> rfl

theorem WellLinked.linkAfter (hw : WellLinked h size) (htail : tail < a) (ha : a < size)
    (hend : (h tail).next = none) (hclear : h a = Links.clear) :
    WellLinked (linkAfter h tail a) size where
  next_iff x y := by
    rw [next_linkAfter, prev_linkAfter]
    have hnone : ∀ z, (h z).next ≠ some a := by
      intro z hz
      have := (hw.next_iff z a).mp hz
      rw [hclear] at this
      cases this
    by_cases hy : y = a
    · grind
    · by_cases hx : x = a
      · subst hx
        simp [hy, hw.prev_ne_of_end (hclear ▸ rfl : (h x).next = none)]
      · by_cases hxt : x = tail
        · subst hxt
          simp [hx, hy, hw.prev_ne_of_end hend, Ne.symm hy]
        · simp [hx, hxt, hy, hw.next_iff]
  increasing {x y} hn := by
    rw [next_linkAfter] at hn
    split at hn
    · cases hn
    · split at hn
      · grind
      · exact hw.increasing hn
  bounded {x y} hn := by
    rw [next_linkAfter] at hn
    split at hn
    · cases hn
    · split at hn
      · cases hn
        exact ha
      · exact hw.bounded hn

theorem Follows.lastFrom_eq (hf : Follows h (some a) xs) {fuel : ℕ} (hfuel : xs.length ≤ fuel) :
    lastFrom h fuel a = xs.getLast? := by
  induction xs generalizing a fuel with
  | nil => cases hf
  | cons x xs ih =>
    obtain rfl : a = x := Option.some.inj hf.1
    cases fuel with
    | zero => cases hfuel
    | succ =>
      rw [lastFrom]
      have htail := hf.2
      split
      next hn =>
        rw [hn] at htail
        rw [htail.eq_nil_iff.mpr rfl]
        rfl
      next hn =>
        rw [hn] at htail
        rw [ih htail (Nat.le_of_succ_le_succ hfuel)]
        cases xs with
        | nil => cases htail
        | cons => simp

theorem Follows.next_getLast (hf : Follows h o xs) (htail : xs.getLast? = some tail) :
    (h tail).next = none := by
  induction xs generalizing o with
  | nil => cases htail
  | cons x xs ih =>
    cases xs with
    | nil =>
      obtain rfl : x = tail := by simpa using htail
      exact hf.2
    | cons => exact ih hf.2 (by simpa using htail)

theorem Follows.linkAfter_self (hf : Follows h o xs) (htail : xs.getLast? = some tail)
    (ha : a ∉ xs) (hnodup : xs.Nodup) : Follows (linkAfter h tail a) o (xs ++ [a]) := by
  induction xs generalizing o with
  | nil => cases htail
  | cons x xs ih =>
    have hxa : x ≠ a := fun e => ha (e ▸ mem_cons_self)
    refine ⟨hf.1, ?_⟩
    rw [next_linkAfter, if_neg hxa]
    cases xs with
    | nil =>
      obtain rfl : x = tail := by simpa using htail
      rw [if_pos rfl]
      refine ⟨rfl, ?_⟩
      rw [next_linkAfter, if_pos rfl]
      rfl
    | cons y ys =>
      have htail' : (y :: ys).getLast? = some tail := by simpa using htail
      have hxt : x ≠ tail := fun e => (nodup_cons.mp hnodup).1 (e ▸ mem_of_getLast? htail')
      rw [if_neg hxt]
      exact ih hf.2 htail' (fun hm => ha (mem_cons_of_mem x hm)) (nodup_cons.mp hnodup).2

theorem Follows.linkAfter_other (hf : Follows h o xs) (htail : tail ∉ xs) (ha : a ∉ xs) :
    Follows (linkAfter h tail a) o xs := by
  grind [congr, next_linkAfter]

end Fluxor.Support
