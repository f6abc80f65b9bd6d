import Fluxor.Support.Transition
import Mathlib.Algebra.Order.BigOperators.Group.List
import Mathlib.Algebra.Order.Ring.Nat
import Mathlib.Tactic.Abel

/-!
# Goroutines over a shared state

A system of goroutines is a shared state and the list of all goroutines started so
far, each at some point of its code. One step lets one goroutine run to its next
point: it reads and writes the shared state and may start further goroutines. A
goroutine that has returned stays in the list, so it is named by its position and
the list is a history of the calls.

Two kinds of invariants are carried along runs: assertions about each goroutine,
which its own step establishes and the steps of the others keep, and equations
between the shared state and a sum over the goroutines.
-/

namespace Fluxor.Goroutines

open Transition List

variable {σ θ χ : Type*}

structure Config (σ θ : Type*) where
  shared : σ
  threads : List θ

/-- What one step of a goroutine leaves: shared state, goroutine, and those it has started. -/
structure Outcome (σ θ : Type*) where
  shared : σ
  thread : θ
  started : List θ := []

/-- The code of the goroutines. `next s i t b` is the step of goroutine `i` from the
point `t` on the branch `b`; `entry` tells the points at which the environment
starts a goroutine. -/
structure Code (σ θ χ : Type*) where
  next : σ → ℕ → θ → χ → Option (Outcome σ θ)
  entry : θ → Bool

/-- How a goroutine goes on: in its only way, or with a case of its `select`: the
channel operation, `ctx.Done()`, `time.After`, `default`. -/
inductive Branch
  | next | channel | done | after | default
  deriving DecidableEq

/-- The environment starts a goroutine, or goroutine `i` takes a step. -/
inductive Move (θ χ : Type*)
  | spawn (t : θ)
  | run (i : ℕ) (b : χ)

def Config.advance (c : Config σ θ) (i : ℕ) (o : Outcome σ θ) : Config σ θ :=
  ⟨o.shared, c.threads.set i o.thread ++ o.started⟩

def Config.spawn (c : Config σ θ) (t : θ) : Config σ θ := ⟨c.shared, c.threads ++ [t]⟩

def Code.step (code : Code σ θ χ) (c : Config σ θ) : Move θ χ → Option (Config σ θ)
  | .spawn t => if code.entry t then some (c.spawn t) else none
  | .run i b =>
    match c.threads[i]? with
    | none => none
    | some t => (code.next c.shared i t b).map (c.advance i)

variable {code : Code σ θ χ} {c c' : Config σ θ}

theorem Code.step_cases {m : Move θ χ} (h : code.step c m = some c') :
    (∃ t, m = .spawn t ∧ code.entry t = true ∧ c' = c.spawn t) ∨
      ∃ i b t o, m = .run i b ∧ c.threads[i]? = some t ∧
        code.next c.shared i t b = some o ∧ c' = c.advance i o := by
  cases m with
  | spawn t =>
    simp only [Code.step] at h
    split at h
    next hentry => exact .inl ⟨t, rfl, hentry, (Option.some.inj h).symm⟩
    · cases h
  | run i b =>
    simp only [Code.step] at h
    split at h
    · cases h
    next t ht =>
      obtain ⟨o, ho, rfl⟩ := Option.map_eq_some_iff.mp h
      exact .inr ⟨i, b, t, o, rfl, ht, ho, rfl⟩

variable {i : ℕ} {t : θ} {o : Outcome σ θ}

theorem Code.step_run {b : χ} (ht : c.threads[i]? = some t)
    (ho : code.next c.shared i t b = some o) : code.step c (.run i b) = some (c.advance i o) := by
  simp only [Code.step, ht, ho, Option.map_some]

variable {ok : Config σ θ → Move θ χ → Prop}

theorem Code.run_invariant {I : Config σ θ → Prop}
    (hspawn : ∀ {c t}, I c → ok c (.spawn t) → code.entry t = true → I (c.spawn t))
    (hrun : ∀ {c i b t o}, I c → ok c (.run i b) → c.threads[i]? = some t →
      code.next c.shared i t b = some o → I (c.advance i o)) {acts : List (Move θ χ)}
    (h : Run code.step ok c acts c') (hc : I c) : I c' := by
  refine h.invariant ?_ hc
  intro c m c' hI hok hstep
  rcases Code.step_cases hstep with
    ⟨t, rfl, hentry, rfl⟩ | ⟨i, b, t, o, rfl, ht, ho, rfl⟩
  · exact hspawn hI hok hentry
  · exact hrun hI hok ht ho

/-! ## Positions -/

section Positions

variable {i j : ℕ} {t u : θ} {o : Outcome σ θ}

open Config

theorem Config.getElem?_spawn (h : (c.spawn t).threads[j]? = some u) :
    c.threads[j]? = some u ∨ j = c.threads.length ∧ u = t := by
  rw [spawn, getElem?_append] at h
  split at h
  · exact .inl h
  · obtain ⟨hj, hu⟩ := List.getElem?_eq_some_iff.mp h
    rw [length_singleton] at hj
    refine .inr ⟨by omega, ?_⟩
    rw [← hu, getElem_singleton]

theorem Config.getElem?_spawn_of_some (h : c.threads[j]? = some u) :
    (c.spawn t).threads[j]? = some u := by
  have hj := (List.getElem?_eq_some_iff.mp h).1
  rwa [spawn, getElem?_append_left hj]

/-- A goroutine after a step of `i`: `i` itself, another one that has not moved, or a new one. -/
theorem Config.getElem?_advance (h : (c.advance i o).threads[j]? = some u) :
    (j = i ∧ u = o.thread) ∨ (j ≠ i ∧ c.threads[j]? = some u) ∨
      (c.threads.length ≤ j ∧ u ∈ o.started) := by
  rw [advance, getElem?_append, length_set] at h
  split at h
  next hj =>
    rw [getElem?_set] at h
    split at h
    next hij =>
      rw [hij] at h
      rw [if_pos hj] at h
      exact .inl ⟨hij.symm, (Option.some.inj h).symm⟩
    next hij => exact .inr (.inl ⟨Ne.symm hij, h⟩)
  · exact .inr (.inr ⟨by omega, mem_of_getElem? h⟩)

theorem Config.getElem?_advance_self (ht : c.threads[i]? = some t) :
    (c.advance i o).threads[i]? = some o.thread := by
  have hi := (List.getElem?_eq_some_iff.mp ht).1
  rw [advance, getElem?_append_left (by rw [length_set]; exact hi), getElem?_set_self hi]

theorem Config.getElem?_advance_of_ne (hij : j ≠ i) (h : c.threads[j]? = some u) :
    (c.advance i o).threads[j]? = some u := by
  have hj := (List.getElem?_eq_some_iff.mp h).1
  rw [advance, getElem?_append_left (by rw [length_set]; exact hj),
    getElem?_set_ne (Ne.symm hij), h]

theorem Config.getElem?_advance_alone (ht : c.threads[i]? = some t) (hnone : o.started = [])
    (j : ℕ) : (c.advance i o).threads[j]? = if j = i then some o.thread else c.threads[j]? := by
  split
  next hji =>
    rw [hji]
    exact getElem?_advance_self ht
  next hji => rw [advance, hnone, append_nil, getElem?_set_ne (Ne.symm hji)]

end Positions

/-! ## A goroutine alone -/

/-- The goroutine behind `pre` goes from one point to another while nothing else moves. -/
inductive Code.Alone (code : Code σ θ χ) (ok : Config σ θ → Move θ χ → Prop)
    (pre : List θ) : σ → θ → σ → θ → Prop
  | refl (s : σ) (t : θ) : Alone code ok pre s t s t
  | step {s s' s'' : σ} {t t' t'' : θ} (b : χ) (guard : ok ⟨s, pre ++ [t]⟩ (.run pre.length b))
      (next : code.next s pre.length t b = some ⟨s', t', []⟩)
      (rest : Alone code ok pre s' t' s'' t'') : Alone code ok pre s t s'' t''

theorem Code.Alone.exists_run {pre : List θ} {s s' : σ} {t' : θ} (h : code.Alone ok pre s t s' t') :
    ∃ acts, Run code.step ok ⟨s, pre ++ [t]⟩ acts ⟨s', pre ++ [t']⟩ := by
  induction h with
  | refl => exact ⟨[], Run.nil _⟩
  | step b guard next _ ih =>
    obtain ⟨acts, hrun⟩ := ih
    refine ⟨_, Run.cons guard ?_ hrun⟩
    rw [Code.step_run (getElem?_concat_length ..) next]
    simp [Config.advance]

/-! ## Assertions about each goroutine -/

/-- Every goroutine satisfies an assertion about the shared state, its position and its point. -/
def Config.All (c : Config σ θ) (P : σ → ℕ → θ → Prop) : Prop :=
  ∀ i t, c.threads[i]? = some t → P c.shared i t

def Config.every (c : Config σ θ) (P : σ → ℕ → θ → Bool) : Bool :=
  c.threads.zipIdx.all fun (t, i) => P c.shared i t

theorem Config.all_of_every {P : σ → ℕ → θ → Bool} (h : c.every P = true) :
    c.All fun s i t => P s i t = true := by
  intro i t ht
  exact all_eq_true.mp h (t, i) (mem_zipIdx_iff_getElem?.mpr ht)

variable {P : σ → ℕ → θ → Prop}

theorem Config.All.spawn (h : c.All P) (hnew : P c.shared c.threads.length t) :
    (c.spawn t).All P := by
  intro j u hu
  rcases getElem?_spawn hu with hu | ⟨rfl, rfl⟩
  · exact h j u hu
  · exact hnew

theorem Config.All.advance (h : c.All P) (hown : P o.shared i o.thread)
    (hothers : ∀ j u, j ≠ i → c.threads[j]? = some u → P c.shared j u → P o.shared j u)
    (hstarted : ∀ j u, c.threads.length ≤ j → u ∈ o.started → P o.shared j u) :
    (c.advance i o).All P := by
  intro j u hu
  rcases getElem?_advance hu with ⟨rfl, rfl⟩ | ⟨hj, hu⟩ | ⟨hj, hu⟩
  · exact hown
  · exact hothers j u hj hu (h j u hu)
  · exact hstarted j u hj hu

theorem Config.All.advance_alone (h : c.All P) (hnone : o.started = [])
    (hown : P o.shared i o.thread)
    (hothers : ∀ j u, j ≠ i → c.threads[j]? = some u → P c.shared j u → P o.shared j u) :
    (c.advance i o).All P := by
  refine h.advance hown hothers ?_
  intro j u _ hu
  rw [hnone] at hu
  cases hu

/-! ## Sections that do not overlap -/

/-- At most one goroutine is inside its section, and what it relies on there holds. -/
structure Config.Exclusive (inside : θ → Bool) (R : σ → θ → Prop) (c : Config σ θ) : Prop where
  relies : ∀ t ∈ c.threads, inside t = true → R c.shared t
  one : ∀ {i j : ℕ} {t u : θ}, c.threads[i]? = some t → c.threads[j]? = some u →
    inside t = true → inside u = true → i = j

section Exclusive

variable {inside : θ → Bool} {R : σ → θ → Prop} {u : θ}

theorem Config.Exclusive.spawn (h : c.Exclusive inside R) (ht : inside t = false) :
    (c.spawn t).Exclusive inside R := by
  refine ⟨fun u hu hin => ?_, fun hi hj hin hin' => ?_⟩
  · rcases mem_append.mp hu with hold | hnew
    · exact h.relies u hold hin
    · rw [mem_singleton.mp hnew, ht] at hin
      cases hin
  · rcases getElem?_spawn hi with hi | ⟨-, rfl⟩
    · rcases getElem?_spawn hj with hj | ⟨-, rfl⟩
      · exact h.one hi hj hin hin'
      · cases ht.symm.trans hin'
    · cases ht.symm.trans hin

/-- A goroutine enters its section only while all are outside, and what the one inside
relies on is kept by the steps of those outside. -/
theorem Config.Exclusive.advance (h : c.Exclusive inside R) (ht : c.threads[i]? = some t)
    (hstarted : ∀ u ∈ o.started, inside u = false)
    (henter : inside t = false → inside o.thread = true → ∀ u ∈ c.threads, inside u = false)
    (hown : inside o.thread = true → R o.shared o.thread)
    (hother : inside t = false → ∀ u ∈ c.threads, inside u = true → R c.shared u → R o.shared u) :
    (c.advance i o).Exclusive inside R := by
  have hcases : ∀ {j : ℕ} {u : θ}, (c.advance i o).threads[j]? = some u → inside u = true →
      (j = i ∧ u = o.thread) ∨ j ≠ i ∧ c.threads[j]? = some u := by
    intro j u hj hin
    rcases getElem?_advance hj with hown | hold | ⟨-, hnew⟩
    · exact .inl hown
    · exact .inr hold
    · cases (hstarted u hnew).symm.trans hin
  -- while `i` is inside, before or after its step, the others are outside
  have halone : ∀ {j : ℕ} {u : θ}, j ≠ i → c.threads[j]? = some u → inside o.thread = true →
      inside u = false := by
    intro j u hne hj hin
    cases htin : inside t with
    | false => exact henter htin hin u (mem_of_getElem? hj)
    | true => exact Bool.eq_false_iff.mpr fun hu => hne (h.one hj ht hu htin)
  refine ⟨fun u hu hin => ?_, fun {j k u v} hj hk hin hin' => ?_⟩
  · obtain ⟨j, hj⟩ := mem_iff_getElem?.mp hu
    rcases hcases hj hin with ⟨-, rfl⟩ | ⟨hne, hj⟩
    · exact hown hin
    · have hmem := mem_of_getElem? hj
      refine hother (Bool.eq_false_iff.mpr fun htin => ?_) u hmem hin (h.relies u hmem hin)
      exact hne (h.one hj ht hin htin)
  · rcases hcases hj hin with ⟨hji, rfl⟩ | ⟨hji, hj'⟩
    · rcases hcases hk hin' with ⟨hki, -⟩ | ⟨hki, hk'⟩
      · exact hji.trans hki.symm
      · cases (halone hki hk' hin).symm.trans hin'
    · rcases hcases hk hin' with ⟨-, rfl⟩ | ⟨-, hk'⟩
      · cases (halone hji hj' hin').symm.trans hin
      · exact h.one hj' hk' hin hin'

end Exclusive

/-! ## Sums over the goroutines -/

def Config.total {M : Type*} [AddCommMonoid M] (c : Config σ θ) (w : θ → M) : M :=
  (c.threads.map w).sum

section Total

variable {M : Type*} [AddCommMonoid M] {w : θ → M}

theorem Config.total_spawn (c : Config σ θ) (t : θ) : (c.spawn t).total w = c.total w + w t := by
  simp [total, spawn]

theorem sum_map_set {l : List θ} {i : ℕ} {t u : θ} (h : l[i]? = some t) :
    w t + ((l.set i u).map w).sum = (l.map w).sum + w u := by
  induction l generalizing i with
  | nil => cases h
  | cons a l ih =>
    cases i with
    | zero =>
      cases h
      simp only [set_cons_zero, map_cons, sum_cons]
      rw [add_comm (w u), add_assoc]
    | succ =>
      simp only [set_cons_succ, map_cons, sum_cons]
      rw [add_left_comm, ih h, add_assoc]

theorem Config.total_advance {i : ℕ} {t : θ} {o : Outcome σ θ} (ht : c.threads[i]? = some t) :
    w t + (c.advance i o).total w = c.total w + w o.thread + (o.started.map w).sum := by
  rw [total, advance, map_append, sum_append, ← add_assoc, sum_map_set ht]
  rfl

theorem Config.total_congr {v : θ → M} (h : ∀ t ∈ c.threads, v t = w t) : c.total v = c.total w :=
  congrArg sum (map_congr_left h)

theorem Config.map_total {N : Type*} [AddCommMonoid N] (f : M →+ N) (c : Config σ θ) :
    f (c.total w) = c.total fun t => f (w t) := by
  rw [total, map_list_sum, map_map]
  rfl

end Total

theorem Config.balance_advance {M : Type*} [AddCancelCommMonoid M] {w : θ → M} {f g f' g' : M}
    (h : f + c.total w = g) (ht : c.threads[i]? = some t)
    (hstep : f' + (w o.thread + (o.started.map w).sum) + g = g' + (f + w t)) :
    f' + (c.advance i o).total w = g' := by
  have htotal := total_advance (w := w) (o := o) ht
  refine add_right_cancel (b := f + w t + c.total w) ?_
  calc f' + (c.advance i o).total w + (f + w t + c.total w)
      = f' + (w t + (c.advance i o).total w) + (f + c.total w) := by abel
    _ = f' + (w o.thread + (o.started.map w).sum) + g + c.total w := by
        rw [htotal, h]
        abel
    _ = g' + (f + w t + c.total w) := by
        rw [hstep]
        abel

theorem Config.total_advance_eq {M : Type*} [AddCancelCommMonoid M] {w : θ → M} {g g' : M}
    (h : c.total w = g) (ht : c.threads[i]? = some t)
    (hstep : w o.thread + (o.started.map w).sum + g = g' + w t) : (c.advance i o).total w = g' := by
  rw [← zero_add ((c.advance i o).total w)]
  refine balance_advance (f := 0) (g := g) ?_ ht ?_
  · rw [zero_add, h]
  · rw [zero_add, zero_add, hstep]

variable {w : θ → ℕ}

theorem Config.le_total (ht : c.threads[i]? = some t) : w t ≤ c.total w :=
  le_sum_of_mem (mem_map_of_mem (mem_of_getElem? ht))

theorem sum_map_two_le {l : List θ} {j : ℕ} {u : θ} (hij : i < j) (ht : l[i]? = some t)
    (hu : l[j]? = some u) : w t + w u ≤ (l.map w).sum := by
  induction l generalizing i j with
  | nil => cases ht
  | cons a l ih =>
    obtain ⟨j, rfl⟩ := Nat.exists_eq_add_one_of_ne_zero (by omega : j ≠ 0)
    rw [getElem?_cons_succ] at hu
    rw [map_cons, sum_cons]
    cases i with
    | zero =>
      cases ht
      have := le_sum_of_mem (mem_map_of_mem (f := w) (mem_of_getElem? hu))
      omega
    | succ =>
      have := ih (by omega) ht hu
      omega

theorem Config.add_le_total {j : ℕ} {u : θ} (hij : i ≠ j) (ht : c.threads[i]? = some t)
    (hu : c.threads[j]? = some u) : w t + w u ≤ c.total w := by
  rcases Nat.lt_or_gt_of_ne hij with h | h
  · exact sum_map_two_le h ht hu
  · rw [add_comm]
    exact sum_map_two_le h hu ht

theorem Config.exists_of_total_ne_zero (h : c.total w ≠ 0) :
    ∃ (i : ℕ) (t : θ), c.threads[i]? = some t ∧ w t ≠ 0 := by
  by_contra hnone
  apply h
  rw [total, sum_eq_zero_iff]
  intro n hn
  obtain ⟨t, ht, rfl⟩ := mem_map.mp hn
  obtain ⟨i, hi⟩ := mem_iff_getElem?.mp ht
  by_contra hw
  exact hnone ⟨i, t, hi, hw⟩

end Fluxor.Goroutines
