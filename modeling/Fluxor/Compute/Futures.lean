import Fluxor.Compute.Stopping

/-!
# The futures of the compute pool

A result goes through a channel of one slot to a `Get`, which stores it for the
others. When no two calls on one future wait together, only the first result is
stored, and every `Get` that returns a result returns that one.

`Orderly` collects what the answers of the pool rest on: this, that `DropOldest`
drops nothing, and that `Stop` is calm.
-/

namespace Fluxor.Compute.Pool

open Goroutines Transition Config

variable {κ τ ρ : Type*} {p p' : Pool κ τ ρ} {i : ℕ} {choice : Choice ρ}
  {t : Thread κ τ ρ} {o : Outcome (Pool κ τ ρ) (Thread κ τ ρ)}
  {c : Config (Pool κ τ ρ) (Thread κ τ ρ)}

/-! ## The executions -/

def inFlight (id : ℕ) : Thread κ τ ρ → ℕ
  | .get id' _ .waiting | .get id' _ (.storing _) => if id' = id then 1 else 0
  | _ => 0

def isAccepted : Thread κ τ ρ → Bool
  | .submit _ _ _ (.returned none) => true
  | _ => false

variable (c)

/-- The contexts of the jobs do not end, and `Get` is called on futures of `Submit`. -/
def Endless : Move (Thread κ τ ρ) (Choice ρ) → Prop
  | .spawn (.submit _ _ ends _) => ends = false
  | .spawn (.get id _ _) => c.threads[id]?.any isAccepted = true
  | _ => True

def StaysOrderly (choice : Choice ρ) : Thread κ τ ρ → Prop
  | .submit _ _ _ .removing => c.shared.jobChan = []
  | .get id _ .called => (c.shared.cells id).done = true ∨ c.total (inFlight id) = 0
  | t => StaysCalm c choice t

def Orderly : Move (Thread κ τ ρ) (Choice ρ) → Prop
  | .spawn _ => True
  | .run i choice => ∀ t ∈ c.threads[i]?, StaysOrderly c choice t

instance (m : Move (Thread κ τ ρ) (Choice ρ)) : Decidable (Endless c m) := by
  delta Endless
  cases m with
  | spawn t => cases t <;> infer_instance
  | run => infer_instance

variable {c}

instance [DecidableEq ρ] (c : Config (Pool κ τ ρ) (Thread κ τ ρ))
    (choice : Choice ρ) (t : Thread κ τ ρ) : Decidable (StaysOrderly c choice t) := by
  delta StaysOrderly StaysCalm
  cases t with
  | submit _ _ _ st | get _ _ st | worker st | stop _ st => cases st <;> infer_instance
  | cleanup => infer_instance

instance [DecidableEq ρ] (c : Config (Pool κ τ ρ) (Thread κ τ ρ))
    (m : Move (Thread κ τ ρ) (Choice ρ)) : Decidable (Orderly c m) := by
  delta Orderly
  cases m <;> infer_instance

theorem StaysOrderly.calm (h : StaysOrderly c choice t) : StaysCalm c choice t := by
  cases t with
  | submit | get => trivial
  | _ => exact h

/-! ## What changes in the jobs -/

variable {f : Cell τ ρ → Cell τ ρ}

theorem cells_modify {β : Type*} (g : Cell τ ρ → β) (p : Pool κ τ ρ) (id : ℕ)
    (hf : ∀ cell, g (f cell) = g cell) (j : ℕ) : g ((p.modify id f).cells j) = g (p.cells j) := by
  change g (Function.update p.cells id (f (p.cells id)) j) = _
  grind

theorem cells_modify_self (p : Pool κ τ ρ) (id : ℕ) (f : Cell τ ρ → Cell τ ρ) :
    (p.modify id f).cells id = f (p.cells id) :=
  Function.update_self ..

variable {id j : ℕ}

theorem cells_modify_of_ne (p : Pool κ τ ρ) (f : Cell τ ρ → Cell τ ρ) (hj : j ≠ id) :
    (p.modify id f).cells j = p.cells j :=
  Function.update_of_ne hj ..

theorem isSome_deliver (p : Pool κ τ ρ) (id : ℕ) (r : JobResult τ ρ) :
    ((p.deliver id r).cells id).result.isSome = true := by
  grind [deliver, cells_modify_self]

theorem result_deliver (p : Pool κ τ ρ) (id : ℕ) (r : JobResult τ ρ)
    (h : (p.cells j).result.isSome = true) : ((p.deliver id r).cells j).result.isSome = true := by
  grind [isSome_deliver, deliver, cells_modify_of_ne]

/-- A goroutine other than `Get` may deliver a result. -/
structure Delivers (p p' : Pool κ τ ρ) : Prop where
  result : ∀ j, (p.cells j).result.isSome = true → (p'.cells j).result.isSome = true
  cached : ∀ j, (p'.cells j).cached = (p.cells j).cached
  done : ∀ j, (p'.cells j).done = (p.cells j).done

theorem Delivers.of_cells (h : p'.cells = p.cells) : Delivers p p' := by
  constructor <;> intro j <;> rw [h]
  exact id

theorem Delivers.of_modify (p : Pool κ τ ρ) (id : ℕ)
    (hresult : ∀ cell, (f cell).result = cell.result)
    (hcached : ∀ cell, (f cell).cached = cell.cached) (hdone : ∀ cell, (f cell).done = cell.done) :
    Delivers p (p.modify id f) := by
  refine ⟨?_, cells_modify Cell.cached p id hcached, cells_modify Cell.done p id hdone⟩
  intro j hj
  rwa [cells_modify Cell.result p id hresult]

theorem Delivers.of_deliver (p : Pool κ τ ρ) (id : ℕ) (r : JobResult τ ρ) :
    Delivers p (p.deliver id r) :=
  ⟨fun _ => result_deliver p id r, cells_modify Cell.cached p id fun _ => rfl,
    cells_modify Cell.done p id fun _ => rfl⟩

theorem WorkerStep.delivers {st st' : Worker κ τ ρ} (h : WorkerStep p i choice st p' st') :
    Delivers p p' := by
  cases h with
  | start | signal => apply Delivers.of_modify <;> intro _ <;> rfl
  | cancel | send => exact .of_deliver p _ _
  | _ => exact .of_cells rfl

/-! ## The futures -/

def Gets (p : Pool κ τ ρ) (_ : ℕ) : Thread κ τ ρ → Prop
  | .get id _ .reading => (p.cells id).done = true
  | .get id _ (.returned (some r)) => (p.cells id).cached = some r
  | .get _ ends (.returned none) => ends = true
  | _ => True

/-- At most one `Get` is in flight on a future, and only before its result is
stored. -/
structure Futures (c : Config (Pool κ τ ρ) (Thread κ τ ρ)) : Prop where
  flight : ∀ id, c.total (inFlight id) ≤ 1
  cached : ∀ id, c.total (inFlight id) ≠ 0 → (c.shared.cells id).cached = none
  done : ∀ id, (c.shared.cells id).done = (c.shared.cells id).cached.isSome
  gets : c.All Gets

theorem Gets.mono {u : Thread κ τ ρ} (h : Gets p j u)
    (hdone : ∀ id, (p.cells id).done = true → (p'.cells id).done = true)
    (hcached : ∀ id r, (p.cells id).cached = some r → (p'.cells id).cached = some r) :
    Gets p' j u := by
  cases u with
  | get id ends st =>
    cases st with
    | reading => exact hdone id h
    | returned r =>
      cases r with
      | none => exact h
      | some r => exact hcached id r h
    | _ => trivial
  | _ => trivial

variable {ends : Bool} {st st' : Get τ ρ}

theorem GetStep.cells_of_ne (h : GetStep p id ends st p' st') (hj : j ≠ id) :
    p'.cells j = p.cells j := by
  cases h <;> grind [cells_modify_of_ne]

theorem Futures.get_own (h : Futures c) (ht : c.threads[i]? = some (.get id ends st))
    (hok : StaysOrderly c choice (.get id ends st)) (hstep : GetStep c.shared id ends st p' st')
    {n : ℕ} (hn : inFlight id (.get id ends st : Thread κ τ ρ) + n =
      c.total (inFlight id) + inFlight id (.get id ends st' : Thread κ τ ρ)) :
    n ≤ 1 ∧ (n ≠ 0 → (p'.cells id).cached = none) ∧
      (p'.cells id).done = (p'.cells id).cached.isSome ∧ Gets p' i (.get id ends st') := by
  have hflight := h.flight id
  have hcached := h.cached id
  have hdone := h.done id
  cases hstep with
  | done hr | read hr =>
    obtain rfl : n = c.total (inFlight id) := by simpa [inFlight] using hn
    exact ⟨hflight, hcached, hdone, hr⟩
  | early hno =>
    have hzero : c.total (inFlight id) = 0 :=
      Or.resolve_left hok (by rw [hno]; exact Bool.false_ne_true)
    have hone : n = 1 := by simpa [inFlight, hzero] using hn
    refine ⟨hone.le, fun _ => ?_, hdone, trivial⟩
    rw [hno] at hdone
    exact Option.not_isSome_iff_eq_none.mp (by simp [← hdone])
  | unset hnone =>
    have hyes : (c.shared.cells id).done = true := h.gets i _ ht
    rw [hdone, hnone] at hyes
    cases hyes
  | receive =>
    have hsame : n = c.total (inFlight id) := by
      simp only [inFlight, if_true] at hn
      omega
    rw [hsame, cells_modify_self]
    exact ⟨hflight, hcached, hdone, trivial⟩
  | ended hends =>
    have hzero : n = 0 := by
      simp only [inFlight, if_true] at hn
      omega
    exact ⟨by omega, fun hne => absurd hzero hne, hdone, hends⟩
  | store => grind [inFlight, Gets, cells_modify_self]

theorem Futures.get_mono (h : Futures c) (ht : c.threads[i]? = some (.get id ends st))
    (hstep : GetStep c.shared id ends st p' st') :
    (∀ j, (c.shared.cells j).done = true → (p'.cells j).done = true) ∧
      ∀ j r, (c.shared.cells j).cached = some r → (p'.cells j).cached = some r := by
  cases hstep with
  | receive =>
    constructor
    · intro j hyes
      refine Eq.trans ?_ hyes
      apply cells_modify Cell.done
      exact fun _ => rfl
    · intro j r hr
      refine Eq.trans ?_ hr
      apply cells_modify Cell.cached
      exact fun _ => rfl
  | store =>
    have hflying : c.total (inFlight id) ≠ 0 := by
      have hle : inFlight id _ ≤ c.total (inFlight id) := Config.le_total ht
      simp only [inFlight, if_true] at hle
      omega
    constructor
    · intro j hyes
      by_cases hj : j = id
      · rw [hj, cells_modify_self]
      · rw [cells_modify_of_ne _ _ hj]
        exact hyes
    · intro j r hr
      by_cases hj : j = id
      · rw [hj, h.cached id hflying] at hr
        cases hr
      · rw [cells_modify_of_ne _ _ hj]
        exact hr
  | done | early | read | unset | ended => exact ⟨fun _ hyes => hyes, fun _ _ hr => hr⟩

variable [DecidableEq κ]

theorem SubmitStep.delivers {job : Job κ τ} {st st' : Submit κ τ} {started : List (Thread κ τ ρ)}
    (h : SubmitStep p job st p' st' started) : Delivers p p' := by
  cases h with
  | supersede => apply Delivers.of_modify <;> intro _ <;> rfl
  | cancel => exact .of_deliver p _ _
  | _ => exact .of_cells rfl

theorem CleanupStep.delivers {job : Job κ τ} {st st' : Cleanup} (h : CleanupStep p job st p' st') :
    Delivers p p' := by
  cases h with
  | signalled => apply Delivers.of_modify <;> intro _ <;> rfl
  | delete | other => exact .of_cells rfl

theorem Step.delivers (h : Step p i choice t o) (hget : ∀ id ends st, t ≠ .get id ends st) :
    Delivers p o.shared := by
  cases h with
  | submit h | worker h | cleanup h => exact h.delivers
  | get => exact absurd rfl (hget _ _ _)
  | stop h => cases h <;> exact .of_cells rfl

theorem Step.started_cleanup (h : Step p i choice t o) :
    ∀ u ∈ o.started, ∃ job st, u = .cleanup job st := by
  cases h with
  | submit h => cases h <;> grind
  | _ =>
    intro u hu
    cases hu

theorem Step.getElem?_advance (h : Step c.shared i choice t o) {u : Thread κ τ ρ}
    (hu : (c.advance i o).threads[j]? = some u) (hcleanup : ∀ job st, u ≠ .cleanup job st) :
    (j = i ∧ u = o.thread) ∨ (j ≠ i ∧ c.threads[j]? = some u) := by
  rcases Config.getElem?_advance hu with hown | hother | ⟨-, hstarted⟩
  · exact .inl hown
  · exact .inr hother
  · obtain ⟨job, st, rfl⟩ := h.started_cleanup u hstarted
    exact absurd rfl (hcleanup job st)

theorem Step.returned_stays (h : Step c.shared i choice t o) (ht : c.threads[i]? = some t)
    {key : Option κ} {payload : τ} {err : Option SubmitError}
    (hj : c.threads[j]? = some (.submit key payload ends (.returned err))) :
    (c.advance i o).threads[j]? = some (.submit key payload ends (.returned err)) := by
  refine getElem?_advance_of_ne ?_ hj
  rintro rfl
  rw [hj] at ht
  cases ht
  cases h with
  | submit h =>
    cases h with
    | panic hst => cases hst

theorem Futures.spawn (h : Futures c) (hentry : (code κ τ ρ).entry t = true) :
    Futures (c.spawn t) := by
  have htotal : ∀ id, (c.spawn t).total (inFlight id) = c.total (inFlight id) := by
    intro id
    rw [total_spawn]
    cases t with
    | get id ends st =>
      cases st with
      | called => rfl
      | _ => cases hentry
    | _ => rfl
  refine ⟨fun id => ?_, fun id => ?_, h.done, h.gets.spawn ?_⟩
  · rw [htotal]
    exact h.flight id
  · rw [htotal]
    exact h.cached id
  · cases t with
    | get id ends st =>
      cases st with
      | called => trivial
      | _ => cases hentry
    | _ => trivial

theorem total_inFlight (ht : c.threads[i]? = some t) (h : Step c.shared i choice t o) (id : ℕ) :
    inFlight id t + (c.advance i o).total (inFlight id) =
      c.total (inFlight id) + inFlight id o.thread := by
  have htotal := total_advance (w := inFlight id) (o := o) ht
  have hzero : (o.started.map (inFlight id)).sum = 0 := by
    rw [List.sum_eq_zero_iff]
    intro x hx
    obtain ⟨u, hu, rfl⟩ := List.mem_map.mp hx
    obtain ⟨job, st, rfl⟩ := h.started_cleanup u hu
    rfl
  omega

theorem Futures.other (h : Futures c) (ht : c.threads[i]? = some t)
    (hstep : Step c.shared i choice t o) (hget : ∀ id ends st, t ≠ .get id ends st) :
    Futures (c.advance i o) := by
  have hdelivers := hstep.delivers hget
  have htotal : ∀ id, (c.advance i o).total (inFlight id) = c.total (inFlight id) := by
    intro id
    have htotal := total_inFlight ht hstep id
    have hzero : inFlight id t = 0 ∧ inFlight id o.thread = 0 := by
      cases hstep with
      | get => exact absurd rfl (hget _ _ _)
      | _ => exact ⟨rfl, rfl⟩
    omega
  refine ⟨fun id => htotal id ▸ h.flight id, ?_, ?_, ?_⟩
  · intro id hid
    rw [htotal] at hid
    exact (hdelivers.cached id).trans (h.cached id hid)
  · intro id
    change (o.shared.cells id).done = (o.shared.cells id).cached.isSome
    rw [hdelivers.done, hdelivers.cached, h.done]
  · refine h.gets.advance ?_ ?_ ?_
    · cases hstep with
      | get => exact absurd rfl (hget _ _ _)
      | _ => trivial
    · grind [Gets.mono, Delivers.done, Delivers.cached]
    · intro j u _ hu
      obtain ⟨job, st, rfl⟩ := hstep.started_cleanup u hu
      trivial

theorem Futures.get (h : Futures c) (ht : c.threads[i]? = some (.get id ends st))
    (hok : StaysOrderly c choice (.get id ends st)) (hstep : GetStep c.shared id ends st p' st') :
    Futures (c.advance i ⟨p', .get id ends st', []⟩) := by
  have htotal := total_inFlight ht (Step.get hstep : Step c.shared i choice _ _)
  obtain ⟨hflight, hcached, hdone, hgets⟩ := h.get_own ht hok hstep (htotal id)
  -- another future is not touched
  have hother : ∀ j, j ≠ id → (c.advance i ⟨p', .get id ends st', []⟩).total (inFlight j) =
        c.total (inFlight j) := by
    intro j hj
    have hzero : ∀ st, inFlight j (.get id ends st : Thread κ τ ρ) = 0 := by
      intro st
      cases st <;> simp [inFlight, Ne.symm hj]
    grind
  refine ⟨fun j => ?_, fun j hj => ?_, fun j => ?_, ?_⟩
  · grind [flight]
  · by_cases hji : j = id
    · rw [hji] at hj ⊢
      exact hcached hj
    · rw [hother j hji] at hj
      change (p'.cells j).cached = none
      rw [hstep.cells_of_ne hji]
      exact h.cached j hj
  · by_cases hji : j = id
    · rwa [hji]
    · change (p'.cells j).done = (p'.cells j).cached.isSome
      rw [hstep.cells_of_ne hji]
      exact h.done j
  grind [All.advance_alone, gets, Gets.mono, get_mono]

theorem Futures.advance (h : Futures c) (ht : c.threads[i]? = some t)
    (hok : StaysOrderly c choice t) (hstep : Step c.shared i choice t o) :
    Futures (c.advance i o) := by
  by_cases hget : ∃ id ends st, t = .get id ends st
  · obtain ⟨id, ends, st, rfl⟩ := hget
    cases hstep
    grind [get]
  grind [other]

end Fluxor.Compute.Pool
