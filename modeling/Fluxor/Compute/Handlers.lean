import Fluxor.Compute.Answers
import Fluxor.Support.Tokens

/-!
# Handlers of the compute pool

Whatever the policy and the interleaving, a job is with its `Submit`, in the queue, with
a worker that has received it, or handled, and only in one of these places.
-/

namespace Fluxor.Compute.Pool

open Goroutines Config Transition List

variable {κ τ ρ : Type*} {p : Pool κ τ ρ} {i j : ℕ} {choice : Choice ρ}

def placed (p : Pool κ τ ρ) (j : ℕ) : ℕ :=
  p.queued.count j + (p.cells j).started.toNat

def held (j : ℕ) : Thread κ τ ρ → ℕ
  | .worker (.checking job) => if job.id = j then 1 else 0
  | _ => 0

def unsent : Thread κ τ ρ → Bool
  | .submit _ _ _ (.returned none) => false
  | .submit .. => true
  | _ => false

def jobs (κ τ ρ : Type*) : Tokens (Pool κ τ ρ) (Thread κ τ ρ) ℕ :=
  ⟨placed, held, fun j => j, fun _ => unsent⟩

theorem placed_modify {id : ℕ} {f : Cell τ ρ → Cell τ ρ}
    (h : ∀ cell, (f cell).started = cell.started) : (p.modify id f).placed j = p.placed j :=
  congrArg (fun b => p.queued.count j + Bool.toNat b) (cells_modify Cell.started p id h j)

theorem placed_push (job : Job κ τ) :
    (p.push job).placed j = p.placed j + if job.id = j then 1 else 0 := by
  simp only [placed, queued, push, map_append, count_append]
  grind

theorem placed_start (job : Job κ τ) :
    (p.modify job.id fun cell => { cell with started := true }).placed j ≤
      p.placed j + if job.id = j then 1 else 0 := by
  by_cases hj : job.id = j
  · simp [placed, queued, modify, hj]
  · simp [placed, queued, modify, hj, Function.update_of_ne (Ne.symm hj)]

variable [DecidableEq κ] {t : Thread κ τ ρ} {o : Outcome (Pool κ τ ρ) (Thread κ τ ρ)}

theorem Step.kept_jobs (h : Step p i choice t o) : (jobs κ τ ρ).Kept p i t o j := by
  simp only [Tokens.Kept, jobs]
  cases h with
  | @submit _ _ _ st _ _ _ h =>
    cases h with
    | send | resend | sendKeyed => grind [placed_push, held, unsent]
    | remove => grind [placed, queued, held, unsent]
    | supersede | cancel => simp [placed_modify, held, unsent, deliver]
    | panic hst =>
      cases st with
      | returned => cases hst
      | _ => exact le_rfl
    | _ => grind [placed, queued, held, unsent]
  | worker h =>
    cases h with
    | receive => grind [placed, queued, held, unsent]
    | start => simpa [held, unsent] using placed_start _
    | cancel | send | signal => simp [placed_modify, held, unsent, deliver]
    | _ => simp [placed, queued, held, unsent]
  | get h => cases h <;> simp [placed_modify, held, unsent]
  | stop h => cases h <;> simp [placed, queued, held, unsent]
  | cleanup h =>
    cases h with
    | signalled => simp [placed_modify, held, unsent]
    | _ => simp [placed, queued, held, unsent]

/-- A worker that has received a job is the first to handle it, and a job that is
not accepted is never handled. -/
theorem handled_once {numCPU : ℕ} {policy : Policy} {workers queueSize : ℤ}
    {acts : List (Move (Thread κ τ ρ) (Choice ρ))} {init c : Config (Pool κ τ ρ) (Thread κ τ ρ)}
    (hinit : newComputePool κ τ ρ numCPU policy workers queueSize = some init)
    (h : Run (code κ τ ρ).step anyStep init acts c) :
    (∀ (w : ℕ) job, c.threads[w]? = some (Thread.worker (.checking job)) →
      (c.shared.cells job.id).started = false ∧ job.id ∉ c.shared.queued) ∧
    ∀ (i : ℕ) key payload ends e,
      c.threads[i]? = some (Thread.submit key payload ends (.returned (some e))) →
        (c.shared.cells i).started = false ∧ i ∉ c.shared.queued := by
  have hcount : ∀ j, (jobs κ τ ρ).count c j ≤ 1 := by
    intro j
    obtain ⟨m, n, -, rfl⟩ := started_of_newComputePool hinit
    refine (jobs κ τ ρ).count_le_one rfl ((total_started _).trans (Nat.mul_zero m)) ?_
      (fun h => (step_of_next h).kept_jobs) h
    intro t ht
    revert ht
    change entry t = true → held j t = 0
    fun_cases entry t <;> grind [held]
  have hzero : ∀ {j}, (c.total (held j) ≠ 0 ∨ (jobs κ τ ρ).made j c.threads[j]? ≠ 0) →
      (c.shared.cells j).started = false ∧ j ∉ c.shared.queued := by
    intro j hj
    have hle := hcount j
    simp only [Tokens.count, jobs, placed] at hle hj
    have hzero : c.shared.queued.count j = 0 ∧ (c.shared.cells j).started.toNat = 0 := by omega
    exact ⟨Bool.toNat_eq_zero.mp hzero.2, count_eq_zero.mp hzero.1⟩
  refine ⟨fun w job hw => hzero (.inl ?_), fun i key payload ends e hi => hzero (.inr ?_)⟩
  · have := le_total (w := held job.id) hw
    grind [held]
  · rw [hi]
    exact Nat.one_ne_zero

/-- A worker has the first job, the second waits, and the third was refused. -/
theorem handled_once_refused :
    ∃ (acts : _) (c : Config (Pool Unit Unit Bool) (Thread Unit Unit Bool)),
      Run (code Unit Unit Bool).step anyStep (started Unit Unit Bool .dropNewest 1 1) acts c ∧
        (c.shared.cells 1).started = false ∧ 1 ∉ c.shared.queued ∧
        (c.shared.cells 3).started = false ∧ 3 ∉ c.shared.queued := by
  obtain ⟨c, hrun, hworker, hsubmit⟩ := exists_run (code Unit Unit Bool).step anyStep
    (started Unit Unit Bool .dropNewest 1 1)
    (flatten [submits none 1 [.next, .channel], takes 0 [.channel],
      submits none 2 [.next, .channel], submits none 3 [.next, .default]])
    (fun c => c.threads[0]? = some (Thread.worker (.checking ⟨1, none, (), false⟩)) ∧
      c.threads[3]? = some (Thread.submit none () false (.returned (some .droppingNewest))))
    (by decide +kernel)
  have hinit : newComputePool Unit Unit Bool 1 .dropNewest 1 1 =
    some (started Unit Unit Bool .dropNewest 1 1) := rfl
  obtain ⟨hreceived, hrefused⟩ := handled_once hinit hrun
  obtain ⟨hfirst, hfirst'⟩ := hreceived 0 _ hworker
  exact ⟨_, c, hrun, hfirst, hfirst', hrefused 3 _ _ _ _ hsubmit⟩

end Fluxor.Compute.Pool
