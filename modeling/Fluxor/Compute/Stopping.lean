import Fluxor.Compute.Queue

/-!
# Stopping the compute pool

`Stop` closes the channel of the jobs and cancels the contexts of the workers. A
`Submit` that has passed the test of `running` panics when it sends after that, and
a worker whose context is cancelled may leave although jobs are queued. When neither
happens (`StaysCalm`), nothing panics and queued jobs always have a worker.
-/

namespace Fluxor.Compute.Pool

open Goroutines Config

variable {κ τ ρ : Type*} {p p' : Pool κ τ ρ} {i : ℕ} {choice : Choice ρ}
  {t : Thread κ τ ρ} {o : Outcome (Pool κ τ ρ) (Thread κ τ ρ)}
  {c : Config (Pool κ τ ρ) (Thread κ τ ρ)}

def window : Thread κ τ ρ → ℕ
  | .submit _ _ _ st => st.window
  | _ => 0

/-- The channel is closed only while no `Submit` may still send, and a worker
leaves through its context only when the queue is empty or another worker is
there. -/
def StaysCalm (c : Config (Pool κ τ ρ) (Thread κ τ ρ)) (choice : Choice ρ) : Thread κ τ ρ → Prop
  | .stop _ .closing => c.total window = 0
  | .worker .idle => choice = .take .done → c.shared.jobChan = [] ∨ 2 ≤ c.total alive
  | _ => True

def Stopped (p : Pool κ τ ρ) (_ : ℕ) : Thread κ τ ρ → Prop
  | .stop _ .closing => p.running = false
  | .stop _ (.stopping _) | .stop _ (.waiting _) => p.running = false ∧ p.closed = true
  | _ => True

structure Calm (c : Config (Pool κ τ ρ) (Thread κ τ ρ)) : Prop where
  closed : c.shared.closed = true → c.shared.running = false ∧ c.total window = 0
  cancelled : ∀ k, c.shared.cancelled k = true → c.shared.closed = true
  stops : c.All Stopped
  panicked : c.shared.panicked = false
  served : c.total alive = 0 → c.shared.jobChan = [] ∧ c.shared.closed = true

theorem Calm.spawn [DecidableEq κ] (h : Calm c) (hentry : (code κ τ ρ).entry t = true) :
    Calm (c.spawn t) := by
  have hwindow : (c.spawn t).total window = c.total window := by
    rw [total_spawn]
    cases t with
    | submit key payload ends st =>
      cases st with
      | called => rfl
      | _ => cases hentry
    | _ => rfl
  have halive : (c.spawn t).total alive = c.total alive := by
    rw [total_spawn]
    cases t with
    | worker => cases hentry
    | _ => rfl
  refine ⟨?_, h.cancelled, h.stops.spawn ?_, h.panicked, ?_⟩
  · rw [hwindow]
    exact h.closed
  · cases t with
    | stop ends st =>
      cases st with
      | called => trivial
      | _ => cases hentry
    | _ => trivial
  · rw [halive]
    exact h.served

structure SameFlags (p p' : Pool κ τ ρ) : Prop where
  running : p'.running = p.running
  closed : p'.closed = p.closed
  cancelled : p'.cancelled = p.cancelled
  panicked : p'.panicked = p.panicked

theorem Stopped.mono {j : ℕ} {u : Thread κ τ ρ} (h : Stopped p j u)
    (hrunning : p.running = false → p'.running = false)
    (hclosed : p.closed = true → p'.closed = true) : Stopped p' j u := by
  cases u with
  | stop ends st =>
    cases st with
    | closing => exact hrunning h
    | stopping | waiting => exact ⟨hrunning h.1, hclosed h.2⟩
    | _ => trivial
  | _ => trivial

theorem Calm.open (h : Calm c) (ht : c.threads[i]? = some t) (hwindow : window t = 1) :
    c.shared.closed = false := by
  by_contra hclosed
  have hzero := (h.closed (by simpa using hclosed)).2
  have hone : window t ≤ c.total window := Config.le_total ht
  omega

theorem exists_worker (h : c.total alive ≠ 0) :
    ∃ (w : ℕ) (st : Worker κ τ ρ), c.threads[w]? = some (.worker st) ∧ st ≠ .returned := by
  obtain ⟨w, t, hw, hne⟩ := exists_of_total_ne_zero h
  cases t with
  | worker st =>
    refine ⟨w, st, hw, ?_⟩
    rintro rfl
    exact hne rfl
  | _ => exact absurd rfl hne

theorem Calm.stop (h : Calm c) {ends : Bool} {st st' : Stop}
    (ht : c.threads[i]? = some (.stop ends st)) (hok : StaysCalm c choice (.stop ends st))
    (hstep : StopStep c.shared ends st p' st') : Calm (c.advance i ⟨p', .stop ends st', []⟩) := by
  have hstopped : Stopped c.shared i (.stop ends st) := h.stops i _ ht
  have hkeep : ∀ {p' : Pool κ τ ρ} {st' : Stop}, (c.shared.running = false → p'.running = false) →
      (c.shared.closed = true → p'.closed = true) →
      Stopped p' i (.stop ends st') → (c.advance i ⟨p', .stop ends st', []⟩).All Stopped := by
    intro p' st' hrunning hclosed hown
    refine h.stops.advance_alone rfl hown ?_
    intro j u _ _ hu
    exact hu.mono hrunning hclosed
  have htotal : ∀ {p' : Pool κ τ ρ} {st' : Stop} {w : Thread κ τ ρ → ℕ},
      (∀ st, w (.stop ends st) = 0) →
        (c.advance i ⟨p', .stop ends st', []⟩).total w = c.total w := by
    intro p' st' w hw
    have htotal := total_advance (w := w) (o := ⟨p', .stop ends st', []⟩) ht
    simpa [hw] using htotal
  have hsame : ∀ {st' : Stop}, Stopped c.shared i (.stop ends st') →
      Calm (c.advance i ⟨c.shared, .stop ends st', []⟩) := by
    intro st' hown
    refine ⟨?_, h.cancelled, hkeep id id hown, h.panicked, ?_⟩
    · rw [htotal fun _ => rfl]
      exact h.closed
    · rw [htotal fun _ => rfl]
      exact h.served
  cases hstep with
  | stop =>
    refine ⟨?_, h.cancelled, hkeep (fun _ => rfl) id rfl, h.panicked, ?_⟩
    · intro hclosed
      rw [htotal fun _ => rfl]
      exact ⟨rfl, (h.closed hclosed).2⟩
    · rw [htotal fun _ => rfl]
      exact h.served
  | late | finish => exact hsame trivial
  | close =>
    refine ⟨?_, fun _ _ => rfl, hkeep id (fun _ => rfl) ⟨hstopped, rfl⟩, h.panicked, ?_⟩
    · intro _
      rw [htotal fun _ => rfl]
      exact ⟨hstopped, hok⟩
    · rw [htotal fun _ => rfl]
      intro hzero
      exact ⟨(h.served hzero).1, rfl⟩
  | cancel =>
    refine ⟨?_, fun _ _ => hstopped.2, hkeep id id hstopped, h.panicked, ?_⟩
    · rw [htotal fun _ => rfl]
      exact h.closed
    · rw [htotal fun _ => rfl]
      exact h.served
  | next => exact hsame hstopped

variable [DecidableEq κ]

theorem SubmitStep.sameFlags {job : Job κ τ} {st st' : Submit κ τ} {started : List (Thread κ τ ρ)}
    (h : SubmitStep p job st p' st' started) (hopen : st.window = 1 → p.closed = false) :
    SameFlags p p' := by
  cases h with
  | panic hst hclosed =>
    rw [hopen hst] at hclosed
    cases hclosed
  | _ => exact ⟨rfl, rfl, rfl, rfl⟩

section

variable (h : Step p i choice t o)

include h

/-- A goroutine other than `Stop` leaves the flags alone, unless the channel is
closed under a `Submit`. -/
theorem Step.sameFlags (hopen : window t = 1 → p.closed = false)
    (hstop : ∀ ends st, t ≠ .stop ends st) : SameFlags p o.shared := by
  cases h with
  | submit h => exact h.sameFlags hopen
  | worker h | get h | cleanup h => cases h <;> exact ⟨rfl, rfl, rfl, rfl⟩
  | stop => exact absurd rfl (hstop _ _)

theorem Step.window_eq_zero (hrunning : p.running = false)
    (hzero : window t = 0) : window o.thread = 0 ∧ (o.started.map window).sum = 0 := by
  cases h with
  | submit h =>
    cases h with
    | pass hpass =>
      rw [hrunning] at hpass
      cases hpass
    | panic hst =>
      rw [window, hst] at hzero
      cases hzero
    | refuse | drop | removeEmpty | redrop | delete | send | resend | sendKeyed => exact ⟨rfl, rfl⟩
    | _ => cases hzero
  | _ => exact ⟨rfl, rfl⟩

theorem Step.jobChan_eq_nil (hclosed : p.closed = true)
    (hchan : p.jobChan = []) : o.shared.jobChan = [] := by
  cases h with
  | submit h =>
    cases h with
    | send _ hopen | resend hopen | sendKeyed hopen =>
      rw [hclosed] at hopen
      cases hopen
    | remove hcons =>
      rw [hchan] at hcons
      cases hcons
    | _ => exact hchan
  | worker h =>
    cases h with
    | receive hcons =>
      rw [hchan] at hcons
      cases hcons
    | _ => exact hchan
  | get h | stop h | cleanup h => cases h <;> exact hchan

end

theorem Calm.closed_advance (h : Calm c) (ht : c.threads[i]? = some t)
    (hstep : Step c.shared i choice t o) (hclosed : c.shared.closed = true) :
    (c.advance i o).total window = 0 := by
  obtain ⟨hrunning, hzero⟩ := h.closed hclosed
  have hle : window t ≤ c.total window := Config.le_total ht
  have hthread : window t = 0 := by omega
  obtain ⟨hthread', hstarted⟩ := hstep.window_eq_zero hrunning hthread
  have htotal := total_advance (w := window) (o := o) ht
  omega

section

variable (h : Calm c) (ht : c.threads[i]? = some t) (hok : StaysCalm c choice t)
    (hstep : Step c.shared i choice t o)

include h ht hok hstep

theorem Calm.served_advance
    (hzero : (c.advance i o).total alive = 0) : o.shared.jobChan = [] ∧ c.shared.closed = true := by
  by_cases hbefore : c.total alive = 0
  · obtain ⟨hchan, hclosed⟩ := h.served hbefore
    exact ⟨hstep.jobChan_eq_nil hclosed hchan, hclosed⟩
  · -- the last worker leaves
    have htotal := total_advance (w := alive) (o := o) ht
    rw [hstep.started_alive, hzero] at htotal
    cases hstep with
    | worker hstep =>
      cases hstep with
      | closed hempty hclosed => exact ⟨hempty, hclosed⟩
      | done hchoice hcancelled =>
        rcases hok hchoice with hempty | htwo
        · exact ⟨hempty, h.cancelled i hcancelled⟩
        · change 1 + 0 = _ + 0 + 0 at htotal
          omega
      | _ =>
        change 1 + 0 = _ + 1 + 0 at htotal
        omega
    | _ =>
      change 0 + 0 = _ + 0 + 0 at htotal
      omega

theorem Calm.advance : Calm (c.advance i o) := by
  by_cases hstop : ∃ ends st, t = .stop ends st
  · obtain ⟨ends, st, rfl⟩ := hstop
    cases hstep with
    | stop hstep => exact h.stop ht hok hstep
  · have hflags := hstep.sameFlags (h.open ht) (fun ends st heq => hstop ⟨ends, st, heq⟩)
    refine ⟨?_, ?_, ?_, hflags.panicked.trans h.panicked, ?_⟩
    · intro hclosed
      have hold : c.shared.closed = true := hflags.closed.symm.trans hclosed
      exact ⟨hflags.running.trans (h.closed hold).1, h.closed_advance ht hstep hold⟩
    · intro k hk
      refine hflags.closed.trans (h.cancelled k ?_)
      rwa [← hflags.cancelled]
    · refine h.stops.advance ?_ ?_ ?_
      · cases hstep with
        | stop => exact absurd ⟨_, _, rfl⟩ hstop
        | _ => trivial
      · intro j u _ _ hu
        exact hu.mono hflags.running.trans hflags.closed.trans
      · intro j u _ hu
        cases u with
        | stop =>
          cases hstep with
          | submit hstep => cases hstep <;> simp at hu
          | _ => cases hu
        | _ => trivial
    · intro hzero
      obtain ⟨hchan, hclosed⟩ := h.served_advance ht hok hstep hzero
      exact ⟨hchan, hflags.closed.trans hclosed⟩

end

end Fluxor.Compute.Pool
