import Mathlib.Data.Prod.Lex
import Fluxor.Support.Fairness
import Fluxor.Compute.Pool

/-!
# The queue of the compute pool

A job in the queue is received by a worker: the jobs before it are received, and a
worker that handles a job comes back. This needs a worker as long as there are jobs,
and that nobody else takes them.
-/

namespace Fluxor.Compute.Pool

open Goroutines Config List

variable {κ τ ρ : Type*} {p p' : Pool κ τ ρ} {i : ℕ} {choice : Choice ρ} {t : Thread κ τ ρ}
  {o : Outcome (Pool κ τ ρ) (Thread κ τ ρ)}
  {c : Config (Pool κ τ ρ) (Thread κ τ ρ)}

/-! ## The new pool -/

variable {policy : Policy}

theorem started_of_newComputePool {numCPU : ℕ} {workers queueSize : ℤ}
    {init : Config (Pool κ τ ρ) (Thread κ τ ρ)}
    (h : newComputePool κ τ ρ numCPU policy workers queueSize = some init) :
    ∃ m n, 0 < m ∧ init = started κ τ ρ policy m n := by
  grind [newComputePool]

theorem getElem?_started {m n j : ℕ} {u : Thread κ τ ρ}
    (h : (started κ τ ρ policy m n).threads[j]? = some u) : u = .worker .idle :=
  eq_of_mem_replicate (mem_of_getElem? h)

theorem total_started {m n : ℕ} (w : Thread κ τ ρ → ℕ) :
    (started κ τ ρ policy m n).total w = m * w (.worker .idle) := by
  rw [total, started, map_replicate, sum_replicate_nat]

/-! ## How far a job is from a worker -/

def alive : Thread κ τ ρ → ℕ
  | .worker .returned => 0
  | .worker _ => 1
  | _ => 0

def busy : Option (Thread κ τ ρ) → ℕ
  | some (.worker (.checking _)) => 4
  | some (.worker (.handling _)) => 3
  | some (.worker (.canceling _)) => 2
  | some (.worker (.sending _ _)) => 2
  | some (.worker (.signalling _)) => 1
  | _ => 0

def queued (p : Pool κ τ ρ) : List ℕ := p.jobChan.map Job.id

/-- How far job `id` is from being received, with the help of worker `w`. -/
def distance (id w : ℕ) (c : Config (Pool κ τ ρ) (Thread κ τ ρ)) : ℕ ×ₗ ℕ ×ₗ ℕ :=
  toLex (c.shared.queued.idxOf id, toLex (c.total alive, busy c.threads[w]?))

/-- Job `id` is in the queue, and worker `w` has not returned. -/
def Waits (id w : ℕ) (c : Config (Pool κ τ ρ) (Thread κ τ ρ)) : Prop :=
  id ∈ c.shared.queued ∧ ∃ st, c.threads[w]? = some (.worker st) ∧ st ≠ .returned

def Received (id : ℕ) (c : Config (Pool κ τ ρ) (Thread κ τ ρ)) : Prop :=
  ∃ (w : ℕ) (job : Job κ τ), job.id = id ∧ c.threads[w]? = some (.worker (.checking job))

section Distance

variable {c' : Config (Pool κ τ ρ) (Thread κ τ ρ)} {id w w' : ℕ}

theorem distance_lt_of_idxOf (h : c'.shared.queued.idxOf id < c.shared.queued.idxOf id) :
    distance id w' c' < distance id w c := by
  rw [distance, distance, Prod.Lex.toLex_lt_toLex]
  exact .inl h

section

variable (hqueue : c'.shared.queued.idxOf id = c.shared.queued.idxOf id)

include hqueue

theorem distance_lt_of_alive
    (h : c'.total alive < c.total alive) : distance id w' c' < distance id w c := by
  rw [distance, distance, Prod.Lex.toLex_lt_toLex, Prod.Lex.toLex_lt_toLex]
  exact .inr ⟨hqueue, .inl h⟩

theorem distance_lt_of_busy
    (halive : c'.total alive = c.total alive) (h : busy c'.threads[w']? < busy c.threads[w]?) :
    distance id w' c' < distance id w c := by
  rw [distance, distance, Prod.Lex.toLex_lt_toLex, Prod.Lex.toLex_lt_toLex]
  exact .inr ⟨hqueue, .inr ⟨halive, h⟩⟩

end

end Distance

variable {id : ℕ}

theorem idxOf_of_jobChan {job : Job κ τ} {rest : List (Job κ τ)} (hchan : p.jobChan = job :: rest)
    (hjob : job.id ≠ id) (hid : id ∈ p.queued) : id ∈ rest.map Job.id ∧
      (rest.map Job.id).idxOf id < p.queued.idxOf id := by
  grind [queued]

variable {w : ℕ} {st st' : Worker κ τ ρ}

theorem WorkerStep.busy_lt (h : WorkerStep p w choice st p' st') (hst : st ≠ .idle) :
    busy (some (.worker st')) < busy (some (.worker st)) ∧
      alive (Thread.worker st') = alive (Thread.worker st) ∧ p'.jobChan = p.jobChan := by
  cases h with
  | receive | closed | done => exact absurd rfl hst
  | _ => exact ⟨by simp [busy], rfl, rfl⟩

def Worker.job : Worker κ τ ρ → Option (Job κ τ)
  | .checking job | .canceling job | .handling job | .sending job _ => some job
  | _ => none

theorem WorkerStep.job_cases {job : Job κ τ} (h : WorkerStep p w choice st p' st')
    (hjob : Worker.job st' = some job) : Worker.job st = some job ∨ job ∈ p.jobChan := by
  cases h with
  | receive hchan =>
    cases hjob
    rw [hchan]
    exact .inr mem_cons_self
  | skip | start | handle => exact .inl hjob
  | _ => cases hjob

variable [DecidableEq κ]

/-! ## What a step does -/

section

variable (h : Step p i choice t o)

include h

theorem Step.accepts {key : Option κ} {payload : τ} {ends : Bool}
    (ho : o.thread = .submit key payload ends (.returned none)) : i ∈ o.shared.queued := by
  have hmem : i ∈ (p.push ⟨i, key, payload, ends⟩).queued := by grind [queued, push]
  cases h with
  | submit h => cases h <;> grind
  | _ => cases ho

theorem Step.started_alive : (o.started.map alive).sum = 0 := by
  cases h with
  | submit h => cases h <;> rfl
  | _ => rfl

theorem Step.alive_le : alive o.thread ≤ alive t := by
  cases h with
  | worker h => cases h <;> simp [alive]
  | _ => exact le_rfl

omit h in
theorem Step.total_alive_le (h : Step c.shared i choice t o) (ht : c.threads[i]? = some t) :
    (c.advance i o).total alive ≤ c.total alive := by
  have htotal := total_advance (w := alive) (o := o) ht
  rw [h.started_alive] at htotal
  have := h.alive_le
  omega

theorem Step.jobChan_cases :
    (∃ jobs, o.shared.jobChan = p.jobChan ++ jobs) ∨
      ∃ job rest, p.jobChan = job :: rest ∧ o.shared.jobChan = rest ∧
        (o.thread = .worker (.checking job) ∨
          ∃ key payload ends, t = .submit key payload ends .removing) := by
  have hsame : ∀ {p' : Pool κ τ ρ}, p'.jobChan = p.jobChan →
      ∃ jobs, p'.jobChan = p.jobChan ++ jobs := by
    intro p' heq
    exact ⟨[], by rw [heq, append_nil]⟩
  cases h with
  | submit h =>
    cases h with
    | send | resend | sendKeyed => exact .inl ⟨_, rfl⟩
    | remove => grind
    | _ => exact .inl (hsame rfl)
  | worker h =>
    cases h with
    | receive hchan => exact .inr ⟨_, _, hchan, rfl, .inl rfl⟩
    | _ => exact .inl (hsame rfl)
  | get h | stop h | cleanup h => cases h <;> exact .inl (hsame rfl)

end

theorem worker_enabled [Nonempty ρ] (hw : c.threads[w]? = some (.worker st))
    (hst : st ≠ .returned) (hpanic : c.shared.panicked = false)
    (hidle : st = .idle → c.shared.jobChan ≠ []) : (code κ τ ρ).Enabled c w := by
  have hnext : ∀ b, (c.shared.workerNext w st b).isSome = true → (code κ τ ρ).Enabled c w := by
    intro b hb
    refine Code.enabled_of_next (b := b) hw ?_
    change (next c.shared w (.worker st) b).isSome = true
    rw [next, hpanic]
    simpa using hb
  cases st with
  | idle | checking =>
    refine hnext (.take .channel) ?_
    grind [workerNext]
  | canceling | signalling => exact hnext (.take .next) rfl
  | handling =>
    obtain ⟨r⟩ := ‹Nonempty ρ›
    exact hnext (.returns r) rfl
  | sending => exact hnext (.take .channel) rfl
  | returned => exact absurd rfl hst

/-! ## Jobs are received -/

/-- A job stays at its place, comes closer to the front, or is received; only a
`Submit` that drops the oldest job takes it away. -/
theorem Step.queued_cases (h : Step c.shared i choice t o) (ht : c.threads[i]? = some t)
    (hid : id ∈ c.shared.queued)
    (hkept : ∀ key payload ends, t ≠ .submit key payload ends .removing) :
    Received id (c.advance i o) ∨ id ∈ o.shared.queued ∧
      (o.shared.queued.idxOf id < c.shared.queued.idxOf id ∨
        o.shared.queued.idxOf id = c.shared.queued.idxOf id) := by
  rcases h.jobChan_cases with
    ⟨jobs, hchan⟩ | ⟨job, rest, hchan, hrest, hthread | ⟨_, _, _, heq⟩⟩
  · grind [queued]
  · by_cases hjob : job.id = id
    · left
      refine ⟨i, job, hjob, ?_⟩
      rw [getElem?_advance_self ht, hthread]
    grind [queued]
  · exact absurd heq (hkept _ _ _)

theorem Waits.own (hid : id ∈ c.shared.queued) (hw : c.threads[w]? = some (.worker st))
    (hstep : WorkerStep c.shared w choice st p' st')
    (hserved : p'.jobChan ≠ [] → ∃ (w' : ℕ) (u : Worker κ τ ρ),
      (c.advance w ⟨p', .worker st', []⟩).threads[w']? = some (.worker u) ∧ u ≠ .returned) :
    Received id (c.advance w ⟨p', .worker st', []⟩) ∨
      ∃ w', Waits id w' (c.advance w ⟨p', .worker st', []⟩) ∧
        distance id w' (c.advance w ⟨p', .worker st', []⟩) < distance id w c := by
  have hself := getElem?_advance_self (o := ⟨p', .worker st', []⟩) hw
  have htotal := total_advance (w := alive) (o := ⟨p', .worker st', []⟩) hw
  by_cases hidle : st = .idle
  · cases hstep with
    | @receive job rest hchan =>
      by_cases hjob : job.id = id
      · exact .inl ⟨w, job, hjob, hself⟩
      · obtain ⟨hmem, hlt⟩ := idxOf_of_jobChan hchan hjob hid
        exact .inr ⟨w, ⟨hmem, _, hself, by simp⟩, distance_lt_of_idxOf hlt⟩
    | closed hempty =>
      rw [queued, hempty] at hid
      cases hid
    | done =>
      -- another worker has to help from now on
      have hchan : c.shared.jobChan ≠ [] := by grind [queued]
      obtain ⟨w', u, hw', hu⟩ := hserved hchan
      change 1 + _ = _ + 0 + 0 at htotal
      exact .inr ⟨w', ⟨hid, u, hw', hu⟩, distance_lt_of_alive rfl (by omega)⟩
    | _ => cases hidle
  · obtain ⟨hbusy, halive, hchan⟩ := hstep.busy_lt hidle
    have hqueue : p'.queued = c.shared.queued := by rw [queued, hchan, queued]
    have hst' : st' ≠ .returned := by
      rintro rfl
      cases hstep <;> grind
    rw [halive] at htotal
    change _ = _ + 0 at htotal
    refine .inr ⟨w, ⟨?_, st', hself, hst'⟩, distance_lt_of_busy ?_ ?_ ?_⟩
    · change id ∈ p'.queued
      rwa [hqueue]
    · change p'.queued.idxOf id = _
      rw [hqueue]
    · omega
    · rwa [hself, hw]

theorem Waits.other (h : Waits id w c) (hiw : w ≠ i) (hstep : Step c.shared i choice t o)
    (ht : c.threads[i]? = some t)
    (hkept : ∀ key payload ends, t ≠ .submit key payload ends .removing) :
    Received id (c.advance i o) ∨ Waits id w (c.advance i o) ∧
      (distance id w (c.advance i o) < distance id w c ∨
        distance id w (c.advance i o) = distance id w c) := by
  obtain ⟨hid, st, hw, hst⟩ := h
  have hw' := getElem?_advance_of_ne (o := o) hiw hw
  rcases hstep.queued_cases ht hid hkept with hreceived | ⟨hid', hlt | heq⟩
  · exact .inl hreceived
  · exact .inr ⟨⟨hid', st, hw', hst⟩, .inl (distance_lt_of_idxOf hlt)⟩
  · refine .inr ⟨⟨hid', st, hw', hst⟩, ?_⟩
    rcases Nat.lt_or_eq_of_le (hstep.total_alive_le ht) with hlt | halive
    · exact .inl (distance_lt_of_alive heq hlt)
    · right
      rw [distance, distance, halive, hw', hw]
      change toLex (o.shared.queued.idxOf id, _) = _
      rw [heq]

theorem Waits.spawn (h : Waits id w c) (hentry : (code κ τ ρ).entry t = true) :
    Waits id w (c.spawn t) ∧ distance id w (c.spawn t) = distance id w c := by
  obtain ⟨hid, st, hw, hst⟩ := h
  have hw' := getElem?_spawn_of_some (t := t) hw
  have hzero : alive t = 0 := by
    cases t with
    | worker => cases hentry
    | _ => rfl
  refine ⟨⟨hid, st, hw', hst⟩, ?_⟩
  rw [distance, distance, total_spawn, hzero, hw', hw]
  rfl

section Received

variable [Nonempty ρ] {ok : Config (Pool κ τ ρ) (Thread κ τ ρ) →
    Move (Thread κ τ ρ) (Choice ρ) → Prop}
  {init : Config (Pool κ τ ρ) (Thread κ τ ρ)}
  {e : Execution (code κ τ ρ) ok init}

/-- A job in the queue is received, if nothing panics, queued jobs have a worker,
and no job is dropped. -/
theorem eventually_received (hfair : e.Fair) (hpanic : ∀ n, (e.config n).shared.panicked = false)
    (hserved : ∀ n, (e.config n).shared.jobChan ≠ [] → ∃ (w : ℕ) (st : Worker κ τ ρ),
        (e.config n).threads[w]? = some (.worker st) ∧ st ≠ .returned)
    (hkept : ∀ n i b key payload ends, e.move n = some (.run i b) →
      (e.config n).threads[i]? = some (.submit key payload ends .removing) →
        (e.config n).shared.jobChan = []) {n id : ℕ} (hid : id ∈ (e.config n).shared.queued) :
    ∃ m, n ≤ m ∧ Received id (e.config m) := by
  have hne : ∀ {c : Config (Pool κ τ ρ) (Thread κ τ ρ)},
      id ∈ c.shared.queued → c.shared.jobChan ≠ [] := by
    grind [queued]
  obtain ⟨w, st, hw, hst⟩ := hserved n (hne hid)
  refine Execution.eventually_of_rank hfair (P := Waits id)
    (Q := Received id) (distance id) (h := w) ⟨hid, st, hw, hst⟩ ?_ ?_
  · rintro m w - ⟨hid, st, hw, hst⟩
    grind [worker_enabled]
  · intro m w mv _ hwaits hmove
    have hserved' := hserved (m + 1)
    rcases Code.step_cases (e.next hmove) with
      ⟨t, rfl, hentry, hc⟩ | ⟨i, b, t, o, rfl, ht, ho, hc⟩
    · grind [Waits.spawn]
    · have hstep := step_of_next ho
      rw [hc] at hserved' ⊢
      by_cases hiw : w = i
      · subst hiw
        obtain ⟨hid, st, hw, hst⟩ := hwaits
        rw [ht] at hw
        cases hw
        cases hstep with
        | worker hstep =>
          rcases Waits.own hid ht hstep hserved' with hreceived | hlower <;> grind [Waits.own]
      · have hkeep : ∀ key payload ends, t ≠ .submit key payload ends .removing := by
          rintro key payload ends rfl
          exact hne hwaits.1 (hkept m i b key payload ends hmove ht)
        grind [Waits.other]

end Received

end Fluxor.Compute.Pool
