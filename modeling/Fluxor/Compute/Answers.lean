import Fluxor.Compute.Futures

/-!
# Answers of the compute pool

Every job that `Submit` accepts is in the queue, with a worker, or its result has
been delivered (`Placed`), and it goes on from there. Every `Get` on its future then
returns the result.
-/

namespace Fluxor.Compute.Pool

open Goroutines Config Transition List Execution

variable {κ τ ρ : Type*} {p p' : Pool κ τ ρ} {i : ℕ} {choice : Choice ρ}
  {t : Thread κ τ ρ} {o : Outcome (Pool κ τ ρ) (Thread κ τ ρ)}
  {c : Config (Pool κ τ ρ) (Thread κ τ ρ)}

/-! ## Where the accepted jobs are -/

def Held (id : ℕ) (c : Config (Pool κ τ ρ) (Thread κ τ ρ)) : Prop :=
  ∃ (w : ℕ) (st : Worker κ τ ρ) (job : Job κ τ),
    c.threads[w]? = some (.worker st) ∧ Worker.job st = some job ∧ job.id = id

/-- The result of job `id` is on its channel, with a `Get`, or stored. -/
def Answered (id : ℕ) (c : Config (Pool κ τ ρ) (Thread κ τ ρ)) : Prop :=
  (c.shared.cells id).result.isSome = true ∨ (c.shared.cells id).cached.isSome = true ∨
    ∃ (g : ℕ) (ends : Bool) (r : JobResult τ ρ), c.threads[g]? = some (.get id ends (.storing r))

def Placed (id : ℕ) (c : Config (Pool κ τ ρ) (Thread κ τ ρ)) : Prop :=
  id ∈ c.shared.queued ∨ Held id c ∨ Answered id c

variable {id : ℕ}

theorem exists_of_isAccepted (h : c.threads[id]?.any isAccepted = true) : ∃ key payload ends,
      c.threads[id]? = some (.submit key payload ends (.returned none)) := by
  cases hid : c.threads[id]? with
  | none =>
    rw [hid] at h
    cases h
  | some u =>
    rw [hid] at h
    cases u with
    | submit key payload ends st =>
      cases st with
      | returned err =>
        cases err with
        | none => exact ⟨key, payload, ends, rfl⟩
        | some => cases h
      | _ => cases h
    | _ => cases h

theorem Answered.spawn (h : Answered id c) : Answered id (c.spawn t) := by
  rcases h with hresult | hcached | ⟨g, ends, r, hg⟩
  · exact .inl hresult
  · exact .inr (.inl hcached)
  · exact .inr (.inr ⟨g, ends, r, getElem?_spawn_of_some hg⟩)

theorem Placed.spawn (h : Placed id c) : Placed id (c.spawn t) := by
  rcases h with hqueued | ⟨w, st, job, hw, hjob, hid⟩ | hanswered
  · exact .inl hqueued
  · exact .inr (.inl ⟨w, st, job, getElem?_spawn_of_some hw, hjob, hid⟩)
  · exact .inr (.inr hanswered.spawn)

variable {ends : Bool} {st st' : Get τ ρ}

theorem GetStep.cached_isSome (h : GetStep p id ends st p' st') {j : ℕ}
    (hj : (p.cells j).cached.isSome = true) : (p'.cells j).cached.isSome = true := by
  by_cases hid : j = id
  · subst hid
    cases h <;> grind [cells_modify_self]
  · rwa [h.cells_of_ne hid]

theorem GetStep.stores {r : JobResult τ ρ} (h : GetStep p id ends (.storing r) p' st') :
    (p'.cells id).cached.isSome = true := by
  cases h
  grind [cells_modify_self]

theorem GetStep.result_cases (h : GetStep p id ends st p' st') {j : ℕ}
    (hj : (p.cells j).result.isSome = true) :
    (p'.cells j).result.isSome = true ∨ j = id ∧ ∃ r, st' = .storing r := by
  by_cases hid : j = id
  · subst hid
    cases h <;> grind [cells_modify_self]
  · rw [h.cells_of_ne hid]
    exact .inl hj

variable {job : Job κ τ}

theorem WorkerStep.answers {w : ℕ} {st st' : Worker κ τ ρ} (h : WorkerStep p w choice st p' st')
    (hjob : Worker.job st = some job) (hends : job.ends = false) :
    Worker.job st' = some job ∨ (p'.cells job.id).result.isSome = true := by
  cases h with
  | receive | closed | done | signal => cases hjob
  | skip | start | handle => exact .inl hjob
  | cancel | send =>
    cases hjob
    exact .inr (isSome_deliver p _ _)
  | ended htrue =>
    cases hjob
    rw [hends] at htrue
    cases htrue

theorem WorkerStep.signals {w : ℕ} {st : Worker κ τ ρ}
    (h : WorkerStep p w choice st p' (.signalling job))
    (hends : ∀ job ∈ Worker.job st, job.ends = false) : (p'.cells job.id).result.isSome = true := by
  cases h with
  | cancel | send => exact isSome_deliver p _ _
  | ended htrue =>
    rw [hends job rfl] at htrue
    cases htrue

/-! ## The invariant -/

def EndlessJob (_ : Pool κ τ ρ) (_ : ℕ) : Thread κ τ ρ → Prop
  | .submit _ _ ends _ => ends = false
  | .worker st => ∀ job ∈ Worker.job st, job.ends = false
  | _ => True

structure Answering (c : Config (Pool κ τ ρ) (Thread κ τ ρ)) : Prop where
  jobs : ∀ job ∈ c.shared.jobChan, job.ends = false
  threads : c.All EndlessJob
  accepted : ∀ (id : ℕ) (key : Option κ) (payload : τ) (ends : Bool),
    c.threads[id]? = some (.submit key payload ends (.returned none)) → Placed id c
  signalled : ∀ (w : ℕ) (job : Job κ τ),
    c.threads[w]? = some (.worker (.signalling job)) → Answered job.id c
  futures : ∀ (g id : ℕ) (ends : Bool) (st : Get τ ρ),
    c.threads[g]? = some (.get id ends st) → ∃ key payload ends',
      c.threads[id]? = some (.submit key payload ends' (.returned none))

structure Inv (c : Config (Pool κ τ ρ) (Thread κ τ ρ)) : Prop where
  calm : Calm c
  futures : Futures c
  answering : Answering c

variable {policy : Policy}

theorem inv_started {m n : ℕ} (hm : 0 < m) : Inv (started κ τ ρ policy m n) := by
  refine ⟨⟨?_, ?_, ?_, rfl, ?_⟩, ⟨?_, fun _ _ => rfl, fun _ => rfl, ?_⟩, ⟨?_, ?_, ?_, ?_, ?_⟩⟩
  · intro hclosed
    cases hclosed
  · intro k hk
    cases hk
  · intro j u hu
    rw [getElem?_started hu]
    trivial
  · intro hzero
    rw [total_started] at hzero
    change m * 1 = 0 at hzero
    omega
  · intro id
    rw [total_started]
    exact Nat.zero_le 1
  · intro j u hu
    rw [getElem?_started hu]
    trivial
  · intro job hjob
    cases hjob
  · intro j u hu
    rw [getElem?_started hu]
    intro job hjob
    cases hjob
  · intro id key payload ends hid
    cases getElem?_started hid
  · intro w job hw
    cases getElem?_started hw
  · intro g id ends st hg
    cases getElem?_started hg

theorem Inv.result_of_waiting (h : Inv c) {g : ℕ} (hanswered : Answered id c)
    (hg : c.threads[g]? = some (.get id ends .waiting)) :
    (c.shared.cells id).result.isSome = true := by
  have hone : inFlight id (.get id ends .waiting : Thread κ τ ρ) = 1 := by
    simp [inFlight]
  have hle : inFlight id _ ≤ c.total (inFlight id) := Config.le_total hg
  rcases hanswered with hresult | hcached | ⟨g', ends', r, hg'⟩
  · exact hresult
  · rw [h.futures.cached id (by omega)] at hcached
    cases hcached
  · have hne : g ≠ g' := by
      rintro rfl
      rw [hg] at hg'
      cases hg'
    have htwo : inFlight id _ + inFlight id _ ≤ c.total (inFlight id) :=
      Config.add_le_total hne hg hg'
    have hone' : inFlight id (.get id ends' (.storing r) : Thread κ τ ρ) = 1 := by
      simp [inFlight]
    have hmax := h.futures.flight id
    omega

variable [DecidableEq κ]

/-! ## What a step does to the answers -/

theorem Step.cached_isSome (h : Step p i choice t o) {j : ℕ}
    (hj : (p.cells j).cached.isSome = true) : (o.shared.cells j).cached.isSome = true := by
  by_cases hget : ∃ id ends st, t = .get id ends st
  · obtain ⟨id, ends, st, rfl⟩ := hget
    cases h with
    | get h => exact h.cached_isSome hj
  grind [Delivers.cached, delivers]

theorem Step.answered_of_result (h : Step c.shared i choice t o) (ht : c.threads[i]? = some t)
    (hresult : (c.shared.cells id).result.isSome = true) : Answered id (c.advance i o) := by
  by_cases hget : ∃ id ends st, t = .get id ends st
  · obtain ⟨id', ends, st, rfl⟩ := hget
    cases h with
    | get h =>
      rcases h.result_cases hresult with hresult' | ⟨rfl, r, rfl⟩
      · exact .inl hresult'
      · exact .inr (.inr ⟨i, ends, r, getElem?_advance_self ht⟩)
  · left
    exact (h.delivers fun id ends st heq => hget ⟨id, ends, st, heq⟩).result id hresult

theorem Answered.advance (h : Answered id c) (ht : c.threads[i]? = some t)
    (hstep : Step c.shared i choice t o) : Answered id (c.advance i o) := by
  rcases h with hresult | hcached | ⟨g, ends, r, hg⟩
  · exact hstep.answered_of_result ht hresult
  · exact .inr (.inl (hstep.cached_isSome hcached))
  · by_cases hgi : g = i
    · subst hgi
      rw [hg] at ht
      cases ht
      cases hstep with
      | get hstep => exact .inr (.inl hstep.stores)
    · exact .inr (.inr ⟨g, ends, r, getElem?_advance_of_ne hgi hg⟩)

theorem Placed.advance (h : Placed id c) (ht : c.threads[i]? = some t)
    (hstep : Step c.shared i choice t o)
    (hkept : ∀ key payload ends, t = .submit key payload ends .removing → c.shared.jobChan = [])
    (hends : ∀ (st : Worker κ τ ρ) (job : Job κ τ), t = .worker st →
      Worker.job st = some job → job.ends = false) : Placed id (c.advance i o) := by
  rcases h with hqueued | ⟨w, st, job, hw, hjob, hid⟩ | hanswered
  · have hnot : ∀ key payload ends, t ≠ .submit key payload ends .removing := by grind [queued]
    rcases hstep.queued_cases ht hqueued hnot with
      ⟨w, job, hid, hw⟩ | ⟨hqueued', -⟩
    · exact .inr (.inl ⟨w, _, job, hw, rfl, hid⟩)
    · exact .inl hqueued'
  · by_cases hwi : w = i
    · subst hwi
      rw [hw] at ht
      cases ht
      cases hstep with
      | worker hstep =>
        rcases hstep.answers hjob (hends st job rfl hjob) with hjob' | hresult
        · exact .inr (.inl ⟨w, _, job, getElem?_advance_self hw, hjob', hid⟩)
        · refine .inr (.inr (.inl ?_))
          rwa [← hid]
    · exact .inr (.inl ⟨w, st, job, getElem?_advance_of_ne hwi hw, hjob, hid⟩)
  · exact .inr (.inr (hanswered.advance ht hstep))

/-! ## Every run -/

theorem Answering.spawn (h : Answering c) (hok : Endless c (.spawn t))
    (hentry : (code κ τ ρ).entry t = true) : Answering (c.spawn t) := by
  refine ⟨h.jobs, h.threads.spawn ?_, ?_, ?_, ?_⟩
  · cases t with
    | submit => exact hok
    | worker => cases hentry
    | _ => trivial
  · intro id key payload ends hid
    rcases getElem?_spawn hid with hid | ⟨-, rfl⟩
    · exact (h.accepted id key payload ends hid).spawn
    · cases hentry
  · intro w job hw
    rcases getElem?_spawn hw with hw | ⟨-, rfl⟩
    · exact (h.signalled w job hw).spawn
    · cases hentry
  · intro g id ends st hg
    rcases getElem?_spawn hg with hg | ⟨-, rfl⟩
    · obtain ⟨key, payload, ends', hid⟩ := h.futures g id ends st hg
      grind [getElem?_spawn_of_some]
    · obtain ⟨key, payload, ends', hid⟩ := exists_of_isAccepted hok
      grind [getElem?_spawn_of_some]

theorem Step.mem_jobChan (h : Step p i choice t o) (hjob : job ∈ o.shared.jobChan) :
    job ∈ p.jobChan ∨
      ∃ key payload ends st, t = .submit key payload ends st ∧ job = ⟨i, key, payload, ends⟩ := by
  cases h with
  | submit h =>
    cases h with
    | send | resend | sendKeyed => rcases mem_append.mp hjob with hjob | hjob <;> grind
    | remove => grind
    | _ => exact .inl hjob
  | worker h =>
    cases h with
    | receive => grind
    | _ => exact .inl hjob
  | get h | stop h | cleanup h => cases h <;> exact .inl hjob

theorem Answering.advance (h : Answering c) (ht : c.threads[i]? = some t)
    (hstep : Step c.shared i choice t o)
    (hkept : ∀ key payload ends, t = .submit key payload ends .removing → c.shared.jobChan = []) :
    Answering (c.advance i o) := by
  have hown : EndlessJob c.shared i t := h.threads i t ht
  have hends : ∀ (st : Worker κ τ ρ) (job : Job κ τ), t = .worker st →
      Worker.job st = some job → job.ends = false := by
    rintro st job rfl hjob
    exact hown job hjob
  refine ⟨?_, h.threads.advance ?_ (fun _ _ _ _ hu => hu) ?_, ?_, ?_, ?_⟩
  · intro job hjob
    rcases hstep.mem_jobChan hjob with hjob | ⟨_, _, _, _, rfl, rfl⟩
    · exact h.jobs job hjob
    · exact hown
  · cases hstep with
    | submit => exact hown
    | worker hstep =>
      intro job hjob
      rcases hstep.job_cases hjob with hjob | hjob
      · exact hown job hjob
      · exact h.jobs job hjob
    | _ => trivial
  · intro j u _ hu
    obtain ⟨job, st, rfl⟩ := hstep.started_cleanup u hu
    trivial
  · intro id key payload ends hid
    rcases hstep.getElem?_advance hid (by simp) with ⟨rfl, ho⟩ | ⟨-, hid⟩
    · exact .inl (hstep.accepts ho.symm)
    · exact (h.accepted id key payload ends hid).advance ht hstep hkept hends
  · intro w job hw
    rcases hstep.getElem?_advance hw (by simp) with ⟨rfl, ho⟩ | ⟨-, hw⟩
    · cases hstep with
      | worker hstep =>
        cases ho
        exact .inl (hstep.signals hown)
      | _ => cases ho
    · exact (h.signalled w job hw).advance ht hstep
  · intro g id ends st hg
    have hkeep : ∀ {key payload ends'},
        c.threads[id]? = some (.submit key payload ends' (.returned none)) →
          (c.advance i o).threads[id]? = some (.submit key payload ends' (.returned none)) :=
      hstep.returned_stays ht
    rcases hstep.getElem?_advance hg (by simp) with ⟨rfl, ho⟩ | ⟨-, hg⟩
    · cases hstep with
      | get =>
        cases ho
        obtain ⟨key, payload, ends', hid⟩ := h.futures g id ends _ ht
        exact ⟨key, payload, ends', hkeep hid⟩
      | _ => cases ho
    · obtain ⟨key, payload, ends', hid⟩ := h.futures g id ends st hg
      exact ⟨key, payload, ends', hkeep hid⟩

abbrev OrderlyExecution (init : Config (Pool κ τ ρ) (Thread κ τ ρ)) :=
  Execution (code κ τ ρ) (fun c a => Endless c a ∧ Orderly c a) init

theorem inv_of_execution {k l : ℕ} (hk : 0 < k) (e : OrderlyExecution (started κ τ ρ policy k l))
    (n : ℕ) : Inv (e.config n) := by
  obtain ⟨acts, hrun⟩ := e.exists_run n
  refine Code.run_invariant (I := Inv) ?_ ?_ hrun (inv_started hk)
  · intro c t hI hok hentry
    exact ⟨hI.calm.spawn hentry, hI.futures.spawn hentry, hI.answering.spawn hok.1 hentry⟩
  · intro c i b t o hI hok ht ho
    have hstep := step_of_next ho
    have horderly := hok.2 t ht
    refine ⟨hI.calm.advance ht horderly.calm hstep, hI.futures.advance ht horderly hstep,
      hI.answering.advance ht hstep ?_⟩
    rintro key payload ends rfl
    exact horderly

/-! ## Every job is answered -/

theorem get_enabled {g : ℕ} (hg : c.threads[g]? = some (.get id ends st))
    (hpanic : c.shared.panicked = false) (hst : ∀ r, st ≠ .returned r)
    (hwaiting : st = .waiting → (c.shared.cells id).result.isSome = true) :
    (code κ τ ρ).Enabled c g := by
  have hnext : ∀ b, (c.shared.getNext id ends st b).isSome = true → (code κ τ ρ).Enabled c g := by
    intro b hb
    refine Code.enabled_of_next (b := Choice.take b) hg ?_
    change (next c.shared g (.get id ends st) (.take b)).isSome = true
    rw [next, hpanic]
    simpa using hb
  cases st with
  | called | reading =>
    refine hnext .next ?_
    rw [getNext]
    split <;> rfl
  | waiting =>
    refine hnext .channel ?_
    grind [getNext]
  | storing => exact hnext .next rfl
  | returned r => exact absurd rfl (hst r)

def getRank : Thread κ τ ρ → ℕ
  | .get _ _ .called => 4
  | .get _ _ .reading => 3
  | .get _ _ .waiting => 2
  | .get _ _ (.storing _) => 1
  | _ => 0

section Liveness

variable {policy : Policy} {k l : ℕ} {n id : ℕ}

theorem answered_always (e : OrderlyExecution (started κ τ ρ policy k l))
    (h : Answered id (e.config n)) : ∀ m, n ≤ m → Answered id (e.config m) := by
  refine always h ?_
  intro m mv _ hm hmove
  rcases Code.step_cases (e.next hmove) with
    ⟨t, -, -, hc⟩ | ⟨i, b, t, o, -, ht, ho, hc⟩
  · rw [hc]
    exact hm.spawn
  · rw [hc]
    exact hm.advance ht (step_of_next ho)

variable [Nonempty ρ] (hk : 0 < k)
  (e : OrderlyExecution (started κ τ ρ policy k l)) (hfair : e.Fair)

include hk hfair

theorem answered_of_held (h : Held id (e.config n)) : ∃ m, n ≤ m ∧ Answered id (e.config m) := by
  obtain ⟨w, st, job, hw, hjob, rfl⟩ := h
  suffices ∃ m u, n ≤ m ∧ (e.config m).threads[w]? = some u ∧ (∃ st, u = .worker st ∧
        (Worker.job st = some job ∨ st = .signalling job)) ∧
      u = .worker (.signalling job) by
    grind [Answering.signalled, inv_of_execution, Inv.answering]
  refine eventually_done hfair (fun u => ∃ st, u = .worker st ∧
      (Worker.job st = some job ∨ st = .signalling job))
    (fun u => u = .worker (.signalling job)) (fun u => busy (some u)) hw
    ⟨st, rfl, .inl hjob⟩ ?_ ?_
  · rintro m u hm hu ⟨st, rfl, hst⟩ hnot
    have hjob : Worker.job st = some job := hst.resolve_right fun heq => hnot (by rw [heq])
    refine worker_enabled hu ?_ (inv_of_execution hk e m).calm.panicked ?_
    all_goals
      rintro rfl
      cases hjob
  · rintro m u b o hm - hu ⟨st, rfl, hst⟩ hnot ho
    have hjob : Worker.job st = some job := hst.resolve_right fun heq => hnot (by rw [heq])
    cases step_of_next ho with
    | worker hstep =>
      cases hstep with
      | receive | closed | done | signal => cases hjob
      | skip | start | handle =>
        cases hjob
        exact ⟨⟨_, rfl, .inl rfl⟩, .inr (by simp [busy])⟩
      | _ =>
        cases hjob
        exact ⟨⟨_, rfl, .inr rfl⟩, .inl rfl⟩

theorem answered_of_placed (h : Placed id (e.config n)) :
    ∃ m, n ≤ m ∧ Answered id (e.config m) := by
  rcases h with hqueued | hheld | hanswered
  · have hcalm := fun n => (inv_of_execution hk e n).calm
    have hserved : ∀ n, (e.config n).shared.jobChan ≠ [] → ∃ (w : ℕ) (st : Worker κ τ ρ),
          (e.config n).threads[w]? = some (.worker st) ∧ st ≠ .returned :=
      fun n hne => exists_worker fun hzero => hne ((hcalm n).served hzero).1
    have hkept : ∀ n i b key payload ends, e.move n = some (.run i b) →
        (e.config n).threads[i]? = some (.submit key payload ends .removing) →
          (e.config n).shared.jobChan = [] :=
      fun n i b key payload ends hmove hi => (e.guard hmove).2 _ hi
    obtain ⟨m, hm, w, job, hid, hw⟩ := eventually_received hfair
      (fun n => (hcalm n).panicked) hserved hkept hqueued
    obtain ⟨m', hm', hanswered⟩ := answered_of_held hk e hfair ⟨w, _, job, hw, rfl, hid⟩
    exact ⟨m', hm.trans hm', hanswered⟩
  · exact answered_of_held hk e hfair hheld
  · exact ⟨n, le_rfl, hanswered⟩

theorem get_returns {g : ℕ} {st : Get τ ρ}
    (hg : (e.config n).threads[g]? = some (.get id false st)) :
    ∃ N r, ∀ m, N ≤ m → (e.config m).threads[g]? = some (.get id false (.returned (some r))) := by
  obtain ⟨key, payload, ends, hid⟩ := (inv_of_execution hk e n).answering.futures g id false st hg
  obtain ⟨n₁, hn₁, hanswered⟩ := answered_of_placed hk e hfair
    ((inv_of_execution hk e n).answering.accepted id key payload ends hid)
  obtain ⟨u, hg₁, st₁, rfl⟩ := persists (J := fun u => ∃ st, u = .get id false st) (by
      rintro p u b o ⟨st, rfl⟩ ho
      cases step_of_next ho
      grind) hg ⟨st, rfl⟩ n₁ hn₁
  suffices ∃ m u, n₁ ≤ m ∧ (e.config m).threads[g]? = some u ∧ (∃ st, u = .get id false st) ∧
      ∃ r, u = .get id false (.returned r) by
    obtain ⟨N, u, hN, hu, -, r, rfl⟩ := this
    cases r with
    | none => cases (inv_of_execution hk e N).futures.gets g _ hu
    | some r =>
      have hdone : ∀ p b, (code κ τ ρ).next p g (.get id false (.returned (some r))) b = none := by
        intro p b
        cases hnext : (code κ τ ρ).next p g _ b with
        | none => rfl
        | some =>
          cases step_of_next hnext with
          | get hstep => cases hstep
      exact ⟨N, r, stays hdone hu⟩
  refine eventually_done hfair (fun u => ∃ st, u = .get id false st)
    (fun u => ∃ r, u = .get id false (.returned r)) getRank hg₁
    ⟨st₁, rfl⟩ ?_ ?_
  · rintro m u hm hu ⟨st, rfl⟩ hnot
    have hinv := inv_of_execution hk e m
    refine get_enabled hu hinv.calm.panicked ?_ ?_
    · rintro r rfl
      exact hnot ⟨r, rfl⟩
    · rintro rfl
      exact hinv.result_of_waiting (answered_always e hanswered m hm) hu
  · rintro m u b o hm - hu ⟨st, rfl⟩ hnot ho
    cases step_of_next ho with
    | get hstep =>
      refine ⟨⟨_, rfl⟩, ?_⟩
      cases hstep with
      | _ => exact .inr (by simp [getRank])

end Liveness

variable (c)

/-- All calls of `Get` on one future have returned the same result. -/
def SameResult : Prop :=
  ∀ (g g' id : ℕ) (ends ends' : Bool) (r r' : JobResult τ ρ),
    c.threads[g]? = some (.get id ends (.returned (some r))) →
    c.threads[g']? = some (.get id ends' (.returned (some r'))) → r = r'

/-- Every `Get` whose context does not end returns a result. -/
def GetsReturn {ok : Config (Pool κ τ ρ) (Thread κ τ ρ) → Move (Thread κ τ ρ) (Choice ρ) → Prop}
    {init : Config (Pool κ τ ρ) (Thread κ τ ρ)} (e : Execution (code κ τ ρ) ok init) : Prop :=
  ∀ (n g id : ℕ) (st : Get τ ρ), (e.config n).threads[g]? = some (.get id false st) →
      ∃ N r, ∀ m, N ≤ m → (e.config m).threads[g]? = some (.get id false (.returned (some r)))

/-- In the fair executions every `Get` on the future of an accepted job returns, and
all return the same result. -/
theorem answered_of_orderly [Nonempty ρ] {numCPU : ℕ} {policy : Policy} {workers queueSize : ℤ}
    {init : Config (Pool κ τ ρ) (Thread κ τ ρ)}
    (hinit : newComputePool κ τ ρ numCPU policy workers queueSize = some init)
    (e : OrderlyExecution init) : (∀ n, SameResult (e.config n)) ∧ (e.Fair → GetsReturn e) := by
  obtain ⟨k, l, hk, rfl⟩ := started_of_newComputePool hinit
  constructor
  · intro n g g' id ends ends' r r' hg hg'
    have hgets := (inv_of_execution hk e n).futures.gets
    have hr : ((e.config n).shared.cells id).cached = some r := hgets g _ hg
    have hr' : ((e.config n).shared.cells id).cached = some r' := hgets g' _ hg'
    exact Option.some.inj (hr.symm.trans hr')
  · intro hfair n g id st hg
    exact get_returns hk e hfair hg

/-! ## Executions that come to rest -/

def resting (p : Pool κ τ ρ) (i : ℕ) : Thread κ τ ρ → Bool
  | .submit _ _ _ (.returned _) | .worker .returned | .get _ _ (.returned _)
  | .stop _ .returned | .cleanup _ .returned => true
  | .worker .idle => p.jobChan.isEmpty && !p.closed && !p.cancelled i
  | .get id ends .waiting => !ends && (p.cells id).result.isNone
  | _ => false

theorem not_step_of_resting (h : p.resting i t = true) : ¬Step p i choice t o := by
  intro hstep
  cases hstep with
  | @submit key payload ends st p' st' started hstep =>
    cases st with
    | returned =>
      cases hstep with
      | panic hst => cases hst
    | _ => cases h
  | worker hstep | get hstep => cases hstep <;> grind [resting]
  | stop hstep | cleanup hstep => cases hstep <;> cases h

/-- A panic has stopped the program, or no goroutine goes on. -/
def Ended : Prop :=
  c.shared.panicked = true ∨ ∀ x ∈ c.threads.zipIdx, c.shared.resting x.2 x.1 = true

instance : Decidable (Ended c) := inferInstanceAs (Decidable (_ ∨ _))

variable {c}

theorem Ended.next_eq_none (h : Ended c) (i : ℕ) (t : Thread κ τ ρ) (choice : Choice ρ)
    (ht : c.threads[i]? = some t) : (code κ τ ρ).next c.shared i t choice = none := by
  cases hnext : (code κ τ ρ).next c.shared i t choice with
  | none => rfl
  | some o =>
    rcases h with hpanic | hrest
    · change next c.shared i t choice = some o at hnext
      simp only [next, hpanic, if_true] at hnext
      cases hnext
    · have hresting := hrest (t, i) (mem_zipIdx_iff_getElem?.mpr ht)
      exact absurd (step_of_next hnext) (not_step_of_resting hresting)

def takes (i : ℕ) (branches : List Branch) : List (Move (Thread κ τ ρ) (Choice ρ)) :=
  branches.map fun b => .run i (.take b)

def submits (key : Option κ) (i : ℕ) (branches : List Branch) :
    List (Move (Thread κ Unit ρ) (Choice ρ)) :=
  .spawn (.submit key () false .called) :: takes i branches

theorem answered_of_orderly_block :
    ∃ (e : OrderlyExecution (started Unit Unit Unit .block 1 1)) (N : ℕ), (e.config N).threads[2]? =
        some (Thread.get 1 false (.returned (some ⟨(), some ()⟩))) ∧
      (∀ n, SameResult (e.config n)) ∧ GetsReturn e := by
  obtain ⟨c, hrun, hended, hget⟩ := exists_run (code Unit Unit Unit).step
    (fun c a => Endless c a ∧ Orderly c a) (started Unit Unit Unit .block 1 1)
    (flatten [submits none 1 [.next, .channel], [.spawn (.get 1 false .called)],
      takes 2 [.next], takes 0 [.channel, .next], [.run 0 (.returns ())],
      takes 0 [.channel, .next], takes 2 [.channel, .next]])
    (fun c => Ended c ∧ c.threads[2]? = some (Thread.get 1 false (.returned (some ⟨(), some ()⟩))))
    (by decide +kernel)
  obtain ⟨e, N, hfair, -, he⟩ := exists_fair hrun hended.next_eq_none
  have hinit : newComputePool Unit Unit Unit 1 .block 1 1 =
    some (started Unit Unit Unit .block 1 1) := rfl
  have hanswered := answered_of_orderly hinit e
  refine ⟨e, N, ?_, hanswered.1, hanswered.2 hfair⟩
  rwa [he N le_rfl]

/-- The `Get` of goroutine `g` on the future of job `id` never returns. -/
def Hangs (policy : Policy) (id g : ℕ) : Prop :=
  ∃ (e : Execution (code Unit Unit Bool) Endless
      (started Unit Unit Bool policy 1 1)) (N : ℕ), e.Fair ∧
    ∀ n, N ≤ n → (e.config n).threads[g]? = some (.get id false .waiting)

theorem hangs_of_run {g : ℕ} (acts : List (Move (Thread Unit Unit Bool) (Choice Bool)))
    (h : (exec (code Unit Unit Bool).step Endless
      (started Unit Unit Bool policy 1 1) acts).any (fun c => decide
        (Ended c ∧ c.threads[g]? = some (.get id false .waiting))) = true) : Hangs policy id g := by
  obtain ⟨c, hrun, hended, hget⟩ := exists_run _ _ _ _
    (fun c => Ended c ∧ c.threads[g]? = some (.get id false .waiting)) h
  obtain ⟨e, N, hfair, -, he⟩ := exists_fair hrun hended.next_eq_none
  refine ⟨e, N, hfair, ?_⟩
  intro n hn
  rwa [he n hn]

/-- Of two calls of `Get` that wait together one waits for ever; `DropOldest` drops
a job without an answer; `Stop` leaves one in the queue; a `Submit` that sends after
`Stop` panics; and two calls of `Get` on a superseded job return different results.
-/
theorem compute_not_answered :
    Hangs .block 1 3 ∧ Hangs .dropOldest 1 2 ∧ Hangs .block 1 2 ∧ Hangs .dropNewest 1 2 ∧
      ∃ acts c, Run (code Unit Unit Bool).step Endless
        (started Unit Unit Bool .coalesceByKey 1 1) acts c ∧ c.threads[5]? =
            some (Thread.get 1 false (.returned (some ⟨(), none⟩))) ∧
          c.threads[6]? = some (Thread.get 1 false (.returned (some ⟨(), some true⟩))) := by
  refine ⟨?_, ?_, ?_, ?_, ?_⟩
  · exact hangs_of_run (flatten [submits none 1 [.next, .channel],
        [.spawn (.get 1 false .called), .spawn (.get 1 false .called)], takes 2 [.next],
        takes 3 [.next], takes 0 [.channel, .next], [.run 0 (.returns true)],
        takes 0 [.channel, .next], takes 2 [.channel, .next]]) (by decide +kernel)
  · exact hangs_of_run (flatten [submits none 1 [.next, .channel],
        [.spawn (.get 1 false .called)], takes 2 [.next],
        submits none 3 [.next, .default, .channel, .channel], takes 0 [.channel, .next],
        [.run 0 (.returns true)], takes 0 [.channel, .next]]) (by decide +kernel)
  · exact hangs_of_run (flatten [submits none 1 [.next, .channel],
        [.spawn (.get 1 false .called)], takes 2 [.next], [.spawn (.stop false .called)],
        takes 3 [.next, .next, .next], takes 0 [.done], takes 3 [.channel, .next]])
      (by decide +kernel)
  · exact hangs_of_run (flatten [submits none 1 [.next, .channel],
        [.spawn (.get 1 false .called)], takes 2 [.next], submits none 3 [.next],
        [.spawn (.stop false .called)], takes 4 [.next, .next], takes 3 [.channel]])
      (by decide +kernel)
  · exact ⟨_, exists_run _ _ _
      (flatten [submits (some ()) 1 [.next, .next, .next, .channel], takes 0 [.channel, .next],
        submits (some ()) 3 [.next, .next, .next, .next, .next, .channel],
        [.spawn (.get 1 false .called), .spawn (.get 1 false .called)], takes 5 [.next],
        takes 6 [.next], takes 5 [.channel], [.run 0 (.returns true)], takes 0 [.channel],
        takes 6 [.channel], takes 5 [.next], takes 6 [.next]]) _
      (by decide +kernel)⟩

end Fluxor.Compute.Pool
