import Fluxor.Compute.Answers
import Fluxor.Compute.Coalesce

/-!
# The newest job of a key

With `CoalesceByKey` a job that is cancelled is followed by a newer one of its key,
the newest one is run, and a `Submit` that fails leaves the other jobs alone, if the
calls of one key do not overlap from the lookup on, and a call which has found a job
finds room in the queue (`Separate`).
-/

namespace Fluxor.Compute.Pool

open Goroutines Config Transition List Execution Cell Step

variable {κ τ ρ : Type*} {p p' : Pool κ τ ρ} {i : ℕ} {choice : Choice ρ}
  {t : Thread κ τ ρ} {o : Outcome (Pool κ τ ρ) (Thread κ τ ρ)}
  {c : Config (Pool κ τ ρ) (Thread κ τ ρ)}

/-! ## The order of the accepted jobs -/

def Followed (job : Job κ τ) (accepted : List (Job κ τ)) : Prop :=
  ∃ l₁ l₂, accepted = l₁ ++ job :: l₂ ∧ ∃ job' ∈ l₂, job'.key = job.key

variable {job : Job κ τ} {accepted : List (Job κ τ)}

theorem Followed.append (h : Followed job accepted) (jobs : List (Job κ τ)) :
    Followed job (accepted ++ jobs) := by
  obtain ⟨l₁, l₂, rfl, job', hmem, hkey⟩ := h
  refine ⟨l₁, l₂ ++ jobs, ?_, job', mem_append_left _ hmem, hkey⟩
  rw [append_assoc, cons_append]

theorem followed_push {job' : Job κ τ} (hmem : job ∈ accepted) (hkey : job'.key = job.key) :
    Followed job (accepted ++ [job']) := by
  obtain ⟨l₁, l₂, rfl⟩ := append_of_mem hmem
  refine ⟨l₁, l₂ ++ [job'], ?_, job', ?_, hkey⟩
  · rw [append_assoc, cons_append]
  grind

/-! ## Superseded jobs -/

/-- A goroutine with the cancellation of a job works on a superseded job; a `Submit`
that looks in the map has a key. -/
def Marks (p : Pool κ τ ρ) (_ : ℕ) : Thread κ τ ρ → Prop
  | .submit key _ _ st => (st.inside = true → key.isSome = true) ∧
      ∀ old, st = .cancelling old → (p.cells old.id).superseded = true
  | .worker (.canceling job) => (p.cells job.id).superseded = true
  | .get id _ (.storing r) | .get id _ (.returned (some r)) =>
    r.outcome = none → (p.cells id).superseded = true
  | _ => True

/-- Only superseded jobs are answered with `context.Canceled`. -/
structure Marked (c : Config (Pool κ τ ρ) (Thread κ τ ρ)) : Prop where
  result : ∀ j r, (c.shared.cells j).result = some r → r.outcome = none →
    (c.shared.cells j).superseded = true
  cached : ∀ j r, (c.shared.cells j).cached = some r → r.outcome = none →
    (c.shared.cells j).superseded = true
  threads : c.All Marks

variable {j : ℕ}

theorem Marks.mono {u : Thread κ τ ρ} (h : Marks p j u)
    (hmono : ∀ j, (p.cells j).superseded = true → (p'.cells j).superseded = true) :
    Marks p' j u := by
  cases u with
  | submit => exact ⟨h.1, fun old hst => hmono _ (h.2 old hst)⟩
  | worker st =>
    cases st with
    | canceling => exact hmono _ h
    | _ => trivial
  | get id ends st =>
    cases st with
    | storing => exact fun hr => hmono _ (h hr)
    | returned r =>
      cases r with
      | none => trivial
      | some => exact fun hr => hmono _ (h hr)
    | _ => trivial
  | _ => trivial

variable {id : ℕ} {r : JobResult τ ρ}

theorem result_deliver_cases {r' : JobResult τ ρ}
    (h : ((p.deliver id r).cells j).result = some r') :
    (p.cells j).result = some r' ∨ j = id ∧ r' = r := by
  by_cases hj : j = id
  · subst hj
    rw [deliver, cells_modify_self] at h
    cases hold : (p.cells j).result <;> grind
  grind [deliver, cells_modify_of_ne]

def SameMarks (p p' : Pool κ τ ρ) : Prop := ∀ j, (p'.cells j).superseded = (p.cells j).superseded

theorem sameMarks_modify (p : Pool κ τ ρ) (id : ℕ) {f : Cell τ ρ → Cell τ ρ}
    (hf : ∀ cell, (f cell).superseded = cell.superseded) : SameMarks p (p.modify id f) :=
  cells_modify superseded p id hf

variable {st' : Worker κ τ ρ} {st : Worker κ τ ρ}

theorem WorkerStep.result_cases (h : WorkerStep p i choice st p' st')
    (hr : (p'.cells j).result = some r) (hcancels : r.outcome = none) :
    (p.cells j).result = some r ∨ ∃ job, st = .canceling job ∧ j = job.id := by
  cases h with
  | start | signal =>
    rw [cells_modify result] at hr
    · exact .inl hr
    · exact fun _ => rfl
  | cancel | send => grind [result_deliver_cases]
  | _ => exact .inl hr

variable {ends : Bool}

theorem GetStep.result_eq {st st' : Get τ ρ} (h : GetStep p id ends st p' st')
    (hr : (p'.cells j).result = some r) : (p.cells j).result = some r := by
  cases h with
  | receive => grind [cells_modify_self, cells_modify_of_ne]
  | store =>
    rw [cells_modify result] at hr
    · exact hr
    · exact fun _ => rfl
  | _ => exact hr

theorem GetStep.cached_cases {st st' : Get τ ρ} (h : GetStep p id ends st p' st')
    (hr : (p'.cells j).cached = some r) :
    (p.cells j).cached = some r ∨ j = id ∧ st = .storing r := by
  cases h with
  | receive =>
    rw [cells_modify cached] at hr
    · exact .inl hr
    · exact fun _ => rfl
  | store => grind [cells_modify_self, cells_modify_of_ne]
  | _ => exact .inl hr

theorem WorkerStep.sameMarks (h : WorkerStep p i choice st p' st') :
    SameMarks p p' := by
  cases h with
  | start | cancel | send | signal =>
    apply sameMarks_modify
    exact fun _ => rfl
  | _ => exact fun _ => rfl

theorem GetStep.cells {β : Type*} (g : Cell τ ρ → β) {st st' : Get τ ρ}
    (h : GetStep p id ends st p' st')
    (hresult : ∀ cell : Cell τ ρ, g { cell with result := none } = g cell)
    (hcached : ∀ (cell : Cell τ ρ) r, g { cell with cached := some r, done := true } = g cell)
    (j : ℕ) : g (p'.cells j) = g (p.cells j) := by
  cases h with
  | receive => exact cells_modify g p _ hresult j
  | store => exact cells_modify g p _ (fun cell => hcached cell _) j
  | _ => rfl

theorem WorkerStep.started_mono (h : WorkerStep p i choice st p' st')
    (hj : (p.cells j).started = true) : (p'.cells j).started = true := by
  cases h with
  | @start job => grind [cells_modify_self, cells_modify_of_ne]
  | cancel | send | signal =>
    refine Eq.trans ?_ hj
    apply cells_modify Cell.started
    exact fun _ => rfl
  | _ => exact hj

theorem WorkerStep.checks (h : WorkerStep p i choice (.checking job) p' st') :
    (p'.cells job.id).started = true ∨ (p.cells job.id).superseded = true := by
  cases h <;> grind [cells_modify_self]

/-! ## Accepted jobs -/

/-- The call is going to replace job `j`. -/
def Replaces (j : ℕ) : Thread κ τ ρ → Prop
  | .submit _ _ _ (.cancelling old) | .submit _ _ _ (.entering (some old))
  | .submit _ _ _ (.sending (some old)) => old.id = j
  | _ => False

def replacing : Thread κ τ ρ → ℕ
  | .submit _ _ _ (.cancelling _) => 3
  | .submit _ _ _ (.entering _) => 2
  | .submit _ _ _ (.sending _) => 1
  | _ => 0

structure Newest (c : Config (Pool κ τ ρ) (Thread κ τ ρ)) : Prop where
  /-- The calls of the accepted jobs have returned. -/
  returned : ∀ job ∈ c.shared.accepted, c.threads[job.id]? =
    some (.submit job.key job.payload job.ends (.returned none))
  /-- A job is superseded when its call is over. -/
  ended : ∀ j, (c.shared.cells j).superseded = true → ∃ key payload ends err,
      c.threads[j]? = some (.submit key payload ends (.returned err))
  /-- A superseded job has been followed, or is being replaced. -/
  followed : ∀ job ∈ c.shared.accepted, (c.shared.cells job.id).superseded = true →
      Followed job c.shared.accepted ∨ ∃ (h : ℕ) (u : Thread κ τ ρ),
        c.threads[h]? = some u ∧ Replaces job.id u
  /-- A job in the queue or at a worker is not lost. -/
  placed : ∀ job ∈ c.shared.accepted, job.id ∈ c.shared.queued ∨
    Received job.id c ∨ (c.shared.cells job.id).started = true ∨
      (c.shared.cells job.id).superseded = true

theorem Newest.spawn (h : Newest c) : Newest (c.spawn t) := by
  refine ⟨?_, ?_, ?_, ?_⟩
  · intro job hjob
    exact getElem?_spawn_of_some (h.returned job hjob)
  · intro j hj
    obtain ⟨key, payload, ends, err, herr⟩ := h.ended j hj
    grind [getElem?_spawn_of_some]
  · intro job hjob hsuperseded
    rcases h.followed job hjob hsuperseded with hfollowed | ⟨g, u, hu, hr⟩
    · exact .inl hfollowed
    · exact .inr ⟨g, u, getElem?_spawn_of_some hu, hr⟩
  · intro job hjob
    rcases h.placed job hjob with
      hqueued | ⟨w, job', hid, hw⟩ | hstarted | hsuperseded
    · exact .inl hqueued
    · exact .inr (.inl ⟨w, job', hid, getElem?_spawn_of_some hw⟩)
    · exact .inr (.inr (.inl hstarted))
    · exact .inr (.inr (.inr hsuperseded))

/-- Job `id` has been answered with `context.Canceled`, on the channel, in store, or
with a `Get`. -/
def Canceled (id : ℕ) (c : Config (Pool κ τ ρ) (Thread κ τ ρ)) : Prop :=
  ∃ r : JobResult τ ρ, r.outcome = none ∧ ((c.shared.cells id).result = some r ∨
      (c.shared.cells id).cached = some r ∨
      ∃ (g : ℕ) (ends : Bool), c.threads[g]? = some (.get id ends (.storing r)) ∨
        c.threads[g]? = some (.get id ends (.returned (some r))))

theorem Marked.superseded_of_canceled (h : Marked c) (hcanceled : Canceled j c) :
    (c.shared.cells j).superseded = true := by
  obtain ⟨r, hr, hresult | hcached | ⟨g, ends, hg | hg⟩⟩ := hcanceled
  · exact h.result j r hresult hr
  · exact h.cached j r hcached hr
  all_goals exact h.threads g _ hg hr

variable [DecidableEq κ] {st : Submit κ τ} {launched : List (Thread κ τ ρ)} {st' : Submit κ τ}

section

variable (h : SubmitStep p job st p' st' launched)

include h

theorem SubmitStep.sameMarks :
    SameMarks p p' ∨ ∃ old, st = .superseding old ∧ st' = .cancelling old ∧
      p' = p.modify old.id fun cell => { cell with superseded := true } := by
  cases h with
  | supersede => exact .inr ⟨_, rfl, rfl, rfl⟩
  | cancel =>
    left
    apply sameMarks_modify
    exact fun _ => rfl
  | _ => exact .inl fun _ => rfl

omit h in
theorem SubmitStep.superseded {old : Job κ τ}
    (h : SubmitStep p job st p' (.cancelling old) launched) :
    (p'.cells old.id).superseded = true := by
  cases h
  grind [cells_modify_self]

theorem SubmitStep.started_eq (j : ℕ) :
    (p'.cells j).started = (p.cells j).started := by
  cases h with
  | supersede | cancel =>
    apply cells_modify Cell.started
    exact fun _ => rfl
  | _ => rfl

theorem SubmitStep.result_cases
    (hr : (p'.cells j).result = some r) :
    (p.cells j).result = some r ∨ ∃ old, st = .cancelling old ∧ j = old.id := by
  cases h with
  | supersede =>
    rw [cells_modify result] at hr
    · exact .inl hr
    · exact fun _ => rfl
  | cancel => grind [result_deliver_cases]
  | _ => exact .inl hr

end

theorem CleanupStep.cells {β : Type*} (g : Cell τ ρ → β) {st st' : Cleanup}
    (h : CleanupStep p job st p' st')
    (hg : ∀ cell : Cell τ ρ, g { cell with doneSig := false } = g cell) (j : ℕ) :
    g (p'.cells j) = g (p.cells j) := by
  cases h with
  | signalled => exact cells_modify g p _ hg j
  | delete | other => rfl

theorem Step.sameMarks (h : Step p i choice t o) :
    SameMarks p o.shared ∨ ∃ key payload ends old, t = .submit key payload ends (.superseding old) ∧
      o.thread = .submit key payload ends (.cancelling old) ∧
      o.shared = p.modify old.id fun cell => { cell with superseded := true } := by
  cases h with
  | submit h => rcases h.sameMarks with hsame | ⟨old, rfl, rfl, rfl⟩ <;> grind
  | worker h => exact .inl h.sameMarks
  | get h => exact .inl (h.cells superseded (fun _ => rfl) fun _ _ => rfl)
  | stop h => cases h <;> exact .inl fun _ => rfl
  | cleanup h => exact .inl (h.cells superseded fun _ => rfl)

theorem Step.superseded_mono (h : Step p i choice t o) (j : ℕ)
    (hj : (p.cells j).superseded = true) : (o.shared.cells j).superseded = true := by
  rcases h.sameMarks with hsame | ⟨key, payload, ends, old, -, -, hp⟩
  · rwa [hsame]
  grind [cells_modify_self, cells_modify_of_ne]

theorem Marked.spawn (h : Marked c) (hentry : (code κ τ ρ).entry t = true) :
    Marked (c.spawn t) := by
  refine ⟨h.result, h.cached, h.threads.spawn ?_⟩
  cases t with
  | submit key payload ends st =>
    cases st with
    | called =>
      constructor
      · intro hinside
        cases hinside
      · intro old hst
        cases hst
    | _ => cases hentry
  | get id ends st =>
    cases st with
    | called => trivial
    | _ => cases hentry
  | worker => cases hentry
  | stop | cleanup => trivial

section

variable (h : Marked c) (ht : c.threads[i]? = some t) (hstep : Step c.shared i choice t o)

include h ht hstep

theorem Marked.result_advance (hr : (o.shared.cells j).result = some r)
    (hcancels : r.outcome = none) : (c.shared.cells j).superseded = true := by
  have hmarks : Marks c.shared i t := h.threads i t ht
  cases hstep with
  | submit hstep =>
    rcases hstep.result_cases hr with hr | ⟨old, rfl, rfl⟩
    · exact h.result j r hr hcancels
    · exact hmarks.2 old rfl
  | worker hstep =>
    rcases hstep.result_cases hr hcancels with hr | ⟨job, rfl, rfl⟩
    · exact h.result j r hr hcancels
    · exact hmarks
  | get hstep => exact h.result j r (hstep.result_eq hr) hcancels
  | stop hstep => cases hstep <;> exact h.result j r hr hcancels
  | cleanup hstep =>
    refine h.result j r ?_ hcancels
    exact (hstep.cells Cell.result (fun _ => rfl) j).symm.trans hr

theorem Marked.cached_advance (hr : (o.shared.cells j).cached = some r)
    (hcancels : r.outcome = none) : (c.shared.cells j).superseded = true := by
  by_cases hget : ∃ id ends st, t = .get id ends st
  · obtain ⟨id, ends, st, rfl⟩ := hget
    have hmarks : Marks c.shared i (.get id ends st) := h.threads i _ ht
    cases hstep with
    | get hstep =>
      rcases hstep.cached_cases hr with hr | ⟨rfl, rfl⟩
      · exact h.cached j r hr hcancels
      · exact hmarks hcancels
  grind [Delivers.cached, delivers, cached]

theorem Marked.advance : Marked (c.advance i o) := by
  have hmono := hstep.superseded_mono
  have hmarks : Marks c.shared i t := h.threads i t ht
  refine ⟨fun j r hr hcancels =>
      hmono j (h.result_advance ht hstep hr hcancels),
    fun j r hr hcancels => hmono j (h.cached_advance ht hstep hr hcancels),
    h.threads.advance ?_ (fun _ _ _ _ hu => hu.mono hmono) ?_⟩
  · cases hstep with
    | @submit key payload ends st p' st' started hstep =>
      have hcancelling : ∀ old, st' = .cancelling old → (p'.cells old.id).superseded = true := by
        rintro old rfl
        exact hstep.superseded
      refine ⟨?_, hcancelling⟩
      intro hinside
      cases hstep with
      | found _ hkey | absent _ hkey =>
        cases hkey
        rfl
      | supersede | cancel | enter | keyedFull => exact hmarks.1 rfl
      | _ => cases hinside
    | worker hstep =>
      cases hstep with
      | skip hsuperseded => exact hsuperseded
      | _ => trivial
    | @get id ends st p' st' hstep =>
      cases hstep with
      | read hr => exact h.cached id _ hr
      | receive hr => exact fun hcancels => hmono id (h.result id _ hr hcancels)
      | store => exact fun hcancels => hmono id (hmarks hcancels)
      | _ => trivial
    | stop | cleanup => trivial
  · intro j u _ hu
    obtain ⟨job, st, rfl⟩ := hstep.started_cleanup u hu
    trivial

end

/-! ## What a step does to the accepted jobs -/

section

variable (h : Step p i choice t o)

include h

theorem Step.accepted_cases :
    o.shared.accepted = p.accepted ∨ ∃ key payload ends st,
      t = .submit key payload ends st ∧ st.window = 1 ∧
      o.thread = .submit key payload ends (.returned none) ∧
      o.shared.accepted = p.accepted ++ [⟨i, key, payload, ends⟩] := by
  cases h with
  | submit h =>
    cases h with
    | send | resend | sendKeyed => exact .inr ⟨_, _, _, _, rfl, rfl, rfl, rfl⟩
    | _ => exact .inl rfl
  | worker h | get h | stop h | cleanup h => cases h <;> exact .inl rfl

theorem Step.mem_accepted_cases (hjob : job ∈ o.shared.accepted) :
    job ∈ p.accepted ∨ ∃ st, t = .submit job.key job.payload job.ends st ∧ st.window = 1 ∧
      job.id = i ∧ o.thread = .submit job.key job.payload job.ends (.returned none) := by
  grind [accepted_cases]

theorem Step.mem_accepted (hjob : job ∈ p.accepted) :
    job ∈ o.shared.accepted := by
  grind [accepted_cases]

omit h in
theorem Followed.advance (hfollowed : Followed job p.accepted) (h : Step p i choice t o) :
    Followed job o.shared.accepted := by
  grind [accepted_cases, append]

theorem Step.started_mono (hj : (p.cells j).started = true) :
    (o.shared.cells j).started = true := by
  cases h with
  | submit h => rwa [h.started_eq]
  | worker h => exact h.started_mono hj
  | get h => rwa [h.cells Cell.started (fun _ => rfl) fun _ _ => rfl]
  | stop h => cases h <;> exact hj
  | cleanup h => rwa [h.cells Cell.started fun _ => rfl]

end

theorem Step.replaces (h : Step c.shared i choice t o) (hok : StaysSeparate c t)
    (hopen : c.shared.closed = false) (ht : Replaces j t) :
    (Replaces j o.thread ∧ replacing o.thread < replacing t) ∨ ∃ key payload ends old,
      t = .submit key payload ends (.sending (some old)) ∧ old.id = j ∧
      o.shared.accepted = c.shared.accepted ++ [⟨i, key, payload, ends⟩] := by
  cases h with
  | submit h =>
    cases h with
    | panic _ hclosed =>
      rw [hopen] at hclosed
      cases hclosed
    | cancel => exact .inl ⟨ht, by simp [replacing]⟩
    | @enter k old =>
      cases old with
      | none => cases ht
      | some => exact .inl ⟨ht, by simp [replacing]⟩
    | @sendKeyed old =>
      cases old with
      | none => cases ht
      | some old => exact .inr ⟨_, _, _, old, rfl, ht, rfl⟩
    | @keyedFull old hfull =>
      cases old with
      | none => cases ht
      | some =>
        have hroom : c.shared.full = false := hok
        rw [hroom] at hfull
        cases hfull
    | _ => cases ht
  | _ => cases ht

section

variable (h : Newest c)

include h

theorem Newest.returned_advance (ht : c.threads[i]? = some t)
    (hstep : Step c.shared i choice t o) (hjob : job ∈ o.shared.accepted) :
    (c.advance i o).threads[job.id]? =
      some (.submit job.key job.payload job.ends (.returned none)) := by
  grind [mem_accepted_cases, returned_stays, returned, getElem?_advance_self]

theorem Newest.ended_advance (hmapped : Mapped c) (ht : c.threads[i]? = some t)
    (hstep : Step c.shared i choice t o) (hj : (o.shared.cells j).superseded = true) :
    ∃ key payload ends err, (c.advance i o).threads[j]? =
      some (.submit key payload ends (.returned err)) := by
  suffices ∃ key payload ends err, c.threads[j]? =
      some (.submit key payload ends (.returned err)) by
    grind [returned_stays]
  rcases hstep.sameMarks with hsame | ⟨key, payload, ends, old, rfl, -, hp⟩
  · rw [hsame] at hj
    exact h.ended j hj
  · by_cases hold : j = old.id
    · obtain ⟨-, err, herr⟩ := hmapped.old i key payload ends _ old ht rfl
      rw [hold]
      exact ⟨_, _, _, err, herr⟩
    · rw [hp, cells_modify_of_ne _ _ hold] at hj
      exact h.ended j hj

theorem Newest.not_superseded (ht : c.threads[i]? = some t)
    (hstep : Step c.shared i choice t o) {key : Option κ} {payload : τ}
    (heq : t = .submit key payload ends st) (hst : st.window = 1)
    (ho : o.thread = .submit key payload ends (.returned none)) :
    (o.shared.cells i).superseded ≠ true := by
  intro hsuperseded
  rcases hstep.sameMarks with hsame | ⟨_, _, _, old, -, ho', -⟩
  · rw [hsame] at hsuperseded
    obtain ⟨_, _, _, err, herr⟩ := h.ended i hsuperseded
    rw [ht, heq] at herr
    cases herr
    cases hst
  · rw [ho] at ho'
    cases ho'

theorem Newest.key_eq (hmapped : Mapped c) {old : Job κ τ}
    (hjob : job ∈ c.shared.accepted) {key : Option κ} {payload : τ}
    (ht : c.threads[i]? = some (.submit key payload ends st)) (hold : st.old = some old)
    (hid : old.id = job.id) : key = job.key := by
  obtain ⟨hkey, err, herr⟩ := hmapped.old i key payload ends st old ht hold
  grind [returned]

theorem Newest.followed_advance (hmapped : Mapped c) (hok : StaysSeparate c t)
    (hopen : c.shared.closed = false) (ht : c.threads[i]? = some t)
    (hstep : Step c.shared i choice t o) (hjob : job ∈ c.shared.accepted)
    (hsuperseded : (o.shared.cells job.id).superseded = true) :
    Followed job o.shared.accepted ∨ ∃ (g : ℕ) (u : Thread κ τ ρ),
      (c.advance i o).threads[g]? = some u ∧ Replaces job.id u := by
  have hself := getElem?_advance_self (o := o) ht
  by_cases hbefore : (c.shared.cells job.id).superseded = true
  · rcases h.followed job hjob hbefore with hfollowed | ⟨g, u, hu, hr⟩
    · exact .inl (hfollowed.advance hstep)
    · by_cases hgi : g = i
      · subst hgi
        obtain rfl : t = u := Option.some.inj (ht.symm.trans hu)
        rcases hstep.replaces hok hopen hr with
          ⟨hr', -⟩ | ⟨key, payload, ends, old, rfl, hid, heq⟩
        · exact .inr ⟨g, o.thread, hself, hr'⟩
        · left
          rw [heq]
          exact followed_push hjob (h.key_eq hmapped hjob ht rfl hid)
      · exact .inr ⟨g, u, getElem?_advance_of_ne hgi hu, hr⟩
  · rcases hstep.sameMarks with hsame | ⟨key, payload, ends, old, -, ho, hp⟩
    · rw [hsame] at hsuperseded
      exact absurd hsuperseded hbefore
    · by_cases hid : job.id = old.id
      · refine .inr ⟨i, o.thread, hself, ?_⟩
        rw [ho]
        exact hid.symm
      grind [cells_modify_of_ne]

theorem Newest.placed_advance (hgentle : Gentle c.shared i t)
    (ht : c.threads[i]? = some t) (hstep : Step c.shared i choice t o)
    (hjob : job ∈ c.shared.accepted) :
    job.id ∈ o.shared.queued ∨ Received job.id (c.advance i o) ∨
      (o.shared.cells job.id).started = true ∨ (o.shared.cells job.id).superseded = true := by
  rcases h.placed job hjob with
    hqueued | ⟨w, job', hid, hw⟩ | hstarted | hsuperseded
  · have hkept : ∀ key payload ends, t ≠ .submit key payload ends .removing := by
      rintro key payload ends rfl
      exact hgentle
    grind [queued_cases]
  · by_cases hwi : w = i
    · subst hwi
      rw [hw] at ht
      cases ht
      have hmono := hstep.superseded_mono
      rw [← hid]
      cases hstep
      grind [WorkerStep.checks]
    · exact .inr (.inl ⟨w, job', hid, getElem?_advance_of_ne hwi hw⟩)
  · grind [started_mono]
  grind [superseded_mono]

theorem Newest.advance (hmapped : Mapped c) (hgentle : Gentle c.shared i t)
    (hok : StaysSeparate c t) (hopen : c.shared.closed = false) (ht : c.threads[i]? = some t)
    (hstep : Step c.shared i choice t o) : Newest (c.advance i o) := by
  refine ⟨fun _ => h.returned_advance ht hstep, fun _ => h.ended_advance hmapped ht hstep, ?_, ?_⟩
  · intro job hjob hsuperseded
    rcases hstep.mem_accepted_cases hjob with
      hjob | ⟨st, hst, hwindow, rfl, ho⟩
    · exact h.followed_advance hmapped hok hopen ht hstep hjob hsuperseded
    · exact absurd hsuperseded (h.not_superseded ht hstep hst hwindow ho)
  · intro job hjob
    rcases hstep.mem_accepted_cases hjob with hjob | ⟨st, -, -, rfl, ho⟩
    · exact h.placed_advance hgentle ht hstep hjob
    · exact .inl (hstep.accepts ho)

end

/-! ## Every run -/

structure Coalescing (c : Config (Pool κ τ ρ) (Thread κ τ ρ)) : Prop where
  isOpen : Open c
  mapped : Mapped c
  marked : Marked c
  newest : Newest c

theorem coalescing_started {m n : ℕ} (hm : 0 < m) :
    Coalescing (started κ τ ρ .coalesceByKey m n) := by
  refine ⟨⟨rfl, rfl, rfl, fun _ => rfl, ?_, ?_⟩, ⟨?_, ?_, ?_, ?_, ?_, ?_⟩,
    ⟨?_, ?_, ?_⟩, ⟨?_, ?_, ?_, ?_⟩⟩
  · rw [total_started]
    change m * 1 ≠ 0
    omega
  · intro j u hu
    rw [getElem?_started hu]
    trivial
  · intro k job hjob
    cases hjob
  · intro k
    rw [total_started]
    exact Nat.zero_le 1
  · intro j key payload ends st old hj
    cases getElem?_started hj
  · intro j k payload ends hj
    cases getElem?_started hj
  · intro j k payload ends st hj
    cases getElem?_started hj
  · intro j job st hj
    cases getElem?_started hj
  · intro j r hr
    cases hr
  · intro j r hr
    cases hr
  · intro j u hu
    rw [getElem?_started hu]
    trivial
  · intro job hjob
    cases hjob
  · intro j hj
    cases hj
  all_goals
    intro job hjob
    cases hjob

/-- The executions without `Stop` in which the calls of a key stay separate. -/
abbrev SeparateExecution (init : Config (Pool κ τ ρ) (Thread κ τ ρ)) :=
  Execution (code κ τ ρ) (fun c a => NoStop c a ∧ Separate c a) init

theorem coalescing_of_execution {k l : ℕ} (hk : 0 < k)
    (e : SeparateExecution (started κ τ ρ .coalesceByKey k l)) (n : ℕ) :
    Coalescing (e.config n) := by
  obtain ⟨acts, hrun⟩ := e.exists_run n
  refine Code.run_invariant (I := Coalescing) ?_ ?_ hrun (coalescing_started hk)
  · intro c t hI hok hentry
    exact ⟨hI.isOpen.spawn hok.1 hentry, hI.mapped.spawn hentry,
      hI.marked.spawn hentry, hI.newest.spawn⟩
  · intro c i b t o hI hok ht ho
    have hstep := step_of_next ho
    have hseparate := hok.2 t ht
    have hclosed := hI.isOpen.closed
    exact ⟨hI.isOpen.advance ht hstep, hI.mapped.advance hseparate hclosed ht hstep,
      hI.marked.advance ht hstep,
      hI.newest.advance hI.mapped (hI.isOpen.threads i t ht) hseparate hclosed ht hstep⟩

/-! ## A failing call -/

/-- No job but that of call `i` is touched: neither its state, nor its place in
the queue, nor its entry in the map. -/
structure Untouched (i : ℕ) (p p' : Pool κ τ ρ) : Prop where
  cells : p'.cells = p.cells
  jobChan : p'.jobChan = p.jobChan
  accepted : p'.accepted = p.accepted
  coalesceMap : ∀ k job, job.id ≠ i → (p'.coalesceMap k = some job ↔ p.coalesceMap k = some job)

/-- The goroutine is not going to return an error of `Submit`. -/
def Succeeds : Thread κ τ ρ → Prop
  | .submit _ _ _ (.superseding _) | .submit _ _ _ (.cancelling _)
  | .submit _ _ _ (.entering (some _)) | .submit _ _ _ (.sending (some _))
  | .submit _ _ _ (.returned none) => True
  | .submit _ _ _ _ => False
  | _ => True

theorem Step.succeeds (h : Step c.shared i choice t o) (hok : StaysSeparate c t)
    (hopen : c.shared.closed = false) (ht : Succeeds t) : Succeeds o.thread := by
  cases h with
  | submit h =>
    cases h with
    | panic _ hclosed =>
      rw [hopen] at hclosed
      cases hclosed
    | @keyedFull old hfull =>
      cases old with
      | none => exact ht
      | some =>
        have hroom : c.shared.full = false := hok
        rw [hroom] at hfull
        cases hfull
    | supersede | cancel | sendKeyed => trivial
    | @enter k old =>
      cases old with
      | none => exact ht
      | some => trivial
    | _ => cases ht
  | _ => trivial

theorem update_eq_iff {entries : κ → Option (Job κ τ)} {k k' : κ} {entry : Option (Job κ τ)}
    (hold : entries k ≠ some job) (hnew : entry ≠ some job) :
    Function.update entries k entry k' = some job ↔ entries k' = some job := by
  grind

theorem Step.untouched_or_succeeds (h : Step c.shared i choice t o) (hI : Coalescing c)
    (ht : c.threads[i]? = some t) : Untouched i c.shared o.shared ∨ Succeeds o.thread := by
  have hsame : Untouched i c.shared c.shared := ⟨rfl, rfl, rfl, fun _ _ _ => Iff.rfl⟩
  have hgentle : Gentle c.shared i t := hI.isOpen.threads i t ht
  cases h with
  | @submit key payload ends st p' st' started h =>
    cases h with
    | panic _ hclosed =>
      rw [hI.isOpen.closed] at hclosed
      cases hclosed
    | overflow => grind
    | refuse | pass | drop | keyedFull => exact .inl hsame
    | absent => exact .inl ⟨rfl, rfl, rfl, fun _ _ _ => Iff.rfl⟩
    | remove | removeClosed | removeEmpty | resend | redrop => exact hgentle.elim
    | send | found | supersede | cancel | sendKeyed => exact .inr trivial
    | @enter k old hkey =>
      cases old with
      | some => exact .inr trivial
      | none =>
        cases hkey
        refine .inl ⟨rfl, rfl, rfl, fun k' job hjob => ?_⟩
        apply update_eq_iff
        · rw [hI.mapped.absent i k payload ends ht]
          simp
        grind
    | @delete k hkey =>
      cases hkey
      refine .inl ⟨rfl, rfl, rfl, fun k' job hjob => ?_⟩
      apply update_eq_iff
      · rw [hI.mapped.own i k payload ends _ ht rfl rfl]
        grind
      · simp
  | _ => exact .inr trivial

theorem replaces_enabled (hI : Coalescing c) {g : ℕ} {u : Thread κ τ ρ}
    (hg : c.threads[g]? = some u) (hu : Replaces j u) : (code κ τ ρ).Enabled c g := by
  have hmarks : Marks c.shared g u := hI.marked.threads g u hg
  cases u with
  | submit key payload ends st =>
    have hnext : ∀ b, (c.shared.submitNext ⟨g, key, payload, ends⟩ st
        b).isSome = true → (code κ τ ρ).Enabled c g := by
      intro b hb
      refine Code.enabled_of_next (b := Choice.take b) hg ?_
      change (next c.shared g (.submit key payload ends st) (.take b)).isSome = true
      rw [next, hI.isOpen.panicked]
      simpa using hb
    cases st with
    | cancelling => exact hnext .next rfl
    | entering =>
      obtain ⟨k, rfl⟩ := Option.isSome_iff_exists.mp (hmarks.1 rfl)
      exact hnext .next rfl
    | sending =>
      cases hfull : c.shared.full with
      | true =>
        refine hnext .default ?_
        simp [submitNext, offer, hfull, hI.isOpen.closed]
      | false =>
        refine hnext .channel ?_
        simp [submitNext, offer, hfull, hI.isOpen.closed]
    | _ => cases hu
  | _ => cases hu

/-! ## Executions -/

section Execution

variable {k l : ℕ} (hk : 0 < k) (e : SeparateExecution (started κ τ ρ .coalesceByKey k l))

include hk

variable {n : ℕ}

theorem untouched_of_error {m : ℕ} {key : Option κ} {payload : τ} {ends : Bool}
    {err : SubmitError} (hmove : e.move n = some (.run i choice))
    (hm : (e.config m).threads[i]? = some (.submit key payload ends (.returned (some err)))) :
    Untouched i (e.config n).shared (e.config (n + 1)).shared := by
  rcases Code.step_cases (e.next hmove) with
    ⟨t, heq, -⟩ | ⟨j, b, t, o, heq, ht, ho, hc⟩
  · cases heq
  · cases heq
    have hstep := step_of_next ho
    rcases hstep.untouched_or_succeeds (coalescing_of_execution hk e n) ht with
      huntouched | hsucceeds
    · rwa [hc]
    · exfalso
      rcases Nat.lt_or_ge n m with hnm | hmn
      · have halways : ∀ m, n + 1 ≤ m → ∃ u, (e.config m).threads[i]? = some u ∧ Succeeds u := by
          refine always (P := fun c => ∃ u, c.threads[i]? = some u ∧ Succeeds u) ?_ ?_
          · grind [getElem?_advance_self]
          · rintro m mv - ⟨u, hu, hsucceeds⟩ hmove
            rcases getElem?_succ hmove hu with
              ⟨-, hstay⟩ | ⟨b, o, rfl, ho, hc⟩
            · exact ⟨u, hstay, hsucceeds⟩
            · have hstep := step_of_next ho
              rw [hc]
              refine ⟨o.thread, getElem?_advance_self hu, ?_⟩
              exact hstep.succeeds ((e.guard hmove).2 u hu)
                (coalescing_of_execution hk e m).isOpen.closed hsucceeds
        obtain ⟨u, hu, hsucceeds⟩ := halways m hnm
        rw [hm] at hu
        cases hu
        exact hsucceeds
      · have hnext : ∀ p b, (code κ τ ρ).next p i
            (.submit key payload ends (.returned (some err))) b = none := by
          intro p b
          cases hnext : (code κ τ ρ).next p i _ b with
          | none => rfl
          | some =>
            cases step_of_next hnext with
            | submit hstep =>
              cases hstep with
              | panic hst => cases hst
        grind [stays]

variable {job : Job κ τ}

theorem followed_of_replaced (hfair : e.Fair) {g : ℕ} {u : Thread κ τ ρ}
    (hjob : job ∈ (e.config n).shared.accepted) (hg : (e.config n).threads[g]? = some u)
    (hu : Replaces job.id u) : ∃ m, n ≤ m ∧ Followed job (e.config m).shared.accepted := by
  refine eventually_of_rank hfair (P := fun g c => job ∈ c.shared.accepted ∧
      ∃ u, c.threads[g]? = some u ∧ Replaces job.id u)
    (Q := fun c => Followed job c.shared.accepted)
    (fun g c => c.threads[g]?.elim 0 replacing) (h := g)
    ⟨hjob, u, hg, hu⟩ ?_ ?_
  · grind [replaces_enabled, coalescing_of_execution]
  · rintro m g mv - ⟨hjob, u, hg, hu⟩ hmove
    have hI := coalescing_of_execution hk e m
    rcases Code.step_cases (e.next hmove) with
      ⟨t, rfl, -, hc⟩ | ⟨i, b, t, o, rfl, ht, ho, hc⟩
    · have hg' := getElem?_spawn_of_some (t := t) hg
      rw [hc]
      exact .inr (.inr ⟨⟨hjob, u, hg', hu⟩, by rw [hg', hg], by simp⟩)
    · have hstep := step_of_next ho
      have hjob' := hstep.mem_accepted hjob
      rw [hc]
      by_cases hgi : g = i
      · subst hgi
        obtain rfl : t = u := Option.some.inj (ht.symm.trans hg)
        have hg' := getElem?_advance_self (o := o) hg
        rcases hstep.replaces ((e.guard hmove).2 t ht) hI.isOpen.closed hu with
          ⟨hu', hlt⟩ | ⟨key, payload, ends, old, rfl, hid, heq⟩
        · refine .inr (.inl ⟨g, ⟨hjob', o.thread, hg', hu'⟩, ?_⟩)
          rwa [hg', hg]
        · left
          change Followed job o.shared.accepted
          rw [heq]
          exact followed_push hjob (hI.newest.key_eq hI.mapped hjob ht rfl hid)
      · have hg' := getElem?_advance_of_ne (o := o) hgi hg
        refine .inr (.inr ⟨⟨hjob', u, hg', hu⟩, by rw [hg', hg], ?_⟩)
        grind

theorem followed_of_superseded (hfair : e.Fair) (hjob : job ∈ (e.config n).shared.accepted)
    (hsuperseded : ((e.config n).shared.cells job.id).superseded = true) :
    ∃ m, n ≤ m ∧ Followed job (e.config m).shared.accepted := by
  grind [Newest.followed, coalescing_of_execution, Coalescing.newest, followed_of_replaced]

omit hk in
theorem accepted_always (hjob : job ∈ (e.config n).shared.accepted) :
    ∀ m, n ≤ m → job ∈ (e.config m).shared.accepted := by
  refine always (e := e) (P := fun c => job ∈ c.shared.accepted) hjob ?_
  intro m mv _ hm hmove
  rcases Code.step_cases (e.next hmove) with
    ⟨t, -, -, hc⟩ | ⟨i, b, t, o, -, ht, ho, hc⟩
  · rwa [hc]
  · rw [hc]
    exact (step_of_next ho).mem_accepted hm

variable [Nonempty ρ]

theorem started_or_superseded (hfair : e.Fair) {j : ℕ} (h : Received j (e.config n)) :
    ∃ m, n ≤ m ∧ (((e.config m).shared.cells j).started = true ∨
      ((e.config m).shared.cells j).superseded = true) := by
  obtain ⟨w, job, rfl, hw⟩ := h
  obtain ⟨m, b, o, hm, hw, -, ho, hc⟩ := eventually_steps hfair hw
    fun m _ hw => worker_enabled hw (by simp)
      (coalescing_of_execution hk e m).isOpen.panicked (by simp)
  cases step_of_next ho with
  | worker hstep =>
    rcases hstep.checks with hstarted | hsuperseded
    · refine ⟨m + 1, by omega, .inl ?_⟩
      rwa [hc]
    · exact ⟨m, hm, .inr hsuperseded⟩

theorem started_or_followed (hfair : e.Fair) (hjob : job ∈ (e.config n).shared.accepted) :
    ∃ m, n ≤ m ∧ (((e.config m).shared.cells job.id).started = true ∨
      Followed job (e.config m).shared.accepted) := by
  have hI := coalescing_of_execution hk e
  have hfinish : ∀ {m}, n ≤ m → (((e.config m).shared.cells job.id).started = true ∨
        ((e.config m).shared.cells job.id).superseded = true) →
      ∃ m, n ≤ m ∧ (((e.config m).shared.cells job.id).started = true ∨
        Followed job (e.config m).shared.accepted) := by
    grind [followed_of_superseded, accepted_always]
  have hreceive : ∀ {m}, n ≤ m → Received job.id (e.config m) →
      ∃ m, n ≤ m ∧ (((e.config m).shared.cells job.id).started = true ∨
        Followed job (e.config m).shared.accepted) := by
    grind [started_or_superseded]
  rcases (hI n).newest.placed job hjob with hqueued | hreceived | hor
  · have hkept : ∀ n i b key payload ends, e.move n = some (.run i b) →
        (e.config n).threads[i]? = some (.submit key payload ends .removing) →
          (e.config n).shared.jobChan = [] :=
      fun n i b key payload ends _ hi => ((hI n).isOpen.threads i _ hi).elim
    obtain ⟨m, hm, hreceived⟩ := eventually_received hfair (fun n => (hI n).isOpen.panicked)
      (fun n _ => exists_worker (hI n).isOpen.served) hkept hqueued
    exact hreceive hm hreceived
  · exact hreceive le_rfl hreceived
  · exact hfinish le_rfl hor

end Execution

/-! ## The newest job is kept -/

section Statements

variable {ok : Config (Pool κ τ ρ) (Thread κ τ ρ) → Move (Thread κ τ ρ) (Choice ρ) → Prop}
  {init : Config (Pool κ τ ρ) (Thread κ τ ρ)}
  (e : Execution (code κ τ ρ) ok init)

/-- No step of a `Submit` that returns an error touches another job. -/
def FailuresHarmless : Prop :=
  ∀ (n m i : ℕ) (b : Choice ρ) (key : Option κ) (payload : τ) (ends : Bool)
    (err : SubmitError), e.move n = some (.run i b) →
    (e.config m).threads[i]? = some (.submit key payload ends (.returned (some err))) →
      Untouched i (e.config n).shared (e.config (n + 1)).shared

/-- An accepted job that is cancelled, run or not, is followed by a later one of its
key. -/
def CanceledFollowed : Prop :=
  ∀ n, ∀ job ∈ (e.config n).shared.accepted, Canceled job.id (e.config n) →
    ∃ m, n ≤ m ∧ Followed job (e.config m).shared.accepted

/-- Every accepted job that is not followed by a later one of its key is run. -/
def NewestStarted : Prop :=
  ∀ n, ∀ job ∈ (e.config n).shared.accepted,
    ∃ m, n ≤ m ∧ (((e.config m).shared.cells job.id).started = true ∨
      Followed job (e.config m).shared.accepted)

end Statements

/-- Coalescing keeps the newest accepted job of each key, if the calls of a key are separate. -/
theorem newest_of_separate [Nonempty ρ] {numCPU : ℕ} {workers queueSize : ℤ}
    {init : Config (Pool κ τ ρ) (Thread κ τ ρ)}
    (hinit : newComputePool κ τ ρ numCPU .coalesceByKey workers queueSize =
      some init) (e : SeparateExecution init) :
    FailuresHarmless e ∧ (e.Fair → CanceledFollowed e ∧ NewestStarted e) := by
  obtain ⟨k, l, hk, rfl⟩ := started_of_newComputePool hinit
  refine ⟨?_, fun hfair => ⟨?_, ?_⟩⟩
  · intro n m i b key payload ends err hmove hm
    exact untouched_of_error hk e hmove hm
  · intro n job hjob hcanceled
    have hmarked := (coalescing_of_execution hk e n).marked
    exact followed_of_superseded hk e hfair hjob (hmarked.superseded_of_canceled hcanceled)
  · intro n job hjob
    exact started_or_followed hk e hfair hjob

theorem newest_of_separate_two :
    ∃ (e : SeparateExecution (started Unit Unit Unit .coalesceByKey 1 2)) (N : ℕ),
      (e.config N).shared.accepted = [⟨1, some (), (), false⟩, ⟨3, some (), (), false⟩] ∧
      ((e.config N).shared.cells 1).result = some ⟨(), none⟩ ∧
      ((e.config N).shared.cells 1).started = false ∧
      FailuresHarmless e ∧ CanceledFollowed e ∧ NewestStarted e := by
  obtain ⟨c, hrun, hended, haccepted, hresult, hstarted⟩ :=
    exists_run (code Unit Unit Unit).step
    (fun c a => NoStop c a ∧ Separate c a)
    (started Unit Unit Unit .coalesceByKey 1 2)
    (flatten [submits (some ()) 1 [.next, .next, .next, .channel],
      submits (some ()) 3 [.next, .next, .next, .next, .next, .channel],
      takes 0 [.channel, .next, .next, .next], takes 2 [.next, .next],
      takes 0 [.channel, .next], [.run 0 (.returns ())], takes 0 [.channel, .next],
      takes 4 [.next, .next]])
    (fun c => Ended c ∧ c.shared.accepted = [⟨1, some (), (), false⟩, ⟨3, some (), (), false⟩] ∧
      (c.shared.cells 1).result = some ⟨(), none⟩ ∧
      (c.shared.cells 1).started = false)
    (by decide +kernel)
  obtain ⟨e, N, hfair, -, he⟩ := exists_fair hrun hended.next_eq_none
  have hinit : newComputePool Unit Unit Unit 1 .coalesceByKey 1 2 =
    some (started Unit Unit Unit .coalesceByKey 1 2) := rfl
  have hnewest := newest_of_separate hinit e
  refine ⟨e, N, ?_, ?_, ?_, hnewest.1, hnewest.2 hfair⟩
  all_goals rwa [he N le_rfl]

/-- The last accepted job of the only key is cancelled and never run. -/
def NewestLost (queueSize : ℕ) (jobs : List (Job Unit Unit)) (job : Job Unit Unit) : Prop :=
  ∃ (e : Execution (code Unit Unit Unit) NoStop
      (started Unit Unit Unit .coalesceByKey 1 queueSize)) (N : ℕ), e.Fair ∧
    ∀ n, N ≤ n → (e.config n).shared.accepted = jobs ++ [job] ∧
      ((e.config n).shared.cells job.id).result = some ⟨(), none⟩ ∧
      ((e.config n).shared.cells job.id).started = false

theorem newestLost_of_run {queueSize : ℕ} {jobs : List (Job Unit Unit)} {job : Job Unit Unit}
    (acts : List (Move (Thread Unit Unit Unit) (Choice Unit)))
    (h : (exec (code Unit Unit Unit).step NoStop
      (started Unit Unit Unit .coalesceByKey 1 queueSize) acts).any
        (fun c => decide (Ended c ∧ c.shared.accepted = jobs ++ [job] ∧
          (c.shared.cells job.id).result = some ⟨(), none⟩ ∧
          (c.shared.cells job.id).started = false)) = true) : NewestLost queueSize jobs job := by
  obtain ⟨c, hrun, hended, hlost⟩ := exists_run _ _ _ _
    (fun c => Ended c ∧ c.shared.accepted = jobs ++ [job] ∧
      (c.shared.cells job.id).result = some ⟨(), none⟩ ∧
      (c.shared.cells job.id).started = false) h
  obtain ⟨e, N, hfair, -, he⟩ := exists_fair hrun hended.next_eq_none
  refine ⟨e, N, hfair, ?_⟩
  intro n hn
  rwa [he n hn]

/-- A call that finds the queue full has cancelled the only accepted job of its key;
and of two calls that overlap the second cancels the job of the first, which is then
sent after its own. -/
theorem newest_lost : NewestLost 1 [] ⟨1, some (), (), false⟩ ∧
      NewestLost 2 [⟨2, some (), (), false⟩] ⟨1, some (), (), false⟩ := by
  constructor
  · exact newestLost_of_run (flatten [submits (some ()) 1 [.next, .next, .next, .channel],
        submits (some ()) 3 [.next, .next, .next, .next, .next, .default, .next],
        takes 0 [.channel, .next, .next, .next], takes 2 [.next, .next]])
      (by decide +kernel)
  · exact newestLost_of_run (flatten [submits (some ()) 1 [.next, .next, .next],
        submits (some ()) 2 [.next, .next, .next, .next, .next, .channel], takes 1 [.channel],
        takes 0 [.channel, .next], [.run 0 (.returns ())], takes 0 [.channel, .next],
        takes 3 [.next, .next], takes 0 [.channel, .next, .next, .next],
        takes 4 [.next, .next]])
      (by decide +kernel)

end Fluxor.Compute.Pool
