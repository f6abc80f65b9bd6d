import Fluxor.Compute.Futures

/-!
# The map of keyed jobs

With `CoalesceByKey` a `Submit` looks up the last job of its key, marks it as
superseded, enters its own job in the map and sends it. When the calls of one key do
not overlap, the map has the job that was sent last, and a job is superseded only
after its `Submit` has returned (`Mapped`).
-/

namespace Fluxor.Compute

/-- The job that a `Submit` has found in the map. -/
def Submit.old {κ τ : Type*} : Submit κ τ → Option (Job κ τ)
  | .superseding old | .cancelling old => some old
  | .entering old | .sending old => old
  | _ => none

/-- The job of the `Submit` has been entered in the map, or the call is over. -/
def Submit.entered {κ τ : Type*} : Submit κ τ → Bool
  | .sending _ | .deleting | .returned _ => true
  | _ => false

/-- From the lookup in the map to the send, or to the deletion after a failure. -/
def Submit.inside {κ τ : Type*} : Submit κ τ → Bool
  | .superseding _ | .cancelling _ | .entering _ | .sending _ | .deleting => true
  | _ => false

namespace Pool

open Goroutines Config Function

variable {κ τ ρ : Type*} {p p' : Pool κ τ ρ} {i : ℕ} {choice : Choice ρ}
  {t : Thread κ τ ρ} {o : Outcome (Pool κ τ ρ) (Thread κ τ ρ)}
  {c : Config (Pool κ τ ρ) (Thread κ τ ρ)}

/-! ## The executions -/

def NoStop (_ : Config (Pool κ τ ρ) (Thread κ τ ρ)) : Move (Thread κ τ ρ) (Choice ρ) → Prop
  | .spawn (.stop _ _) => False
  | _ => True

instance (c : Config (Pool κ τ ρ) (Thread κ τ ρ))
    (m : Move (Thread κ τ ρ) (Choice ρ)) : Decidable (NoStop c m) :=
  match m with
  | .spawn (.submit _ _ _ _) | .spawn (.worker _) | .spawn (.get _ _ _) | .spawn (.stop _ _)
  | .spawn (.cleanup _ _) | .run _ _ => by delta NoStop; infer_instance

variable [DecidableEq κ]

def inside (k : κ) : Thread κ τ ρ → ℕ
  | .submit key _ _ st => if key = some k ∧ st.inside then 1 else 0
  | _ => 0

/-- A `Submit` makes its lookup only while no other one of its key is past its own,
and one that has found a job finds room in the queue. -/
def StaysSeparate (c : Config (Pool κ τ ρ) (Thread κ τ ρ)) : Thread κ τ ρ → Prop
  | .submit key _ _ .selecting => ∀ k ∈ key, c.total (inside k) = 0
  | .submit _ _ _ (.sending (some _)) => c.shared.full = false
  | _ => True

def Separate (c : Config (Pool κ τ ρ) (Thread κ τ ρ)) : Move (Thread κ τ ρ) (Choice ρ) → Prop
  | .spawn _ => True
  | .run i _ => ∀ t ∈ c.threads[i]?, StaysSeparate c t

instance (c : Config (Pool κ τ ρ) (Thread κ τ ρ)) (t : Thread κ τ ρ) :
    Decidable (StaysSeparate c t) :=
  match t with
  | .submit _ _ _ .selecting | .submit _ _ _ (.sending (some _)) | .submit _ _ _ .called
  | .submit _ _ _ .removing | .submit _ _ _ .retrying | .submit _ _ _ (.superseding _)
  | .submit _ _ _ (.cancelling _) | .submit _ _ _ (.entering _) | .submit _ _ _ (.sending none)
  | .submit _ _ _ .deleting | .submit _ _ _ (.returned _) | .worker _ | .get _ _ _ | .stop _ _
  | .cleanup _ _ => by delta StaysSeparate; infer_instance

instance (c : Config (Pool κ τ ρ) (Thread κ τ ρ))
    (m : Move (Thread κ τ ρ) (Choice ρ)) : Decidable (Separate c m) :=
  match m with
  | .spawn _ | .run _ _ => by delta Separate; infer_instance

/-! ## The pool stays open -/

def Gentle (_ : Pool κ τ ρ) (_ : ℕ) : Thread κ τ ρ → Prop
  | .stop _ _ | .submit _ _ _ .removing | .submit _ _ _ .retrying => False
  | _ => True

structure Open (c : Config (Pool κ τ ρ) (Thread κ τ ρ)) : Prop where
  policy : c.shared.policy = .coalesceByKey
  closed : c.shared.closed = false
  panicked : c.shared.panicked = false
  cancelled : ∀ k, c.shared.cancelled k = false
  served : c.total alive ≠ 0
  threads : c.All Gentle

theorem Open.spawn (h : Open c) (hok : NoStop c (.spawn t)) (hentry : (code κ τ ρ).entry t = true) :
    Open (c.spawn t) := by
  refine { h with served := ?_, threads := h.threads.spawn ?_ }
  · rw [total_spawn]
    have := h.served
    omega
  · cases t with
    | stop => exact hok
    | submit key payload ends st =>
      cases st with
      | called => trivial
      | _ => cases hentry
    | _ => trivial

theorem Step.policy_eq (h : Step p i choice t o) : o.shared.policy = p.policy := by
  cases h with
  | submit h | worker h | get h | stop h | cleanup h => cases h <;> rfl

theorem Open.advance (h : Open c) (ht : c.threads[i]? = some t)
    (hstep : Step c.shared i choice t o) : Open (c.advance i o) := by
  have hgentle : Gentle c.shared i t := h.threads i t ht
  have hflags : SameFlags c.shared o.shared := by
    refine hstep.sameFlags (fun _ => h.closed) ?_
    rintro ends st rfl
    exact hgentle
  have halive : alive o.thread = alive t := by
    cases hstep with
    | worker hstep =>
      cases hstep with
      | closed _ hclosed =>
        rw [h.closed] at hclosed
        cases hclosed
      | done => grind [cancelled]
      | _ => rfl
    | _ => rfl
  refine ⟨hstep.policy_eq.trans h.policy, hflags.closed.trans h.closed,
    hflags.panicked.trans h.panicked, ?_, ?_, ?_⟩
  · intro k
    change o.shared.cancelled k = false
    rw [hflags.cancelled]
    exact h.cancelled k
  · grind [total_advance, served]
  · refine h.threads.advance ?_ (fun _ _ _ _ hu => hu) ?_
    · cases hstep with
      | submit hstep =>
        cases hstep with
        | overflow hpolicy =>
          rw [h.policy] at hpolicy
          cases hpolicy
        | remove | removeClosed => exact hgentle
        | _ => trivial
      | stop => exact hgentle
      | _ => trivial
    · intro j u _ hu
      obtain ⟨job, st, rfl⟩ := hstep.started_cleanup u hu
      trivial

/-! ## The map -/

variable {j : ℕ} {payload : τ} {ends : Bool} {st : Submit κ τ}

theorem Step.submit_stays (h : Step c.shared i choice t o) (ht : c.threads[i]? = some t)
    {key : Option κ} (hj : c.threads[j]? = some (.submit key payload ends st))
    (hopen : c.shared.closed = false) :
    ∃ st', (c.advance i o).threads[j]? = some (.submit key payload ends st') ∧
      (st.entered = true → st'.entered = true) := by
  by_cases hji : j = i
  · subst hji
    rw [hj] at ht
    cases ht
    cases h with
    | @submit _ _ _ _ p' st' started h =>
      refine ⟨st', getElem?_advance_self hj, ?_⟩
      intro hst
      cases h with
      | panic _ hclosed =>
        rw [hopen] at hclosed
        cases hclosed
      | sendKeyed | keyedFull | delete => rfl
      | _ => cases hst
  grind [getElem?_advance_of_ne]

structure Mapped (c : Config (Pool κ τ ρ) (Thread κ τ ρ)) : Prop where
  /-- The map has jobs that have been entered under their keys. -/
  entry : ∀ k job, c.shared.coalesceMap k = some job → job.key = some k ∧ ∃ st, c.threads[job.id]? =
      some (.submit job.key job.payload job.ends st) ∧ st.entered = true
  /-- The calls of one key do not overlap. -/
  single : ∀ k, c.total (inside k) ≤ 1
  /-- The job that a call has found has its key, and its own call is over. -/
  old : ∀ (j : ℕ) (key : Option κ) (payload : τ) (ends : Bool) (st : Submit κ τ) (old : Job κ τ),
    c.threads[j]? = some (.submit key payload ends st) → st.old = some old →
      old.key = key ∧ ∃ err, c.threads[old.id]? =
        some (.submit old.key old.payload old.ends (.returned err))
  /-- A call that has found no job is going to make the first entry. -/
  absent : ∀ (j : ℕ) (k : κ) (payload : τ) (ends : Bool),
    c.threads[j]? = some (.submit (some k) payload ends (.entering none)) →
      c.shared.coalesceMap k = none
  /-- The entry of a call stays until its end. -/
  own : ∀ (j : ℕ) (k : κ) (payload : τ) (ends : Bool) (st : Submit κ τ),
    c.threads[j]? = some (.submit (some k) payload ends st) →
    st.inside = true → st.entered = true → c.shared.coalesceMap k = some ⟨j, some k, payload, ends⟩
  /-- The cleanup of a job begins after its call. -/
  cleanups : ∀ (j : ℕ) (job : Job κ τ) (st : Cleanup),
    c.threads[j]? = some (.cleanup job st) → c.threads[job.id]? =
      some (.submit job.key job.payload job.ends (.returned none))

theorem Mapped.spawn (h : Mapped c) (hentry : (code κ τ ρ).entry t = true) :
    Mapped (c.spawn t) := by
  have hcalled : ∀ {key payload ends st}, t = .submit key payload ends st → st = .called := by
    rintro key payload ends st rfl
    cases st with
    | called => rfl
    | _ => cases hentry
  refine ⟨?_, ?_, ?_, ?_, ?_, ?_⟩
  · intro k job hjob
    obtain ⟨hkey, st, hst, hentered⟩ := h.entry k job hjob
    grind [getElem?_spawn_of_some]
  · intro k
    have hzero : inside k t = 0 := by cases t <;> grind [inside, Submit.inside]
    rw [total_spawn, hzero]
    exact h.single k
  · intro j key payload ends st old hj hold
    rcases getElem?_spawn hj with hj | ⟨-, rfl⟩
    · grind [old, getElem?_spawn_of_some]
    · rw [hcalled rfl] at hold
      cases hold
  · intro j k payload ends hj
    rcases getElem?_spawn hj with hj | ⟨-, rfl⟩
    · exact h.absent j k payload ends hj
    · cases hentry
  · intro j k payload ends st hj hinside
    rcases getElem?_spawn hj with hj | ⟨-, rfl⟩
    · exact h.own j k payload ends st hj hinside
    · rw [hcalled rfl] at hinside
      cases hinside
  · intro j job st hj
    rcases getElem?_spawn hj with hj | ⟨-, rfl⟩
    · exact getElem?_spawn_of_some (h.cleanups j job st hj)
    · cases hentry

/-- A `Submit` enters its job in the map; a `Submit` or the goroutine of a job takes
an entry away. -/
inductive MapStep (p : Pool κ τ ρ) (i : ℕ) (p' : Pool κ τ ρ) : Thread κ τ ρ → Thread κ τ ρ → Prop
  | same {t t'} (h : p'.coalesceMap = p.coalesceMap) : MapStep p i p' t t'
  | enter {k payload ends old} (h : p'.coalesceMap =
        update p.coalesceMap k (some ⟨i, some k, payload, ends⟩)) :
      MapStep p i p' (.submit (some k) payload ends (.entering old))
        (.submit (some k) payload ends (.sending old))
  | delete {k payload ends err} (h : p'.coalesceMap = update p.coalesceMap k none) :
      MapStep p i p' (.submit (some k) payload ends .deleting)
        (.submit (some k) payload ends (.returned err))
  | cleanup {k job st st'} (hid : (p.coalesceMap k).map Job.id = some job.id)
      (h : p'.coalesceMap = update p.coalesceMap k none) :
      MapStep p i p' (.cleanup job st) (.cleanup job st')

theorem Step.mapStep (h : Step p i choice t o) : MapStep p i o.shared t o.thread := by
  cases h with
  | submit h =>
    cases h with
    | enter hkey =>
      cases hkey
      exact .enter rfl
    | delete hkey =>
      cases hkey
      exact .delete rfl
    | _ => exact .same rfl
  | worker h | get h | stop h => cases h <;> exact .same rfl
  | cleanup h =>
    cases h with
    | delete _ hid => exact .cleanup hid rfl
    | _ => exact .same rfl

variable {k : κ}

theorem Mapped.entry_advance (h : Mapped c) (hopen : c.shared.closed = false)
    (ht : c.threads[i]? = some t) (hstep : Step c.shared i choice t o) {job : Job κ τ}
    (hjob : o.shared.coalesceMap k = some job) :
    job.key = some k ∧ ∃ st, (c.advance i o).threads[job.id]? =
      some (.submit job.key job.payload job.ends st) ∧ st.entered = true := by
  have hself := getElem?_advance_self (o := o) ht
  have hold : c.shared.coalesceMap k = some job → job.key = some k ∧
      ∃ st, (c.advance i o).threads[job.id]? = some (.submit job.key job.payload job.ends st) ∧
          st.entered = true := by
    grind [entry, Step.submit_stays]
  generalize ho : o.thread = t' at hself
  have hmap := hstep.mapStep
  rw [ho] at hmap
  cases hmap with
  | same heq =>
    rw [heq] at hjob
    exact hold hjob
  | @enter k' payload ends old heq =>
    rw [heq] at hjob
    by_cases hk : k = k'
    · subst hk
      rw [update_self] at hjob
      cases hjob
      exact ⟨rfl, _, hself, rfl⟩
    grind
  | @delete k' payload ends err heq | @cleanup k' job' st st' hid heq =>
    rw [heq] at hjob
    grind

theorem Step.inside_le (h : Step p i choice t o) (k : κ) :
    inside k o.thread ≤ inside k t ∨
      ∃ payload ends, t = .submit (some k) payload ends .selecting := by
  cases h with
  | @submit key payload ends st p' st' started h =>
    by_cases hkey : key = some k
    · subst hkey
      cases h with
      | found | absent => exact .inr ⟨_, _, rfl⟩
      | _ => exact .inl (by simp [inside, Submit.inside])
    · left
      simp [inside, hkey]
  | _ => exact .inl le_rfl

section

variable (h : Mapped c)

include h

theorem Mapped.single_advance (hok : StaysSeparate c t)
    (ht : c.threads[i]? = some t) (hstep : Step c.shared i choice t o) (k : κ) :
    (c.advance i o).total (inside k) ≤ 1 := by
  have htotal := total_advance (w := inside k) (o := o) ht
  have hzero : (o.started.map (inside k)).sum = 0 := by
    rw [List.sum_eq_zero_iff]
    intro x hx
    obtain ⟨u, hu, rfl⟩ := List.mem_map.mp hx
    obtain ⟨job, st, rfl⟩ := hstep.started_cleanup u hu
    rfl
  have hmax := h.single k
  have hone : inside k o.thread ≤ 1 := by cases o.thread <;> grind [inside]
  rcases hstep.inside_le k with hle | ⟨payload, ends, rfl⟩
  · omega
  · have hnone : c.total (inside k) = 0 := hok k rfl
    omega

theorem Mapped.eq_of_inside {j' : ℕ} {payload' : τ} {ends' : Bool}
    {st' : Submit κ τ} (hj : c.threads[j]? = some (.submit (some k) payload ends st))
    (hj' : c.threads[j']? = some (.submit (some k) payload' ends' st')) (hst : st.inside = true)
    (hst' : st'.inside = true) : j = j' := by
  by_contra hne
  have htwo : inside k (.submit (some k) payload ends st : Thread κ τ ρ) +
      inside k (.submit (some k) payload' ends' st' : Thread κ τ ρ) ≤
        c.total (inside k) := add_le_total hne hj hj'
  grind [single, inside]

theorem Mapped.returned_of_found {old : Job κ τ}
    (hold : c.shared.coalesceMap k = some old) (hnone : c.total (inside k) = 0) :
    old.key = some k ∧ ∃ err, c.threads[old.id]? =
        some (.submit old.key old.payload old.ends (.returned err)) := by
  obtain ⟨hkey, st, hst, hentered⟩ := h.entry k old hold
  refine ⟨hkey, ?_⟩
  have hle : inside k _ ≤ c.total (inside k) := Config.le_total hst
  cases st with
  | returned err => exact ⟨err, hst⟩
  | sending | deleting => grind [inside, Submit.inside]
  | _ => cases hentered

theorem Mapped.old_advance (hok : StaysSeparate c t) (ht : c.threads[i]? = some t)
    (hstep : Step c.shared i choice t o) {key : Option κ} {old : Job κ τ}
    (hj : (c.advance i o).threads[j]? = some (.submit key payload ends st))
    (hold : st.old = some old) : old.key = key ∧ ∃ err, (c.advance i o).threads[old.id]? =
        some (.submit old.key old.payload old.ends (.returned err)) := by
  have hstays : ∀ {err}, c.threads[old.id]? =
      some (.submit old.key old.payload old.ends (.returned err)) →
        (c.advance i o).threads[old.id]? =
          some (.submit old.key old.payload old.ends (.returned err)) :=
    hstep.returned_stays ht
  suffices old.key = key ∧ ∃ err, c.threads[old.id]? =
      some (.submit old.key old.payload old.ends (.returned err)) by
    grind
  rcases hstep.getElem?_advance hj (by simp) with ⟨rfl, ho⟩ | ⟨-, hj⟩
  · cases hstep with
    | submit hstep =>
      cases ho
      cases hstep with
      | @found k _ _ hkey hfound _ =>
        cases hkey
        cases hold
        exact h.returned_of_found hfound (hok k rfl)
      | supersede | cancel | enter => exact h.old j key payload ends _ old ht hold
      | _ => cases hold
    | _ => cases ho
  · exact h.old j key payload ends st old hj hold

theorem Mapped.map_eq (ht : c.threads[i]? = some t)
    (hstep : Step c.shared i choice t o) (hji : j ≠ i)
    (hj : c.threads[j]? = some (.submit (some k) payload ends st)) (hst : st.inside = true) :
    o.shared.coalesceMap k = c.shared.coalesceMap k ∨ o.shared.coalesceMap k = none ∧
        (c.shared.coalesceMap k).map Job.id ≠ some j := by
  generalize ho : o.thread = t'
  have hmap := hstep.mapStep
  rw [ho] at hmap
  cases hmap with
  | same heq => exact .inl (by rw [heq])
  | @enter k' payload' ends' old heq | @delete k' payload' ends' err heq =>
    left
    rw [heq, update_of_ne]
    rintro rfl
    exact hji (h.eq_of_inside hj ht hst rfl)
  | @cleanup k' job st' _ hid heq =>
    by_cases hk : k = k'
    · subst hk
      right
      rw [heq, update_self, hid]
      refine ⟨rfl, ?_⟩
      intro hself
      rw [← Option.some.inj hself, h.cleanups i job st' ht] at hj
      simp only [Option.some.injEq, Thread.submit.injEq] at hj
      rw [← hj.2.2.2] at hst
      cases hst
    · left
      rw [heq, update_of_ne hk]

theorem Mapped.advance (hok : StaysSeparate c t) (hopen : c.shared.closed = false)
    (ht : c.threads[i]? = some t) (hstep : Step c.shared i choice t o) :
    Mapped (c.advance i o) := by
  refine ⟨fun _ _ => h.entry_advance hopen ht hstep, h.single_advance hok ht hstep,
    fun _ _ _ _ _ _ => h.old_advance hok ht hstep, ?_, ?_, ?_⟩
  · intro j k payload ends hj
    rcases hstep.getElem?_advance hj (by simp) with ⟨rfl, ho⟩ | ⟨hji, hj⟩
    · cases hstep with
      | submit hstep =>
        cases ho
        cases hstep with
        | absent _ hkey hnone =>
          cases hkey
          exact hnone
      | _ => cases ho
    · rcases h.map_eq ht hstep hji hj rfl with heq | ⟨heq, -⟩
      · exact heq.trans (h.absent j k payload ends hj)
      · exact heq
  · intro j k payload ends st hj hinside hentered
    rcases hstep.getElem?_advance hj (by simp) with ⟨rfl, ho⟩ | ⟨hji, hj⟩
    · cases hstep with
      | submit hstep =>
        cases ho
        cases hstep with
        | enter hkey =>
          cases hkey
          exact update_self ..
        | keyedFull => exact h.own j k payload ends _ ht rfl rfl
        | panic | pass | overflow | found | absent | supersede | cancel => cases hentered
        | _ => cases hinside
      | _ => cases ho
    · have hown := h.own j k payload ends st hj hinside hentered
      rcases h.map_eq ht hstep hji hj hinside with heq | ⟨-, hne⟩
      · exact heq.trans hown
      · rw [hown] at hne
        exact absurd rfl hne
  · intro j job st hj
    have hself := getElem?_advance_self (o := o) ht
    have hkeep : c.threads[job.id]? = some (.submit job.key job.payload job.ends (.returned none)) →
          (c.advance i o).threads[job.id]? =
            some (.submit job.key job.payload job.ends (.returned none)) :=
      hstep.returned_stays ht
    rcases getElem?_advance hj with
      ⟨rfl, ho⟩ | ⟨-, hj⟩ | ⟨-, hstarted⟩
    · cases hstep <;> grind [cleanups]
    · exact hkeep (h.cleanups j job st hj)
    · cases hstep with
      | submit hstep =>
        cases hstep with
        | sendKeyed =>
          cases List.mem_singleton.mp hstarted
          exact hself
        | _ => cases hstarted
      | _ => cases hstarted

end

end Pool

end Fluxor.Compute
