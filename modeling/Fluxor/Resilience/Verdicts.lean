import Fluxor.Resilience.Ownership

/-!
# One verdict per call

What the functions of the calls have done follows the goroutine that has the call:
the function of a refused call is never called, and the function of a call that
returns its result was called once. Only the goroutine that has a call can change
this (`Owned.sole`).
-/

namespace Fluxor.Resilience.Bulkhead

open Goroutines Transition List Option Manager Config

variable {ε : Type*} {cfg : Settings} {m m' : Manager ε} {i : ℕ}
  {choice : Choice ε} {t : Thread ε} {o : Outcome (Manager ε) (Thread ε)}
  {c : Config (Manager ε) (Thread ε)}

def Manager.events (m : Manager ε) (j : ℕ) : List (Event ε) :=
  m.history.filter fun event => event.caller = j

def Work.events (j : ℕ) : Work ε → List (Event ε)
  | .accepting => []
  | .running => [.began j]
  | .sending err | .releasing err | .returned err => [.began j, .ended j err]

/-- What has happened to the function of a call that returns the verdict. -/
def Verdict.events (j : ℕ) : Verdict ε → List (Event ε)
  | .ran err => [.began j, .ended j err]
  | .refused _ => []

def Told (m : Manager ε) (i : ℕ) : Thread ε → Prop
  | .call _ .waiting => True
  | .call _ (.executing work) => m.events i = work.events i
  | .call _ (.returned v) => m.events i = v.events i
  | .call _ _ => m.events i = []
  | .processor st => ∀ j ∈ st.caller, m.events j = []
  | .runner j work => work.owns = true → m.events j = work.events j
  | .stop _ | .expire _ _ _ => True

structure Faithful (c : Config (Manager ε) (Thread ε)) : Prop where
  told : c.All Told
  queued : ∀ j ∈ c.shared.queue, c.shared.events j = []
  answered : ∀ {j v}, c.shared.results j = some v → c.shared.events j = v.events j
  fresh : ∀ j, c.threads.length ≤ j → c.shared.events j = []

variable {caller j : ℕ}

theorem WorkStep.events_of_ne {channel : Bool} {work work' : Work ε}
    (h : WorkStep m caller channel work m' work') (hj : j ≠ caller) : m'.events j = m.events j := by
  cases h with
  | accept | finish => simp [events, filter_append, Event.caller, Ne.symm hj]
  | send | release => rfl

theorem WorkStep.events {channel : Bool} {work work' : Work ε}
    (h : WorkStep m caller channel work m' work') (hm : m.events caller = work.events caller) :
    m'.events caller = work'.events caller := by
  cases h with
  | accept =>
    have hnone : m.events caller = [] := hm
    rw [events] at hnone ⊢
    rw [filter_append, hnone]
    simp [Event.caller, Work.events]
  | finish =>
    have hbegan : m.events caller = [.began caller] := hm
    rw [events] at hbegan ⊢
    rw [filter_append, hbegan]
    cases channel <;> simp [Event.caller, Work.events]
  | send | release => exact hm

theorem CallStep.events_of_ne {st st' : Call ε} (h : CallStep cfg m i choice st m' st')
    (hj : j ≠ i) : m'.events j = m.events j := by
  cases h with
  | work h => exact h.events_of_ne hj
  | _ => rfl

theorem ProcessorStep.history_eq {st st' : Processor} {started : List (Thread ε)}
    (h : ProcessorStep cfg m choice st m' st' started) : m'.history = m.history := by
  cases h <;> rfl

theorem Step.events_cases (h : Step cfg m i choice t o) (j : ℕ) :
    o.shared.events j = m.events j ∨ (j = i ∧ ∃ args work, t = .call args (.executing work)) ∨
      t = .runner j .accepting ∨ t = .runner j .running := by
  cases h with
  | @call args st m' st' h =>
    by_cases hj : j = i
    · cases h with
      | work => exact .inr (.inl ⟨hj, args, _, rfl⟩)
      | _ => exact .inl rfl
    · exact .inl (h.events_of_ne hj)
  | processor h =>
    left
    rw [events, h.history_eq]
    rfl
  | @runner caller work m' work' h =>
    by_cases hj : j = caller
    · subst hj
      cases h with
      | accept => exact .inr (.inr (.inl rfl))
      | finish => exact .inr (.inr (.inr rfl))
      | send | release => exact .inl rfl
    · exact .inl (h.events_of_ne hj)
  | stop h => cases h <;> exact .inl rfl
  | expire => exact .inl rfl

/-- Nothing and nobody else has the call that goroutine `i` executes. -/
structure Sole (c : Config (Manager ε) (Thread ε)) (i j : ℕ) : Prop where
  queue : j ∉ c.shared.queue
  results : c.shared.results j = none
  owns : ∀ k u, k ≠ i → c.threads[k]? = some u → owns j u = 0
  self : j ≠ i → ∃ args, c.threads[j]? = some (.call args .waiting)

theorem Owned.sole (h : Owned cfg c) (ht : c.threads[i]? = some t)
    (htouched : (j = i ∧ ∃ args work, t = .call args (.executing work)) ∨
      t = .runner j .accepting ∨ t = .runner j .running) : Sole c i j := by
  have hsum := h.owned j
  have hle := waits_le_one c.threads[j]?
  rcases htouched with ⟨rfl, args, work, rfl⟩ | hrunner
  · rw [ht] at hsum
    change _ = 0 at hsum
    refine ⟨?_, ?_, ?_, fun hne => absurd rfl hne⟩
    · exact count_eq_zero.mp (by omega)
    · simpa using (by omega : (c.shared.results j).toList.length = 0)
    · intro k u _ hu
      have : owns j u ≤ c.total (owns j) := le_total hu
      omega
  · have hone : owns j t = 1 := by rcases hrunner with rfl | rfl <;> simp [owns, Work.owns]
    have hthis : owns j t ≤ c.total (owns j) := le_total ht
    refine ⟨?_, ?_, ?_, ?_⟩
    · exact count_eq_zero.mp (by omega)
    · simpa using (by omega : (c.shared.results j).toList.length = 0)
    · intro k u hk hu
      have : owns j u + owns j t ≤ c.total (owns j) := add_le_total hk hu ht
      omega
    · intro _
      exact exists_of_waits (by omega)

theorem Step.mem_queue (h : Step cfg m i choice t o) (hj : j ∈ o.shared.queue) :
    j ∈ m.queue ∨ j = i ∧ ∃ args, t = .call args .queueing := by
  cases h with
  | @call args _ _ _ h =>
    cases h with
    | enqueue =>
      rcases mem_append.mp hj with hj | hj
      · exact .inl hj
      · exact .inr ⟨mem_singleton.mp hj, args, rfl⟩
    | work h =>
      rw [h.flags.2.2] at hj
      exact .inl hj
    | _ => exact .inl hj
  | processor h =>
    cases h with
    | receive _ hcons =>
      left
      rw [hcons]
      exact mem_cons_of_mem _ hj
    | _ => exact .inl hj
  | runner h =>
    rw [h.flags.2.2] at hj
    exact .inl hj
  | stop h => cases h <;> exact .inl hj
  | expire => exact .inl hj

theorem results_answer {v v' : Verdict ε} (h : (m.answer caller v).results j = some v') :
    m.results j = some v' ∨ j = caller ∧ v' = v := by
  by_cases hj : j = caller
  · subst hj
    simp only [answer, Function.update_self] at h
    rcases or_eq_some_iff.mp h with hold | ⟨-, hnew⟩
    · exact .inl hold
    · exact .inr ⟨rfl, (some.inj hnew).symm⟩
  · simp only [answer, Function.update_of_ne hj] at h
    exact .inl h

theorem Step.results_cases (h : Step cfg m i choice t o) (ht : Regular cfg m i t) {v : Verdict ε}
    (hv : o.shared.results j = some v) : m.results j = some v ∨
      (∃ e stop, t = .processor (.answering j e stop) ∧ v = .refused e) ∨
      ∃ err, t = .runner j (.sending err) ∧ v = .ran err := by
  cases h with
  | call h =>
    cases h with
    | work h =>
      cases h with
      | send => exact ht.elim
      | _ => exact .inl hv
    | receive =>
      by_cases hj : j = i
      · subst hj
        simp at hv
      · simp only [Function.update_of_ne hj] at hv
        exact .inl hv
    | _ => exact .inl hv
  | processor h =>
    cases h with
    | answer =>
      rcases results_answer hv with hv | ⟨rfl, rfl⟩
      · exact .inl hv
      · exact .inr (.inl ⟨_, _, rfl, rfl⟩)
    | _ => exact .inl hv
  | runner h =>
    cases h with
    | send =>
      rcases results_answer hv with hv | ⟨rfl, rfl⟩
      · exact .inl hv
      · exact .inr (.inr ⟨_, rfl, rfl⟩)
    | _ => exact .inl hv
  | stop h => cases h <;> exact .inl hv
  | expire => exact .inl hv

theorem Step.told (h : Step cfg c.shared i choice t o) (hregular : Regular cfg c.shared i t)
    (hc : Faithful c) (ht : Told c.shared i t) : Told o.shared i o.thread := by
  cases h with
  | call h =>
    cases h with
    | work h =>
      have hevents := h.events ht
      cases h <;> exact hevents
    | receive hv => exact hc.answered hv
    | cancel hended => exact absurd hregular.2 hended
    | enqueue => trivial
    | _ => exact ht
  | processor h =>
    intro j hj
    cases h with
    | receive _ hcons =>
      cases hj
      refine hc.queued _ ?_
      rw [hcons]
      exact mem_cons_self
    | @answer caller e stop => cases stop <;> cases hj
    | reject | halt | rejected => exact ht j hj
    | _ => cases hj
  | runner h =>
    intro howns
    have hevents := h.events
    cases h with
    | accept | finish => exact hevents (ht rfl)
    | send | release => cases howns
  | stop | expire => trivial

theorem Faithful.advance (hc : Faithful c) (howned : Owned cfg c) (ht : c.threads[i]? = some t)
    (hstep : Step cfg c.shared i choice t o) : Faithful (c.advance i o) := by
  have hregular := howned.regular i t ht
  have hown := hstep.told hregular hc (hc.told i t ht)
  have hevents : ∀ j, o.shared.events j = c.shared.events j ∨ Sole c i j := by
    intro j
    rcases hstep.events_cases j with hsame | htouched
    · exact .inl hsame
    · exact .inr (howned.sole ht htouched)
  refine ⟨hc.told.advance hown ?_ ?_, ?_, ?_, ?_⟩
  · intro k u hk hu htold
    cases u with
    | call args st =>
      rcases hevents k with hsame | hsole
      · cases st with
        | waiting => trivial
        | _ => exact hsame.trans htold
      · obtain ⟨args', hwaiting⟩ := hsole.self hk
        obtain heq := some.inj (hu.symm.trans hwaiting)
        cases heq
        trivial
    | processor =>
      intro j hj
      rcases hevents j with hsame | hsole
      · exact hsame.trans (htold j hj)
      · have hzero := hsole.owns k _ hk hu
        rw [owns, if_pos (mem_def.mp hj)] at hzero
        cases hzero
    | runner j =>
      intro hwork
      rcases hevents j with hsame | hsole
      · exact hsame.trans (htold hwork)
      · have hzero := hsole.owns k _ hk hu
        rw [owns, if_pos ⟨rfl, hwork⟩] at hzero
        cases hzero
    | stop | expire => trivial
  · intro k u _ hu
    obtain ⟨caller, rfl, rfl⟩ := hstep.started_runner u hu
    intro _
    rcases hstep.events_cases caller with hsame | ⟨-, _, _, heq⟩ | heq | heq
    · exact hsame.trans (hc.told i _ ht caller rfl)
    all_goals cases heq
  · intro j hj
    rcases hstep.mem_queue hj with hold | ⟨rfl, args, rfl⟩
    · rcases hevents j with hsame | hsole
      · exact hsame.trans (hc.queued j hold)
      · exact absurd hold hsole.queue
    · rcases hstep.events_cases j with hsame | ⟨-, _, _, heq⟩ | heq | heq
      · exact hsame.trans (hc.told j _ ht)
      all_goals cases heq
  · intro j v hv
    rcases hstep.results_cases hregular hv with
      hold | ⟨e, stop, rfl, rfl⟩ | ⟨err, rfl, rfl⟩
    · rcases hevents j with hsame | hsole
      · exact hsame.trans (hc.answered hold)
      · rw [hsole.results] at hold
        cases hold
    · rcases hstep.events_cases j with hsame | ⟨-, _, _, heq⟩ | heq | heq
      · exact hsame.trans (hc.told i _ ht j rfl)
      all_goals cases heq
    · rcases hstep.events_cases j with hsame | ⟨-, _, _, heq⟩ | heq | heq
      · exact hsame.trans (hc.told i _ ht rfl)
      all_goals cases heq
  · intro j hj
    have hlength : c.threads.length ≤ j := by
      refine le_trans ?_ hj
      simp [Config.advance]
    rcases hevents j with hsame | hsole
    · exact hsame.trans (hc.fresh j hlength)
    · have hi : i < c.threads.length := (List.getElem?_eq_some_iff.mp ht).1
      obtain ⟨args, hj⟩ := hsole.self (by omega)
      have := (List.getElem?_eq_some_iff.mp hj).1
      omega

theorem Faithful.spawn (hc : Faithful c) (ht : entry t = true) : Faithful (c.spawn t) := by
  refine ⟨hc.told.spawn ?_, hc.queued, hc.answered, fun j hj => ?_⟩
  · revert ht
    fun_cases entry t <;> intro ht
    case case1 => exact hc.fresh _ le_rfl
    case case2 | case3 => trivial
    case case4 => cases ht
  · refine hc.fresh j (le_trans ?_ hj)
    simp [Config.spawn]

theorem faithful_start (cfg : Settings) (ε : Type*) : Faithful (start cfg ε) := by
  by_cases hplaces : 0 < cfg.places
  · rw [start, if_pos hplaces]
    refine ⟨fun j u hu => ?_, fun _ _ => rfl, fun hv => ?_, fun _ _ => rfl⟩
    · obtain rfl := mem_singleton.mp (mem_of_getElem? hu)
      exact fun _ _ => rfl
    · cases hv
  · rw [start, if_neg hplaces]
    refine ⟨fun j u hu => ?_, fun _ _ => rfl, fun hv => ?_, fun _ _ => rfl⟩
    · cases hu
    · cases hv

theorem inv_of_run {acts : List (Move (Thread ε) (Choice ε))}
    (hrun : Run (code cfg ε).step Orderly (start cfg ε) acts c) : Owned cfg c ∧ Faithful c := by
  refine Code.run_invariant (I := fun c => Owned cfg c ∧ Faithful c) ?_ ?_ hrun
    ⟨owned_start cfg ε, faithful_start cfg ε⟩
  · intro c t hI _ hentry
    exact ⟨hI.1.spawn hentry, hI.2.spawn hentry⟩
  · intro c i b t o hI hok ht ho
    have hstep := step_of_next ho
    exact ⟨hI.1.advance ht (hok t ht) hstep, hI.2.advance hI.1 ht hstep⟩

def inProgress : Thread ε → Bool
  | .call _ (.returned _) => false
  | .call _ _ => true
  | _ => false

theorem Owned.totals_of_rest (h : Owned cfg c) (hrest : ∀ t ∈ c.threads, inProgress t = false) :
    c.shared.totalExecutions = c.shared.totalAccepted + c.shared.totalRejected := by
  have hwaits : ∀ j : ℕ, waits c.threads[j]? = 0 := by
    intro j
    by_contra hne
    obtain ⟨args, hj⟩ := exists_of_waits (Nat.pos_of_ne_zero hne)
    have := hrest _ (mem_of_getElem? hj)
    cases this
  have hqueue : c.shared.queue = [] := by
    refine eq_nil_iff_forall_not_mem.mpr fun j hj => ?_
    have hsum := h.owned j
    rw [hwaits j] at hsum
    have := count_pos_iff.mpr hj
    omega
  have hundecided : c.total undecided = 0 := by
    by_contra hne
    obtain ⟨i, t, ht, hcounts⟩ := exists_of_total_ne_zero hne
    have hnone : ∀ j, owns j t = 0 := by
      intro j
      have hle : owns j t ≤ c.total (owns j) := le_total ht
      have := h.owned j
      rw [hwaits j] at this
      omega
    have hdone := hrest t (mem_of_getElem? ht)
    cases t with
    | call args st =>
      cases st with
      | returned => exact hcounts rfl
      | _ => cases hdone
    | processor st =>
      cases hst : st.caller with
      | some j =>
        have := hnone j
        simp [owns, hst] at this
      | none =>
        cases st with
        | selecting | closing | returned => exact hcounts rfl
        | _ => cases hst
    | runner j work =>
      cases work with
      | accepting =>
        have := hnone j
        simp [owns, Work.owns] at this
      | _ => exact hcounts rfl
    | stop | expire => exact hcounts rfl
  have htotals := h.totals
  rwa [hqueue, hundecided] at htotals

end Fluxor.Resilience.Bulkhead
