import Fluxor.Support.Fairness
import Fluxor.Resilience.Verdicts

/-!
# Every call returns

A goroutine that has a slot of the semaphore releases it, since the functions
return; so the processor, if it waits for a slot, takes one in the end. It therefore
serves the queue, and every call of `Execute` returns with one verdict
(`one_verdict`).

Schedules that are not orderly break this: the function of a call runs after the
call has been cancelled, and a call waits for ever that `Stop` leaves in the queue,
or that is queued after it.
-/

namespace Fluxor.Resilience.Bulkhead

open Goroutines Config Transition List Option Manager Execution Code Nat Bool Work

variable {ε : Type*} {cfg : Settings} {m m' : Manager ε} {i : ℕ}
  {choice : Choice ε} {t : Thread ε} {o : Outcome (Manager ε) (Thread ε)}
  {c : Config (Manager ε) (Thread ε)}

/-! ## The goroutines that can move -/

def Work.steps : Work ε → ℕ
  | .accepting => 4
  | .running => 3
  | .sending _ => 2
  | .releasing _ => 1
  | .returned _ => 0

variable {work : Work ε}

theorem workNext_isSome (m : Manager ε) (caller : ℕ) (channel : Bool) (hwork : work.steps ≠ 0)
    (hslot : m.semaphore ≠ 0) :
    ∃ choice, (m.workNext caller channel work choice).isSome = true := by
  cases work with
  | accepting | sending => exact ⟨.go, rfl⟩
  | running => exact ⟨.returns none, rfl⟩
  | releasing =>
    refine ⟨.go, ?_⟩
    rw [workNext, if_neg hslot]
    rfl
  | returned => exact absurd rfl hwork

theorem WorkStep.steps_lt {caller : ℕ} {channel : Bool} {work' : Work ε}
    (h : WorkStep m caller channel work m' work') : work'.steps < work.steps := by
  cases h <;> grind [steps]

section

variable (h : Owned cfg c)

include h

theorem Owned.semaphore_ne_zero (ht : c.threads[i]? = some t)
    (hholds : holds t ≠ 0) : c.shared.semaphore ≠ 0 := by
  grind [Config.le_total, semaphore]

theorem runner_enabled {j : ℕ} (ht : c.threads[i]? = some (.runner j work))
    (hwork : work.steps ≠ 0) : (code cfg ε).Enabled c i := by
  have hslot := h.semaphore_ne_zero ht (by
    cases work with
    | returned => exact absurd rfl hwork
    | _ => simp [holds])
  obtain ⟨choice, hnext⟩ := workNext_isSome c.shared j true hwork hslot
  refine enabled_of_next (b := choice) ht ?_
  change ((c.shared.workNext j true work choice).map _).isSome = _
  rwa [isSome_map]

def Call.steps : Call ε → ℕ
  | .called => 8
  | .choosing => 7
  | .queueing => 6
  | .executing work => work.steps + 1
  | .rejecting _ => 1
  | .waiting | .returned _ => 0

variable {st : Call ε}

theorem callNext_isSome {args : Args}
    (ht : c.threads[i]? = some (.call args st)) (hst : st.steps ≠ 0) :
    ∃ choice, (c.shared.callNext cfg i args st choice).isSome = true := by
  cases st with
  | called =>
    refine ⟨.go, ?_⟩
    cases args <;> rfl
  | choosing =>
    by_cases hslot : c.shared.semaphore < cfg.slots
    · refine ⟨.acquire, ?_⟩
      simp [callNext, hslot]
    · cases hended : c.shared.ended i with
      | some =>
        refine ⟨.done, ?_⟩
        simp [callNext, hended]
      | none =>
        refine ⟨.default, ?_⟩
        grind [callNext]
  | queueing =>
    by_cases hplace : c.shared.queue.length < cfg.places
    · refine ⟨.send, ?_⟩
      simp [callNext, hplace]
    · refine ⟨.default, ?_⟩
      simp [callNext, hplace]
  | executing work =>
    have hregular := h.regular i _ ht
    have hwork : work.steps ≠ 0 := by
      cases work with
      | returned => exact hregular.elim
      | _ => simp [steps]
    have hslot := h.semaphore_ne_zero ht (by
      cases work with
      | returned => exact hregular.elim
      | _ => simp [holds])
    obtain ⟨choice, hnext⟩ := workNext_isSome c.shared i false hwork hslot
    refine ⟨choice, ?_⟩
    grind [callNext]
  | rejecting => exact ⟨.go, rfl⟩
  | waiting | returned => exact absurd rfl hst

theorem call_enabled {args : Args} (ht : c.threads[i]? = some (.call args st))
    (hst : st.steps ≠ 0) : (code cfg ε).Enabled c i := by
  obtain ⟨choice, hnext⟩ := callNext_isSome h ht hst
  refine enabled_of_next (b := choice) ht ?_
  change ((c.shared.callNext cfg i args st choice).map _).isSome = _
  rwa [isSome_map]

end

theorem CallStep.steps_lt {st' : Call ε} (h : CallStep cfg m i choice st m' st')
    (hst : st.steps ≠ 0) : st'.steps < st.steps := by
  cases h with
  | @work work m' work' h =>
    have hless := h.steps_lt
    have hle : (afterWork work').steps ≤ work'.steps + 1 := by
      cases work' with
      | returned => exact zero_le _
      | _ => exact le_rfl
    exact hle.trans_lt (succ_lt_succ hless)
  | receive | cancel => exact absurd rfl hst
  | _ => simp [Call.steps, steps]

theorem isSome_answer (m : Manager ε) (caller : ℕ) (v : Verdict ε) :
    ((m.answer caller v).results caller).isSome = true := by
  simp [answer]

theorem isSome_answer_of_isSome {caller : ℕ} {v : Verdict ε} {j : ℕ}
    (h : (m.results j).isSome = true) : ((m.answer caller v).results j).isSome = true := by
  by_cases hj : j = caller
  · rw [hj]
    exact isSome_answer m caller v
  · simp only [answer, Function.update_of_ne hj]
    exact h

theorem Step.results_isSome (h : Step cfg m i choice t o) {j : ℕ}
    (hj : (m.results j).isSome = true) (hji : j ≠ i) : (o.shared.results j).isSome = true := by
  cases h with
  | call h =>
    cases h with
    | receive => grind
    | work h => cases h <;> grind [isSome_answer_of_isSome]
    | _ => exact hj
  | processor h | runner h => cases h <;> grind [isSome_answer_of_isSome]
  | stop h => cases h <;> exact hj
  | expire => exact hj

section Executions

variable {e : Execution (code cfg ε) Orderly (start cfg ε)} {n j : ℕ}

theorem owned_at (e : Execution (code cfg ε) Orderly (start cfg ε)) (n : ℕ) :
    Owned cfg (e.config n) := by
  obtain ⟨acts, hrun⟩ := e.exists_run n
  exact (inv_of_run hrun).1

/-! ## Calls that do not wait -/

variable {args : Args}

def callSteps : Thread ε → ℕ
  | .call _ st => st.steps
  | _ => 0

theorem eventually_settled (hfair : e.Fair) {st : Call ε}
    (ht : (e.config n).threads[i]? = some (.call args st)) :
    ∃ m st, n ≤ m ∧ (e.config m).threads[i]? = some (.call args st) ∧
      (st = .waiting ∨ ∃ v, st = .returned v) := by
  obtain ⟨m, u, hm, hu, ⟨st, rfl⟩, hdone⟩ := eventually_done hfair
    (fun u => ∃ st, u = .call args st)
    (fun u => ∀ st, u = .call args st → st.steps = 0)
    callSteps ht ⟨st, rfl⟩ (by grind [call_enabled, owned_at]) (by
      rintro m u b o - - hu ⟨st, rfl⟩ hnot ho
      cases step_of_next ho with
      | @call _ _ _ st' h =>
        refine ⟨⟨st', rfl⟩, .inr (h.steps_lt fun hzero => hnot ?_)⟩
        grind)
  refine ⟨m, st, hm, hu, ?_⟩
  have hzero := hdone st rfl
  cases st <;> grind [Call.steps]

theorem eventually_returned (hfair : e.Fair)
    (ht : (e.config n).threads[j]? = some (.call args .waiting))
    (hresult : ((e.config n).shared.results j).isSome = true) :
    ∃ m v, n ≤ m ∧ (e.config m).threads[j]? = some (.call args (.returned v)) := by
  obtain ⟨m, b, hm, ⟨ht, hresult⟩, hmove⟩ := eventually_moves hfair
    (P := fun c => c.threads[j]? = some (.call args .waiting) ∧
      (c.shared.results j).isSome = true) (i := j) ⟨ht, hresult⟩ (by
        rintro m - ⟨ht, hresult⟩
        refine enabled_of_next (b := .receive) ht ?_
        change (((e.config m).shared.callNext cfg j args .waiting .receive).map _).isSome = _
        grind [callNext]) (by
        rintro m mv - ⟨ht, hresult⟩ hmove hother
        refine ⟨getElem?_succ_of_ne hmove hother ht, ?_⟩
        rcases step_cases (e.next hmove) with
          ⟨u, rfl, -, hc⟩ | ⟨i, b, u, o, rfl, -, ho, hc⟩
        · rwa [hc]
        · rw [hc]
          refine (step_of_next ho).results_isSome hresult ?_
          rintro rfl
          exact hother b rfl)
  obtain ⟨o, ho, hc⟩ := exists_next hmove ht
  have hnext : (e.config (m + 1)).threads[j]? = some o.thread := by
    rw [hc]
    exact getElem?_advance_self ht
  have hregular := (owned_at e m).regular j _ ht
  cases step_of_next ho with
  | call h =>
    cases h with
    | receive => exact ⟨m + 1, _, by omega, hnext⟩
    | cancel hended => exact absurd hregular.2 hended

/-! ## Calls that wait -/

def answers (j : ℕ) : Thread ε → Bool
  | .runner caller work => caller = j && work.owns
  | .processor (.rejecting caller _ _) | .processor (.answering caller _ _) => caller = j
  | _ => false

def answerSteps : Thread ε → ℕ
  | .runner _ work => work.steps
  | .processor (.rejecting _ _ _) => 1
  | _ => 0

theorem Step.answers (h : Step cfg m i choice t o) (ht : answers j t = true) :
    (o.shared.results j).isSome = true ∨
      answers j o.thread = true ∧ answerSteps o.thread < answerSteps t := by
  cases h with
  | call | stop | expire => cases ht
  | processor h =>
    cases h with
    | rejected => exact .inr ⟨ht, zero_lt_one⟩
    | answer =>
      obtain rfl := of_decide_eq_true ht
      exact .inl (isSome_answer m _ _)
    | _ => cases ht
  | runner h =>
    have hless := h.steps_lt
    obtain ⟨hj, howns⟩ := and_eq_true_iff.mp ht
    cases h with
    | send => grind [isSome_answer]
    | accept | finish => exact .inr ⟨and_eq_true_iff.mpr ⟨hj, rfl⟩, hless⟩
    | release => cases howns

theorem answers_of_owns (h : owns j t ≠ 0) (hheld : t ≠ .processor (.holding j)) :
    answers j t = true := by
  cases t with
  | processor st =>
    have hj : st.caller = some j := by
      by_contra hne
      exact h (if_neg hne)
    cases st with
    | holding =>
      cases hj
      exact absurd rfl hheld
    | rejecting | answering => exact decide_eq_true (some.inj hj)
    | _ => cases hj
  | runner =>
    by_contra hnot
    refine h (if_neg fun hand => hnot ?_)
    exact and_eq_true_iff.mpr ⟨decide_eq_true hand.1, hand.2⟩
  | _ => exact absurd rfl h

theorem answers_enabled (h : Owned cfg c) (ht : c.threads[i]? = some t) (hj : answers j t = true) :
    (code cfg ε).Enabled c i := by
  cases t with
  | runner caller work =>
    refine runner_enabled h ht ?_
    have howns := (and_eq_true_iff.mp hj).2
    cases work with
    | releasing | returned => cases howns
    | _ => simp [steps]
  | processor st =>
    cases st with
    | rejecting | answering => exact enabled_of_next (b := .go) ht rfl
    | _ => cases hj
  | _ => cases hj

theorem eventually_answered (hfair : e.Fair) (ht : (e.config n).threads[i]? = some t)
    (hj : answers j t = true) : ∃ m, n ≤ m ∧ ((e.config m).shared.results j).isSome = true := by
  exact eventually_shared hfair (fun u => answers j u = true)
    (Q := fun m => (m.results j).isSome = true) answerSteps ht hj
    (fun m u _ hu hj => answers_enabled (owned_at e m) hu hj)
    (fun m u b o _ hj ho => (step_of_next ho).answers hj)

/-! ## The slots -/

def heldSteps : Thread ε → ℕ
  | .call _ (.executing work) | .runner _ work => work.steps
  | _ => 0

theorem Step.releases (h : Step cfg m i choice t o) (ht : holds t ≠ 0) :
    o.shared.semaphore < m.semaphore ∨ holds o.thread ≠ 0 ∧ heldSteps o.thread < heldSteps t := by
  cases h with
  | call h =>
    cases h with
    | work h =>
      have hless := h.steps_lt
      cases h with
      | release hne => exact .inl (sub_one_lt hne)
      | _ => exact .inr ⟨one_ne_zero, hless⟩
    | _ => exact absurd rfl ht
  | runner h =>
    have hless := h.steps_lt
    cases h with
    | release hne => exact .inl (sub_one_lt hne)
    | _ => exact .inr ⟨one_ne_zero, hless⟩
  | _ => exact absurd rfl ht

theorem holder_enabled (h : Owned cfg c) (ht : c.threads[i]? = some t) (hholds : holds t ≠ 0) :
    (code cfg ε).Enabled c i := by
  cases t with
  | call args st =>
    cases st with
    | executing => exact call_enabled h ht (succ_ne_zero _)
    | _ => exact absurd rfl hholds
  | runner caller work =>
    refine runner_enabled h ht ?_
    cases work with
    | returned => exact absurd rfl hholds
    | _ => simp [steps]
  | _ => exact absurd rfl hholds

theorem eventually_free (hfair : e.Fair) (n : ℕ) :
    ∃ m, n ≤ m ∧ (e.config m).shared.semaphore < cfg.slots := by
  by_contra hnever
  have hholds : (e.config n).total holds ≠ 0 := by
    grind [Settings.slots_pos, Owned.semaphore, owned_at]
  obtain ⟨i, t, ht, hholds⟩ := exists_of_total_ne_zero hholds
  refine hnever (eventually_shared hfair (fun u => holds u ≠ 0)
    (Q := fun m => m.semaphore < cfg.slots) heldSteps ht hholds
    (fun m u _ hu hholds => holder_enabled (owned_at e m) hu hholds) ?_)
  intro m u b o hu hholds ho
  rcases (step_of_next ho).releases hholds with hfree | hless
  · exact .inl (hfree.trans_le (owned_at e m).slots)
  · exact .inr hless

/-! ## The processor -/

section

variable (hfair : e.Fair) (hchoice : e.FairChoice 0 .acquire)
    (ht : (e.config n).threads[0]? = some (Thread.processor (.holding j)))

include hfair hchoice ht

theorem eventually_leaves : ∃ m, n ≤ m ∧ (((e.config m).threads[0]? = some (.processor .selecting) ∧
        ∃ k : ℕ, (e.config m).threads[k]? = some (.runner j .accepting)) ∨
      ∃ err stop, (e.config m).threads[0]? = some (.processor (.rejecting j err stop))) := by
  obtain ⟨m, b, hm, ht, hmove⟩ := eventually_moves_of_choice hchoice ht (by
      intro _ k _
      obtain ⟨m, hm, hfree⟩ := eventually_free hfair k
      refine ⟨m, hm, ?_⟩
      change (((e.config m).shared.processorNext cfg (.holding j) .acquire).map _).isSome = _
      grind [processorNext])
  obtain ⟨o, ho, hc⟩ := exists_next hmove ht
  refine ⟨m + 1, by omega, ?_⟩
  have hself := getElem?_advance_self (o := o) ht
  rw [hc, hself]
  cases step_of_next ho with
  | processor h =>
    cases h with
    | acquire =>
      refine .inl ⟨rfl, ?_⟩
      exact mem_iff_getElem?.mp (mem_append_right _ (mem_singleton.mpr rfl))
    | reject | halt => exact .inr ⟨_, _, rfl⟩

theorem eventually_answered_of_holding :
    ∃ m, n ≤ m ∧ ((e.config m).shared.results j).isSome = true := by
  obtain ⟨m, hm, ⟨-, k, hk⟩ | ⟨err, stop, hk⟩⟩ := eventually_leaves hfair hchoice ht
  · obtain ⟨m', hm', hresult⟩ := eventually_answered (j := j) hfair hk
      (by simp [answers, Work.owns])
    exact ⟨m', hm.trans hm', hresult⟩
  · obtain ⟨m', hm', hresult⟩ := eventually_answered (j := j) hfair hk (decide_eq_true rfl)
    exact ⟨m', hm.trans hm', hresult⟩

end

def rejects : Processor → Bool
  | .rejecting _ _ stop | .answering _ _ stop => !stop
  | _ => false

theorem eventually_answering (hfair : e.Fair) {st : Processor}
    (ht : (e.config n).threads[0]? = some (.processor st)) (hst : rejects st = true) :
    ∃ m, n ≤ m ∧ (e.config m).threads[0]? = some (.processor .selecting) := by
  obtain ⟨m, u, hm, hu, -, rfl⟩ := eventually_done hfair
    (fun u => ∃ st, u = .processor st ∧ (rejects st = true ∨ st = .selecting))
    (fun u => u = .processor .selecting)
    (fun u => match u with
      | .processor (.rejecting _ _ _) => 2
      | .processor (.answering _ _ _) => 1
      | _ => 0) ht ⟨st, rfl, .inl hst⟩ (by
        rintro m u - hu ⟨st, rfl, hst⟩ hnot
        refine enabled_of_next (b := .go) hu ?_
        cases st with
        | rejecting | answering => rfl
        | selecting => exact absurd rfl hnot
        | _ => rcases hst with hst | hst <;> cases hst) (by
        rintro m u b o - - hu ⟨st, rfl, hst⟩ hnot ho
        cases step_of_next ho with
        | processor h => cases h <;> grind [rejects])
  exact ⟨m, hm, hu⟩

theorem eventually_selecting (hfair : e.Fair) (hchoice : e.FairChoice 0 .acquire)
    (hopen : ∀ m, n ≤ m → (e.config m).shared.stopped = false) {st : Processor}
    (ht : (e.config n).threads[0]? = some (.processor st)) :
    ∃ m, n ≤ m ∧ (e.config m).threads[0]? = some (.processor .selecting) := by
  have hstops : ∀ {m st}, n ≤ m → (e.config m).threads[0]? = some (.processor st) →
        st.stops = false := by
    intro m st hm hst
    by_contra hstops
    have := ((owned_at e m).regular 0 _ hst).2 (by simpa using hstops)
    rw [hopen m hm] at this
    cases this
  cases st with
  | selecting => exact ⟨n, le_rfl, ht⟩
  | holding =>
    obtain ⟨m, hm, ⟨hselecting, -⟩ | ⟨err, stop, hst⟩⟩ := eventually_leaves hfair hchoice ht
    · exact ⟨m, hm, hselecting⟩
    · obtain rfl : stop = false := hstops hm hst
      obtain ⟨m', hm', h⟩ := eventually_answering hfair hst rfl
      exact ⟨m', hm.trans hm', h⟩
  | rejecting caller err stop | answering caller err stop =>
    obtain rfl : stop = false := hstops le_rfl ht
    exact eventually_answering hfair ht rfl
  | closing | returned => cases hstops le_rfl ht

/-! ## The queue -/

theorem Step.queue_cases (h : Step cfg m i choice t o) :
    o.shared.queue = m.queue ∨ (∃ k, o.shared.queue = m.queue ++ [k]) ∨
      ∃ k, m.queue = k :: o.shared.queue ∧ o.thread = .processor (.holding k) := by
  cases h with
  | call h =>
    cases h with
    | enqueue => exact .inr (.inl ⟨_, rfl⟩)
    | work h => exact .inl h.flags.2.2
    | _ => exact .inl rfl
  | processor h =>
    cases h with
    | receive _ hcons => exact .inr (.inr ⟨_, hcons, rfl⟩)
    | _ => exact .inl rfl
  | runner h => exact .inl h.flags.2.2
  | stop h => cases h <;> exact .inl rfl
  | expire => exact .inl rfl

/-- Call `j` is in the queue, behind at most `p` others. -/
def Queued (j p : ℕ) (queue : List ℕ) : Prop :=
  ∃ pre post, queue = pre ++ j :: post ∧ pre.length ≤ p

variable {p : ℕ}

theorem Queued.ne_nil {queue : List ℕ} (h : Queued j p queue) : queue ≠ [] := by
  obtain ⟨pre, post, rfl, -⟩ := h
  simp

theorem Queued.append {queue : List ℕ} (h : Queued j p queue) (rest : List ℕ) :
    Queued j p (queue ++ rest) := by
  obtain ⟨pre, post, rfl, hle⟩ := h
  exact ⟨pre, post ++ rest, by simp, hle⟩

theorem Queued.tail {k : ℕ} {rest : List ℕ} (h : Queued j p (k :: rest)) :
    k = j ∨ ∃ p', p = p' + 1 ∧ Queued j p' rest := by
  obtain ⟨pre, post, heq, hle⟩ := h
  cases pre with
  | nil => exact .inl (cons.inj heq).1
  | cons a pre =>
    rw [length_cons] at hle
    exact .inr ⟨p - 1, by omega, pre, post, (cons.inj heq).2, by omega⟩

theorem Owned.exists_waiting (h : Owned cfg c) (hj : j ∈ c.shared.queue) :
    ∃ args, c.threads[j]? = some (.call args .waiting) := by
  have hcount := count_pos_iff.mpr hj
  have hsum := h.owned j
  exact exists_of_waits (by omega)

section

variable (hfair : e.Fair) (hchoice : e.FairChoice 0 .acquire)

include hfair hchoice

theorem eventually_receives (hqueue : ∀ m, n ≤ m → (e.config m).shared.queue ≠ []) :
    ∃ m k, n ≤ m ∧ (e.config m).shared.queue = k :: (e.config (m + 1)).shared.queue ∧
      (e.config (m + 1)).threads[0]? = some (.processor (.holding k)) := by
  have hopen : ∀ m, n ≤ m → (e.config m).shared.stopped = false := by
    grind [Owned.stopped, owned_at]
  have hplaces : 0 < cfg.places := by
    obtain ⟨k, hk⟩ := exists_mem_of_ne_nil _ (hqueue n le_rfl)
    obtain ⟨args, hwaiting⟩ := (owned_at e n).exists_waiting hk
    exact ((owned_at e n).regular k _ hwaiting).1
  obtain ⟨st, hst⟩ := (owned_at e n).processor hplaces
  obtain ⟨m, hm, ht⟩ := eventually_selecting hfair hchoice hopen hst
  obtain ⟨m', b, o, hm', ht, -, ho, hc⟩ := eventually_steps hfair ht (by
      intro m' hm' ht
      refine enabled_of_next (b := .receive) ht ?_
      change (((e.config m').shared.processorNext cfg .selecting .receive).map _).isSome = _
      grind [processorNext])
  have hself := getElem?_advance_self (o := o) ht
  cases step_of_next ho with
  | processor h =>
    cases h with
    | stop => grind
    | @receive k rest _ hcons =>
      refine ⟨m', k, hm.trans hm', ?_, ?_⟩
      · rwa [hc]
      · rwa [hc]

theorem eventually_held (hj : Queued j p (e.config n).shared.queue) :
    ∃ m, n ≤ m ∧ (e.config m).threads[0]? = some (.processor (.holding j)) := by
  induction p using Nat.strongRecOn generalizing n with
  | ind p =>
    by_contra hnever
    -- until the processor has it, the call is not moved back in the queue
    have hqueued : ∀ m, n ≤ m → Queued j p (e.config m).shared.queue := by
      refine always (P := fun c : Config (Manager ε) (Thread ε) => Queued j p c.shared.queue) hj ?_
      intro m mv hm hqueued hmove
      rcases step_cases (e.next hmove) with
        ⟨u, -, -, hc⟩ | ⟨i, b, u, o, -, hu, ho, hc⟩
      · rwa [hc]
      · have hself := getElem?_advance_self (o := o) hu
        have hqueue : (e.config (m + 1)).shared.queue = o.shared.queue := by
          rw [hc]
          rfl
        rw [← hc] at hself
        rw [hqueue]
        rcases (step_of_next ho).queue_cases with
          hsame | ⟨k, hmore⟩ | ⟨k, hcons, hthread⟩
        · rwa [hsame]
        · rw [hmore]
          exact hqueued.append [k]
        · rw [hcons] at hqueued
          rcases hqueued.tail with rfl | ⟨p', rfl, pre, post, heq, hle⟩
          · rw [hthread] at hself
            obtain rfl := ((owned_at e (m + 1)).regular i _ hself).1
            exact absurd ⟨m + 1, by omega, hself⟩ hnever
          · exact ⟨pre, post, heq, by omega⟩
    obtain ⟨m, k, hm, hcons, hheld⟩ := eventually_receives hfair hchoice
      fun m hm => (hqueued m hm).ne_nil
    grind [Queued.tail]

theorem eventually_result (ht : (e.config n).threads[j]? = some (.call args .waiting)) :
    ∃ m, n ≤ m ∧ ((e.config m).shared.results j).isSome = true := by
  have hsum := (owned_at e n).owned j
  rw [ht] at hsum
  change _ = 1 at hsum
  by_cases hqueue : j ∈ (e.config n).shared.queue
  · obtain ⟨pre, post, heq⟩ := append_of_mem hqueue
    obtain ⟨m, hm, hheld⟩ := eventually_held (p := pre.length) hfair hchoice
      ⟨pre, post, heq, le_rfl⟩
    grind [eventually_answered_of_holding]
  · rw [count_eq_zero.mpr hqueue] at hsum
    by_cases howns : (e.config n).total (owns j) = 0
    · grind
    · obtain ⟨i, u, hu, howns⟩ := exists_of_total_ne_zero howns
      by_cases hheld : u = .processor (.holding j)
      · subst hheld
        obtain ⟨rfl, -⟩ := (owned_at e n).regular i _ hu
        grind [eventually_answered_of_holding]
      · exact eventually_answered hfair hu (answers_of_owns howns hheld)

theorem eventually_verdict {st : Call ε} (ht : (e.config n).threads[j]? = some (.call args st)) :
    ∃ m v, n ≤ m ∧ (e.config m).threads[j]? = some (.call args (.returned v)) := by
  obtain ⟨m, st, hm, hst, rfl | ⟨v, rfl⟩⟩ := eventually_settled hfair ht
  · obtain ⟨k, hk, hresult⟩ := eventually_result hfair hchoice hst
    have hsum := (owned_at e k).owned j
    obtain ⟨v, hv⟩ := isSome_iff_exists.mp hresult
    rw [hv] at hsum
    change _ + 1 = _ at hsum
    obtain ⟨args', hwaiting⟩ := exists_of_waits (ε := ε) (u := (e.config k).threads[j]?) (by omega)
    -- the arguments of a call do not change
    obtain ⟨u, hu, st', rfl⟩ := persists (J := fun u => ∃ st, u = .call args st) (by
        rintro s u b o ⟨st, rfl⟩ ho
        cases step_of_next ho
        grind) hst ⟨_, rfl⟩ k hk
    grind [eventually_returned]
  · exact ⟨m, v, hm, hst⟩

end

end Executions

/-- Every call of `Execute` returns: its function has run once and its result is
returned, or an error of the bulkhead is returned and the function never runs; and
when no call is in progress, the calls are those accepted and those rejected. -/
theorem one_verdict (cfg : Settings) (e : Execution (code cfg ε) Orderly (start cfg ε))
    (hfair : e.Fair) (hchoice : e.FairChoice 0 .acquire) :
    (∀ (n i : ℕ) args st, (e.config n).threads[i]? = some (Thread.call args st) → ∃ m v, n ≤ m ∧
        (e.config m).threads[i]? = some (.call args (.returned v))) ∧
    (∀ (n i : ℕ) args v, (e.config n).threads[i]? = some (Thread.call args (.returned v)) →
        ∀ m, n ≤ m → (e.config m).shared.events i = v.events i) ∧
    ∀ n, (∀ t ∈ (e.config n).threads, inProgress t = false) → (e.config n).shared.totalExecutions =
        (e.config n).shared.totalAccepted + (e.config n).shared.totalRejected := by
  refine ⟨fun n i args st ht => eventually_verdict hfair hchoice ht, ?_,
    fun n hrest => (owned_at e n).totals_of_rest hrest⟩
  intro n i args v ht m hm
  have hstays := stays (fun s b => by cases b <;> rfl) ht m hm
  obtain ⟨acts, hrun⟩ := e.exists_run m
  exact (inv_of_run hrun).2.told i _ hstays

/-! ## Schedules -/

def rests (m : Manager ε) (i : ℕ) : Thread ε → Bool
  | .call _ (.returned _) | .processor .returned | .runner _ (.returned _)
  | .stop .returned | .expire _ _ true => true
  | .call _ .waiting => (m.results i).isNone && (m.ended i).isNone
  | .processor .selecting => m.queue.isEmpty && !m.stopped
  | _ => false

theorem next_eq_none (choice : Choice ε) (h : rests m i t = true) :
    (code cfg ε).next m i t choice = none := by
  match t with
  | .call args (.returned v) => cases choice <;> rfl
  | .call args .waiting =>
    obtain ⟨hresults, hended⟩ := and_eq_true_iff.mp h
    change (m.callNext cfg i args .waiting choice).map _ = none
    cases choice with
    | receive =>
      rw [callNext, isNone_iff_eq_none.mp hresults]
      rfl
    | done =>
      rw [callNext, isNone_iff_eq_none.mp hended]
      rfl
    | _ => rfl
  | .processor .selecting =>
    obtain ⟨hqueue, hstopped⟩ := and_eq_true_iff.mp h
    have hopen : m.stopped = false := by simpa using hstopped
    change (m.processorNext cfg .selecting choice).map _ = none
    cases choice with
    | stop =>
      rw [processorNext, hopen]
      rfl
    | receive =>
      rw [processorNext, isEmpty_iff.mp hqueue]
      rfl
    | _ => rfl
  | .processor .returned | .runner _ (.returned _) => cases choice <;> rfl
  | .stop .returned | .expire _ _ true => rfl

theorem next_of_rests (h : c.every rests = true) (i : ℕ) (t : Thread ε) (choice : Choice ε)
    (ht : c.threads[i]? = some t) : (code cfg ε).next c.shared i t choice = none :=
  next_eq_none choice (all_of_every h i t ht)

def narrow : Settings := { maxConcurrency := 1, maxQueueSize := 1 }

def runs (i : ℕ) : List (Move (Thread Unit) (Choice Unit)) :=
  [.spawn (.call .valid .called), .run i .go, .run i .acquire, .run i .go]

def queues (i : ℕ) : List (Move (Thread Unit) (Choice Unit)) :=
  [.spawn (.call .valid .called), .run i .go, .run i .default, .run i .send]

def finishes (i : ℕ) : List (Move (Thread Unit) (Choice Unit)) :=
  [.run i (.returns none), .run i .go]

def serves (i : ℕ) : List (Move (Thread Unit) (Choice Unit)) :=
  [.run 0 .receive, .run 0 .acquire, .run i .go, .run i (.returns none), .run i .go, .run i .go]

/-- A call is queued and gets its result. -/
theorem one_verdict_queued : ∃ e : Execution (code narrow Unit) Orderly (start narrow Unit),
      (e.Fair ∧ e.FairChoice 0 .acquire) ∧ ∃ n : ℕ, (e.config n).threads[2]? =
          some (Thread.call .valid (.returned (.ran none))) ∧
        (e.config n).shared.events 2 = [.began 2, .ended 2 none] ∧
        (e.config n).shared.totalExecutions = (e.config n).shared.totalAccepted +
            (e.config n).shared.totalRejected := by
  obtain ⟨c, hrun, hrests, hreturned, hdone⟩ := exists_run
    (code narrow Unit).step Orderly (start narrow Unit)
    (flatten [runs 1, queues 2, finishes 1, serves 3, [.run 2 .receive]])
    (fun c => c.every rests = true ∧ c.threads[2]? = some (.call .valid (.returned (.ran none))) ∧
      c.threads.all (fun t => !inProgress t) = true) (by decide +kernel)
  obtain ⟨e, N, hfair, hchoice, hN⟩ := exists_fair hrun (next_of_rests hrests)
  obtain ⟨-, hverdict, htotals⟩ := one_verdict narrow e hfair (hchoice 0 _)
  have hat : (e.config N).threads[2]? = some (.call .valid (.returned (.ran none))) := by
    rwa [hN N le_rfl]
  refine ⟨e, ⟨hfair, hchoice 0 _⟩, N, hat, hverdict N 2 _ _ hat N le_rfl, htotals N ?_⟩
  rw [hN N le_rfl]
  simpa using hdone

theorem waits_for_ever (acts : List (Move (Thread Unit) (Choice Unit)))
    (h : (exec (code narrow Unit).step anyStep (start narrow Unit) acts).any
      (fun c => decide (c.every rests = true ∧
        c.threads[i]? = some (.call .valid .waiting))) = true) :
    ∃ (e : Execution (code narrow Unit) anyStep (start narrow Unit)) (N : ℕ),
      e.Fair ∧ (∀ i b, e.FairChoice i b) ∧ ∀ n, N ≤ n →
        (e.config n).threads[i]? = some (.call .valid .waiting) := by
  obtain ⟨c, hrun, hrests, hwaits⟩ := exists_run _ _ _ _ _ h
  obtain ⟨e, N, hfair, hchoice, hN⟩ := exists_fair hrun (next_of_rests hrests)
  refine ⟨e, N, hfair, hchoice, fun n hn => ?_⟩
  rwa [hN n hn]

/-- A call whose context ends while it is queued returns an error, and its function
runs later; and a call that is queued at `Stop` or after it is never answered. -/
theorem verdict_missed : (∃ acts c, Run (code narrow Unit).step anyStep (start narrow Unit) acts c ∧
      c.threads[2]? = some (Thread.call .valid
        (.returned (.refused (contextError " while queued" .canceled)))) ∧
      c.shared.events 2 = [.began 2, .ended 2 none] ∧
      (∀ t ∈ c.threads, inProgress t = false) ∧
      c.shared.totalExecutions = 2 ∧ c.shared.totalAccepted = 2 ∧
      c.shared.totalRejected = 1) ∧
    (∃ (e : Execution (code narrow Unit) anyStep (start narrow Unit)) (N : ℕ),
      e.Fair ∧ (∀ i b, e.FairChoice i b) ∧ ∀ n, N ≤ n →
        (e.config n).threads[3]? = some (Thread.call .valid .waiting)) ∧
    ∃ (e : Execution (code narrow Unit) anyStep (start narrow Unit)) (N : ℕ),
      e.Fair ∧ (∀ i b, e.FairChoice i b) ∧ ∀ n, N ≤ n →
        (e.config n).threads[3]? = some (Thread.call .valid .waiting) := by
  refine ⟨?_, ?_, ?_⟩
  · exact ⟨_, exists_run _ _ _
      (flatten [runs 1, queues 2,
        [.spawn (.expire 2 .canceled false), .run 3 .go, .run 2 .done,
          .run 2 .go], finishes 1, serves 4]) _ (by decide +kernel)⟩
  · exact waits_for_ever (flatten [runs 1, queues 2, [.run 0 .receive],
      queues 3, [.spawn (.stop .called), .run 4 .go, .run 4 .go,
        .run 0 .stop, .run 0 .go, .run 0 .go, .run 0 .go, .run 4 .go,
        .run 2 .receive], finishes 1]) (by decide +kernel)
  · exact waits_for_ever (flatten [runs 1, [.spawn (.stop .called),
      .run 2 .go, .run 2 .go, .run 0 .stop, .run 0 .go, .run 2 .go],
      queues 3, finishes 1]) (by decide +kernel)

end Fluxor.Resilience.Bulkhead
