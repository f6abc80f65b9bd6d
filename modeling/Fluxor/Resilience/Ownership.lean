import Fluxor.Resilience.Bulkhead
import Fluxor.Support.Tokens

/-!
# Who answers a queued call

While a call waits for its result, exactly one place has it: the queue, the
processor, the goroutine that runs its function, or its result channel
(`Owned.owned`). This needs that a context does not end while its call waits, that
nothing is queued for an ended context or after `Stop`, and that `Stop` finds the
queue empty (`Orderly`). Its limits hold in every run.
-/

namespace Fluxor.Resilience.Bulkhead

open Goroutines Config Transition List Manager Nat

variable {ε : Type*} {cfg : Settings} {m m' : Manager ε} {i : ℕ}
  {choice : Choice ε} {t : Thread ε} {o : Outcome (Manager ε) (Thread ε)}
  {c : Config (Manager ε) (Thread ε)}

/-! ## The condition -/

def waits : Option (Thread ε) → ℕ
  | some (.call _ .waiting) => 1
  | _ => 0

variable (c)

def allowed (i : ℕ) : Thread ε → Choice ε → Bool
  | .expire caller _ _, _ => waits c.threads[caller]? = 0
  | .call _ .queueing, .send => (c.shared.ended i).isNone && !c.shared.stopped
  | .stop .closing, _ => c.shared.queue.isEmpty
  | _, _ => true

/-- A context does not end while its call waits; a call is queued only if its
context has not ended and the manager is not stopped; and the manager is stopped
only when the queue is empty. -/
def Orderly : Move (Thread ε) (Choice ε) → Prop
  | .spawn _ => True
  | .run i choice => ∀ t ∈ c.threads[i]?, allowed c i t choice = true

instance (a : Move (Thread ε) (Choice ε)) : Decidable (Orderly c a) := by
  delta Orderly
  cases a <;> infer_instance

/-! ## Who has a call -/

variable {c}

/-- `executeWithSemaphore` has still to send its result. -/
def Work.owns : Work ε → Bool
  | .accepting | .running | .sending _ => true
  | .releasing _ | .returned _ => false

def Processor.caller : Processor → Option ℕ
  | .holding caller | .rejecting caller _ _ | .answering caller _ _ => some caller
  | .selecting | .closing | .returned => none

def owns (j : ℕ) : Thread ε → ℕ
  | .processor st => if st.caller = some j then 1 else 0
  | .runner caller work => if caller = j ∧ work.owns then 1 else 0
  | .call _ _ | .stop _ | .expire _ _ _ => 0

def holds : Thread ε → ℕ
  | .call _ (.executing (.returned _)) | .runner _ (.returned _) => 0
  | .call _ (.executing _) | .runner _ _ => 1
  | _ => 0

/-- The goroutine has counted a call, and not yet whether it is accepted or
rejected. -/
def undecided : Thread ε → ℕ
  | .call _ .choosing | .call _ .queueing | .call _ (.rejecting _)
  | .call _ (.executing .accepting) | .runner _ .accepting
  | .processor (.holding _) | .processor (.rejecting _ _ _) => 1
  | _ => 0

/-- The processor stops after its next answer, or has stopped. -/
def Processor.stops : Processor → Bool
  | .rejecting _ _ stop | .answering _ _ stop => stop
  | .closing | .returned => true
  | .selecting | .holding _ => false

def Regular (cfg : Settings) (m : Manager ε) (i : ℕ) : Thread ε → Prop
  | .call _ .queueing => 0 < cfg.places
  | .call _ .waiting => 0 < cfg.places ∧ m.ended i = none
  | .call _ (.executing (.sending _))
  | .call _ (.executing (.returned _)) => False
  | .processor st => i = 0 ∧ (st.stops = true → m.stopped = true)
  | _ => True

structure Owned (cfg : Settings) (c : Config (Manager ε) (Thread ε)) : Prop where
  regular : c.All (Regular cfg)
  processor : 0 < cfg.places → ∃ st, c.threads[0]? = some (Thread.processor st)
  stopped : c.shared.stopped = true → c.shared.queue = []
  semaphore : c.shared.semaphore = c.total holds
  slots : c.shared.semaphore ≤ cfg.slots
  owned : ∀ j, c.shared.queue.count j + c.total (owns j) +
    (c.shared.results j).toList.length = waits c.threads[j]?
  totals : c.shared.totalExecutions = c.shared.totalAccepted +
    c.shared.totalRejected + c.shared.queue.length + c.total undecided

/-! ## What a step does -/

theorem waits_le_one (u : Option (Thread ε)) : waits u ≤ 1 := by
  fun_cases waits u <;> omega

theorem exists_of_waits {u : Option (Thread ε)} (h : 0 < waits u) :
    ∃ args, u = some (.call args .waiting) := by
  revert h
  fun_cases waits u <;> intro h
  case case1 args => exact ⟨args, rfl⟩
  case case2 => omega

theorem WorkStep.flags {caller : ℕ} {channel : Bool} {work work' : Work ε}
    (h : WorkStep m caller channel work m' work') :
    m'.ended = m.ended ∧ m'.stopped = m.stopped ∧ m'.queue = m.queue := by
  cases h <;> exact ⟨rfl, rfl, rfl⟩

theorem CallStep.flags {st st' : Call ε} (h : CallStep cfg m i choice st m' st') :
    m'.ended = m.ended ∧ m'.stopped = m.stopped := by
  cases h <;> grind [WorkStep.flags]

theorem ProcessorStep.flags {st st' : Processor} {started : List (Thread ε)}
    (h : ProcessorStep cfg m choice st m' st' started) :
    m'.ended = m.ended ∧ m'.stopped = m.stopped := by
  cases h <;> exact ⟨rfl, rfl⟩

theorem Step.stopped_of (h : Step cfg m i choice t o) (hstopped : m.stopped = true) :
    o.shared.stopped = true := by
  cases h with
  | call h | processor h => exact h.flags.2.trans hstopped
  | runner h => exact h.flags.2.1.trans hstopped
  | stop h => cases h <;> grind
  | expire => exact hstopped

section

variable (h : Step cfg c.shared i choice t o) (hok : allowed c i t choice = true)

include h hok

theorem Step.ended_eq
    {j : ℕ} (hj : waits c.threads[j]? = 1) : o.shared.ended j = c.shared.ended j := by
  cases h with
  | call h | processor h | runner h => exact congrFun h.flags.1 j
  | stop h => cases h <;> rfl
  | @expire caller cause =>
    refine Function.update_of_ne ?_ _ _
    rintro rfl
    have hnone : waits c.threads[j]? = 0 := of_decide_eq_true hok
    omega

theorem Step.stopped_queue (hqueue : c.shared.stopped = true → c.shared.queue = [])
    (hstopped : o.shared.stopped = true) : o.shared.queue = [] := by
  cases h with
  | call h =>
    have hbefore := h.flags.2.symm.trans hstopped
    cases h with
    | enqueue hchoice =>
      subst hchoice
      have hopen := (Bool.and_eq_true_iff.mp hok).2
      rw [hbefore] at hopen
      cases hopen
    | work h => exact h.flags.2.2.trans (hqueue hbefore)
    | _ => exact hqueue hbefore
  | processor h =>
    have hempty := hqueue (h.flags.2.symm.trans hstopped)
    cases h with
    | receive _ hcons =>
      rw [hempty] at hcons
      cases hcons
    | _ => exact hempty
  | runner h => exact h.flags.2.2.trans (hqueue (h.flags.2.1.symm.trans hstopped))
  | stop h =>
    cases h with
    | close => exact isEmpty_iff.mp hok
    | _ => exact hqueue hstopped
  | expire => exact hqueue hstopped

theorem Step.regular (ht : Regular cfg c.shared i t) : Regular cfg o.shared i o.thread := by
  cases h with
  | call h =>
    cases h with
    | full hplaces => exact hplaces
    | enqueue hchoice =>
      subst hchoice
      have hnone := (Bool.and_eq_true_iff.mp hok).1
      exact ⟨ht, Option.isNone_iff_eq_none.mp hnone⟩
    | work h => cases h <;> trivial
    | _ => trivial
  | processor h =>
    obtain ⟨hi, hstops⟩ := ht
    refine ⟨hi, ?_⟩
    cases h with
    | stop hstopped | halt hstopped => exact fun _ => hstopped
    | @answer caller e stop =>
      cases stop with
      | true => exact fun _ => hstops rfl
      | false => exact fun h => by cases h
    | rejected | close => exact hstops
    | _ => exact fun h => by cases h
  | _ => trivial

end

section

variable (h : Step cfg m i choice t o)

include h

theorem Step.slots_le (hle : m.semaphore ≤ cfg.slots) : o.shared.semaphore ≤ cfg.slots := by
  have hwork : ∀ {caller channel} {work work' : Work ε} {m'},
      WorkStep m caller channel work m' work' → m'.semaphore ≤ m.semaphore := by
    intro caller channel work work' m' h
    cases h with
    | release => exact sub_le _ _
    | _ => exact le_rfl
  cases h with
  | call h => cases h <;> grind
  | processor h =>
    cases h with
    | acquire hless => exact hless
    | _ => exact hle
  | runner h => exact (hwork h).trans hle
  | stop h => cases h <;> exact hle
  | expire => exact hle

theorem Step.semaphore :
    holds o.thread + (o.started.map holds).sum + m.semaphore = o.shared.semaphore + holds t := by
  cases h with
  | call h =>
    cases h with
    | work h =>
      cases h with
      | release => grind [afterWork, holds]
      | _ => exact add_comm 1 _
    | acquire => grind [holds]
    | _ => exact add_comm 0 _
  | processor h =>
    cases h with
    | acquire => grind [holds]
    | _ => exact add_comm 0 _
  | runner h =>
    cases h with
    | release => grind [holds]
    | _ => exact add_comm 1 _
  | stop h => cases h <;> exact add_comm 0 _
  | expire => exact add_comm 0 _

theorem Step.totals (ht : Regular cfg m i t) :
    m.totalAccepted + m.totalRejected + m.queue.length + undecided t + o.shared.totalExecutions =
      o.shared.totalAccepted + o.shared.totalRejected + o.shared.queue.length + undecided o.thread +
        (o.started.map undecided).sum + m.totalExecutions := by
  cases h with
  | call h =>
    cases h with
    | work h =>
      cases h <;> simp [afterWork, undecided, answer]
      omega
    | cancel hended => exact absurd ht.2 hended
    | enter | enqueue | rejected =>
      simp [undecided]
      omega
    | _ => simp [undecided]
  | processor h =>
    cases h with
    | receive _ hcons =>
      simp [undecided, hcons]
      omega
    | rejected =>
      simp [undecided]
      omega
    | @answer _ _ stop => cases stop <;> simp [undecided, answer]
    | _ => simp [undecided]
  | runner h =>
    cases h <;> simp [undecided, answer]
    omega
  | stop h => cases h <;> simp [undecided]
  | expire => simp [undecided]

omit h in
theorem waits_advance (ht : c.threads[i]? = some t)
    (hstarted : ∀ u ∈ o.started, waits (some u) = 0) (j : ℕ) :
    waits (c.advance i o).threads[j]? =
      if j = i then waits (some o.thread) else waits c.threads[j]? := by
  split
  · grind [getElem?_advance_self]
  next hji =>
    cases hj : c.threads[j]? with
    | some => rw [getElem?_advance_of_ne hji hj]
    | none =>
      cases hj' : (c.advance i o).threads[j]? with
      | none => rfl
      | some u =>
        rcases getElem?_advance hj' with
          ⟨rfl, -⟩ | ⟨-, hu⟩ | ⟨-, hu⟩
        · exact absurd rfl hji
        · rw [hj] at hu
          cases hu
        · exact hstarted u hu

omit h in
theorem toList_answer (caller : ℕ) (v : Verdict ε) (j : ℕ) (h : caller = j → m.results j = none) :
    ((m.answer caller v).results j).toList.length =
      (m.results j).toList.length + if caller = j then 1 else 0 := by
  by_cases hj : caller = j
  · subst hj
    simp [answer, h rfl]
  · simp [answer, hj, Function.update_of_ne (Ne.symm hj)]

theorem Step.owned (ht : Regular cfg m i t) (j : ℕ) (hempty : owns j t ≠ 0 → m.results j = none) :
    m.queue.count j + owns j t + (m.results j).toList.length +
        (if j = i then waits (some o.thread) else 0) =
      o.shared.queue.count j + owns j o.thread + (o.started.map (owns j)).sum +
        (o.shared.results j).toList.length + (if j = i then waits (some t) else 0) := by
  cases h with
  | call h =>
    cases h with
    | work h =>
      cases h with
      | send => exact ht.elim
      | _ => simp [afterWork, owns, waits]
    | cancel hended => exact absurd ht.2 hended
    | enqueue | @receive v hv => grind [owns, waits]
    | _ => simp [owns, waits]
  | processor h =>
    cases h with
    | receive _ hcons =>
      simp only [owns, waits, hcons, Processor.caller, count_cons,
        beq_iff_eq, Option.some.injEq, map_nil, sum_nil]
      simp
    | @answer caller e stop =>
      have hcaller : caller = j → m.results j = none := by
        rintro rfl
        exact hempty (by simp [owns, Processor.caller])
      have hresults := toList_answer caller (.refused e) j hcaller
      have hqueue : (m.answer caller (.refused e)).queue = m.queue := rfl
      cases stop <;>
        simp [owns, waits, Processor.caller, hresults, hqueue] <;> omega
    | _ => simp [owns, waits, Processor.caller, Work.owns]
  | @runner caller _ _ _ h =>
    cases h with
    | @send err =>
      have hcaller : caller = j → m.results j = none := by
        rintro rfl
        exact hempty (by simp [owns, Work.owns])
      have hresults := toList_answer caller (.ran err) j hcaller
      have hqueue : (m.answer caller (.ran err)).queue = m.queue := rfl
      simp [owns, waits, Work.owns, hresults, hqueue]
      omega
    | _ => simp [owns, waits, Work.owns]
  | stop h => cases h <;> simp [owns, waits]
  | expire => simp [owns, waits]

theorem Step.started_runner : ∀ u ∈ o.started, ∃ caller, u = .runner caller .accepting ∧
      t = .processor (.holding caller) := by
  intro u hu
  cases h with
  | processor h => cases h <;> grind
  | _ => cases hu

end

/-! ## Every run -/

section

variable (h : Owned cfg c)

include h

theorem Owned.sum_le_one (j : ℕ) :
    c.shared.queue.count j + c.total (owns j) + (c.shared.results j).toList.length ≤ 1 := by
  rw [h.owned j]
  exact waits_le_one _

theorem Owned.results_eq_none (ht : c.threads[i]? = some t) {j : ℕ}
    (hj : owns j t ≠ 0) : c.shared.results j = none := by
  have hsum := h.sum_le_one j
  have hle : owns j t ≤ c.total (owns j) := Config.le_total ht
  have hzero : (c.shared.results j).toList.length = 0 := by omega
  simpa using hzero

theorem Owned.advance (ht : c.threads[i]? = some t)
    (hok : allowed c i t choice = true) (hstep : Step cfg c.shared i choice t o) :
    Owned cfg (c.advance i o) := by
  have hregular := h.regular i t ht
  refine ⟨?_, ?_, hstep.stopped_queue hok h.stopped, ?_, hstep.slots_le h.slots, ?_, ?_⟩
  · refine h.regular.advance (hstep.regular hok hregular) ?_ ?_
    · intro j u _ hj hu
      cases u with
      | call args st =>
        cases st with
        | waiting =>
          refine ⟨hu.1, ?_⟩
          rw [hstep.ended_eq hok (by rw [hj, waits])]
          exact hu.2
        | executing work => cases work <;> exact hu
        | _ => exact hu
      | processor => exact ⟨hu.1, fun hst => hstep.stopped_of (hu.2 hst)⟩
      | _ => exact hu
    · intro j u _ hu
      obtain ⟨caller, rfl, -⟩ := hstep.started_runner u hu
      trivial
  · intro hplaces
    obtain ⟨st, hst⟩ := h.processor hplaces
    by_cases hi : 0 = i
    · subst hi
      obtain rfl := Option.some.inj (ht.symm.trans hst)
      rw [getElem?_advance_self ht]
      cases hstep
      grind
    grind [getElem?_advance_of_ne]
  · exact (total_advance_eq h.semaphore.symm ht hstep.semaphore).symm
  · intro j
    have hwaits := waits_advance ht (o := o) (fun u hu => by
      obtain ⟨caller, rfl, -⟩ := hstep.started_runner u hu
      rfl) j
    have hbalance := hstep.owned hregular j fun hj => h.results_eq_none ht hj
    grind [total_advance, owned, advance]
  grind [Step.totals, total_advance, totals, advance]

theorem Owned.spawn (ht : entry t = true) : Owned cfg (c.spawn t) := by
  have hnone : Regular cfg c.shared c.threads.length t ∧
      waits (some t) = 0 ∧ holds t = 0 ∧ undecided t = 0 ∧ ∀ j, owns j t = 0 := by
    revert ht
    fun_cases entry t <;> intro ht
    case case4 => cases ht
    all_goals exact ⟨trivial, rfl, rfl, rfl, fun _ => rfl⟩
  obtain ⟨hregular, hwaits, hholds, hundecided, howns⟩ := hnone
  refine ⟨h.regular.spawn hregular, ?_, h.stopped, ?_, h.slots, ?_, ?_⟩
  · grind [processor, getElem?_spawn_of_some]
  · rw [total_spawn, hholds]
    exact h.semaphore
  · grind [waits, spawn, total_spawn, owned]
  · rw [total_spawn, hundecided]
    exact h.totals

end

theorem owned_start (cfg : Settings) (ε : Type*) : Owned cfg (start cfg ε) := by
  by_cases hplaces : 0 < cfg.places
  · rw [start, if_pos hplaces]
    refine ⟨?_, fun _ => ⟨_, rfl⟩, fun _ => rfl, rfl, zero_le _, ?_, rfl⟩
    · intro j u hu
      obtain ⟨rfl, rfl⟩ : j = 0 ∧ u = .processor .selecting := by grind
      exact ⟨rfl, fun hstops => by cases hstops⟩
    · intro j
      cases j <;> rfl
  · rw [start, if_neg hplaces]
    refine ⟨?_, fun hpos => absurd hpos hplaces, fun _ => rfl, rfl, zero_le _, fun _ => rfl, rfl⟩
    intro j u hu
    cases hu

/-! ## Any interleaving -/

def begins (j : ℕ) : Event ε → Bool
  | .began caller => caller = j
  | .ended _ _ => false

def running : Thread ε → ℕ
  | .call _ (.executing .running) | .runner _ .running => 1
  | _ => 0

def received (j : ℕ) : Thread ε → ℕ
  | .processor (.holding caller) | .runner caller .accepting => if caller = j then 1 else 0
  | _ => 0

/-- The call has neither called its function nor queued it. -/
def unsent : Thread ε → Bool
  | .call _ .called | .call _ .choosing | .call _ .queueing
  | .call _ (.executing .accepting) => true
  | _ => false

/-- A function is with its call, queued, received or called. -/
def functions (ε : Type*) : Tokens (Manager ε) (Thread ε) ℕ :=
  ⟨fun m j => m.history.countP (begins j) + m.queue.count j, received, fun j => j, fun _ => unsent⟩

theorem Step.kept_functions (h : Step cfg m i choice t o) (j : ℕ) :
    (functions ε).Kept m i t o j := by
  simp only [Tokens.Kept, functions]
  cases h with
  | call h =>
    cases h with
    | work h => cases h <;> grind [begins, received, unsent, afterWork, answer]
    | _ => grind [received, unsent]
  | processor h =>
    cases h with
    | @answer _ _ stop => cases stop <;> simp [received, unsent, answer]
    | _ => grind [received, unsent]
  | runner h => cases h <;> grind [begins, received, unsent, answer]
  | stop h => cases h <;> simp [received, unsent]
  | expire => simp [received, unsent]

theorem Step.places_le (h : Step cfg m i choice t o) (hle : m.queue.length ≤ cfg.places) :
    o.shared.queue.length ≤ cfg.places := by
  cases h with
  | call h =>
    cases h with
    | enqueue => grind
    | work h => rwa [h.flags.2.2]
    | _ => exact hle
  | processor h => cases h <;> grind [answer]
  | runner h => rwa [h.flags.2.2]
  | stop h => cases h <;> exact hle
  | expire => exact hle

structure Limited (cfg : Settings) (c : Config (Manager ε) (Thread ε)) : Prop where
  semaphore : c.total holds = c.shared.semaphore
  slots : c.shared.semaphore ≤ cfg.slots
  places : c.shared.queue.length ≤ cfg.places

theorem holds_of_entry (ht : entry t = true) : holds t = 0 ∧ ∀ j, received j t = 0 := by
  revert ht
  fun_cases entry t <;> intro ht
  case case4 => cases ht
  all_goals exact ⟨rfl, fun _ => rfl⟩

theorem limited_of_run {acts : List (Move (Thread ε) (Choice ε))}
    (h : Run (code cfg ε).step anyStep (start cfg ε) acts c) : Limited cfg c := by
  refine Code.run_invariant (I := Limited cfg) ?_ ?_ h ?_
  · intro c t hc _ ht
    refine ⟨?_, hc.slots, hc.places⟩
    rw [total_spawn, (holds_of_entry ht).1]
    exact hc.semaphore
  · intro c i choice t o hc _ ht ho
    have hstep := step_of_next ho
    exact ⟨total_advance_eq hc.semaphore ht hstep.semaphore, hstep.slots_le hc.slots,
      hstep.places_le hc.places⟩
  · have hstart := owned_start cfg ε
    refine ⟨hstart.semaphore.symm, hstart.slots, ?_⟩
    rw [start]
    split <;> exact zero_le _

/-- At any time at most `MaxConcurrency` functions run and at most `MaxQueueSize`
calls are queued, and the function of a call is called at most once. -/
theorem isolates {acts : List (Move (Thread ε) (Choice ε))}
    (h : Run (code cfg ε).step anyStep (start cfg ε) acts c) :
    c.total running ≤ cfg.slots ∧ c.shared.queue.length ≤ cfg.places ∧
      ∀ j, c.shared.history.countP (begins j) ≤ 1 := by
  have hc := limited_of_run h
  have hrunning : c.total running ≤ c.total holds := by
    refine sum_le_sum fun t _ => ?_
    fun_cases running t <;> simp [holds]
  refine ⟨hrunning.trans (hc.semaphore.trans_le hc.slots), hc.places, fun j => ?_⟩
  have hzero : (functions ε).placed (start cfg ε).shared j = 0 ∧
      (start cfg ε).total (received j) = 0 := by
    rw [start]
    split <;> exact ⟨rfl, rfl⟩
  have hcount := (functions ε).count_le_one hzero.1 hzero.2 (fun t ht => (holds_of_entry ht).2 j)
    (fun h => (step_of_next h).kept_functions j) h
  simp only [Tokens.count, functions] at hcount
  omega

/-- Two calls with room for one: one runs and one is queued. -/
theorem isolates_two : ∃ acts c,
    Run (code ⟨1, 1, 0⟩ Unit).step anyStep (start ⟨1, 1, 0⟩ Unit) acts c ∧
    c.total running = 1 ∧ c.shared.queue = [2] ∧ ∀ j, c.shared.history.countP (begins j) ≤ 1 := by
  obtain ⟨c, hrun, hone, hqueue⟩ := exists_run (code ⟨1, 1, 0⟩ Unit).step anyStep
    (start ⟨1, 1, 0⟩ Unit) [.spawn (.call .valid .called), .run 1 .go, .run 1 .acquire, .run 1 .go,
      .spawn (.call .valid .called), .run 2 .go, .run 2 .default, .run 2 .send]
    (fun c => c.total running = 1 ∧ c.shared.queue = [2]) (by decide +kernel)
  exact ⟨_, c, hrun, hone, hqueue, (isolates hrun).2.2⟩

end Fluxor.Resilience.Bulkhead
