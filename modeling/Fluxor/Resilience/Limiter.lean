import Fluxor.Support.GoInt
import Fluxor.Support.Goroutines

/-!
# The rate limiter

`limiterManager` of `pkg/core/resilience/limiter`: calls of `Allow`, `Wait` and
`Execute` from any number of goroutines. The counter of tokens is read, stored and
swapped atomically; `refillTokens` does so in a lock section, but `consumeToken`
does not take the lock.

A token that is granted after the refill has read the counter and before it stores
the new value is forgotten. Without such grants, and without overflow, the tokens
granted up to a time are at most the burst and one for each refill interval
(`granted_le`).
-/

namespace Fluxor.Resilience.Limiter

open Goroutines Transition Support Config

/-- The fields of `Config` that are not callbacks, as a manager keeps them. -/
structure Config where
  (rate interval burst : ℤ)
  rate_pos : 0 < rate := by decide
  rate_le : rate ≤ interval := by decide
  burst_pos : 0 < burst := by decide
  burst_lt : burst < 2 ^ 63 := by decide

variable (method : Method) (cfg : Config)

def Config.refillRate : ℤ :=
  if cfg.interval / cfg.rate ≤ 0 then 1000000 else cfg.interval / cfg.rate

/-- `limiterManager`, with the last reading of the clock, the time of its creation
and the tokens granted. The statistics are left out. -/
structure Manager where
  (tokens lastRefill : ℤ)
  mu : Bool := false
  (clock created : ℤ)
  granted : ℕ := 0

inductive Method
  | allow | wait | execute

/-- The calls of `consumeToken`: the one of `Allow` or `Execute`, the first one
of `waitForToken`, and the one of its loop. -/
inductive Attempt
  | direct | first | retry
  deriving DecidableEq

inductive Cause
  | deadlineExceeded | canceled
  deriving DecidableEq

structure Error where
  (code message : String)
  deriving DecidableEq

inductive Result
  | allowed (b : Bool)
  | ok
  | ended (cause : Cause)
  | refused (e : Error)
  | failed
  deriving DecidableEq

/-- Where a call is. `adding` and `storing` hold the lock. -/
inductive Stage
  | refilling (attempt : Attempt)
  | adding (attempt : Attempt) (now tokensToAdd : ℤ)
  | storing (attempt : Attempt) (now newTokens : ℤ)
  | loading (attempt : Attempt)
  | swapping (attempt : Attempt) (current : ℤ)
  | checking | sleeping | running
  | returned (r : Result)
  deriving DecidableEq

structure Thread where
  method : Method
  stage : Stage

/-- A reading of the clock, the only way to go on, the end of the context, or a
failure of the function. -/
inductive Choice
  | clock (now : ℤ)
  | go
  | done (cause : Cause)
  | fail
  deriving DecidableEq

/-- What `Execute` returns if its context ends while it waits. -/
def contextError : Cause → Error
  | .deadlineExceeded => ⟨"CONTEXT_TIMEOUT",
      "context timeout while waiting for rate limit: context deadline exceeded"⟩
  | .canceled => ⟨"CONTEXT_CANCELED",
      "context cancelled while waiting for rate limit: context canceled"⟩

def Method.ended : Method → Cause → Stage
  | .execute, cause => .returned (.refused (contextError cause))
  | _, cause => .returned (.ended cause)

def Method.granted : Method → Stage
  | .allow => .returned (.allowed true)
  | .wait => .returned .ok
  | .execute => .running

def Method.denied : Method → Attempt → Stage
  | .allow, _ => .returned (.allowed false)
  | _, .direct => .refilling .first
  | _, .first => .checking
  | _, .retry => .sleeping

namespace Manager

variable (cfg : Config) (m : Manager)

/-- The tokens that a refill at time `now` adds. -/
def tokensToAdd (now : ℤ) : ℤ := durationSub now m.lastRefill / cfg.refillRate

/-- `refillTokens`, up to the load of the counter. -/
def refill (attempt : Attempt) (now : ℤ) : Option (Manager × Stage) :=
  if m.mu ∨ now < m.clock then none
  else if durationSub now m.lastRefill < cfg.interval ∨ m.tokensToAdd cfg now ≤ 0 then
    some ({ m with clock := now }, .loading attempt)
  else
    some ({ m with clock := now, mu := true }, .adding attempt now (m.tokensToAdd cfg now))

def nextStage (method : Method) : Stage → Choice → Option (Manager × Stage)
  | .refilling attempt, .clock now => m.refill cfg attempt now
  | .adding attempt now tokensToAdd, .go =>
    some (m, .storing attempt now (min cfg.burst (int64 (m.tokens + tokensToAdd))))
  | .storing attempt now newTokens, .go =>
    some ({ m with tokens := newTokens, lastRefill := now, mu := false }, .loading attempt)
  | .loading attempt, .go =>
    if m.tokens ≤ 0 then some (m, method.denied attempt)
    else some (m, .swapping attempt m.tokens)
  | .swapping attempt current, .go =>
    if m.tokens = current then
      some ({ m with tokens := current - 1, granted := m.granted + 1 }, method.granted)
    else some (m, .loading attempt)
  | .checking, .done cause => some (m, method.ended cause)
  | .checking, .go => some (m, .refilling .retry)
  | .sleeping, .done cause => some (m, method.ended cause)
  | .sleeping, .go => some (m, .checking)
  | .running, .go => some (m, .returned .ok)
  | .running, .fail => some (m, .returned .failed)
  | _, _ => none

end Manager

def next (m : Manager) (_ : ℕ) (t : Thread) (x : Choice) : Option (Outcome Manager Thread) :=
  (m.nextStage cfg t.method t.stage x).map fun (m, stage) => ⟨m, ⟨t.method, stage⟩, []⟩

def Method.entry : Method → Stage
  | .allow | .execute => .refilling .direct
  | .wait => .refilling .first

def entry (t : Thread) : Bool := t.stage = t.method.entry

def code : Code Manager Thread Choice := ⟨next cfg, entry⟩

def start (created : ℤ) : Goroutines.Config Manager Thread :=
  ⟨{ tokens := cfg.burst, lastRefill := created, clock := created, created := created }, []⟩

/-! ## What a step does -/

/-- The points of a call that are outside `consumeToken`, or at its start. -/
def Outside : Stage → Prop
  | .refilling _ | .checking | .sleeping | .running | .returned _ => True
  | _ => False

inductive Step (cfg : Config) (method : Method) (m : Manager) : Stage → Manager → Stage → Prop
  | early {attempt now} (hclock : m.clock ≤ now) :
      Step cfg method m (.refilling attempt) { m with clock := now } (.loading attempt)
  | due {attempt now} (hmu : m.mu = false) (hclock : m.clock ≤ now) :
      Step cfg method m (.refilling attempt) { m with clock := now, mu := true }
        (.adding attempt now (m.tokensToAdd cfg now))
  | add {attempt now n} : Step cfg method m (.adding attempt now n) m
      (.storing attempt now (min cfg.burst (int64 (m.tokens + n))))
  | store {attempt now n} : Step cfg method m (.storing attempt now n)
      { m with tokens := n, lastRefill := now, mu := false }
      (.loading attempt)
  | deny {attempt} : Step cfg method m (.loading attempt) m (method.denied attempt)
  | load {attempt} (h : 0 < m.tokens) :
      Step cfg method m (.loading attempt) m (.swapping attempt m.tokens)
  | grant {attempt} : Step cfg method m (.swapping attempt m.tokens)
      { m with tokens := m.tokens - 1, granted := m.granted + 1 }
      method.granted
  | lose {attempt current} : Step cfg method m (.swapping attempt current) m (.loading attempt)
  | other {stage stage'} (h : Outside stage) (h' : Outside stage') :
      Step cfg method m stage m stage'

theorem Method.outside_ended (cause : Cause) : Outside (method.ended cause) := by
  cases method <;> trivial

theorem Method.outside_granted : Outside method.granted := by
  cases method <;> trivial

theorem Method.outside_denied (attempt : Attempt) : Outside (method.denied attempt) := by
  cases method <;> cases attempt <;> trivial

variable {cfg : Config} {m m' : Manager} {method : Method} {stage : Stage}

theorem step_of_nextStage {stage' : Stage} {x : Choice}
    (h : m.nextStage cfg method stage x = some (m', stage')) :
    Step cfg method m stage m' stage' := by
  revert h
  fun_cases Manager.nextStage cfg m method stage x <;> intro h
  case case1 attempt now =>
    revert h
    fun_cases Manager.refill cfg m attempt now <;> intro h <;> cases h
    case case2 hfree _ => exact .early (by omega)
    case case3 hfree _ =>
      rw [not_or] at hfree
      exact .due (by simpa using hfree.1) (by omega)
  all_goals cases h
  case case2 => exact .add
  case case3 => exact .store
  case case4 => exact .deny
  case case5 hpos => exact .load (by omega)
  case case6 => exact .grant
  case case7 => exact .lose
  case case8 | case10 => exact .other trivial (method.outside_ended _)
  case case9 | case11 | case12 | case13 => exact .other trivial trivial

variable {i : ℕ} {t : Thread}

theorem step_of_next {x : Choice} {o : Outcome Manager Thread}
    (h : (code cfg).next m i t x = some o) :
    ∃ stage, Step cfg t.method m t.stage o.shared stage ∧
      o.thread = ⟨t.method, stage⟩ ∧ o.started = [] := by
  obtain ⟨⟨m', stage⟩, hnext, rfl⟩ := Option.map_eq_some_iff.mp h
  exact ⟨stage, step_of_nextStage hnext, rfl, rfl⟩

theorem Step.created_eq {stage' : Stage} (h : Step cfg method m stage m' stage') :
    m'.created = m.created := by
  cases h <;> rfl

/-! ## The budget -/

theorem Config.refillRate_eq (cfg : Config) :
    cfg.refillRate = cfg.interval / cfg.rate ∧ 0 < cfg.refillRate := by
  have hpos : 1 ≤ cfg.interval / cfg.rate := by
    rw [Int.le_ediv_iff_mul_le cfg.rate_pos, one_mul]
    exact cfg.rate_le
  grind [refillRate]

theorem ediv_add_ediv_le {x y r : ℤ} (h : 0 < r) : x / r + y / r ≤ (x + y) / r := by
  rw [Int.le_ediv_iff_mul_le h, add_mul]
  exact add_le_add (Int.ediv_mul_le x h.ne') (Int.ediv_mul_le y h.ne')

variable {now : ℤ}

theorem Manager.tokensToAdd_nonneg (cfg : Config) (h : m.lastRefill ≤ now) :
    0 ≤ m.tokensToAdd cfg now :=
  Int.ediv_nonneg (durationSub_nonneg h) cfg.refillRate_eq.2.le

theorem Manager.tokensToAdd_le (cfg : Config) (h : m.lastRefill ≤ now) :
    m.tokensToAdd cfg now ≤ (now - m.lastRefill) / cfg.refillRate :=
  Int.ediv_le_ediv cfg.refillRate_eq.2 (durationSub_le h)

def Thread.holds (t : Thread) : ℕ :=
  match t.stage with
  | .adding _ _ _ | .storing _ _ _ => 1
  | _ => 0

def Thread.isStoring (t : Thread) : Bool :=
  match t.stage with
  | .storing _ _ _ => true
  | _ => false

/-- The addition of a refill does not overflow, and no token is granted before its store. -/
def careful (c : Goroutines.Config Manager Thread) (t : Thread) : Bool :=
  match t.stage with
  | .adding _ _ tokensToAdd => c.shared.tokens + tokensToAdd < 2 ^ 63
  | .swapping _ current => c.shared.tokens ≠ current || c.threads.all fun u => !u.isStoring
  | _ => true

def Careful (c : Goroutines.Config Manager Thread) : Move Thread Choice → Prop
  | .spawn _ => True
  | .run i _ => (c.threads[i]?).all (careful c) = true

structure Budgeted (cfg : Config) (m : Manager) : Prop where
  nonneg : 0 ≤ m.tokens
  le : m.tokens ≤ cfg.burst
  created : m.created ≤ m.lastRefill
  lastRefill : m.lastRefill ≤ m.clock
  budget : m.granted + m.tokens ≤ cfg.burst + (m.lastRefill - m.created) / cfg.refillRate

/-- What a refill has found is still so, and a loaded counter is positive. -/
def Holds (cfg : Config) (m : Manager) (_ : ℕ) (t : Thread) : Prop :=
  match t.stage with
  | .adding _ now n => n = m.tokensToAdd cfg now ∧ m.lastRefill ≤ now ∧ now ≤ m.clock
  | .storing _ now n =>
    n = min cfg.burst (m.tokens + m.tokensToAdd cfg now) ∧ m.lastRefill ≤ now ∧ now ≤ m.clock
  | .swapping _ current => 0 < current
  | _ => True

structure Sound (cfg : Config) (c : Goroutines.Config Manager Thread) : Prop where
  budgeted : Budgeted cfg c.shared
  mu : c.total Thread.holds = c.shared.mu.toNat
  threads : c.All (Holds cfg)

theorem Budgeted.store {n : ℤ} (h : Budgeted cfg m)
    (hn : n = min cfg.burst (m.tokens + m.tokensToAdd cfg now)) (hlast : m.lastRefill ≤ now)
    (hclock : now ≤ m.clock) :
    Budgeted cfg { m with tokens := n, lastRefill := now, mu := false } := by
  have hnonneg := h.nonneg
  have hcreated := h.created
  have hburst := cfg.burst_pos
  have hadd := Manager.tokensToAdd_nonneg cfg hlast
  have hspan : (m.lastRefill - m.created) / cfg.refillRate + (now - m.lastRefill) / cfg.refillRate ≤
        (now - m.created) / cfg.refillRate := by
    refine (ediv_add_ediv_le cfg.refillRate_eq.2).trans_eq ?_
    congr 1
    omega
  have hmore := Manager.tokensToAdd_le cfg hlast
  have hbudget := h.budget
  constructor <;> grind [Config.refillRate]

theorem Budgeted.grant (h : Budgeted cfg m) (hpos : 0 < m.tokens) :
    Budgeted cfg { m with tokens := m.tokens - 1, granted := m.granted + 1 } := by
  have hle := h.le
  have hbudget := h.budget
  constructor
  · change 0 ≤ m.tokens - 1
    omega
  · change m.tokens - 1 ≤ cfg.burst
    omega
  · exact h.created
  · exact h.lastRefill
  grind

theorem Budgeted.clock {mu : Bool} (h : Budgeted cfg m) (hclock : m.clock ≤ now) :
    Budgeted cfg { m with clock := now, mu := mu } :=
  ⟨h.nonneg, h.le, h.created, h.lastRefill.trans hclock, h.budget⟩

theorem Holds.clock {mu : Bool} (h : Holds cfg m i t) (hclock : m.clock ≤ now) :
    Holds cfg { m with clock := now, mu := mu } i t := by
  obtain ⟨method, stage⟩ := t
  cases stage with
  | adding | storing => exact ⟨h.1, h.2.1, h.2.2.trans hclock⟩
  | _ => exact h

theorem Holds.of_free (h : Holds cfg m i t) (hfree : t.holds = 0) : Holds cfg m' i t := by
  obtain ⟨method, stage⟩ := t
  cases stage with
  | adding | storing => cases hfree
  | _ => exact h

theorem Holds.tokens {tokens : ℤ} {granted : ℕ} (h : Holds cfg m i t)
    (hstoring : t.isStoring = false) :
    Holds cfg { m with tokens := tokens, granted := granted } i t := by
  obtain ⟨method, stage⟩ := t
  cases stage with
  | storing => cases hstoring
  | _ => exact h

section Advance

variable {c : Goroutines.Config Manager Thread} {i : ℕ} {t : Thread} {o : Outcome Manager Thread}

theorem Sound.alone (h : Sound cfg c) (ht : c.threads[i]? = some t) (hholds : t.holds = 1) {j : ℕ}
    {u : Thread} (hji : j ≠ i) (hu : c.threads[j]? = some u) : u.holds = 0 := by
  have htwo := add_le_total (w := Thread.holds) hji hu ht
  have hone := Bool.toNat_le c.shared.mu
  rw [h.mu] at htwo
  omega

theorem Sound.advance_of (h : Sound cfg c) (ht : c.threads[i]? = some t) (hnone : o.started = [])
    (hbudgeted : Budgeted cfg o.shared)
    (hmu : o.thread.holds + c.shared.mu.toNat = o.shared.mu.toNat + t.holds)
    (hown : Holds cfg o.shared i o.thread) (hothers : ∀ j u, j ≠ i → c.threads[j]? = some u →
      Holds cfg c.shared j u → Holds cfg o.shared j u) : Sound cfg (c.advance i o) := by
  refine ⟨hbudgeted, ?_, h.threads.advance_alone hnone hown hothers⟩
  refine total_advance_eq h.mu ht ?_
  rwa [hnone, List.map_nil, List.sum_nil, add_zero]

end Advance

theorem Outside.holds (h : Outside stage) : (Thread.mk method stage).holds = 0 := by
  cases stage with
  | adding | storing => exact h.elim
  | _ => rfl

theorem Outside.assertion (h : Outside stage) : Holds cfg m i ⟨method, stage⟩ := by
  cases stage with
  | adding | storing | swapping => exact h.elim
  | _ => trivial

variable {c : Goroutines.Config Manager Thread}

theorem Sound.advance (h : Sound cfg c) (ht : c.threads[i]? = some t)
    (hstep : Step cfg t.method c.shared t.stage m' stage) (hcareful : careful c t = true) :
    Sound cfg (c.advance i ⟨m', ⟨t.method, stage⟩, []⟩) := by
  obtain ⟨method, stage₀⟩ := t
  have hown : Holds cfg c.shared i ⟨method, stage₀⟩ := h.threads i _ ht
  have hsame : ∀ j u, j ≠ i → c.threads[j]? = some u →
      Holds cfg c.shared j u → Holds cfg c.shared j u :=
    fun _ _ _ _ hu => hu
  simp only at hstep
  cases hstep with
  | early hclock =>
    exact h.advance_of ht rfl (h.budgeted.clock hclock) (add_comm _ _)
      trivial fun _ _ _ _ hu => hu.clock hclock
  | due hmu hclock =>
    refine h.advance_of ht rfl (h.budgeted.clock hclock) ?_
      ⟨rfl, h.budgeted.lastRefill.trans hclock, le_rfl⟩
      fun _ _ _ _ hu => hu.clock hclock
    rw [hmu]
    rfl
  | @add attempt now n =>
    obtain ⟨hn, hlast, hclock⟩ := hown
    refine h.advance_of ht rfl h.budgeted (add_comm _ _) ⟨?_, hlast, hclock⟩ hsame
    have hsmall : c.shared.tokens + n < 2 ^ 63 := by simpa [careful] using hcareful
    have hnonneg := h.budgeted.nonneg
    have hadd := Manager.tokensToAdd_nonneg cfg hlast
    rw [int64_eq_self (by omega) hsmall, hn]
  | store =>
    obtain ⟨hn, hlast, hclock⟩ := hown
    refine h.advance_of ht rfl (h.budgeted.store hn hlast hclock) ?_ trivial
      fun j u hji hu hu' => hu'.of_free (h.alone ht rfl hji hu)
    have hheld := le_total (w := Thread.holds) ht
    have hone := Bool.toNat_le c.shared.mu
    rw [h.mu] at hheld
    change 0 + c.shared.mu.toNat = 0 + 1
    change 1 ≤ _ at hheld
    omega
  | deny =>
    have houtside := method.outside_denied
    refine h.advance_of ht rfl h.budgeted ?_ (houtside _).assertion hsame
    rw [(houtside _).holds]
    exact add_comm _ _
  | load hpos => exact h.advance_of ht rfl h.budgeted (add_comm _ _) hpos hsame
  | grant =>
    have houtside := method.outside_granted
    refine h.advance_of ht rfl (h.budgeted.grant hown) ?_
      houtside.assertion fun j u _ hu hu' => hu'.tokens ?_
    · rw [houtside.holds]
      exact add_comm _ _
    grind [careful]
  | lose => exact h.advance_of ht rfl h.budgeted (add_comm _ _) trivial hsame
  | other => grind [advance_of, budgeted, Outside.assertion, Outside.holds]

theorem sound_of_run {created : ℤ} {acts : List (Move Thread Choice)}
    (hrun : Run (code cfg).step Careful (start cfg created) acts c) :
    Sound cfg c ∧ c.shared.created = created := by
  refine Code.run_invariant (I := fun c => Sound cfg c ∧ c.shared.created = created) ?_ ?_ hrun ?_
  · intro c t hc _ hentry
    obtain ⟨method, stage⟩ := t
    obtain rfl : stage = method.entry := of_decide_eq_true hentry
    have hout : Outside method.entry := by cases method <;> trivial
    refine ⟨⟨hc.1.budgeted, ?_, hc.1.threads.spawn hout.assertion⟩, hc.2⟩
    rw [total_spawn, hout.holds]
    exact hc.1.mu
  · intro c i x t o hc hcareful ht ho
    obtain ⟨stage, hstep, hthread, hnone⟩ := step_of_next ho
    obtain ⟨m', thread, started⟩ := o
    obtain rfl : thread = _ := hthread
    obtain rfl : started = [] := hnone
    refine ⟨hc.1.advance ht hstep (by simpa [Careful, ht] using hcareful), ?_⟩
    exact hstep.created_eq.trans hc.2
  · refine ⟨⟨⟨cfg.burst_pos.le, le_rfl, le_rfl, le_rfl, ?_⟩, rfl, ?_⟩, rfl⟩
    · simp [start]
    · intro i t ht
      cases ht

/-- In a run whose steps are careful, at most the burst and one token for each
refill interval since the creation are granted, and the counter stays between 0 and
the burst. -/
theorem granted_le (cfg : Config) {created now : ℤ} {acts : List (Move Thread Choice)}
    {c : Goroutines.Config Manager Thread}
    (hrun : Run (code cfg).step Careful (start cfg created) acts c) (hnow : c.shared.clock ≤ now) :
    (c.shared.granted : ℤ) ≤ cfg.burst + (now - created) / (cfg.interval / cfg.rate) ∧
      0 ≤ c.shared.tokens ∧ c.shared.tokens ≤ cfg.burst := by
  obtain ⟨⟨hbudgeted, -, -⟩, hcreated⟩ := sound_of_run hrun
  obtain ⟨hrate, hpos⟩ := cfg.refillRate_eq
  refine ⟨?_, hbudgeted.nonneg, hbudgeted.le⟩
  have hlast := hbudgeted.lastRefill
  have hmono : (c.shared.lastRefill - c.shared.created) / cfg.refillRate ≤
      (now - created) / cfg.refillRate :=
    Int.ediv_le_ediv hpos (by omega)
  have hbudget := hbudgeted.budget
  have hnonneg := hbudgeted.nonneg
  rw [← hrate]
  omega

instance (c : Goroutines.Config Manager Thread) (a : Move Thread Choice) :
    Decidable (Careful c a) := by
  delta Careful
  cases a <;> infer_instance

def narrow : Config := { rate := 1, interval := 1, burst := 2 }

def wide : Config := { rate := 1, interval := 1, burst := 2 ^ 63 - 1 }

/-- Two calls of `Allow` get a token at time 0, and one more at time 1. -/
theorem granted_le_narrow : ∃ acts c, Run (code narrow).step Careful (start narrow 0) acts c ∧
      c.shared.clock = 1 ∧ c.shared.granted = 3 ∧
      (c.shared.granted : ℤ) ≤ narrow.burst + (1 - 0) / (narrow.interval / narrow.rate) ∧
      0 ≤ c.shared.tokens ∧ c.shared.tokens ≤ narrow.burst := by
  refine ⟨_, exists_run_of [.spawn ⟨.allow, .refilling .direct⟩, .run 0 (.clock 0), .run 0 .go,
      .run 0 .go, .spawn ⟨.allow, .refilling .direct⟩, .run 1 (.clock 0),
      .run 1 .go, .run 1 .go, .spawn ⟨.allow, .refilling .direct⟩,
      .run 2 (.clock 1), .run 2 .go, .run 2 .go, .run 2 .go, .run 2 .go]
      (fun c => c.shared.clock = 1 ∧ c.shared.granted = 3) (by decide +kernel) ?_⟩
  rintro c hrun ⟨hclock, hgranted⟩
  exact ⟨hclock, hgranted, granted_le narrow hrun hclock.le⟩

/-- Two calls get their tokens between the load and the store of a refill, so that
four are granted instead of three; and the refill of a counter at its limit leaves
it negative. -/
theorem exceeds_budget :
    (∃ acts c, Run (code narrow).step anyStep (start narrow 0) acts c ∧ c.shared.clock = 1 ∧
      narrow.burst + (1 - 0) / (narrow.interval / narrow.rate) < c.shared.granted) ∧
    ∃ acts c, Run (code wide).step anyStep (start wide 0) acts c ∧ c.shared.tokens < 0 := by
  constructor
  · refine ⟨_, exists_run _ _ _
      [.spawn ⟨.allow, .refilling .direct⟩, .run 0 (.clock 0),
        .spawn ⟨.allow, .refilling .direct⟩, .run 1 (.clock 0),
        .spawn ⟨.allow, .refilling .direct⟩, .run 2 (.clock 1), .run 2 .go,
        .run 0 .go, .run 0 .go, .run 1 .go, .run 1 .go,
        .run 2 .go, .run 2 .go, .run 2 .go,
        .spawn ⟨.allow, .refilling .direct⟩, .run 3 (.clock 1), .run 3 .go,
        .run 3 .go] _ (by decide +kernel)⟩
  · refine ⟨_, exists_run _ _ _
      [.spawn ⟨.allow, .refilling .direct⟩, .run 0 (.clock 1), .run 0 .go,
        .run 0 .go] _ (by decide +kernel)⟩

end Fluxor.Resilience.Limiter
