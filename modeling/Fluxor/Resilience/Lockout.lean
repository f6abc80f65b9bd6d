import Fluxor.Resilience.Breaker

/-!
# The circuit breaker after its timeout

When no call is in flight and the timeout has passed, the next call should be
admitted. In the half-open state the counter of requests is not reset until the
state changes again. If fewer requests may be admitted than successes close the
breaker, the state stays half-open and the counter at its limit.

The converse is an invariant of the half-open state. A call that has found a reason
to leave it is on its way (`Leaving`), or every admitted request has led to a
success or still runs, and the successes are too few or a call is about to close the
breaker (`Closing`).
-/

namespace Fluxor.Resilience.Breaker

open Goroutines Transition Support Manager List Option Config State

variable {cfg : Config} {b b' : Manager} {t t' : Stage}

/-- The call resets the counters or leaves the half-open state. -/
def Leaving : Stage → Prop
  | .entering | .addingFailure | .readingFailures | .failed _ | .reopening => True
  | _ => False

/-- The call closes the breaker if there have been enough successes. -/
def Closing (cfg : Config) : Stage → Prop
  | .readingSuccesses | .closing => True
  | .succeeded n => cfg.successes ≤ n
  | _ => False

/-- The call has been admitted and has not counted its result. -/
def inFlight : Stage → ℕ
  | .running | .clearingFailures | .addingSuccess | .clearingSuccesses => 1
  | _ => 0

def Unsaturated (c : Goroutines.Config Manager Stage) : Move Stage Choice → Prop
  | .spawn _ => True
  | .run i _ => c.threads[i]? = some .addingSuccess → c.shared.consecutiveSuccesses < 2 ^ 31 - 1

structure InRange (b : Manager) : Prop where
  successes : 0 ≤ b.consecutiveSuccesses
  requests : -2 ^ 31 ≤ b.halfOpenRequests

theorem InRange.step (h : InRange b) (hstep : Step cfg b t b' t')
    (hover : t = .addingSuccess → b.consecutiveSuccesses < 2 ^ 31 - 1) : InRange b' := by
  have hsuccesses := h.successes
  cases hstep with
  | probe => exact ⟨h.successes, le_int32 _⟩
  | addSuccess =>
    refine ⟨?_, h.requests⟩
    grind [int32_eq_self]
  | enter | reset | resetProbes => exact ⟨le_rfl, neg_nonpos_of_nonneg (by decide)⟩
  | clearSuccesses => exact ⟨le_rfl, h.requests⟩
  | _ => exact ⟨h.successes, h.requests⟩

theorem Step.halfOpen_cases (hstep : Step cfg b t b' t') (h : InRange b)
    (hover : t = .addingSuccess → b.consecutiveSuccesses < 2 ^ 31 - 1)
    (hstate : b'.state = .halfOpen) :
    Leaving t' ∨ (b'.halfOpenRequests = 0 ∧ b'.consecutiveSuccesses = 0) ∨
      (b.state = .halfOpen ∧ ¬Leaving t ∧
        b'.halfOpenRequests + b.consecutiveSuccesses + inFlight t ≤
          b.halfOpenRequests + b'.consecutiveSuccesses + inFlight t' ∧
        (Closing cfg t' ∨ b'.consecutiveSuccesses = b.consecutiveSuccesses ∧
          (Closing cfg t → b'.consecutiveSuccesses < cfg.successes))) := by
  have hsuccesses := h.successes
  have hrequests := h.requests
  cases hstep with
  | halfOpen | addFailure | readFailures | reopen | clearSuccesses => exact .inl trivial
  | enter | reset | resetProbes => exact .inr (.inl ⟨rfl, rfl⟩)
  | close | openUp | openAgain => cases hstate
  | pass h | readTimes h | clearAgain h | tooMany h =>
    rw [h] at hstate
    cases hstate
  | miss h | closeLate h | tolerate h | reopenLate h => exact absurd hstate h
  | probe =>
    have hle : int32 (b.halfOpenRequests + 1) ≤ b.halfOpenRequests + 1 := int32_le_self (by omega)
    refine .inr (.inr ⟨hstate, id, ?_, .inr ⟨rfl, False.elim⟩⟩)
    simp only [admitProbe, inFlight]
    omega
  | addSuccess =>
    have hlt := hover rfl
    refine .inr (.inr ⟨hstate, id, ?_, .inl trivial⟩)
    grind [int32_eq_self, inFlight]
  | readSuccesses =>
    refine .inr (.inr ⟨hstate, id, le_rfl, ?_⟩)
    rcases lt_or_ge b.consecutiveSuccesses cfg.successes with hlt | hge
    · exact .inr ⟨rfl, fun _ => hlt⟩
    · exact .inl hge
  | enough => exact .inr (.inr ⟨hstate, id, le_rfl, .inl trivial⟩)
  | @notEnough n hfew =>
    refine .inr (.inr ⟨hstate, id, le_rfl, .inr ⟨rfl, fun hclosing => ?_⟩⟩)
    exact absurd (hfew hstate) (not_lt_of_ge hclosing)
  | _ => exact .inr (.inr ⟨hstate, id, le_rfl, .inr ⟨rfl, False.elim⟩⟩)

structure Sound (cfg : Config) (c : Goroutines.Config Manager Stage) : Prop where
  range : InRange c.shared
  halfOpen : c.shared.state = .halfOpen →
    (∃ (i : ℕ) (t : Stage), c.threads[i]? = some t ∧ Leaving t) ∨ (c.shared.halfOpenRequests ≤
          c.shared.consecutiveSuccesses + c.total inFlight ∧
        (c.shared.consecutiveSuccesses = 0 ∨ c.shared.consecutiveSuccesses < cfg.successes ∨
          ∃ (i : ℕ) (t : Stage), c.threads[i]? = some t ∧ Closing cfg t))

variable {c : Goroutines.Config Manager Stage}

theorem Sound.spawn (h : Sound cfg c) : Sound cfg (c.spawn .called) := by
  refine ⟨h.range, fun hstate => ?_⟩
  rcases h.halfOpen hstate with ⟨i, t, ht, hleaving⟩ | ⟨hbalance, hfew⟩
  · exact .inl ⟨i, t, getElem?_spawn_of_some ht, hleaving⟩
  · refine .inr ⟨?_, ?_⟩
    · rwa [total_spawn]
    · rcases hfew with hzero | hbelow | ⟨i, t, ht, hclosing⟩
      · exact .inl hzero
      · exact .inr (.inl hbelow)
      · exact .inr (.inr ⟨i, t, getElem?_spawn_of_some ht, hclosing⟩)

theorem Sound.advance {i : ℕ} {o : Outcome Manager Stage} (h : Sound cfg c)
    (ht : c.threads[i]? = some t) (hstep : Step cfg c.shared t o.shared o.thread)
    (hnone : o.started = [])
    (hover : t = .addingSuccess → c.shared.consecutiveSuccesses < 2 ^ 31 - 1) :
    Sound cfg (c.advance i o) := by
  refine ⟨h.range.step hstep hover, fun hstate => ?_⟩
  have hself := getElem?_advance_self (o := o) ht
  rcases hstep.halfOpen_cases h.range hover hstate with
    hleaving | ⟨hrequests, hsuccesses⟩ | ⟨hhalf, hnot, hle, hown⟩
  · exact .inl ⟨i, o.thread, hself, hleaving⟩
  · refine .inr ⟨?_, .inl hsuccesses⟩
    change o.shared.halfOpenRequests ≤ o.shared.consecutiveSuccesses + _
    omega
  · rcases h.halfOpen hhalf with ⟨j, u, hu, hleaving⟩ | ⟨hbalance, hfew⟩
    · have hji : j ≠ i := by grind
      exact .inl ⟨j, u, getElem?_advance_of_ne hji hu, hleaving⟩
    · refine .inr ⟨?_, ?_⟩
      · have htotal := total_advance (w := inFlight) (o := o) ht
        rw [hnone, map_nil, sum_nil] at htotal
        change o.shared.halfOpenRequests ≤ o.shared.consecutiveSuccesses + _
        omega
      · rcases hown with hclosing | ⟨hsame, hbelow⟩
        · exact .inr (.inr ⟨i, o.thread, hself, hclosing⟩)
        · rcases hfew with hzero | hfew | ⟨j, u, hu, hclosing⟩
          · exact .inl (hsame.trans hzero)
          · exact .inr (.inl (hsame.trans_lt hfew))
          · by_cases hji : j = i
            · subst hji
              obtain rfl : t = u := some.inj (ht.symm.trans hu)
              exact .inr (.inl (hbelow hclosing))
            · exact .inr (.inr ⟨j, u, getElem?_advance_of_ne hji hu, hclosing⟩)

variable {created : ℤ}

theorem sound_of_run {acts : List (Move Stage Choice)}
    (hrun : Run (code cfg).step Unsaturated (start created) acts c) : Sound cfg c := by
  refine Code.run_invariant (I := Sound cfg) ?_ ?_ hrun ?_
  · intro c t hc _ hentry
    obtain rfl : t = .called := of_decide_eq_true hentry
    exact hc.spawn
  · intro c i x t o hc hok ht ho
    obtain ⟨hstep, hnone⟩ := step_of_next ho
    refine hc.advance ht hstep hnone ?_
    rintro rfl
    exact hok ht
  · exact ⟨⟨le_rfl, neg_nonpos_of_nonneg (by decide)⟩, fun hstate => noConfusion hstate⟩

def Quiet (threads : List Stage) : Prop :=
  ∀ t ∈ threads, ∃ r, t = .returned r

theorem Sound.room (h : Sound cfg c) (hquiet : Quiet c.threads)
    (hstate : c.shared.state = .halfOpen) (hpos : 0 < cfg.requests)
    (hle : cfg.successes ≤ cfg.requests) : c.shared.halfOpenRequests < cfg.requests := by
  have hnobody : ∀ {i : ℕ} {t : Stage}, c.threads[i]? = some t →
      ¬Leaving t ∧ ¬Closing cfg t ∧ inFlight t = 0 := by
    intro i t ht
    obtain ⟨r, rfl⟩ := hquiet t (mem_of_getElem? ht)
    exact ⟨id, id, rfl⟩
  have htotal : c.total inFlight = 0 := by grind [exists_of_total_ne_zero]
  rcases h.halfOpen hstate with ⟨i, t, ht, hleaving⟩ | ⟨hbalance, hfew⟩ <;> grind [halfOpen]

/-! ## The next call -/

def Elapsed (cfg : Config) (b : Manager) (now : ℤ) : Prop :=
  (∀ t, b.lastFailureTime = some t → cfg.timeout ≤ now - t) ∧
    cfg.timeout ≤ now - b.lastStateChangeTime

variable {now : ℤ}

theorem Elapsed.transitionTime (h : Elapsed cfg b now) : cfg.timeout ≤ now - b.transitionTime := by
  rw [Manager.transitionTime]
  split
  · exact h.2
  next t ht =>
    split
    · exact h.2
    · exact h.1 t ht

/-- Only goroutine `i` moves, and the clock shows `now`. -/
def Only (i : ℕ) (now : ℤ) (_ : Goroutines.Config Manager Stage) (m : Move Stage Choice) : Prop :=
  ∃ fails, m = .run i ⟨now, fails⟩

/-- A call that is made at time `now` and runs alone is admitted. -/
def Admitted (cfg : Config) (c : Goroutines.Config Manager Stage) (now : ℤ) : Prop :=
  ∃ acts c', Run (code cfg).step (Only c.threads.length now) (c.spawn .called) acts c' ∧
      c'.threads[c.threads.length]? = some .running

section Alone

variable {ok : Goroutines.Config Manager Stage → Move Stage Choice → Prop}
  {pre : List Stage} {b'' : Manager} {t'' : Stage}

theorem alone_step (x : Choice) (b' : Manager) (t' : Stage)
    (guard : ok ⟨b, pre ++ [t]⟩ (.run pre.length x))
    (next : b.executeNext cfg t x = some (b', t')) (rest : (code cfg).Alone ok pre b' t' b'' t'') :
    (code cfg).Alone ok pre b t b'' t'' := by
  refine .step x guard ?_ rest
  change (b.executeNext cfg t x).map _ = _
  rw [next]
  rfl

theorem alone_counting (x : Choice)
    (guard : ∀ b t, t ≠ .addingSuccess → ok ⟨b, pre ++ [t]⟩ (.run pre.length x))
    (h : b.halfOpenRequests < cfg.requests)
    (rest : (code cfg).Alone ok pre b.admitProbe .running b'' t'') :
    (code cfg).Alone ok pre b .counting b'' t'' := by
  refine alone_step x b .counted (guard _ _ (by simp)) ?_ ?_
  · grind [executeNext, allowNext]
  · exact alone_step x _ _ (guard _ _ (by simp)) rfl rest

/-- The breaker after its timeout, with the counters reset. -/
def Manager.entered (b : Manager) (now : ℤ) : Manager :=
  { b.change .halfOpen with
    lastStateChangeTime := now
    consecutiveSuccesses := 0
    consecutiveFailures := 0
    halfOpenRequests := 0
    clock := now }

theorem alone_entering (x : Choice)
    (guard : ∀ b t, t ≠ .addingSuccess → ok ⟨b, pre ++ [t]⟩ (.run pre.length x))
    (hstate : b.state = .opened) (hclock : b.clock ≤ x.clock) (helapsed : Elapsed cfg b x.clock)
    (rest : (code cfg).Alone ok pre (b.entered x.clock) .counting b'' t'') :
    (code cfg).Alone ok pre b .called b'' t'' := by
  refine alone_step x b .readingTimes (guard _ _ (by simp)) ?_ ?_
  · simp [executeNext, allowNext, hstate]
  refine alone_step x _ _ (guard _ _ (by simp)) rfl ?_
  refine alone_step x { b with clock := x.clock } .halfOpening (guard _ _ (by simp)) ?_ ?_
  · grind [executeNext, allowNext, Elapsed.transitionTime]
  refine alone_step x (Manager.change { b with clock := x.clock } .halfOpen)
    .entering (guard _ _ (by simp)) ?_ ?_
  · simp [executeNext, allowNext, hstate]
  refine alone_step x (b.entered x.clock) .counting (guard _ _ (by simp)) ?_ rest
  simp [executeNext, allowNext, change, entered]

end Alone

theorem Sound.admitted (h : Sound cfg c) (hquiet : Quiet c.threads)
    (hclock : c.shared.clock ≤ now) (helapsed : Elapsed cfg c.shared now)
    (hpos : 0 < cfg.requests) (hle : cfg.successes ≤ cfg.requests) : Admitted cfg c now := by
  have guard : ∀ b t, t ≠ .addingSuccess → Only c.threads.length now ⟨b, c.threads ++ [t]⟩
        (.run c.threads.length ⟨now, false⟩) := fun _ _ _ => ⟨false, rfl⟩
  have halone : ∃ b', (code cfg).Alone (Only c.threads.length now) c.threads
      c.shared .called b' .running := by
    cases hstate : c.shared.state with
    | closed =>
      refine ⟨c.shared, alone_step ⟨now, false⟩ _ _ (guard _ _ (by simp)) ?_ (.refl _ _)⟩
      simp [executeNext, allowNext, hstate]
    | opened =>
      exact ⟨_, alone_entering ⟨now, false⟩ guard hstate hclock helapsed
        (alone_counting ⟨now, false⟩ guard hpos (.refl _ _))⟩
    | halfOpen =>
      refine ⟨_, alone_step ⟨now, false⟩ c.shared .counting
        (guard _ _ (by simp)) ?_ (alone_counting ⟨now, false⟩ guard
          (h.room hquiet hstate hpos hle) (.refl _ _))⟩
      simp [executeNext, allowNext, hstate]
  obtain ⟨b', halone⟩ := halone
  obtain ⟨acts, hrun⟩ := halone.exists_run
  exact ⟨acts, _, hrun, getElem?_concat_length ..⟩

/-! ## Calls that are not admitted -/

def Locked (cfg : Config) (b : Manager) (t : Stage) : Prop :=
  b.state ≠ .closed ∧ cfg.requests ≤ b.halfOpenRequests ∧ match t with
    | .called => b.state = .halfOpen ∨ cfg.requests ≤ 0
    | .readingTimes | .readingClock _ | .halfOpening | .entering => cfg.requests ≤ 0
    | .rechecking | .counting | .rejecting | .returned _ => True
    | _ => False

theorem Locked.step (h : Locked cfg b t) (hstep : Step cfg b t b' t') : Locked cfg b' t' := by
  obtain ⟨hstate, hfull, hstage⟩ := h
  cases hstep with
  | pass h => exact absurd h hstate
  | readTimes h =>
    refine ⟨hstate, hfull, hstage.resolve_left ?_⟩
    rw [h]
    exact noConfusion
  | halfOpen => exact ⟨noConfusion, hfull, hstage⟩
  | enter => exact ⟨hstate, hstage, trivial⟩
  | room h => exact absurd hfull (not_le_of_gt h)
  | count | follow | miss | full | reject | recheck | early => exact ⟨hstate, hfull, trivial⟩
  | readClock | elapsed => exact ⟨hstate, hfull, hstage⟩
  | _ => exact hstage.elim

theorem Locked.not_admitted (h : Locked cfg c.shared .called) : ¬Admitted cfg c now := by
  rintro ⟨acts, c', hrun, hrunning⟩
  have hlocked : ∃ t, c'.threads[c.threads.length]? = some t ∧ Locked cfg c'.shared t := by
    refine Code.run_invariant (I := fun c' => ∃ t,
      c'.threads[c.threads.length]? = some t ∧ Locked cfg c'.shared t)
      ?_ ?_ hrun ⟨.called, getElem?_concat_length .., h⟩
    · rintro c' t - ⟨fails, hm⟩ -
      cases hm
    · rintro c' i x t o ⟨u, hu, hlocked⟩ ⟨fails, hm⟩ ht ho
      cases hm
      obtain rfl : t = u := some.inj (ht.symm.trans hu)
      exact ⟨o.thread, getElem?_advance_self ht, hlocked.step (step_of_next ho).1⟩
  obtain ⟨t, ht, hlocked⟩ := hlocked
  obtain rfl : Stage.running = t := some.inj (hrunning.symm.trans ht)
  exact hlocked.2.2

/-- The breaker is in this state after some calls that have all returned. -/
def Rests (cfg : Config) (created : ℤ) (b : Manager) : Prop :=
  ∃ acts threads, Run (code cfg).step Unsaturated (start created) acts ⟨b, threads⟩ ∧ Quiet threads

theorem Rests.call {r : Result} (h : Rests cfg created b)
    (hcall : ∀ pre, (code cfg).Alone Unsaturated pre b .called b' (.returned r)) :
    Rests cfg created b' := by
  obtain ⟨acts, threads, hrun, hquiet⟩ := h
  obtain ⟨acts', hrun'⟩ := (hcall threads).exists_run
  have hspawn : Run (code cfg).step Unsaturated (start created)
      (acts ++ [Move.spawn Stage.called]) ⟨b, threads ++ [Stage.called]⟩ :=
    hrun.snoc trivial rfl
  refine ⟨_, _, hspawn.append hrun', ?_⟩
  intro t ht
  rcases mem_append.mp ht with ht | ht
  · exact hquiet t ht
  · exact ⟨r, mem_singleton.mp ht⟩

variable {pre : List Stage}

theorem unsaturated_of_ne {x : Choice} (h : t ≠ .addingSuccess) :
    Unsaturated ⟨b, pre ++ [t]⟩ (.run pre.length x) := by
  intro ht
  grind

def Manager.counted (b : Manager) : Manager :=
  { b with
    consecutiveSuccesses := 0
    consecutiveFailures := b.consecutiveFailures + 1
    lastFailureTime := some b.clock }

theorem alone_failing {b'' : Manager} {t'' : Stage} (hstate : b.state = .closed)
    (hnonneg : 0 ≤ b.consecutiveFailures) (hlt : b.consecutiveFailures + 1 < 2 ^ 31)
    (rest : (code cfg).Alone Unsaturated pre b.counted
      (.failed (b.consecutiveFailures + 1)) b'' t'') :
    (code cfg).Alone Unsaturated pre b .called b'' t'' := by
  have hadd : int32 (b.consecutiveFailures + 1) = b.consecutiveFailures + 1 :=
    int32_eq_self (by omega) hlt
  refine alone_step ⟨b.clock, true⟩ b .running (unsaturated_of_ne (by simp)) ?_ ?_
  · simp [executeNext, allowNext, hstate]
  refine alone_step ⟨b.clock, true⟩ _ _ (unsaturated_of_ne (by simp)) rfl ?_
  refine alone_step ⟨b.clock, true⟩ _ _ (unsaturated_of_ne (by simp)) rfl ?_
  refine alone_step ⟨b.clock, true⟩ _ _ (unsaturated_of_ne (by simp)) rfl ?_
  refine alone_step ⟨b.clock, true⟩ _ _ (unsaturated_of_ne (by simp)) ?_ rest
  simp [executeNext, allowNext, successNext,
    failureNext, counted, hadd]

section

variable (h : Rests cfg created b) (hstate : b.state = .closed)
    (hnonneg : 0 ≤ b.consecutiveFailures) (hlt : b.consecutiveFailures + 1 < 2 ^ 31)

include h hstate hnonneg hlt

theorem Rests.fail
    (hfew : b.consecutiveFailures + 1 < cfg.failures) : Rests cfg created b.counted := by
  refine h.call (r := .failed) fun pre => alone_failing hstate hnonneg hlt ?_
  refine alone_step ⟨b.clock, true⟩ _ _ (unsaturated_of_ne (by simp)) ?_ (.refl _ _)
  grind [executeNext, allowNext, successNext, failureNext, counted]

theorem Rests.opens (hmany : cfg.failures ≤ b.consecutiveFailures + 1) :
    Rests cfg created { b.counted.change .opened with lastStateChangeTime := b.clock } := by
  refine h.call (r := .failed) fun pre => alone_failing hstate hnonneg hlt ?_
  refine alone_step ⟨b.clock, true⟩ b.counted .opening (unsaturated_of_ne (by simp)) ?_ ?_
  · grind [executeNext, allowNext, successNext, failureNext, counted]
  refine alone_step ⟨b.clock, true⟩ (b.counted.change .opened) .opened
    (unsaturated_of_ne (by simp)) ?_ ?_
  · simp [executeNext, allowNext, successNext,
      failureNext, counted, hstate]
  refine alone_step ⟨b.clock, true⟩ _ _ (unsaturated_of_ne (by simp)) ?_ (.refl _ _)
  simp [executeNext, allowNext, successNext,
    failureNext, counted, change]

end

theorem exists_opened (cfg : Config) (created : ℤ) :
    ∃ b, Rests cfg created b ∧ b.state = .opened ∧ b.halfOpenRequests = 0 := by
  -- The number of failures that are missing falls with every call.
  have hreach : ∀ (k : ℕ) (b : Manager), Rests cfg created b →
      b.state = .closed → b.halfOpenRequests = 0 →
      0 ≤ b.consecutiveFailures → b.consecutiveFailures + 1 < 2 ^ 31 →
      cfg.failures ≤ b.consecutiveFailures + 1 + k →
      ∃ b, Rests cfg created b ∧ b.state = .opened ∧ b.halfOpenRequests = 0 := by
    intro k
    induction k with
    | zero =>
      intro b hrests hstate hzero hnonneg hlt hmany
      exact ⟨_, hrests.opens hstate hnonneg hlt (by omega), rfl, hzero⟩
    | succ k ih =>
      intro b hrests hstate hzero hnonneg hlt hmany
      rcases le_or_gt cfg.failures (b.consecutiveFailures + 1) with h | h
      · grind [Rests.opens]
      · have hbound : cfg.failures < 2 ^ 31 := int32_lt _
        refine ih b.counted (hrests.fail hstate hnonneg hlt h) hstate hzero
          ?_ ?_ ?_ <;> simp only [counted] <;> omega
  refine hreach cfg.failures.toNat { lastStateChangeTime := created, clock := created }
    ⟨[], [], Run.nil _, by simp [Quiet]⟩ rfl rfl le_rfl
    (show (0 : ℤ) + 1 < 2 ^ 31 by decide) ?_
  simp only
  omega

def Manager.probed (b : Manager) : Manager :=
  { b.admitProbe with
    consecutiveFailures := 0
    consecutiveSuccesses := b.consecutiveSuccesses + 1 }

theorem alone_succeeding (hstate : b.state = .halfOpen) (hnonneg : 0 ≤ b.consecutiveSuccesses)
    (hfew : b.consecutiveSuccesses + 1 < cfg.successes) :
    (code cfg).Alone Unsaturated pre b.admitProbe .running b.probed (.returned .ok) := by
  have hlt : cfg.successes < 2 ^ 31 := int32_lt _
  have hadd : int32 (b.consecutiveSuccesses + 1) =
      b.consecutiveSuccesses + 1 := int32_eq_self (by omega) (by omega)
  refine alone_step ⟨b.clock, false⟩ _ _ (unsaturated_of_ne (by simp)) rfl ?_
  refine alone_step ⟨b.clock, false⟩ _ _ (unsaturated_of_ne (by simp)) rfl ?_
  refine alone_step ⟨b.clock, false⟩ _ _ (fun _ => ?_) rfl ?_
  · change b.consecutiveSuccesses < 2 ^ 31 - 1
    omega
  refine alone_step ⟨b.clock, false⟩ b.probed
    (.succeeded (b.consecutiveSuccesses + 1)) (unsaturated_of_ne (by simp))
    ?_ ?_
  · simp [Manager.executeNext, Manager.allowNext, Manager.successNext,
      Manager.probed, Manager.admitProbe, hadd]
  refine alone_step ⟨b.clock, false⟩ _ _ (unsaturated_of_ne (by simp)) ?_ (.refl _ _)
  simp [Manager.executeNext, Manager.allowNext, Manager.successNext,
    Manager.probed, Manager.admitProbe, hstate, not_le_of_gt hfew]

/-- The breaker is half-open, and the requests so far have all succeeded. -/
structure Probed (b : Manager) (n : ℤ) : Prop where
  state : b.state = .halfOpen
  requests : b.halfOpenRequests = n
  successes : b.consecutiveSuccesses = n

theorem Probed.succ {n : ℤ} (h : Probed b n) (hnonneg : 0 ≤ n) (hlt : n + 1 < 2 ^ 31) :
    Probed b.probed (n + 1) := by
  refine ⟨h.state, ?_, ?_⟩
  · grind [probed, admitProbe, requests, int32_eq_self]
  · rw [Manager.probed, h.successes]

theorem Probed.alone {n : ℤ} (h : Probed b n) (hnonneg : 0 ≤ n) (hroom : n < cfg.requests)
    (hfew : n + 1 < cfg.successes) :
    (code cfg).Alone Unsaturated pre b .counting b.probed (.returned .ok) := by
  refine alone_counting ⟨b.clock, false⟩
    (fun _ _ hne => unsaturated_of_ne hne) (h.requests.trans_lt hroom) ?_
  grind [alone_succeeding, state, successes]

theorem exists_elapsed (cfg : Config) (b : Manager) : ∃ now, b.clock ≤ now ∧ Elapsed cfg b now := by
  refine ⟨max b.clock (max (b.lastStateChangeTime + cfg.timeout)
    (b.lastFailureTime.getD 0 + cfg.timeout)), le_max_left _ _, ?_, ?_⟩
  · intro t ht
    rw [ht, getD_some]
    omega
  · omega

theorem exists_exhausted (created : ℤ) (hpos : 0 < cfg.requests)
    (hfew : cfg.requests < cfg.successes) :
    ∃ b, Rests cfg created b ∧ b.state = .halfOpen ∧ b.halfOpenRequests = cfg.requests := by
  have hlt : cfg.successes < 2 ^ 31 := int32_lt _
  have hreach : ∀ n : ℕ, (n : ℤ) + 1 ≤ cfg.requests →
      ∃ b, Rests cfg created b ∧ Probed b (n + 1) := by
    intro n hn
    induction n with
    | zero =>
      -- The first probe half-opens the breaker.
      obtain ⟨b, hrests, hopened, -⟩ := exists_opened cfg created
      obtain ⟨now, hclock, helapsed⟩ := exists_elapsed cfg b
      have hprobed : Probed (b.entered now) 0 := ⟨rfl, rfl, rfl⟩
      refine ⟨(b.entered now).probed, hrests.call (r := .ok) fun pre => ?_,
        hprobed.succ le_rfl (by decide)⟩
      exact alone_entering ⟨now, false⟩
        (fun _ _ hne => unsaturated_of_ne hne) hopened hclock helapsed
        (hprobed.alone le_rfl hpos (by omega))
    | succ n ih =>
      obtain ⟨b, hrests, hprobed⟩ := ih (by omega)
      refine ⟨b.probed, hrests.call (r := .ok) fun pre => ?_, ?_⟩
      · refine alone_step ⟨b.clock, false⟩ _ _ (unsaturated_of_ne (by simp))
          ?_ (hprobed.alone (by omega) (by omega) (by omega))
        simp [executeNext, allowNext, hprobed.state]
      · have := hprobed.succ (by omega) (by omega)
        rwa [Nat.cast_succ]
  obtain ⟨b, hrests, hprobed⟩ := hreach (cfg.requests.toNat - 1) (by omega)
  grind [Probed.state, Probed.requests]

/-- Without an overflow of the counter of successes, the breaker never locks itself
out exactly if the number of half-open requests, as an `int32`, is positive and not
smaller than the successes that are wanted. -/
theorem admitted_iff (cfg : Config) (created : ℤ) :
    (∀ acts c now, Run (code cfg).step Unsaturated (start created) acts c →
      Quiet c.threads → c.shared.clock ≤ now → Elapsed cfg c.shared now → Admitted cfg c now) ↔
      0 < cfg.requests ∧ cfg.successes ≤ cfg.requests := by
  constructor
  · intro h
    have hunlocked : ∀ b, Rests cfg created b → ¬Locked cfg b .called := by
      rintro b ⟨acts, threads, hrun, hquiet⟩ hlocked
      obtain ⟨now, hclock, helapsed⟩ := exists_elapsed cfg b
      exact Locked.not_admitted (c := ⟨b, threads⟩) hlocked
        (h acts ⟨b, threads⟩ now hrun hquiet hclock helapsed)
    by_contra hcfg
    rcases le_or_gt cfg.requests 0 with hle | hpos
    · obtain ⟨b, hrests, hopened, hzero⟩ := exists_opened cfg created
      refine hunlocked b hrests ⟨?_, by omega, .inr hle⟩
      rw [hopened]
      exact State.noConfusion
    · have hfew : cfg.requests < cfg.successes := lt_of_not_ge fun hle => hcfg ⟨hpos, hle⟩
      obtain ⟨b, hrests, hhalf, hfull⟩ := exists_exhausted created hpos hfew
      refine hunlocked b hrests ⟨?_, hfull.ge, .inl hhalf⟩
      rw [hhalf]
      exact State.noConfusion
  · rintro ⟨hpos, hle⟩ acts c now hrun hquiet hclock helapsed
    exact (sound_of_run hrun).admitted hquiet hclock helapsed hpos hle

def wantsTwo : Config where
  failureThreshold := 1
  successThreshold := 2
  failureThreshold_pos := Int.zero_lt_one
  successThreshold_pos := Int.natCast_pos.2 Nat.zero_lt_two
  timeout_pos := minute_pos
  halfOpenMaxRequests_pos := Int.zero_lt_one

/-- After a failure and a successful probe no call is admitted any more. -/
theorem locks_out : ∃ acts c, Run (code wantsTwo).step anyStep (start 0) acts c ∧ Quiet c.threads ∧
      (∃ now, c.shared.clock ≤ now ∧ Elapsed wantsTwo c.shared now) ∧
      ∀ now, ¬Admitted wantsTwo c now := by
  refine ⟨_, exists_run_of (flatten [[.spawn .called], steps 0 8 0 true,
      [.spawn .called], steps 1 12 wantsTwo.timeout false])
      (fun c => c.threads = [.returned .failed, .returned .ok] ∧ c.shared.state = .halfOpen ∧
      wantsTwo.requests ≤ c.shared.halfOpenRequests) (by decide +kernel) ?_⟩
  rintro c - ⟨hthreads, hstate, hfull⟩
  refine ⟨?_, exists_elapsed _ _, fun now => ?_⟩
  · rw [hthreads]
    simp [Quiet]
  · refine Locked.not_admitted ⟨?_, hfull, .inl hstate⟩
    rw [hstate]
    exact noConfusion

end Fluxor.Resilience.Breaker
