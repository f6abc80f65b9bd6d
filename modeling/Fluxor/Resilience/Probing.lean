import Fluxor.Resilience.Breaker

/-!
# Probes of a half-open circuit breaker

A call that the half-open branch of `allowExecution` admits is a probe. The code from
the test of the counter to its increment, and the code from a change of the state to
the reset of the counter, are not atomic: two calls that have both tested the counter
before either increments it exceed the limit, and so do calls that are admitted
before the reset. If no two calls are inside these sections at once, there are at most
`HalfOpenMaxRequests` probes between two changes of the state.
-/

namespace Fluxor.Resilience.Breaker

open Goroutines Transition Support

/-- The points between the test and the increment of the counter, and between a
change of the state and the lock section that resets the counter. -/
def inside : Stage → Bool
  | .counted | .entering | .closed | .reopened => true
  | _ => false

/-- The points from which a call gets there: before the test, and before the
compare-and-swaps that are followed by a reset. -/
def begins : Stage → Bool
  | .counting | .halfOpening | .closing | .reopening => true
  | _ => false

/-- A call takes such a step only while no call is inside. -/
def Separate (c : Goroutines.Config Manager Stage) : Move Stage Choice → Prop
  | .spawn _ => True
  | .run i _ => ∀ t ∈ c.threads[i]?, begins t = true → ∀ u ∈ c.threads, inside u = false

instance (c : Goroutines.Config Manager Stage) (m : Move Stage Choice) :
    Decidable (Separate c m) := by
  delta Separate
  cases m <;> infer_instance

/-- What a call that is inside relies on. -/
def Relies (cfg : Config) (b : Manager) : Stage → Prop
  | .counted => b.halfOpenRequests < cfg.requests
  | _ => b.admitted = 0

/-- The counter is within its bounds, and covers the probes. -/
structure Covered (cfg : Config) (b : Manager) : Prop where
  nonneg : 0 ≤ b.halfOpenRequests
  le : b.halfOpenRequests ≤ max 0 cfg.requests
  admitted : (b.admitted : ℤ) ≤ b.halfOpenRequests

variable {cfg : Config} {b b' : Manager} {t t' u : Stage}

/-- A call gets inside by one of the steps above, which establishes what it relies on. -/
theorem Step.inside_of_begins (h : Step cfg b t b' t') (hin : inside t' = true) :
    begins t = true ∧ Relies cfg b' t' := by
  cases h with
  | room hroom => exact ⟨rfl, hroom⟩
  | halfOpen | close | openAgain => exact ⟨rfl, rfl⟩
  | _ => cases hin

/-- From outside, the counter is not written, and the probes are forgotten at most. -/
theorem Step.of_outside (h : Step cfg b t b' t') (hout : inside t = false) :
    b'.halfOpenRequests = b.halfOpenRequests ∧ (b'.admitted = b.admitted ∨ b'.admitted = 0) := by
  cases h with
  | halfOpen | close | openUp | openAgain => exact ⟨rfl, .inr rfl⟩
  | probe | enter | reset | resetProbes => cases hout
  | _ => exact ⟨rfl, .inl rfl⟩

theorem Step.relies_other (h : Step cfg b t b' t') (hout : inside t = false)
    (hin : inside u = true) (hu : Relies cfg b u) : Relies cfg b' u := by
  obtain ⟨hrequests, hadmitted⟩ := h.of_outside hout
  cases u with
  | counted => exact hrequests.trans_lt hu
  | entering | closed | reopened => exact hadmitted.elim (fun h => h.trans hu) id
  | _ => cases hin

theorem Covered.admitProbe (h : Covered cfg b) (hroom : b.halfOpenRequests < cfg.requests) :
    Covered cfg b.admitProbe := by
  have hnonneg := h.nonneg
  have hadmitted := h.admitted
  have hlt : cfg.requests < 2 ^ 31 := int32_lt _
  have hsame : int32 (b.halfOpenRequests + 1) = b.halfOpenRequests + 1 :=
    int32_eq_self (by omega) (by omega)
  refine ⟨?_, ?_, ?_⟩ <;> simp only [Manager.admitProbe, hsame]
  · omega
  · exact le_max_of_le_right (by omega)
  · omega

theorem Covered.reset (hzero : b'.halfOpenRequests = 0) (hnone : b'.admitted = 0) :
    Covered cfg b' := by
  refine ⟨hzero.ge, hzero.le.trans (le_max_left 0 _), ?_⟩
  rw [hzero, hnone]
  rfl

theorem Covered.step (h : Covered cfg b) (hstep : Step cfg b t b' t')
    (ht : inside t = true → Relies cfg b t) : Covered cfg b' := by
  cases hin : inside t with
  | true =>
    have hrelies := ht hin
    cases hstep with
    | probe => exact h.admitProbe hrelies
    | enter | reset | resetProbes => exact Covered.reset rfl hrelies
    | _ => cases hin
  | false =>
    obtain ⟨hrequests, hadmitted⟩ := hstep.of_outside hin
    have hcovers := h.admitted
    have hnonneg := h.nonneg
    refine ⟨hrequests ▸ hnonneg, hrequests ▸ h.le, ?_⟩
    rw [hrequests]
    rcases hadmitted with h | h <;> omega

theorem covered_of_run {created : ℤ} {acts : List (Move Stage Choice)}
    {c : Goroutines.Config Manager Stage}
    (hrun : Run (code cfg).step Separate (start created) acts c) :
    c.Exclusive inside (Relies cfg) ∧ Covered cfg c.shared := by
  refine Code.run_invariant
    (I := fun c => c.Exclusive inside (Relies cfg) ∧ Covered cfg c.shared) ?_ ?_ hrun ?_
  · intro c t hc _ hentry
    obtain rfl : t = .called := by simpa [code, entry] using hentry
    exact ⟨hc.1.spawn rfl, hc.2⟩
  · intro c i x t o hc hsep ht ho
    obtain ⟨hstep, hnone⟩ := step_of_next ho
    refine ⟨hc.1.advance ht ?_ ?_ ?_ ?_, hc.2.step hstep (hc.1.relies t (List.mem_of_getElem? ht))⟩
    · intro u hu
      rw [hnone] at hu
      cases hu
    · intro _ hin
      exact hsep t ht (hstep.inside_of_begins hin).1
    · intro hin
      exact (hstep.inside_of_begins hin).2
    · intro hout u _ hin hu
      exact hstep.relies_other hout hin hu
  · refine ⟨⟨fun t ht => ?_, fun hi => ?_⟩, Covered.reset rfl rfl⟩
    · cases ht
    · cases hi

/-- If the two sections of different calls do not overlap, at most
`HalfOpenMaxRequests` calls are admitted from an entry into the half-open state to
the next change of state. -/
theorem admitted_le (cfg : Config) {created : ℤ} {acts : List (Move Stage Choice)}
    {c : Goroutines.Config Manager Stage}
    (hrun : Run (code cfg).step Separate (start created) acts c) :
    (c.shared.admitted : ℤ) ≤ cfg.halfOpenMaxRequests := by
  have hcovered := (covered_of_run hrun).2
  have hpos := cfg.halfOpenMaxRequests_pos
  have hle : cfg.requests ≤ cfg.halfOpenMaxRequests := int32_le_self (by omega)
  have hadmitted := hcovered.admitted
  rcases le_max_iff.mp hcovered.le with h | h
  · omega
  · omega

def single : Config where
  failureThreshold := 1
  failureThreshold_pos := Int.zero_lt_one
  successThreshold_pos := Int.zero_lt_one
  timeout_pos := minute_pos
  halfOpenMaxRequests_pos := Int.zero_lt_one

/-- A call opens the breaker; after the timeout a second call takes `n` steps. -/
def afterTimeout (n : ℕ) : List (Move Stage Choice) :=
  [Move.spawn Stage.called] ++ steps 0 8 0 true ++
    [Move.spawn Stage.called] ++ steps 1 n single.timeout false

theorem admitted_le_single : ∃ acts c, Run (code single).step Separate (start 0) acts c ∧
      c.shared.state = .halfOpen ∧ c.shared.admitted = 1 ∧
      (c.shared.admitted : ℤ) ≤ single.halfOpenMaxRequests := by
  refine ⟨_, exists_run_of (afterTimeout 7)
      (fun c => c.shared.state = .halfOpen ∧ c.shared.admitted = 1) (by decide +kernel) ?_⟩
  rintro c hrun ⟨hstate, hone⟩
  exact ⟨hstate, hone, admitted_le single hrun⟩

/-- The moves `acts` lead to a half-open state with more calls admitted than the limit. -/
def AdmitsMore (acts : List (Move Stage Choice)) : Prop :=
  ∃ c, Run (code single).step anyStep (start 0) acts c ∧ c.shared.state = .halfOpen ∧
    single.halfOpenMaxRequests < c.shared.admitted

/-- The second of two calls reads the counter before the first increments it, or is
admitted before the first resets it. -/
theorem admits_two :
    AdmitsMore (afterTimeout 6 ++ [Move.spawn Stage.called] ++
      steps 2 3 single.timeout false ++ steps 1 1 single.timeout false) ∧
    AdmitsMore (afterTimeout 4 ++ [Move.spawn Stage.called] ++
      steps 2 3 single.timeout false ++ steps 1 3 single.timeout false) := by
  constructor
  all_goals exact exists_run _ _ _ _ _ (by decide +kernel)

end Fluxor.Resilience.Breaker
