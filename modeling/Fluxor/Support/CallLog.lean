import Fluxor.Support.Transition
import Mathlib.Data.List.Pairwise

/-!
# Numbered calls that append to logs

An abstract machine for producers that each make one call at a time. A call has a
payload and a destination; before it returns it may append its payload once to the
log of the destination, and it may return an error only if it has not. Whatever the
others do, the entries of one producer stand in every log in the order of its calls,
each at most once, and only in the log of the call's destination.
-/

namespace Fluxor.Support

open Fluxor.Transition Function List

structure Entry (ι ε : Type*) where
  producer : ι
  call : ℕ
  payload : ε

/-- Where a producer is: between calls, in a call that has appended nothing,
or in a call that has. -/
inductive CallPhase (ε δ : Type*)
  | idle
  | pending (payload : ε) (dest : δ)
  | logged (payload : ε) (dest : δ)

/-- A finished call; a result other than `none` is an error. -/
structure Finished (ι ρ : Type*) where
  producer : ι
  call : ℕ
  result : Option ρ

/-- `calls p` is the number of calls `p` has begun, so the current one is
number `calls p - 1`. -/
structure CallLog (ι ε δ ρ : Type*) where
  log : δ → List (Entry ι ε)
  phase : ι → CallPhase ε δ
  calls : ι → ℕ
  routes : List (Entry ι ε × δ)
  returns : List (Finished ι ρ)

inductive CallAction (ι ε δ ρ : Type*)
  | begin (p : ι) (payload : ε) (dest : δ)
  | reject (p : ι) (err : ρ)
  | append (p : ι)
  | fail (p : ι) (result : Option ρ)
  | finish (p : ι)

namespace CallLog

variable {ι ε δ ρ : Type*} [DecidableEq ι] [DecidableEq δ]

def current (s : CallLog ι ε δ ρ) (p : ι) (payload : ε) : Entry ι ε := ⟨p, s.calls p - 1, payload⟩

def step (s : CallLog ι ε δ ρ) : CallAction ι ε δ ρ → Option (CallLog ι ε δ ρ)
  | .begin p payload dest =>
    match s.phase p with
    | .idle => some { s with
        phase := update s.phase p (.pending payload dest)
        calls := update s.calls p (s.calls p + 1)
        routes := s.routes ++ [(⟨p, s.calls p, payload⟩, dest)] }
    | _ => none
  | .reject p err =>
    match s.phase p with
    | .idle => some { s with
        calls := update s.calls p (s.calls p + 1)
        returns := s.returns ++ [⟨p, s.calls p, some err⟩] }
    | _ => none
  | .append p =>
    match s.phase p with
    | .pending payload dest => some { s with
        phase := update s.phase p (.logged payload dest)
        log := update s.log dest (s.log dest ++ [s.current p payload]) }
    | _ => none
  | .fail p result =>
    match s.phase p with
    | .pending _ _ => some { s with
        phase := update s.phase p .idle
        returns := s.returns ++ [⟨p, s.calls p - 1, result⟩] }
    | _ => none
  | .finish p =>
    match s.phase p with
    | .logged _ _ => some { s with
        phase := update s.phase p .idle
        returns := s.returns ++ [⟨p, s.calls p - 1, none⟩] }
    | _ => none

variable {s : CallLog ι ε δ ρ} {p : ι}

theorem step_begin (hp : s.phase p = .idle) (payload : ε) (dest : δ) :
    s.step (.begin p payload dest) = some { s with
      phase := update s.phase p (.pending payload dest)
      calls := update s.calls p (s.calls p + 1)
      routes := s.routes ++ [(⟨p, s.calls p, payload⟩, dest)] } := by
  simp only [step, hp]

theorem step_reject (hp : s.phase p = .idle) (err : ρ) : s.step (.reject p err) = some { s with
      calls := update s.calls p (s.calls p + 1)
      returns := s.returns ++ [⟨p, s.calls p, some err⟩] } := by
  simp only [step, hp]

variable {payload : ε} {dest : δ}

theorem step_append (hp : s.phase p = .pending payload dest) : s.step (.append p) = some { s with
      phase := update s.phase p (.logged payload dest)
      log := update s.log dest (s.log dest ++ [s.current p payload]) } := by
  simp only [step, hp]

theorem step_fail (hp : s.phase p = .pending payload dest) (result : Option ρ) :
    s.step (.fail p result) = some { s with
      phase := update s.phase p .idle
      returns := s.returns ++ [⟨p, s.calls p - 1, result⟩] } := by
  simp only [step, hp]

theorem step_finish (hp : s.phase p = .logged payload dest) : s.step (.finish p) = some { s with
      phase := update s.phase p .idle
      returns := s.returns ++ [⟨p, s.calls p - 1, none⟩] } := by
  simp only [step, hp]

def init : CallLog ι ε δ ρ where
  log := fun _ => []
  phase := fun _ => .idle
  calls := fun _ => 0
  routes := []
  returns := []

/-- All calls `p` has settled lie below `bound p`: every call it began, but not the
current one before it has appended. -/
def bound (s : CallLog ι ε δ ρ) (p : ι) : ℕ :=
  match s.phase p with
  | .pending _ _ => s.calls p - 1
  | _ => s.calls p

structure Inv (s : CallLog ι ε δ ρ) : Prop where
  busy : ∀ p payload dest, s.phase p = .pending payload dest ∨ s.phase p = .logged payload dest →
      0 < s.calls p ∧ (s.current p payload, dest) ∈ s.routes
  log_lt : ∀ d, ∀ e ∈ s.log d, e.call < s.bound e.producer
  log_sorted : ∀ d p, ((s.log d).filter fun e => e.producer = p).Pairwise fun e f => e.call < f.call
  log_route : ∀ d, ∀ e ∈ s.log d, (e, d) ∈ s.routes
  route_lt : ∀ r ∈ s.routes, r.1.call < s.calls r.1.producer
  route_unique : ∀ r ∈ s.routes, ∀ r' ∈ s.routes,
    r.1.producer = r'.1.producer → r.1.call = r'.1.call → r = r'
  return_lt : ∀ x ∈ s.returns, x.call < s.calls x.producer ∧
    (s.phase x.producer ≠ .idle → x.call + 1 < s.calls x.producer)
  return_failed : ∀ x ∈ s.returns, x.result ≠ none → ∀ d, ∀ e ∈ s.log d,
    e.producer = x.producer → e.call ≠ x.call

omit [DecidableEq δ] in
theorem inv_init : Inv (init : CallLog ι ε δ ρ) := by
  constructor <;> simp [init]

theorem le_update_succ (f : ι → ℕ) (p q : ι) : f q ≤ update f p (f p + 1) q := by
  grind

section

variable (hs : Inv s)

include hs

section

omit [DecidableEq δ]

theorem Inv.log_lt_calls {d : δ} {e : Entry ι ε} (he : e ∈ s.log d) :
    e.call < s.calls e.producer := by
  have h := hs.log_lt d e he
  rw [bound] at h
  split at h
  · omega
  · exact h

theorem inv_begin (payload : ε) (dest : δ) : Inv { s with
      phase := update s.phase p (.pending payload dest)
      calls := update s.calls p (s.calls p + 1)
      routes := s.routes ++ [(⟨p, s.calls p, payload⟩, dest)] } := by
  have hcalls := le_update_succ s.calls p
  refine ⟨?_, ?_, hs.log_sorted, ?_, ?_, ?_, ?_, hs.return_failed⟩
  · intro q payload' dest' h
    by_cases hq : q = p
    · grind [current]
    · simp only [update_of_ne hq] at h
      obtain ⟨h1, h2⟩ := hs.busy q payload' dest' h
      grind [current]
  · intro d e he
    have h := hs.log_lt d e he
    grind [bound]
  · grind [Inv.log_route]
  · intro r hr
    grind [Inv.route_lt]
  · intro r hr r' hr' hprod hcall
    grind [Inv.route_unique, Inv.route_lt]
  grind [Inv.return_lt]

theorem inv_reject (hp : s.phase p = .idle) (err : ρ) : Inv { s with
      calls := update s.calls p (s.calls p + 1)
      returns := s.returns ++ [⟨p, s.calls p, some err⟩] } := by
  have hcalls := le_update_succ s.calls p
  refine ⟨?_, ?_, hs.log_sorted, hs.log_route, ?_, hs.route_unique, ?_, ?_⟩
  · intro q payload dest h
    have hq : q ≠ p := by grind
    obtain ⟨h1, h2⟩ := hs.busy q payload dest h
    grind [current]
  · intro d e he
    have h := hs.log_lt d e he
    grind [bound]
  · intro r hr
    exact Nat.lt_of_lt_of_le (hs.route_lt r hr) (hcalls _)
  · grind [Inv.return_lt]
  grind [Inv.return_failed, Inv.log_lt_calls]

end

theorem inv_append (hp : s.phase p = .pending payload dest) : Inv { s with
      phase := update s.phase p (.logged payload dest)
      log := update s.log dest (s.log dest ++ [s.current p payload]) } := by
  obtain ⟨hpos, hroute⟩ := hs.busy p payload dest (Or.inl hp)
  have hmem : ∀ {d e}, e ∈ update s.log dest (s.log dest ++ [s.current p payload]) d →
      e ∈ s.log d ∨ d = dest ∧ e = s.current p payload := by
    grind
  have hbelow : ∀ {d e}, e ∈ s.log d → e.producer = p → e.call < s.calls p - 1 := by
    intro d e he hprod
    have h := hs.log_lt d e he
    rwa [bound, hprod, hp] at h
  refine ⟨?_, ?_, ?_, ?_, hs.route_lt, hs.route_unique, ?_, ?_⟩
  · intro q payload' dest' h
    by_cases hq : q = p
    · subst hq
      simp only [update_self, reduceCtorEq, CallPhase.logged.injEq, false_or] at h
      obtain ⟨rfl, rfl⟩ := h
      exact ⟨hpos, hroute⟩
    · simp only [update_of_ne hq] at h
      exact hs.busy q payload' dest' h
  · intro d e he
    rcases hmem he with he | ⟨-, rfl⟩
    · have h := hs.log_lt_calls he
      by_cases hq : e.producer = p
      · grind [bound]
      · have h' := hs.log_lt d e he
        simpa [bound, hq] using h'
    grind [bound, current]
  · intro d q
    by_cases hd : d = dest
    · subst hd
      simp only [update_self, filter_append]
      rw [pairwise_append]
      refine ⟨hs.log_sorted d q, ?_, ?_⟩
      · grind
      · intro e he f hf
        simp only [mem_filter, mem_singleton, decide_eq_true_eq] at he hf
        obtain ⟨rfl, hq⟩ := hf
        have hpq : p = q := hq
        subst hpq
        exact hbelow he.1 he.2
    · simp only [update_of_ne hd]
      exact hs.log_sorted d q
  · grind [Inv.log_route]
  · grind [Inv.return_lt]
  · intro x hx hres d e he hprod
    rcases hmem he with he | ⟨-, rfl⟩
    · exact hs.return_failed x hx hres d e he hprod
    · have hprod' : p = x.producer := hprod
      have hlt := (hs.return_lt x hx).2 (by rw [← hprod', hp]; simp)
      rw [← hprod'] at hlt
      change s.calls p - 1 ≠ x.call
      omega

omit [DecidableEq δ] in
theorem inv_return {result : Option ρ}
    (hp : s.phase p = .pending payload dest ∨ s.phase p = .logged payload dest ∧ result = none) :
    Inv { s with
      phase := update s.phase p .idle
      returns := s.returns ++ [⟨p, s.calls p - 1, result⟩] } := by
  have hpos : 0 < s.calls p := (hs.busy p payload dest (hp.imp id And.left)).1
  refine ⟨?_, ?_, hs.log_sorted, hs.log_route, hs.route_lt, hs.route_unique, ?_, ?_⟩
  · intro q payload' dest' h
    have hq : q ≠ p := by
      rintro rfl
      simp at h
    simp only [update_of_ne hq] at h
    exact hs.busy q payload' dest' h
  · intro d e he
    by_cases hq : e.producer = p
    · grind [Inv.log_lt_calls, bound]
    · have h := hs.log_lt d e he
      simpa [bound, hq] using h
  · grind [Inv.return_lt]
  · intro x hx hres d e he hprod
    rcases mem_append.mp hx with hx | hx
    · exact hs.return_failed x hx hres d e he hprod
    · rw [mem_singleton] at hx
      subst hx
      rcases hp with hp | ⟨-, rfl⟩
      · have h := hs.log_lt d e he
        grind [bound]
      · exact absurd rfl hres

theorem inv_step {t : CallLog ι ε δ ρ} {a : CallAction ι ε δ ρ}
    (h : s.step a = some t) : Inv t := by
  cases a with
  | begin => grind [inv_begin, step]
  | reject => grind [inv_reject, step]
  | append => grind [inv_append, step]
  | fail => grind [inv_return, step]
  | finish p =>
    cases hp : s.phase p with
    | logged =>
      rw [step_finish hp] at h
      cases h
      exact inv_return hs (Or.inr ⟨hp, rfl⟩)
    | _ => simp [step, hp] at h

end

end CallLog
end Fluxor.Support
