import Fluxor.Support.GoInt
import Fluxor.Support.Transition
import Fluxor.Support.Window
import Mathlib.Algebra.Order.Ring.Int

/-!
# The rate limit of the VPN

`RateLimiter` of `pkg/vpn/ratelimit.go` without `Reset`. Times are in nanoseconds,
and the clock never runs backwards. `-rl.windowSize * 2` overflows for a window
over 146 years, and `cleanup` then drops requests that still count.
-/

namespace Fluxor.Vpn

open Support Transition Function List

/-- `RateLimiter`, with the time and when each key was allowed. A key without an
entry has no requests. -/
structure RateLimiter where
  requests : String → List ℤ := fun _ => []
  clock : ℤ
  allowed : String → List ℤ := fun _ => []

/-- `Allow` on the requests of its key. -/
def allow (maxRequests : ℕ) (windowSize : ℤ) (requests : List ℤ) (now : ℤ) : Bool × List ℤ :=
  let validRequests := requests.filter (now - windowSize < ·)
  if maxRequests ≤ validRequests.length then (false, validRequests)
  else (true, validRequests ++ [now])

/-- `Allow` of a key, or a tick of `cleanup`. -/
def RateLimiter.step (maxRequests : ℕ) (windowSize : ℤ) (rl : RateLimiter)
    (event : Option String × ℤ) : Option RateLimiter :=
  let (key, now) := event
  if rl.clock ≤ now then
    match key with
    | some key =>
      let answer := allow maxRequests windowSize (rl.requests key) now
      some ⟨update rl.requests key answer.2, now,
        update rl.allowed key (rl.allowed key ++ if answer.1 then [now] else [])⟩
    | none =>
      let cutoff := now + int64 (-windowSize * 2)
      some ⟨fun key => (rl.requests key).filter (cutoff < ·), now, rl.allowed⟩
  else none

variable {n : ℕ} {w now : ℤ} {requests allowed : List ℤ}

structure Limited (n : ℕ) (w : ℤ) (requests allowed : List ℤ) (now : ℤ) : Prop where
  past : ∀ t ∈ allowed, t ≤ now
  stored : ∀ cutoff, now - w ≤ cutoff →
    allowed.countP (cutoff < ·) = requests.countP (cutoff < ·)
  bound : ∀ t, countIn w t allowed ≤ n

theorem Limited.mono {clock : ℤ} (h : Limited n w requests allowed clock)
    (hclock : clock ≤ now) : Limited n w requests allowed now :=
  ⟨fun t ht => (h.past t ht).trans hclock, fun cutoff _ => h.stored cutoff (by omega), h.bound⟩

theorem Limited.filter {a : ℤ} (h : Limited n w requests allowed now) (ha : a ≤ now - w) :
    Limited n w (requests.filter (a < ·)) allowed now := by
  refine ⟨h.past, fun cutoff hcutoff => ?_, h.bound⟩
  rw [h.stored cutoff hcutoff, countP_filter]
  refine countP_congr fun t _ => ?_
  simp only [Bool.and_eq_true, decide_eq_true_eq]
  omega

theorem Limited.allow (h : Limited n w requests allowed now) :
    Limited n w (allow n w requests now).2
      (allowed ++ if (allow n w requests now).1 then [now] else []) now := by
  have hvalid := h.filter le_rfl
  rw [Vpn.allow]
  split
  · simpa using hvalid
  next hlt =>
    rw [← countP_eq_length_filter] at hlt
    refine ⟨?_, fun cutoff hcutoff => ?_, countIn_append le_rfl le_rfl h.bound
      (fun cutoff hcutoff => (h.stored cutoff hcutoff).le) (not_le.mp hlt)⟩
    · simpa [or_imp, forall_and] using h.past
    · simp [hvalid.stored cutoff hcutoff]

variable {rl rl' : RateLimiter}

theorem Limited.step (hpos : 0 < w) (hmax : w ≤ 2 ^ 62) {key : String}
    {event : Option String × ℤ}
    (h : Limited n w (rl.requests key) (rl.allowed key) rl.clock)
    (hstep : rl.step n w event = some rl') :
    Limited n w (rl'.requests key) (rl'.allowed key) rl'.clock := by
  obtain ⟨event, now⟩ := event
  dsimp only [RateLimiter.step] at hstep
  split at hstep
  next hclock =>
    have h := h.mono hclock
    cases event with
    | some other =>
      cases hstep
      by_cases hkey : key = other
      · subst hkey
        simpa using h.allow
      · simpa [hkey] using h
    | none =>
      cases hstep
      have hint : int64 (-w * 2) = -w * 2 := int64_eq_self (by omega) (by omega)
      exact h.filter (by omega)
  · cases hstep

/-- With a window of at most `2 ^ 62` nanoseconds no window holds more requests than
allowed, and a key is refused only at the limit. -/
theorem allowed_in_window (hpos : 0 < w) (hmax : w ≤ 2 ^ 62)
    {start : ℤ} {events : List (Option String × ℤ)}
    (hrun : Run (RateLimiter.step n w) anyStep { clock := start } events rl)
    (key : String) : (∀ t, countIn w t (rl.allowed key) ≤ n) ∧
      ∀ now, rl.clock ≤ now → (allow n w (rl.requests key) now).1 = false →
        countIn w now (rl.allowed key) = n := by
  have h := hrun.invariant (I := fun rl =>
      Limited n w (rl.requests key) (rl.allowed key) rl.clock)
    (fun h _ hstep => h.step hpos hmax hstep)
    ⟨fun _ ht => (not_mem_nil ht).elim, fun _ _ => rfl, fun _ => Nat.zero_le _⟩
  refine ⟨h.bound, fun now hclock hrefused => (h.bound now).antisymm ?_⟩
  rw [allow] at hrefused
  split at hrefused
  next hle =>
    rw [← countP_eq_length_filter, ← h.stored _ (by omega)] at hle
    refine hle.trans (countP_mono_left fun t ht hlt => ?_)
    have hpast := h.past t ht
    simp only [decide_eq_true_eq] at hlt ⊢
    omega
  · cases hrefused

theorem allowed_in_window_two : ∃ rl : RateLimiter,
    rl.allowed "a" = [1, 11] ∧ ∀ t, countIn 10 t (rl.allowed "a") ≤ 1 := by
  obtain ⟨rl, hrun, hallowed⟩ := exists_run (RateLimiter.step 1 10) anyStep { clock := 0 }
    [(some "a", 1), (some "a", 10), (none, 10), (some "a", 11)] (·.allowed "a" = [1, 11])
    (by decide +kernel)
  exact ⟨rl, hallowed, (allowed_in_window (by decide) (by decide) hrun "a").1⟩

/-- A `cleanup` between two requests drops the first. -/
theorem allowed_after_overflow : ∃ events rl,
    Run (RateLimiter.step 1 (2 ^ 62 + 1)) anyStep { clock := 0 } events rl ∧
      countIn (2 ^ 62 + 1) (2 ^ 62 + 1) (rl.allowed "a") = 2 := by
  obtain ⟨rl, hrun, hcount⟩ := exists_run (RateLimiter.step 1 (2 ^ 62 + 1)) anyStep { clock := 0 }
    [(some "a", 2 ^ 62), (none, 2 ^ 62 + 1), (some "a", 2 ^ 62 + 1)]
    (fun rl => countIn (2 ^ 62 + 1) (2 ^ 62 + 1) (rl.allowed "a") = 2) (by decide +kernel)
  exact ⟨_, rl, hrun, hcount⟩

end Fluxor.Vpn
