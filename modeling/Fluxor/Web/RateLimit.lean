import Fluxor.Support.Transition
import Mathlib.Algebra.Order.Ring.Int

/-!
# The rate limit of the requests

`rateLimiter` of `pkg/web/middleware/security/rate_limit.go`. Times are in
nanoseconds, and the clock never runs backwards. After each refill period a bucket
is full again, so that its capacity can be spent once per period and not once per
minute.
-/

namespace Fluxor.Web

open Transition Function List Option

def second : ℤ := 10 ^ 9

def minute : ℤ := 60 * second

structure TokenBucket where
  (tokens lastRefill capacity refillRate : ℤ)

/-- The bucket that `allow` makes for a key without one. -/
def newBucket (requestsPerMinute now : ℤ) : TokenBucket :=
  ⟨requestsPerMinute, now, requestsPerMinute, max (minute / requestsPerMinute) second⟩

def TokenBucket.refill (b : TokenBucket) (now : ℤ) : TokenBucket :=
  if b.refillRate ≤ now - b.lastRefill then { b with tokens := b.capacity, lastRefill := now }
  else b

def TokenBucket.take (b : TokenBucket) : Bool × TokenBucket :=
  if 0 < b.tokens then (true, { b with tokens := b.tokens - 1 }) else (false, b)

/-- `rateLimiter`, with the time and the requests that were allowed. -/
structure RateLimiter where
  buckets : String → Option TokenBucket := fun _ => none
  clock : ℤ
  allowed : List (String × ℤ) := []

def RateLimiter.allow (s : RateLimiter) (requestsPerMinute : ℤ) (key : String) (now : ℤ) :
    Bool × TokenBucket :=
  (((s.buckets key).getD (newBucket requestsPerMinute now)).refill now).take

/-- A bucket in the loop of `cleanup`. -/
def keepBucket (now : ℤ) (b : TokenBucket) : Option TokenBucket :=
  if 10 * minute < now - b.lastRefill then none else some b

inductive RateEvent
  | request (key : String) (now : ℤ)
  | cleanup (now : ℤ)

def RateLimiter.step (requestsPerMinute : ℤ) (s : RateLimiter) : RateEvent → Option RateLimiter
  | .request key now =>
    if s.clock ≤ now then
      let answer := s.allow requestsPerMinute key now
      some ⟨update s.buckets key (some answer.2), now,
        if answer.1 then s.allowed ++ [(key, now)] else s.allowed⟩
    else none
  | .cleanup now =>
    if s.clock ≤ now then
      some { s with buckets := fun key => (s.buckets key).bind (keepBucket now), clock := now }
    else none

def RateLimiter.times (s : RateLimiter) (key : String) : List ℤ :=
  (s.allowed.filter (·.1 = key)).map (·.2)

/-- In a minute from `t` on at most `2 * requestsPerMinute` requests were allowed. -/
def RateLimiter.Limited (s : RateLimiter) (requestsPerMinute : ℤ) (key : String) (t : ℤ) : Prop :=
  ((s.times key).filter fun u => t ≤ u ∧ u ≤ t + minute).length ≤ 2 * requestsPerMinute

/-- The bucket of the key is empty since the last request that was allowed. -/
structure Spent (s : RateLimiter) (key : String) : Prop where
  spaced : (s.times key).Pairwise fun a b => a + minute ≤ b
  bucket : ∀ b, s.buckets key = some b → b.tokens = 0 ∧ b.capacity = 1 ∧ b.refillRate = minute ∧
    b.lastRefill ≤ s.clock ∧ ∀ a ∈ s.times key, a ≤ b.lastRefill
  none : s.buckets key = none → ∀ a ∈ s.times key, a + minute ≤ s.clock

variable {s s' : RateLimiter} {key : String} {now : ℤ}

theorem newBucket_one (now : ℤ) : newBucket 1 now = ⟨1, now, 1, minute⟩ := by
  rw [newBucket, Int.ediv_one]
  rfl

section

variable (h : Spent s key) (hclock : s.clock ≤ now)

include h hclock

open RateLimiter

theorem Spent.allow :
    ((∀ a ∈ s.times key, a + minute ≤ now) ∧ s.allow 1 key now = (true, ⟨0, now, 1, minute⟩)) ∨
      ∃ b, s.buckets key = some b ∧ s.allow 1 key now = (false, b) := by
  have hminute : 0 < minute := by decide
  cases hb : s.buckets key with
  | none =>
    refine .inl ⟨fun a ha => (h.none hb a ha).trans hclock, ?_⟩
    rw [RateLimiter.allow, hb, getD_none, newBucket_one, TokenBucket.refill, sub_self,
      if_neg (not_le.mpr hminute)]
    rfl
  | some b =>
    obtain ⟨tokens, last, capacity, rate⟩ := b
    obtain ⟨rfl, rfl, rfl, -, hlast⟩ := h.bucket _ hb
    rw [RateLimiter.allow, hb, getD_some, TokenBucket.refill]
    by_cases hrefill : minute ≤ now - last
    · refine .inl ⟨fun a ha => ?_, ?_⟩
      · have hle := hlast a ha
        dsimp only at hle
        omega
      · rw [if_pos hrefill]
        rfl
    · rw [if_neg hrefill]
      exact .inr ⟨_, rfl, rfl⟩

theorem Spent.request {other : String}
    (hstep : s.step 1 (.request other now) = some s') : Spent s' key := by
  rw [step, if_pos hclock] at hstep
  obtain rfl := some.inj hstep
  by_cases hkey : key = other
  · subst hkey
    rcases h.allow hclock with ⟨hold, hallow⟩ | ⟨b, hb, hallow⟩
    · have htimes : times ⟨update s.buckets key (some ⟨0, now, 1, minute⟩),
          now, s.allowed ++ [(key, now)]⟩ key = s.times key ++ [now] := by
        simp [times, filter_append]
      simp only [hallow, if_true]
      refine ⟨?_, ?_, ?_⟩
      · rw [htimes, pairwise_append]
        refine ⟨h.spaced, pairwise_singleton _ _, fun a ha b hb => ?_⟩
        rw [mem_singleton.mp hb]
        exact hold a ha
      · intro b hb
        simp only [update_self] at hb
        cases hb
        refine ⟨rfl, rfl, rfl, le_rfl, fun a ha => ?_⟩
        rw [htimes, mem_append] at ha
        have hminute : 0 < minute := by decide
        rcases ha with ha | ha
        · have := hold a ha
          dsimp only
          omega
        · exact (mem_singleton.mp ha).le
      · intro hb
        simp [update_self] at hb
    · simp only [hallow, Bool.false_eq_true, if_false]
      rw [← hb, update_eq_self]
      obtain ⟨h0, h1, h2, hle, hlast⟩ := h.bucket b hb
      refine ⟨h.spaced, fun b' hb' => ?_, fun hnone => ?_⟩
      · cases hb.symm.trans hb'
        exact ⟨h0, h1, h2, hle.trans hclock, hlast⟩
      · exact absurd (hb.symm.trans hnone) (some_ne_none b)
  · -- the bucket and the times of another key are not touched
    have htimes : times ⟨update s.buckets other
        (some (s.allow 1 other now).2), now, if (s.allow 1 other now).1 = true
          then s.allowed ++ [(other, now)] else s.allowed⟩ key = s.times key := by
      simp only [times]
      split
      · simp [filter_append, Ne.symm hkey]
      · rfl
    refine ⟨htimes ▸ h.spaced, fun b hb => ?_, fun hnone a ha => ?_⟩
    · simp only [update_of_ne hkey] at hb
      obtain ⟨h0, h1, h2, hle, hlast⟩ := h.bucket b hb
      exact ⟨h0, h1, h2, hle.trans hclock, htimes ▸ hlast⟩
    · simp only [update_of_ne hkey] at hnone
      rw [htimes] at ha
      exact (h.none hnone a ha).trans hclock

theorem Spent.cleanup (hstep : s.step 1 (.cleanup now) = some s') : Spent s' key := by
  rw [step, if_pos hclock] at hstep
  obtain rfl := some.inj hstep
  refine ⟨h.spaced, fun b hb => ?_, fun hnone a ha => ?_⟩
  · obtain ⟨b', hb', hkeep⟩ := bind_eq_some_iff.mp hb
    rw [keepBucket] at hkeep
    split at hkeep
    · cases hkeep
    · cases hkeep
      obtain ⟨h0, h1, h2, hle, hlast⟩ := h.bucket b hb'
      exact ⟨h0, h1, h2, hle.trans hclock, hlast⟩
  · cases hb : s.buckets key with
    | none => exact (h.none hb a ha).trans hclock
    | some b =>
      have hlast := (h.bucket b hb).2.2.2.2 a ha
      dsimp only at hnone ⊢
      rw [hb, bind_some, keepBucket] at hnone
      split at hnone
      next hold =>
        have hminute : 0 < minute := by decide
        omega
      · cases hnone

end

theorem RateLimiter.clock_le {event : RateEvent} (hstep : s.step 1 event = some s') :
    s.clock ≤ match event with | .request _ now | .cleanup now => now := by
  by_contra hlt
  cases event <;> cases (if_neg hlt).symm.trans hstep

theorem Spent.limited (h : Spent s key) (t : ℤ) : s.Limited 1 key t := by
  have hspaced := h.spaced.filter fun u => decide (t ≤ u ∧ u ≤ t + minute)
  rw [RateLimiter.Limited]
  generalize hw : (s.times key).filter (fun u => t ≤ u ∧ u ≤ t + minute) = w at hspaced ⊢
  have hmem : ∀ u ∈ w, t ≤ u ∧ u ≤ t + minute := by
    intro u hu
    rw [← hw] at hu
    simpa using (mem_filter.mp hu).2
  match w, hspaced, hmem with
  | [], _, _ | [_], _, _ | [_, _], _, _ => simp
  | a :: b :: c :: rest, hspaced, hmem =>
    -- a third request is two minutes after the first one
    have hab := (pairwise_cons.mp hspaced).1 b (by simp)
    have hbc := (pairwise_cons.mp (pairwise_cons.mp hspaced).2).1 c (by simp)
    have ha := hmem a (by simp)
    have hc := hmem c (by simp)
    have hminute : 0 < minute := by decide
    omega

/-- With one request per minute, no minute has more than two allowed requests. -/
theorem rateLimit_one {start : ℤ} {events : List RateEvent}
    (hrun : Run (RateLimiter.step 1) anyStep { clock := start } events s) (key : String) (t : ℤ) :
    s.Limited 1 key t := by
  refine Spent.limited (hrun.invariant (I := fun s => Spent s key) ?_ ?_) t
  · intro s event s' h _ hstep
    cases event with
    | request => exact h.request (RateLimiter.clock_le hstep) hstep
    | cleanup => exact h.cleanup (RateLimiter.clock_le hstep) hstep
  · exact ⟨.nil, nofun, nofun⟩

section

variable {requestsPerMinute : ℤ}

/-- A full bucket that has served all but `n` of its tokens at the time `now`. -/
def TokenBucket.left (requestsPerMinute now : ℤ) (n : ℕ) : TokenBucket :=
  { newBucket requestsPerMinute now with tokens := n }

theorem refill_left (n : ℕ) :
    (TokenBucket.left requestsPerMinute now n).refill now =
      TokenBucket.left requestsPerMinute now n := by
  refine if_neg ?_
  have hsecond : 0 < second := by decide
  have hrate := lt_max_of_lt_right (b := minute / requestsPerMinute) hsecond
  simp only [TokenBucket.left, newBucket]
  omega

theorem exists_request {n : ℕ} (hclock : s.clock ≤ now)
    (hfull : ((s.buckets key).getD (newBucket requestsPerMinute now)).refill now =
      .left requestsPerMinute now (n + 1)) :
    ∃ s', s.step requestsPerMinute (.request key now) = some s' ∧
      s'.buckets key = some (.left requestsPerMinute now n) ∧ s'.clock = now ∧
      s'.times key = s.times key ++ [now] := by
  have hallow : s.allow requestsPerMinute key now =
      (true, .left requestsPerMinute now n) := by
    rw [RateLimiter.allow, hfull, TokenBucket.take, if_pos (by simp [TokenBucket.left])]
    simp [TokenBucket.left]
  refine ⟨_, if_pos hclock, ?_, rfl, ?_⟩
  · simp [hallow]
  · simp [RateLimiter.times, hallow, filter_append]

/-- A full bucket serves as many requests at one time as it has tokens. -/
theorem exists_requests (requestsPerMinute : ℤ) (key : String) (now : ℤ) {s : RateLimiter} {n : ℕ}
    (hclock : s.clock ≤ now)
    (hfull : ((s.buckets key).getD (newBucket requestsPerMinute now)).refill now =
      .left requestsPerMinute now (n + 1)) :
    ∃ s', Run (RateLimiter.step requestsPerMinute) anyStep s
        (replicate (n + 1) (.request key now)) s' ∧
      s'.buckets key = some (.left requestsPerMinute now 0) ∧ s'.clock = now ∧
      s'.times key = s.times key ++ replicate (n + 1) now := by
  induction n generalizing s with
  | zero =>
    obtain ⟨s', hstep, hbucket, hnow, htimes⟩ := exists_request hclock hfull
    exact ⟨s', .cons trivial hstep (.nil s'), hbucket, hnow, htimes⟩
  | succ n ih =>
    obtain ⟨s', hstep, hbucket, hnow, htimes⟩ := exists_request hclock hfull
    have hfull' : ((s'.buckets key).getD (newBucket requestsPerMinute now)).refill now =
        .left requestsPerMinute now (n + 1) := by
      rw [hbucket, getD_some, refill_left]
    obtain ⟨s'', hrun, hbucket', hnow', htimes'⟩ := ih hnow.le hfull'
    refine ⟨s'', .cons trivial hstep hrun, hbucket', hnow', ?_⟩
    rw [htimes', htimes, append_assoc]
    rfl

theorem refill_of_period {period : ℤ}
    (hperiod : (newBucket requestsPerMinute 0).refillRate = period) {n : ℕ}
    (hn : requestsPerMinute = n) (last : ℤ)
    (hbucket : s.buckets key = some (.left requestsPerMinute last 0)) :
    ((s.buckets key).getD (newBucket requestsPerMinute (last + period))).refill (last + period) =
      .left requestsPerMinute (last + period) n := by
  rw [hbucket, getD_some, TokenBucket.refill, if_pos]
  · simp [TokenBucket.left, newBucket, hn]
  · simp only [TokenBucket.left, newBucket] at hperiod ⊢
    omega

/-- In two refill periods the capacity is spent three times. -/
theorem exists_three_capacities {n : ℕ} (hn : requestsPerMinute = n + 1) {period : ℤ}
    (hperiod : (newBucket requestsPerMinute 0).refillRate = period) (hpos : 0 < period)
    (key : String) : ∃ events s', Run (RateLimiter.step requestsPerMinute) anyStep { clock := 0 }
      events s' ∧ s'.times key = replicate (n + 1) 0 ++ replicate (n + 1) period ++
        replicate (n + 1) (period + period) := by
  obtain ⟨s₁, hrun₁, hbucket₁, hclock₁, htimes₁⟩ := exists_requests
    requestsPerMinute key 0 (s := { clock := 0 }) (n := n) le_rfl (by
      rw [getD_none, ← refill_left]
      simp [TokenBucket.left, newBucket, hn])
  obtain ⟨s₂, hrun₂, hbucket₂, hclock₂, htimes₂⟩ := exists_requests
    requestsPerMinute key _ (n := n) (by omega)
    (refill_of_period hperiod (n := n + 1) (by omega) 0 hbucket₁)
  obtain ⟨s₃, hrun₃, -, -, htimes₃⟩ := exists_requests
    requestsPerMinute key _ (n := n) (by omega)
    (refill_of_period hperiod (n := n + 1) (by omega) _ hbucket₂)
  refine ⟨_, s₃, (hrun₁.append hrun₂).append hrun₃, ?_⟩
  rw [htimes₃, htimes₂, htimes₁, zero_add]
  rfl

/-- The limit holds in every run exactly if one request per minute is allowed. -/
theorem rateLimit_iff (hpos : 1 ≤ requestsPerMinute) :
    (∀ start events s,
      Run (RateLimiter.step requestsPerMinute) anyStep { clock := start } events s →
      ∀ key t, s.Limited requestsPerMinute key t) ↔ requestsPerMinute = 1 := by
  constructor
  · intro hlimited
    by_contra hne
    obtain ⟨n, hn⟩ := Int.eq_ofNat_of_zero_le (by omega : 0 ≤ requestsPerMinute - 1)
    have hhalf : minute / requestsPerMinute ≤ 30 * second :=
      Int.ediv_le_of_le_mul (by omega) (by
        have hmul := Int.mul_le_mul_of_nonneg_left (by omega : 2 ≤ requestsPerMinute)
          (by decide : 0 ≤ 30 * second)
        exact hmul)
    obtain ⟨events, s, hrun, htimes⟩ := exists_three_capacities
      (by omega : requestsPerMinute = n + 1) rfl (lt_max_of_lt_right (by decide)) "a"
    have hle : (newBucket requestsPerMinute 0).refillRate ≤ 30 * second :=
      max_le hhalf (by decide)
    have hpositive : 0 < (newBucket requestsPerMinute 0).refillRate :=
      lt_max_of_lt_right (by decide)
    have hbound := hlimited 0 events s hrun "a" 0
    have hminute : minute = 30 * second + 30 * second := by decide
    rw [RateLimiter.Limited, htimes, filter_eq_self.mpr] at hbound
    · simp at hbound
      omega
    · intro u hu
      simp only [mem_append, mem_replicate] at hu
      simp only [decide_eq_true_eq]
      omega
  · rintro rfl start events s hrun key t
    exact rateLimit_one hrun key t

end

theorem rateLimit_iff_two : 1 ≤ (2 : ℤ) ∧ ¬∀ start events s,
    Run (RateLimiter.step 2) anyStep { clock := start } events s →
      ∀ key t, s.Limited 2 key t := by
  refine ⟨by decide, fun h => ?_⟩
  exact absurd ((rateLimit_iff (by decide)).mp h) (by decide)

/-- Two requests per minute: five are allowed within a minute. -/
theorem rateLimit_exceeded :
    ∃ s, Run (RateLimiter.step 2) anyStep { clock := 0 }
      ([0, 29, 30, 30, 60, 60].map fun t => .request "a" (t * second)) s ∧
        ¬s.Limited 2 "a" (29 * second) := by
  refine ⟨_, run_exec (RateLimiter.step 2) anyStep _ _ (by decide), ?_⟩
  unfold RateLimiter.Limited
  decide +kernel

end Fluxor.Web
