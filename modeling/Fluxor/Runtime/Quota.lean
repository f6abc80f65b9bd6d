import Fluxor.Support.GoInt
import Fluxor.Support.Transition

/-!
# Quotas

A quota of `pkg/core/runtime/quota/quota.go` and the calls of `Acquire`, `Release`
and `Reset` that find it, each under the lock of the quota. `Acquire` compares the
sum of the usage and the amount with the limit. A sum that wraps around is granted
and leaves a negative usage.
-/

namespace Fluxor.Runtime

open Support Transition

/-- `Quota`, with the sum granted since the usage was last set to zero or an amount
was released. The statistics are left out. -/
structure Quota where
  (limit window : ℤ)
  usage : ℤ := 0
  lastReset : ℤ
  granted : ℤ := 0

structure Acquired where
  ok : Bool
  (usage remaining : ℤ)

namespace Quota

def register (limit window now : ℤ) : Except String Quota :=
  if limit < 0 then .error "quota limit cannot be negative"
  else if window < 0 then .error "quota window cannot be negative"
  else .ok { limit := limit, window := window, lastReset := now }

variable (q : Quota) (amount now : ℤ)

def reset : Quota :=
  { q with usage := 0, lastReset := now, granted := 0 }

def expire : Quota :=
  if 0 < q.window ∧ q.window ≤ durationSub now q.lastReset then q.reset now else q

def acquire : Quota × Except String Acquired :=
  if amount < 0 then (q, .error "amount cannot be negative")
  else
    let q := q.expire now
    let newUsage := int64 (q.usage + amount)
    if 0 < q.limit ∧ q.limit < newUsage then
      (q, .ok ⟨false, q.usage, int64 (q.limit - q.usage)⟩)
    else
      ({ q with usage := newUsage, granted := q.granted + amount },
        .ok ⟨true, newUsage, if 0 < q.limit then max 0 (int64 (q.limit - newUsage)) else -1⟩)

def release : Quota × Except String Unit :=
  if amount < 0 then (q, .error "amount cannot be negative")
  else ({ q with usage := max 0 (int64 (q.usage - amount)), granted := 0 }, .ok ())

inductive Call
  | acquire (amount now : ℤ)
  | release (amount : ℤ)
  | reset (now : ℤ)

def step (q : Quota) : Call → Option Quota
  | .acquire amount now => some (q.acquire amount now).1
  | .release amount => some (q.release amount).1
  | .reset now => some (q.reset now)

/-- The amounts are of type `int64`, and no sum leaves it. -/
def NoOverflow (q : Quota) : Call → Prop
  | .acquire amount now => (q.expire now).usage + amount < 2 ^ 63
  | .release amount => amount < 2 ^ 63
  | .reset _ => True

instance (call : Call) : Decidable (q.NoOverflow call) := by
  delta NoOverflow
  cases call <;> infer_instance

structure Within (limit : ℤ) (q : Quota) : Prop where
  limit_eq : q.limit = limit
  usage_nonneg : 0 ≤ q.usage
  usage_le : q.usage ≤ limit
  granted_le : q.granted ≤ q.usage

variable {q amount now} {limit : ℤ}

section

variable (h : Within limit q)

include h

theorem Within.reset : Within limit (q.reset now) :=
  ⟨h.limit_eq, Int.le_refl _, Int.le_trans h.usage_nonneg h.usage_le, Int.le_refl _⟩

theorem Within.expire (now : ℤ) : Within limit (q.expire now) := by
  rw [Quota.expire]
  split
  · exact h.reset
  · exact h

theorem Within.acquire (hpos : 0 < limit)
    (hsum : (q.expire now).usage + amount < 2 ^ 63) : Within limit (q.acquire amount now).1 := by
  rw [Quota.acquire]
  split
  · exact h
  next hamount =>
    obtain ⟨hlimit, hnonneg, hle, hgranted⟩ := h.expire now
    simp only [int64_eq_self (x := (q.expire now).usage + amount) (by omega) hsum]
    split
    · exact ⟨hlimit, hnonneg, hle, hgranted⟩
    · constructor <;> simp only <;> omega

theorem Within.release (hmax : limit < 2 ^ 63) (hamount : amount < 2 ^ 63) :
    Within limit (q.release amount).1 := by
  rw [Quota.release]
  split
  · exact h
  · obtain ⟨hlimit, hnonneg, hle, -⟩ := h
    rw [int64_eq_self (by omega) (by omega)]
    constructor <;> simp only <;> omega

end

/-- As long as no sum overflows, usage and grants stay within the limit. -/
theorem within_of_noOverflow {window start : ℤ} {q₀ : Quota} {calls : List Call}
    (hpos : 0 < limit) (hmax : limit < 2 ^ 63) (hregister : register limit window start = .ok q₀)
    (hrun : Run step NoOverflow q₀ calls q) :
    0 ≤ q.usage ∧ q.usage ≤ limit ∧ q.granted ≤ limit := by
  have hwithin : Within limit q := by
    refine hrun.invariant (I := Within limit) ?_ ?_
    · intro q call q' h hok hstep
      cases call with
      | acquire =>
        cases hstep
        exact h.acquire hpos hok
      | release =>
        cases hstep
        exact h.release hmax hok
      | reset =>
        cases hstep
        exact h.reset
    · rw [register, if_neg (by omega)] at hregister
      split at hregister <;> cases hregister
      exact ⟨rfl, Int.le_refl _, Int.le_of_lt hpos, Int.le_refl _⟩
  exact ⟨hwithin.usage_nonneg, hwithin.usage_le, Int.le_trans hwithin.granted_le hwithin.usage_le⟩

def ten : Quota :=
  { limit := 10, window := 0, lastReset := 0 }

theorem within_of_noOverflow_ten : ∃ calls q, Run step NoOverflow ten calls q ∧ q.usage = 7 ∧
    0 ≤ q.usage ∧ q.usage ≤ 10 ∧ q.granted ≤ 10 := by
  obtain ⟨q, hrun, husage⟩ := exists_run step NoOverflow ten
    [.acquire 4 0, .acquire 7 1, .acquire 6 2, .release 3] (fun q => q.usage = 7) (by decide)
  have hregister : register 10 0 0 = .ok ten := rfl
  exact ⟨_, q, hrun, husage, within_of_noOverflow (by decide) (by decide) hregister hrun⟩

/-- A quota of 10 grants 1 and then the largest amount there is. -/
theorem granted_overflows : ∃ calls q, Run step anyStep ten calls q ∧
    q.usage = -2 ^ 63 ∧ q.granted = 2 ^ 63 := by
  obtain ⟨q, hrun, hq⟩ := exists_run step anyStep ten [.acquire 1 0, .acquire (2 ^ 63 - 1) 0]
    (fun q => q.usage = -2 ^ 63 ∧ q.granted = 2 ^ 63) (by decide)
  exact ⟨_, q, hrun, hq⟩

end Quota

end Fluxor.Runtime
