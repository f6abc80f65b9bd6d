import Fluxor.Support.Goroutines

/-!
# Backpressure controllers

The three `BackpressureController`s, of `pkg/core/concurrency`, `pkg/web` and
`pkg/tcp`. `TryAcquire` compares a counter with the capacity and then adds one to
it; in between, other calls may be admitted. It also sets the counter to zero when
the reset interval has passed, whatever is outstanding. So more requests may be
admitted than the capacity allows.

The controllers of `core` and `web` have the same code; the one of `tcp` resets
without a compare-and-swap, in the other order, and keeps its count of rejected
requests.
-/

namespace Fluxor.Concurrency

open Goroutines Config Transition List

inductive Controller
  | core | web | tcp

structure Backpressure where
  (normalCapacity resetInterval lastReset : ℤ)
  currentLoad : ℤ := 0
  rejectedCount : ℤ := 0

/-- A request: its call of `TryAcquire`, and, if it was admitted, its call of `Release`. -/
inductive Request
  | called
  | clocked (now : ℤ)
  | swapping (now lastReset : ℤ)
  | clearing (now : ℤ)
  | clearingRejected
  | stamping (now : ℤ)
  | loading | rejecting | adding | refused | admitted | releasing | released
  deriving DecidableEq

namespace Backpressure

/-- `NewBackpressureController`, at the given time. -/
def newBackpressureController (normalCapacity resetIntervalSeconds now : ℤ) :
    Config Backpressure Request where
  shared :=
    { normalCapacity := if normalCapacity < 1 then 1 else normalCapacity
      resetInterval :=
        if resetIntervalSeconds < 1 then 60 else resetIntervalSeconds
      lastReset := now }
  threads := []

variable (bc : Backpressure) (c : Config Backpressure Request)

/-- The reset of `core` and `web`: the goroutine that moves `lastReset` clears
the two counters. -/
def resetBySwap : Request → Option (Backpressure × Request)
  | .clocked now =>
    if bc.resetInterval < now - bc.lastReset then
      some (bc, .swapping now bc.lastReset)
    else some (bc, .loading)
  | .swapping now lastReset =>
    if bc.lastReset = lastReset then
      some ({ bc with lastReset := now }, .clearing now)
    else some (bc, .loading)
  | .clearing _ => some ({ bc with currentLoad := 0 }, .clearingRejected)
  | .clearingRejected => some ({ bc with rejectedCount := 0 }, .loading)
  | _ => none

/-- The reset of `tcp`: it clears the load and then moves `lastReset`. -/
def resetByStore : Request → Option (Backpressure × Request)
  | .clocked now =>
    if bc.resetInterval < now - bc.lastReset then some (bc, .clearing now)
    else some (bc, .loading)
  | .clearing now => some ({ bc with currentLoad := 0 }, .stamping now)
  | .stamping now => some ({ bc with lastReset := now }, .loading)
  | _ => none

def reset : Controller → Backpressure → Request → Option (Backpressure × Request)
  | .core => resetBySwap
  | .web => resetBySwap
  | .tcp => resetByStore

/-- `TryAcquire` and `Release`; `now` is what the clock shows. -/
def next (kind : Controller) (bc : Backpressure) (now : ℤ) :
    Request → Option (Backpressure × Request)
  | .called => some (bc, .clocked now)
  | .loading =>
    if bc.normalCapacity ≤ bc.currentLoad then some (bc, .rejecting)
    else some (bc, .adding)
  | .rejecting => some ({ bc with rejectedCount := bc.rejectedCount + 1 }, .refused)
  | .adding => some ({ bc with currentLoad := bc.currentLoad + 1 }, .admitted)
  | .admitted => some (bc, .releasing)
  | .releasing => some ({ bc with currentLoad := bc.currentLoad - 1 }, .released)
  | r => reset kind bc r

def code (kind : Controller) : Code Backpressure Request ℤ where
  next bc _ r now := (bc.next kind now r).map fun (bc, r) => ⟨bc, r, []⟩
  entry r := r = .called

inductive Step (bc : Backpressure) : Request → Backpressure → Request → Prop
  | clock {now} : Step bc .called bc (.clocked now)
  | due {now r} (h : bc.resetInterval < now - bc.lastReset)
      (hr : r = .swapping now bc.lastReset ∨ r = .clearing now) :
      Step bc (.clocked now) bc r
  | fresh {now} : Step bc (.clocked now) bc .loading
  | swap {now last} : Step bc (.swapping now last) { bc with lastReset := now } (.clearing now)
  | lose {now last} : Step bc (.swapping now last) bc .loading
  | clear {now r} (hr : r = .clearingRejected ∨ r = .stamping now) :
      Step bc (.clearing now) { bc with currentLoad := 0 } r
  | clearRejected : Step bc .clearingRejected { bc with rejectedCount := 0 } .loading
  | stamp {now} : Step bc (.stamping now) { bc with lastReset := now } .loading
  | reject (h : bc.normalCapacity ≤ bc.currentLoad) : Step bc .loading bc .rejecting
  | pass (h : bc.currentLoad < bc.normalCapacity) : Step bc .loading bc .adding
  | countRejected : Step bc .rejecting { bc with rejectedCount := bc.rejectedCount + 1 } .refused
  | add : Step bc .adding { bc with currentLoad := bc.currentLoad + 1 } .admitted
  | release : Step bc .admitted bc .releasing
  | subtract : Step bc .releasing { bc with currentLoad := bc.currentLoad - 1 } .released

section Inversion

variable {kind : Controller} {bc bc' : Backpressure} {r r' : Request} {now : ℤ}

theorem step_of_resetBySwap (h : bc.resetBySwap r = some (bc', r')) : Step bc r bc' r' := by
  revert h
  fun_cases resetBySwap bc r <;> intro h <;> cases h
  case case1 hdue => exact .due hdue (.inl rfl)
  case case2 => exact .fresh
  case case3 => exact .swap
  case case4 => exact .lose
  case case5 => exact .clear (.inl rfl)
  case case6 => exact .clearRejected

theorem step_of_resetByStore (h : bc.resetByStore r = some (bc', r')) : Step bc r bc' r' := by
  revert h
  fun_cases resetByStore bc r <;> intro h <;> cases h
  case case1 hdue => exact .due hdue (.inr rfl)
  case case2 => exact .fresh
  case case3 => exact .clear (.inr rfl)
  case case4 => exact .stamp

theorem step_of_next (h : bc.next kind now r = some (bc', r')) : Step bc r bc' r' := by
  revert h
  fun_cases Backpressure.next kind bc now r <;> intro h
  case case8 =>
    cases kind with
    | core | web => exact step_of_resetBySwap h
    | tcp => exact step_of_resetByStore h
  all_goals cases h
  case case1 => exact .clock
  case case2 hfull => exact .reject hfull
  case case3 hroom => exact .pass (not_le.mp hroom)
  case case4 => exact .countRejected
  case case5 => exact .add
  case case6 => exact .release
  case case7 => exact .subtract

end Inversion

def outstanding : Request → ℤ
  | .admitted | .releasing => 1
  | _ => 0

/-- The outstanding requests and those that are about to be. -/
def holding : Request → ℤ
  | .adding | .admitted | .releasing => 1
  | _ => 0

def inCall : Request → Bool
  | .refused | .admitted | .released => false
  | _ => true

def Admits : Prop :=
  c.total outstanding ≤ c.shared.normalCapacity ∧ ((∀ r ∈ c.threads, inCall r = false) →
      c.total outstanding = c.shared.currentLoad)

instance : Decidable (Admits c) :=
  inferInstanceAs (Decidable (_ ∧ ((∀ r ∈ c.threads, _) → _)))

/-- A call reads the counter only while no other call is about to add to it, and a reset
clears it only while no request is outstanding. -/
def Request.steady : Request → Prop
  | .loading => ∀ r ∈ c.threads, r ≠ .adding
  | .clearing _ => c.total outstanding = 0
  | _ => True

def Steady : Move Request ℤ → Prop
  | .run i _ => ∀ r ∈ c.threads[i]?, Request.steady c r
  | .spawn _ => True

instance (r : Request) : Decidable (Request.steady c r) := by
  delta Request.steady
  cases r <;> infer_instance

instance (m : Move Request ℤ) : Decidable (Steady c m) := by
  delta Steady
  cases m <;> infer_instance

structure Counted (c : Config Backpressure Request) : Prop where
  load : c.shared.currentLoad = c.total outstanding
  capacity : c.total holding ≤ c.shared.normalCapacity

variable {c : Config Backpressure Request} {bc : Backpressure} {i : ℕ} {r r' : Request}

theorem total_outstanding_le : c.total outstanding ≤ c.total holding := by
  refine sum_le_sum fun r _ => ?_
  cases r with
  | adding => exact zero_le_one
  | _ => exact le_rfl

theorem total_holding_of_none (h : ∀ r ∈ c.threads, r ≠ .adding) :
    c.total holding = c.total outstanding := by
  refine congrArg sum (map_congr_left fun r hr => ?_)
  cases r with
  | adding => exact absurd rfl (h _ hr)
  | _ => rfl

theorem Counted.step (h : Counted c) (hsteady : Request.steady c r)
    (hr : c.threads[i]? = some r) (hstep : Step c.shared r bc r') :
    Counted (c.advance i ⟨bc, r', []⟩) := by
  have htotal := total_advance (w := outstanding) (o := ⟨bc, r', []⟩) hr
  have hheld := total_advance (w := holding) (o := ⟨bc, r', []⟩) hr
  rw [map_nil, sum_nil, add_zero] at htotal hheld
  obtain ⟨hload, hcapacity⟩ := h
  suffices hcounted : bc.currentLoad = (c.advance i ⟨bc, r', []⟩).total outstanding ∧
      (c.advance i ⟨bc, r', []⟩).total holding ≤ bc.normalCapacity from
    ⟨hcounted.1, hcounted.2⟩
  generalize (c.advance i ⟨bc, r', []⟩).total outstanding = n at htotal ⊢
  generalize (c.advance i ⟨bc, r', []⟩).total holding = m at hheld ⊢
  cases hstep with
  | pass hroom =>
    -- the comparison has seen every request that is or will be outstanding
    have hnone := total_holding_of_none hsteady
    simp only [outstanding, holding] at htotal hheld ⊢
    omega
  | clear hr' =>
    have hzero : c.total outstanding = 0 := hsteady
    rcases hr' with rfl | rfl <;> simp only [outstanding, holding] at htotal hheld ⊢ <;> omega
  | due _ hr' =>
    rcases hr' with rfl | rfl <;> simp only [outstanding, holding] at htotal hheld ⊢ <;> omega
  | _ =>
    simp only [outstanding, holding] at htotal hheld ⊢
    omega

theorem counted_of_run {kind : Controller} {normalCapacity resetIntervalSeconds now : ℤ}
    {acts : List (Move Request ℤ)}
    (h : Run (code kind).step Steady (newBackpressureController normalCapacity
      resetIntervalSeconds now) acts c) : Counted c := by
  refine Code.run_invariant ?_ ?_ h ?_
  · intro c r hcounted _ hentry
    obtain rfl : r = .called := by simpa [code] using hentry
    have hout : outstanding .called = 0 := rfl
    have hheld : holding .called = 0 := rfl
    constructor
    · rw [total_spawn, hout, add_zero]
      exact hcounted.load
    · rw [total_spawn, hheld, add_zero]
      exact hcounted.capacity
  · intro c i now r o hcounted hsteady hr hnext
    obtain ⟨⟨bc, r'⟩, hbc, rfl⟩ := Option.map_eq_some_iff.mp hnext
    exact hcounted.step (hsteady r hr) hr (step_of_next hbc)
  · refine ⟨rfl, ?_⟩
    simp only [newBackpressureController, total, map_nil, sum_nil]
    split <;> omega

/-- In steady runs the controllers never admit too many requests. -/
theorem admits_of_steady {kind : Controller} {normalCapacity resetIntervalSeconds now : ℤ}
    {acts : List (Move Request ℤ)}
    (h : Run (code kind).step Steady (newBackpressureController normalCapacity
      resetIntervalSeconds now) acts c) : Admits c := by
  have hcounted := counted_of_run h
  exact ⟨total_outstanding_le.trans hcounted.capacity, fun _ => hcounted.load.symm⟩

theorem admits_of_steady_reset : ∃ acts c,
    Run (code .core).step Steady (newBackpressureController 1 60 0) acts c ∧
      c.threads = [.released, .admitted] ∧ Admits c := by
  refine ⟨_, exists_run_of [.spawn .called, .run 0 1, .run 0 0, .run 0 0, .run 0 0, .run 0 0,
      .run 0 0, .spawn .called, .run 1 61, .run 1 0, .run 1 0, .run 1 0, .run 1 0,
      .run 1 0, .run 1 0]
      (fun c => c.threads = [.released, .admitted])
      (by decide +kernel) ?_⟩
  intro c hrun hc
  exact ⟨hc, admits_of_steady hrun⟩

/-- With capacity one: two calls that read the counter before either adds to it are
both admitted; and a reset while a request is outstanding admits a second one. -/
theorem admits_too_many :
    (∃ acts c, Run (code .core).step anyStep (newBackpressureController 1 60 0) acts c ∧
        c.threads = [.admitted, .admitted] ∧ ¬Admits c) ∧
      (∃ acts c, Run (code .tcp).step anyStep (newBackpressureController 1 60 0) acts c ∧
          c.threads = [.admitted, .admitted] ∧ ¬Admits c) ∧
      ∃ acts c, Run (code .web).step anyStep (newBackpressureController 1 60 0) acts c ∧
          c.threads = [.admitted, .admitted] ∧ c.shared.currentLoad = 1 ∧ ¬Admits c := by
  refine ⟨⟨_, exists_run _ _ _
      [.spawn .called, .spawn .called, .run 0 1, .run 1 1, .run 0 0, .run 1 0,
        .run 0 0, .run 1 0, .run 0 0, .run 1 0] _ (by decide +kernel)⟩, ?_, ?_⟩
  · exact ⟨_, exists_run _ _ _
      [.spawn .called, .spawn .called, .run 0 1, .run 1 1, .run 0 0, .run 1 0,
        .run 0 0, .run 1 0, .run 0 0, .run 1 0] _ (by decide +kernel)⟩
  · exact ⟨_, exists_run _ _ _
      [.spawn .called, .run 0 1, .run 0 0, .run 0 0, .run 0 0, .spawn .called,
        .run 1 61, .run 1 0, .run 1 0, .run 1 0, .run 1 0, .run 1 0, .run 1 0] _
      (by decide +kernel)⟩

end Backpressure

end Fluxor.Concurrency
