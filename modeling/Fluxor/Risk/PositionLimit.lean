import Fluxor.Risk.Engine
import Fluxor.Support.Transition
import Mathlib.Algebra.Order.Group.Abs
import Mathlib.Algebra.Order.BigOperators.Group.List
import Mathlib.Algebra.Order.Group.Int

/-!
# The position limit over runs

A desk checks orders of one symbol with `CheckOrder` and reports the fills of the
accepted ones with `UpdatePosition`, in any order and in any parts. Orders that were
accepted earlier and are filled later are not counted by the check, so the position
may exceed the limit.

It stays within the limit when an order is checked only after the accepted orders of
its side are filled (`SideFilled`).
-/

namespace Fluxor.Risk

open Support Matching Transition List

/-- An accepted order and what is not filled of it. -/
structure OpenOrder where
  side : UInt8
  left : ℤ

structure Desk where
  engine : RiskEngine
  accepted : List OpenOrder := []

/-- The calls of a desk: a check of an order, and a fill of an accepted one. -/
inductive Action
  | check (order : Order) (marketPrice : ℤ)
  | fill (i : ℕ) (qty price : ℤ)

def openQty (buy : Bool) (accepted : List OpenOrder) : ℤ :=
  (accepted.map fun o => if decide (o.side = sideBuy) = buy then o.left else 0).sum

namespace Desk

def position (d : Desk) (symbol : String) : ℤ := (d.engine.position symbol).quantity

/-- The desk after a call for the given symbol. Orders have a positive
`int64` quantity, and the fills of an order do not exceed it. -/
def step (symbol : String) (d : Desk) : Action → Option Desk
  | .check order marketPrice =>
    if 0 < order.quantity ∧ order.quantity < 2 ^ 63 then
      match d.engine.checkOrder symbol order marketPrice with
      | (engine, none) => some ⟨engine, d.accepted ++ [⟨order.side, order.quantity⟩]⟩
      | (engine, some _) => some ⟨engine, d.accepted⟩
    else none
  | .fill i qty price =>
    match d.accepted[i]? with
    | none => none
    | some o =>
      if 0 < qty ∧ qty ≤ o.left then
        some ⟨d.engine.updatePosition symbol o.side qty price,
          d.accepted.set i { o with left := o.left - qty }⟩
      else none

/-- An order is checked when nothing is open of its side, and the position after it is an
`int64`, above the least one. -/
def SideFilled (symbol : String) (d : Desk) : Action → Prop
  | .check order _ =>
    openQty (decide (order.side = sideBuy)) d.accepted = 0 ∧
      if order.side = sideBuy then d.position symbol + order.quantity < 2 ^ 63
      else -2 ^ 63 < d.position symbol - order.quantity
  | .fill _ _ _ => True

instance (symbol : String) (d : Desk) (act : Action) : Decidable (d.SideFilled symbol act) := by
  delta SideFilled
  cases act <;> infer_instance

/-- The position stays within the limit even if one side is filled. -/
structure WithinLimit (limit : ℤ) (symbol : String) (d : Desk) : Prop where
  limits : d.engine.limits.maxPositionPerSymbol = limit
  left : ∀ o ∈ d.accepted, 0 ≤ o.left ∧ o.left < 2 ^ 63
  upper : d.position symbol + openQty true d.accepted ≤ limit
  lower : -limit ≤ d.position symbol - openQty false d.accepted

variable {d d' : Desk} {symbol : String} {limit : ℤ} {i : ℕ} {accepted : List OpenOrder}

theorem open_nonneg (buy : Bool) (h : ∀ o ∈ accepted, 0 ≤ o.left ∧ o.left < 2 ^ 63) :
    ∀ n ∈ accepted.map fun o => if decide (o.side = sideBuy) = buy then o.left else 0, 0 ≤ n := by
  intro n hn
  obtain ⟨o, ho, rfl⟩ := mem_map.mp hn
  split
  · exact (h o ho).1
  · exact le_refl 0

theorem openQty_nonneg (buy : Bool) (h : ∀ o ∈ accepted, 0 ≤ o.left ∧ o.left < 2 ^ 63) :
    0 ≤ openQty buy accepted :=
  sum_nonneg (open_nonneg buy h)

variable {o : OpenOrder}

theorem left_le_openQty (h : ∀ o ∈ accepted, 0 ≤ o.left ∧ o.left < 2 ^ 63) (ho : o ∈ accepted) :
    o.left ≤ openQty (decide (o.side = sideBuy)) accepted := by
  have hmem : o.left ∈ accepted.map fun x =>
      if decide (x.side = sideBuy) = decide (o.side = sideBuy) then x.left
      else 0 := mem_map.mpr ⟨o, ho, if_pos rfl⟩
  exact single_le_sum (open_nonneg _ h) _ hmem

theorem openQty_append (buy : Bool) (accepted : List OpenOrder) (o : OpenOrder) :
    openQty buy (accepted ++ [o]) = openQty buy accepted +
      if decide (o.side = sideBuy) = buy then o.left else 0 := by
  simp [openQty]

theorem openQty_set (buy : Bool) (qty : ℤ) (ho : accepted[i]? = some o) :
    openQty buy (accepted.set i { o with left := o.left - qty }) = openQty buy accepted -
        if decide (o.side = sideBuy) = buy then qty else 0 := by
  induction accepted generalizing i with
  | nil => cases ho
  | cons x xs ih =>
    cases i with
    | zero =>
      obtain rfl : x = o := Option.some.inj ho
      simp only [openQty, set_cons_zero, map_cons, sum_cons]
      split <;> omega
    | succ i =>
      have := ih (i := i) ho
      simp only [openQty, set_cons_succ, map_cons, sum_cons] at this ⊢
      omega

theorem WithinLimit.abs_position_le (h : d.WithinLimit limit symbol) :
    |d.position symbol| ≤ limit := by
  have hbuy := openQty_nonneg true h.left
  have hsell := openQty_nonneg false h.left
  have hupper := h.upper
  have hlower := h.lower
  exact abs_le.mpr ⟨by omega, by omega⟩

theorem step_check {order : Order} {marketPrice : ℤ}
    (h : d.step symbol (.check order marketPrice) = some d') :
    d'.engine = (d.engine.checkOrder symbol order marketPrice).1 ∧ (d'.accepted = d.accepted ∨
        (d.engine.checkOrder symbol order marketPrice).2 = none ∧
          (0 < order.quantity ∧ order.quantity < 2 ^ 63) ∧
          d'.accepted = d.accepted ++ [⟨order.side, order.quantity⟩]) := by
  simp only [step] at h
  split at h
  next hqty =>
    cases hcheck : d.engine.checkOrder symbol order marketPrice with
    | mk engine err =>
      rw [hcheck] at h
      cases err with
      | none =>
        cases h
        exact ⟨rfl, .inr ⟨rfl, hqty, rfl⟩⟩
      | some =>
        cases h
        exact ⟨rfl, .inl rfl⟩
  · cases h

variable {qty : ℤ}

theorem step_fill {price : ℤ} (h : d.step symbol (.fill i qty price) = some d') :
    ∃ o, d.accepted[i]? = some o ∧ 0 < qty ∧ qty ≤ o.left ∧
      d' = ⟨d.engine.updatePosition symbol o.side qty price,
        d.accepted.set i { o with left := o.left - qty }⟩ := by
  simp only [step] at h
  cases ho : d.accepted[i]? with
  | none =>
    simp only [ho] at h
    cases h
  | some o =>
    simp only [ho] at h
    split at h
    next hqty => exact ⟨o, rfl, hqty.1, hqty.2, (Option.some.inj h).symm⟩
    · cases h

theorem le_abs64 {x : ℤ} (hlo : -2 ^ 63 < x) (hhi : x < 2 ^ 63) :
    x ≤ abs64 (int64 x) ∧ -x ≤ abs64 (int64 x) := by
  rw [int64_eq_self hlo.le hhi, abs64]
  split
  · rw [int64_eq_self (by omega) (by omega)]
    omega
  · omega

/-- What `checkPositionLimit` has compared with the limit. -/
theorem abs64_le_of_checkOrder {order : Order} {marketPrice : ℤ}
    (hok : (d.engine.checkOrder symbol order marketPrice).2 = none) :
    abs64 (if order.side = sideBuy then int64 (d.position symbol + order.quantity)
      else int64 (d.position symbol - order.quantity)) ≤
        d.engine.limits.maxPositionPerSymbol := by
  obtain ⟨-, hcheck, -⟩ := RiskEngine.passed_of_checkOrder hok
  rw [RiskEngine.checkPositionLimit, RiskEngine.position_getOrCreatePosition,
    RiskEngine.limits_getOrCreatePosition] at hcheck
  by_contra hlt
  cases hcheck.symm.trans (if_pos (not_le.mp hlt))

theorem WithinLimit.check {order : Order} {marketPrice : ℤ} (h : d.WithinLimit limit symbol)
    (hlimit : limit < 2 ^ 63) (hfilled : d.SideFilled symbol (.check order marketPrice))
    (hstep : d.step symbol (.check order marketPrice) = some d') : d'.WithinLimit limit symbol := by
  obtain ⟨hposition, hlimits⟩ := d.engine.checkOrder_frame symbol order marketPrice
  obtain ⟨hengine, haccepted⟩ := step_check hstep
  have hpos : d'.position symbol = d.position symbol := by
    rw [position, hengine, hposition, position]
  have hsame : d'.engine.limits.maxPositionPerSymbol = limit := by rw [hengine, hlimits, h.limits]
  have hupper := h.upper
  have hlower := h.lower
  rcases haccepted with haccepted | ⟨hnone, hqty, haccepted⟩
  · refine ⟨hsame, ?_, ?_, ?_⟩
    · rw [haccepted]
      exact h.left
    all_goals rwa [hpos, haccepted]
  · -- the check has seen the whole position, since nothing of the side is open
    obtain ⟨hnothing, hrange⟩ := hfilled
    have hle := abs64_le_of_checkOrder hnone
    rw [h.limits] at hle
    have habs := abs_le.mp h.abs_position_le
    refine ⟨hsame, ?_, ?_, ?_⟩
    · rw [haccepted]
      intro o ho
      rcases mem_append.mp ho with ho | ho
      · exact h.left o ho
      · rw [mem_singleton.mp ho]
        exact ⟨hqty.1.le, hqty.2⟩
    · rw [hpos, haccepted, openQty_append]
      by_cases hside : order.side = sideBuy
      · simp only [hside, if_true, decide_true] at hnothing hrange hle ⊢
        have hself := (le_abs64 (by omega) hrange).1
        omega
      · simpa [hside] using hupper
    · rw [hpos, haccepted, openQty_append]
      by_cases hside : order.side = sideBuy
      · simpa [hside] using hlower
      · simp only [hside, if_false, decide_false, if_true] at hnothing hrange hle ⊢
        have hself := (le_abs64 hrange (by omega)).2
        omega

theorem WithinLimit.position_fill (price : ℤ) (h : d.WithinLimit limit symbol)
    (hlimit : limit < 2 ^ 63) (ho : d.accepted[i]? = some o) (hqty : 0 < qty)
    (hleft : qty ≤ o.left) :
    ((d.engine.updatePosition symbol o.side qty price).position symbol).quantity =
      if o.side = sideBuy then d.position symbol + qty else d.position symbol - qty := by
  have hbuy := openQty_nonneg true h.left
  have hsell := openQty_nonneg false h.left
  have hmem := h.left o (mem_of_getElem? ho)
  have hopen := left_le_openQty h.left (mem_of_getElem? ho)
  have hupper := h.upper
  have hlower := h.lower
  unfold position at hupper hlower ⊢
  rw [RiskEngine.position_updatePosition_self]
  by_cases hside : o.side = sideBuy
  · rw [hside, decide_eq_true rfl] at hopen
    simp only [hside, if_true]
    exact Position.quantity_buy price (by omega) hqty (by omega) (by omega)
  · rw [decide_eq_false hside] at hopen
    simp only [hside, if_false]
    exact Position.quantity_sell price (by omega) hqty (by omega) (by omega)

theorem WithinLimit.fill {price : ℤ} (h : d.WithinLimit limit symbol) (hlimit : limit < 2 ^ 63)
    (hstep : d.step symbol (.fill i qty price) = some d') : d'.WithinLimit limit symbol := by
  obtain ⟨o, ho, hqty, hleft, rfl⟩ := step_fill hstep
  have hposition := h.position_fill price hlimit ho hqty hleft
  have hupper := h.upper
  have hlower := h.lower
  refine ⟨?_, ?_, ?_, ?_⟩
  · rw [RiskEngine.limits_updatePosition, h.limits]
  · intro x hx
    rcases mem_or_eq_of_mem_set hx with hx | rfl
    · exact h.left x hx
    · have := h.left o (mem_of_getElem? ho)
      change 0 ≤ o.left - qty ∧ o.left - qty < 2 ^ 63
      omega
  · rw [position, hposition, openQty_set _ qty ho]
    by_cases hside : o.side = sideBuy
    · simp only [hside, decide_true, if_true]
      omega
    · simp only [hside, decide_false, Bool.false_eq_true, if_false]
      omega
  · rw [position, hposition, openQty_set _ qty ho]
    by_cases hside : o.side = sideBuy
    · simp only [hside, decide_true, Bool.true_eq_false, if_false, if_true]
      omega
    · simp only [hside, decide_false, if_false, if_true]
      omega

theorem withinLimit_step {act : Action} (hlimit : limit < 2 ^ 63) (h : d.WithinLimit limit symbol)
    (hfilled : d.SideFilled symbol act) (hstep : d.step symbol act = some d') :
    d'.WithinLimit limit symbol := by
  cases act with
  | check => exact h.check hlimit hfilled hstep
  | fill => exact h.fill hlimit hstep

/-- If an order is checked only after those of its side are filled, the position stays
within the limit. -/
theorem position_le_limit {re : RiskEngine} {deviates : ℤ → ℤ → Bool} {limits : Option RiskLimits}
    {acts : List Action} (hre : re = newRiskEngine deviates limits)
    (hlimit : 0 ≤ re.limits.maxPositionPerSymbol) (hrange : re.limits.maxPositionPerSymbol < 2 ^ 63)
    (hrun : Run (step symbol) (SideFilled symbol) ⟨re, []⟩ acts d) :
    |d.position symbol| ≤ re.limits.maxPositionPerSymbol := by
  have hzero : position ⟨re, []⟩ symbol = 0 := by
    rw [hre]
    rfl
  have hinit : WithinLimit re.limits.maxPositionPerSymbol symbol ⟨re, []⟩ :=
    ⟨rfl, by simp, by simpa [hzero, openQty] using hlimit, by simpa [hzero, openQty] using hlimit⟩
  exact (hrun.invariant (fun h hfilled hstep =>
    withinLimit_step hrange h hfilled hstep) hinit).abs_position_le

section Example

def tenEngine : RiskEngine :=
  newRiskEngine (fun _ _ => false) (some
    { defaultRiskLimits fun _ _ => false with maxPositionPerSymbol := 10 })

def tenOrder (side : UInt8) (quantity : ℤ) : Order :=
  { id := 1, side := side, price := 1, quantity := quantity }

/-- A buy of ten is filled in two parts, and then a sale of fifteen. -/
theorem position_le_limit_threeFills :
    ∃ d, Run (step "EURUSD") (SideFilled "EURUSD") ⟨tenEngine, []⟩
        [.check (tenOrder sideBuy 10) 0, .fill 0 4 1, .fill 0 6 1,
          .check (tenOrder sideSell 15) 0, .fill 1 15 1] d ∧
      |d.position "EURUSD"| ≤ tenEngine.limits.maxPositionPerSymbol := by
  refine exists_run_of _ (fun d => d.position "EURUSD" = -5) (by decide +kernel) ?_
  rintro d hrun -
  exact position_le_limit rfl (by decide) (by decide) hrun

/-- Two buys of ten are accepted before either is filled. -/
theorem position_exceeds_limit :
    ∃ d, Run (step "EURUSD") anyStep ⟨tenEngine, []⟩
        [.check (tenOrder sideBuy 10) 0, .check (tenOrder sideBuy 10) 0,
          .fill 0 10 1, .fill 1 10 1] d ∧
      tenEngine.limits.maxPositionPerSymbol < |d.position "EURUSD"| :=
  exists_run _ _ _ _ _ (by decide +kernel)

end Example

end Desk

end Fluxor.Risk
