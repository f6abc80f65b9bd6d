import Fluxor.Matching.Order

/-!
# The risk engine

Pre-trade checks of orders and post-trade position keeping. All quantities, prices
and limits are `int64`; products and sums are reduced to that range, and divisions
round towards zero.

The fat-finger check compares floating-point numbers. Which pairs of order price and
market price deviate too much is a parameter of the limits. The rate and
concentration limits are read by no check, and the latency counters and the storage
of the violation ring are left out.
-/

namespace Fluxor.Risk

open Support Matching

structure RiskLimits where
  (maxPositionPerSymbol maxNotionalPerOrder maxOrderSize maxNotionalExposure : ℤ)
  /-- Whether an order price deviates too much from a market price. -/
  deviates : ℤ → ℤ → Bool

def defaultRiskLimits (deviates : ℤ → ℤ → Bool) : RiskLimits where
  maxPositionPerSymbol := 100000
  maxNotionalPerOrder := 10000000
  maxOrderSize := 10000
  maxNotionalExposure := 100000000
  deviates := deviates

structure Position where
  quantity : ℤ := 0
  avgPrice : ℤ := 0
  realizedPnL : ℤ := 0
  totalBought : ℤ := 0
  totalSold : ℤ := 0

inductive ViolationType
  | violationPositionLimit | violationNotionalLimit | violationOrderSizeLimit | violationRateLimit
  | violationPriceDeviation | violationCreditLimit | violationConcentration

structure RiskViolation where
  orderID : ℕ
  symbol : String
  violationType : ViolationType
  message : String

inductive RiskError
  | orderSize | notional | positionLimit | priceDeviation | notionalExposure

def RiskError.message : RiskError → String
  | .orderSize => "order size exceeds limit"
  | .notional => "notional exceeds limit"
  | .positionLimit => "position limit exceeded"
  | .priceDeviation => "price deviation too large"
  | .notionalExposure => "notional exposure limit exceeded"

structure RiskEngine where
  limits : RiskLimits
  symbols : List String := []
  position : String → Position := fun _ => {}
  violations : List RiskViolation := []

def newRiskEngine (deviates : ℤ → ℤ → Bool) (limits : Option RiskLimits) : RiskEngine where
  limits := limits.getD (defaultRiskLimits deviates)

def abs64 (i : ℤ) : ℤ := if i < 0 then int64 (-i) else i

def notional (qty price : ℤ) : ℤ := (int64 (qty * price)).tdiv (10 ^ 8)

namespace Position

variable (pos : Position)

/-- The part of a buy that reduces a short position: the new position and the quantity left. -/
def reduceShort (qty price : ℤ) : Position × ℤ :=
  if pos.quantity < 0 then
    let reduceQty := min qty (int64 (-pos.quantity))
    let realized := (int64 (int64 (price - pos.avgPrice) * reduceQty)).tdiv (10 ^ 8)
    ({ pos with
        realizedPnL := int64 (pos.realizedPnL - realized)
        quantity := int64 (pos.quantity + reduceQty) },
      int64 (qty - reduceQty))
  else (pos, qty)

def increaseLong (qty price : ℤ) : Position :=
  if 0 < qty then
    let totalCost := int64 (int64 (pos.quantity * pos.avgPrice) + int64 (qty * price))
    let quantity := int64 (pos.quantity + qty)
    { pos with
      quantity := quantity
      avgPrice :=
        if quantity ≠ 0 then int64 (totalCost.tdiv quantity)
        else pos.avgPrice }
  else pos

def buy (qty price : ℤ) : Position :=
  let (pos, qty) := pos.reduceShort qty price
  let pos := pos.increaseLong qty price
  { pos with totalBought := int64 (pos.totalBought + qty) }

def reduceLong (qty price : ℤ) : Position × ℤ :=
  if 0 < pos.quantity then
    let reduceQty := min qty pos.quantity
    let realized := (int64 (int64 (price - pos.avgPrice) * reduceQty)).tdiv (10 ^ 8)
    ({ pos with
        realizedPnL := int64 (pos.realizedPnL + realized)
        quantity := int64 (pos.quantity - reduceQty) },
      int64 (qty - reduceQty))
  else (pos, qty)

def increaseShort (qty price : ℤ) : Position :=
  if 0 < qty then
    let totalCost := int64 (int64 (pos.quantity * pos.avgPrice) - int64 (qty * price))
    let quantity := int64 (pos.quantity - qty)
    { pos with
      quantity := quantity
      avgPrice :=
        if quantity ≠ 0 then int64 (totalCost.tdiv quantity)
        else pos.avgPrice }
  else pos

def sell (qty price : ℤ) : Position :=
  let (pos, qty) := pos.reduceLong qty price
  let pos := pos.increaseShort qty price
  { pos with totalSold := int64 (pos.totalSold + qty) }

variable {pos : Position} {qty : ℤ}

theorem reduceShort_split (price : ℤ) (hlo : -2 ^ 63 < pos.quantity) (hqty : 0 < qty)
    (hmax : qty < 2 ^ 63) :
    (pos.reduceShort qty price).1.quantity + (pos.reduceShort qty price).2 =
        pos.quantity + qty ∧ 0 ≤ (pos.reduceShort qty price).2 := by
  unfold reduceShort
  split
  · have hminus : int64 (-pos.quantity) = -pos.quantity := int64_eq_self (by omega) (by omega)
    simp only [hminus]
    rw [int64_eq_self (x := pos.quantity + min qty (-pos.quantity))
      (by omega) (by omega), int64_eq_self (by omega) (by omega)]
    omega
  · exact ⟨rfl, Int.le_of_lt hqty⟩

theorem reduceLong_split (price : ℤ) (hhi : pos.quantity < 2 ^ 63) (hqty : 0 < qty)
    (hmax : qty < 2 ^ 63) :
    (pos.reduceLong qty price).1.quantity - (pos.reduceLong qty price).2 =
        pos.quantity - qty ∧ 0 ≤ (pos.reduceLong qty price).2 := by
  unfold reduceLong
  split
  · simp only
    rw [int64_eq_self (x := pos.quantity - min qty pos.quantity)
      (by omega) (by omega), int64_eq_self (by omega) (by omega)]
    omega
  · exact ⟨rfl, Int.le_of_lt hqty⟩

theorem quantity_buy (price : ℤ) (hlo : -2 ^ 63 < pos.quantity) (hqty : 0 < qty)
    (hmax : qty < 2 ^ 63) (hhi : pos.quantity + qty < 2 ^ 63) :
    (pos.buy qty price).quantity = pos.quantity + qty := by
  obtain ⟨hsum, hrest⟩ := reduceShort_split price hlo hqty hmax
  change ((pos.reduceShort qty price).1.increaseLong
    (pos.reduceShort qty price).2 price).quantity = pos.quantity + qty
  rw [increaseLong]
  split
  · simp only [hsum]
    exact int64_eq_self (by omega) hhi
  · omega

theorem quantity_sell (price : ℤ) (hhi : pos.quantity < 2 ^ 63) (hqty : 0 < qty)
    (hmax : qty < 2 ^ 63) (hlo : -2 ^ 63 ≤ pos.quantity - qty) :
    (pos.sell qty price).quantity = pos.quantity - qty := by
  obtain ⟨hsum, hrest⟩ := reduceLong_split price hhi hqty hmax
  change ((pos.reduceLong qty price).1.increaseShort
    (pos.reduceLong qty price).2 price).quantity = pos.quantity - qty
  rw [increaseShort]
  split
  · simp only [hsum]
    exact int64_eq_self hlo (by omega)
  · omega

end Position

namespace RiskEngine

variable (re : RiskEngine)

def getOrCreatePosition (symbol : String) : RiskEngine :=
  if symbol ∈ re.symbols then re
  else { re with symbols := re.symbols ++ [symbol] }

def recordViolation (symbol : String) (order : Order)
    (violationType : ViolationType) (message : String) : RiskEngine :=
  { re with
    violations := re.violations ++ [⟨order.id, symbol, violationType, message⟩] }

def checkPositionLimit (symbol : String) (order : Order) : Option RiskError :=
  let currentQty := (re.position symbol).quantity
  let newQty :=
    if order.side = sideBuy then int64 (currentQty + order.quantity)
    else int64 (currentQty - order.quantity)
  if re.limits.maxPositionPerSymbol < abs64 newQty then some .positionLimit
  else none

def checkNotionalExposure (order : Order) : Option RiskError :=
  let totalExposure := re.symbols.foldl (fun total symbol =>
    int64 (total + abs64 (notional (re.position symbol).quantity (re.position symbol).avgPrice))) 0
  let totalExposure := int64 (totalExposure + notional order.quantity order.price)
  if re.limits.maxNotionalExposure < totalExposure then some .notionalExposure
  else none

/-- Whether the limit order's price is too far from the market. -/
def checkPriceDeviation (order : Order) (marketPrice : ℤ) : Option RiskError :=
  if order.orderType = orderTypeLimit ∧ 0 < marketPrice ∧
      re.limits.deviates order.price marketPrice = true then
    some .priceDeviation
  else none

def checkOrder (symbol : String) (order : Order)
    (marketPrice : ℤ) : RiskEngine × Option RiskError :=
  if re.limits.maxOrderSize < order.quantity then
    (re.recordViolation symbol order .violationOrderSizeLimit
      "Order size exceeds limit", some .orderSize)
  else if re.limits.maxNotionalPerOrder < notional order.quantity order.price then
    (re.recordViolation symbol order .violationNotionalLimit
      "Notional exceeds limit", some .notional)
  else
    let re := re.getOrCreatePosition symbol
    match re.checkPositionLimit symbol order with
    | some err => (re.recordViolation symbol order .violationPositionLimit err.message, some err)
    | none =>
      match re.checkPriceDeviation order marketPrice with
      | some err =>
        (re.recordViolation symbol order .violationPriceDeviation
          "Price deviation too large", some err)
      | none =>
        match re.checkNotionalExposure order with
        | some err => (re.recordViolation symbol order .violationCreditLimit err.message, some err)
        | none => (re, none)

def updatePosition (symbol : String) (side : UInt8) (qty price : ℤ) : RiskEngine :=
  let re := re.getOrCreatePosition symbol
  let pos := re.position symbol
  { re with
    position := Function.update re.position symbol
      (if side = sideBuy then pos.buy qty price else pos.sell qty price) }

variable (re : RiskEngine) (symbol : String) (order : Order)

@[simp] theorem position_getOrCreatePosition :
    (re.getOrCreatePosition symbol).position = re.position := by
  unfold getOrCreatePosition
  split <;> rfl

@[simp] theorem limits_getOrCreatePosition :
    (re.getOrCreatePosition symbol).limits = re.limits := by
  unfold getOrCreatePosition
  split <;> rfl

theorem checkOrder_frame (marketPrice : ℤ) :
    (re.checkOrder symbol order marketPrice).1.position = re.position ∧
      (re.checkOrder symbol order marketPrice).1.limits = re.limits := by
  unfold checkOrder
  split
  · exact ⟨rfl, rfl⟩
  · split
    · exact ⟨rfl, rfl⟩
    · dsimp only
      split
      · simp [recordViolation]
      · split
        · simp [recordViolation]
        · split
          · simp [recordViolation]
          · simp

/-- An order that is accepted has passed the checks. -/
theorem passed_of_checkOrder {re : RiskEngine} {symbol : String} {order : Order} {marketPrice : ℤ}
    (hok : (re.checkOrder symbol order marketPrice).2 = none) :
    notional order.quantity order.price ≤ re.limits.maxNotionalPerOrder ∧
      (re.getOrCreatePosition symbol).checkPositionLimit symbol order = none ∧
      (re.getOrCreatePosition symbol).checkNotionalExposure order = none := by
  unfold checkOrder at hok
  split at hok
  · cases hok
  · split at hok
    · cases hok
    next hnotional =>
      dsimp only at hok
      split at hok
      · cases hok
      next hposition =>
        split at hok
        · cases hok
        · split at hok
          · cases hok
          next hexposure => exact ⟨Int.not_lt.mp hnotional, hposition, hexposure⟩

theorem position_updatePosition_self (side : UInt8) (qty price : ℤ) :
    (re.updatePosition symbol side qty price).position symbol =
      if side = sideBuy then (re.position symbol).buy qty price
      else (re.position symbol).sell qty price := by
  simp [updatePosition]

theorem limits_updatePosition (side : UInt8) (qty price : ℤ) :
    (re.updatePosition symbol side qty price).limits = re.limits := by
  simp [updatePosition]

end RiskEngine

end Fluxor.Risk
