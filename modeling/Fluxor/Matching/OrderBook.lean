import Fluxor.Matching.Order
import Fluxor.Support.Transition

/-!
# The order book

The order book of one symbol: adding an order, matching it against the opposite
side, resting what is left, and cancelling.

The book is a state record over a heap of orders, which are numbered as `AddOrder`
receives them; every call is given a new order object, as the callers in the
repository do. A price level is an object at the address given by its side and its
price: the pool clears a level before it is used again, so which object it hands out
cannot be observed. The two sides have the same shape and are indexed by `IsBuy`.

A call that dereferences a nil pointer does not return, and neither does a loop
around a cyclic list; both are `Fault`s. Loops carry a bound on their number of
rounds, and running into it is the fault `endless`.
-/

namespace Fluxor.Matching

open Support Transition Function

inductive Fault
  | nilDereference | endless

inductive BookError
  | nilOrder | invalidQuantity | orderNotFound

def BookError.message : BookError → String
  | .nilOrder => "nil order"
  | .invalidQuantity => "invalid quantity"
  | .orderNotFound => "order not found"

/-- One side of the book: the prices that have a level, the levels at their
addresses, and the cached best level. -/
structure Half where
  prices : List ℤ := []
  level : ℤ → PriceLevel := fun _ => PriceLevel.putPriceLevel
  best : Option ℤ := none

/-- A trade as the trade callback gets it, with its two order objects. -/
structure Execution where
  trade : Trade
  (aggressor resting : ℕ)

/-- An order book. `half true` holds `bids` and `bestBid`, `half false` holds
`asks` and `bestAsk`. -/
structure OrderBook where
  order : ℕ → Order := fun _ => {}
  links : ℕ → Links := fun _ => Links.clear
  allocated : ℕ := 0
  half : Bool → Half := fun _ => {}
  orders : ℕ → Option ℕ := fun _ => none
  totalTrades : ℕ := 0
  totalVolume : ℤ := 0
  lastTradePrice : ℤ := 0
  sequence : ℕ := 0
  executions : List Execution := []

def newOrderBook : OrderBook := {}

namespace Half

def scanBest (beats : ℤ → ℤ → Bool) (start : ℤ) (h : Half) : Half :=
  { h with
    best := (h.prices.foldl (fun found key =>
      if !(h.level key).isEmpty && beats (h.level key).price found.1 then
        ((h.level key).price, some key)
      else found) (start, none)).2 }

/-- Whether the first price is better than the second: higher for bids, lower
for asks. -/
def beats (buy : Bool) (p q : ℤ) : Bool :=
  if buy then decide (q < p) else decide (p < q)

def updateBestBid (h : Half) : Half := h.scanBest (beats true) 0

def updateBestAsk (h : Half) : Half := h.scanBest (beats false) (2 ^ 63 - 1)

def updateBest (buy : Bool) (h : Half) : Half :=
  if buy then h.updateBestBid else h.updateBestAsk

/-- Update the best level after an order has been added at `price`. -/
def updateBestPrices (buy : Bool) (price : ℤ) (h : Half) : Half :=
  match h.best with
  | none => { h with best := some price }
  | some best =>
    if beats buy (h.level price).price (h.level best).price then
      { h with best := some price }
    else h

def setLevel (h : Half) (price : ℤ) (pl : PriceLevel) : Half :=
  { h with level := update h.level price pl }

def deleteLevel (h : Half) (price : ℤ) : Half :=
  { h.setLevel price PriceLevel.putPriceLevel with
    prices := h.prices.erase price }

/-- The level at `price`, taken from the pool when the map has none. -/
def loadOrStore (h : Half) (price : ℤ) : Half :=
  if price ∈ h.prices then h
  else
    { h.setLevel price (PriceLevel.getPriceLevel price) with
      prices := h.prices ++ [price] }

end Half

namespace OrderBook

variable (s : OrderBook)

def setHalf (buy : Bool) (h : Half) : OrderBook :=
  { s with half := update s.half buy h }

def level (buy : Bool) (price : ℤ) : PriceLevel := (s.half buy).level price

def setLevel (buy : Bool) (price : ℤ) (pl : PriceLevel) : OrderBook :=
  s.setHalf buy ((s.half buy).setLevel price pl)

def setOrder (order : ℕ) (o : Order) : OrderBook :=
  { s with order := update s.order order o }

def removeOrder (buy : Bool) (price : ℤ) (order : ℕ) : OrderBook :=
  let removed := (s.level buy price).removeOrder s.links order (s.order order).leavesQty
  { s.setLevel buy price removed.1 with links := removed.2 }

def createTrade (aggressor resting : Order) (qty price : ℤ) : Trade :=
  if aggressor.isBuy then ⟨aggressor.id, resting.id, price, qty⟩
  else ⟨resting.id, aggressor.id, price, qty⟩

def recordTrade (aggressor resting : ℕ) (qty price : ℤ) : OrderBook :=
  { s with
    executions := s.executions ++ [⟨createTrade (s.order aggressor) (s.order resting) qty price,
        aggressor, resting⟩]
    totalTrades := (s.totalTrades + 1) % 2 ^ 64
    totalVolume := int64 (s.totalVolume + qty)
    lastTradePrice := price }

/-- One round of the inner loop of `matchOrder`, with one resting order of a level. -/
def matchResting (a : ℕ) (buy : Bool) (price : ℤ) (r : ℕ) : OrderBook :=
  let matchQty := min (s.order a).leavesQty (s.order r).leavesQty
  let matchPrice := (s.order r).price
  let s := s.setOrder a ((s.order a).fill matchQty matchPrice).2
  let s := s.setOrder r ((s.order r).fill matchQty matchPrice).2
  let s := s.setLevel buy price ((s.level buy price).updateQuantity (-matchQty))
  let s := s.recordTrade a r matchQty matchPrice
  if (s.order r).leavesQty = 0 then
    { s.removeOrder buy price r with
      orders := update s.orders (s.order r).id none }
  else s

/-- The inner loop of `matchOrder`; the iterator moves on before the current order is matched. -/
def matchLevel (a : ℕ) (buy : Bool) (price : ℤ) : ℕ → OrderBook → Option ℕ → Except Fault OrderBook
  | 0, _, _ => .error .endless
  | _ + 1, s, none => .ok s
  | fuel + 1, s, some r =>
    if 0 < (s.order a).leavesQty then
      matchLevel a buy price fuel (s.matchResting a buy price r) (s.links r).next
    else .ok s

def removeEmptyPriceLevel (buy : Bool) (price : ℤ) : Except Fault OrderBook :=
  match (s.level buy price).orders with
  | none => .error .nilDereference
  | some head =>
    let side := (s.order head).isBuy
    let h := s.half side
    let h := { h with prices := h.prices.erase (s.level buy price).price }
    .ok ((s.setHalf side (h.updateBest side)).setLevel buy price PriceLevel.putPriceLevel)

/-- The test at the head of the outer loop: the order's limit stops it at the level. -/
def stopsAt (order : Order) (buy : Bool) (price : ℤ) : Except Fault Bool :=
  if order.isMarket then .ok false
  else
    match (s.level buy price).orders with
    | none => .error .nilDereference
    | some head =>
      .ok !(order.canMatch { price := (s.level buy price).price, side := (s.order head).side })

/-- The outer loop of `matchOrder`, from the level `oppositeSide` on. -/
def matchLevels (a : ℕ) : ℕ → OrderBook → Option ℤ → Except Fault OrderBook
  | 0, _, _ => .error .endless
  | _ + 1, s, none => .ok s
  | fuel + 1, s, some price =>
    let opposite := !(s.order a).isBuy
    if 0 < (s.order a).leavesQty then do
      if ← s.stopsAt (s.order a) opposite price then
        .ok s
      else
        let s ← matchLevel a opposite price (s.allocated + 1) s (s.level opposite price).orders
        if (s.level opposite price).isEmpty then
          let s ← s.removeEmptyPriceLevel opposite price
          matchLevels a fuel s (s.half opposite).best
        else .ok s
    else .ok s

/-- The status checks at the end of `matchOrder`. -/
def checkTimeInForce (o : Order) : Order :=
  let o :=
    if o.timeInForce = tifIOC ∧ 0 < o.leavesQty then
      { o with status := .statusCanceled }
    else o
  if o.timeInForce = tifFOK ∧ o.filledQty < o.quantity then
    { o with status := .statusCanceled }
  else o

def matchOrder (a : ℕ) : Except Fault OrderBook := do
  let opposite := !(s.order a).isBuy
  let s ← matchLevels a ((s.half opposite).prices.length + 1) s (s.half opposite).best
  .ok (s.setOrder a (checkTimeInForce (s.order a)))

def canMatchImmediately (o : Order) : Bool :=
  match (s.half !o.isBuy).best with
  | none => false
  | some p => o.isMarket || o.accepts (s.level (!o.isBuy) p).price

def addToBook (a : ℕ) : Except Fault OrderBook :=
  let o := s.order a
  let s := s.setHalf o.isBuy ((s.half o.isBuy).loadOrStore o.price)
  match (s.level o.isBuy o.price).addOrder s.links s.allocated a o.leavesQty with
  | none => .error .endless
  | some (pl, links) =>
    let h := (s.half o.isBuy).setLevel o.price pl
    .ok { s.setHalf o.isBuy (h.updateBestPrices o.isBuy o.price) with
      links := links }

def removeFromBook (r : ℕ) : OrderBook :=
  let o := s.order r
  if o.price ∈ (s.half o.isBuy).prices then
    let s := s.removeOrder o.isBuy o.price r
    if (s.level o.isBuy o.price).isEmpty then
      s.setHalf o.isBuy (((s.half o.isBuy).deleteLevel o.price).updateBest o.isBuy)
    else s
  else s

/-- `AddOrder` sets the initial values of a new order and stores it. -/
def storeOrder (o : Order) : OrderBook :=
  let id := (s.sequence + 1) % 2 ^ 64
  { s with
    order := update s.order s.allocated { o with
        id := id
        status := .statusNew
        leavesQty := o.quantity
        filledQty := 0 }
    links := update s.links s.allocated Links.clear
    allocated := s.allocated + 1
    sequence := id
    orders := update s.orders id (some s.allocated) }

def addOrder : Option Order → Except Fault (OrderBook × Option BookError)
  | none => .ok (s, some .nilOrder)
  | some o =>
    if o.quantity ≤ 0 then .ok (s, some .invalidQuantity)
    else do
      let a := s.allocated
      let s := s.storeOrder o
      let s ←
        if (s.order a).isMarket || s.canMatchImmediately (s.order a) then
          s.matchOrder a
        else .ok s
      let s ←
        if 0 < (s.order a).leavesQty ∧ (s.order a).orderType = orderTypeLimit then
          s.addToBook a
        else .ok s
      .ok (s, none)

def cancelOrder (orderID : ℕ) : OrderBook × Option BookError :=
  match s.orders orderID with
  | none => (s, some .orderNotFound)
  | some r =>
    let s := s.removeFromBook r
    let s := s.setOrder r { s.order r with status := .statusCanceled }
    ({ s with orders := update s.orders orderID none }, none)

/-- A call of one of the two methods that change the book. -/
inductive Action
  | add (order : Option Order)
  | cancel (orderID : ℕ)

def step : Action → Option OrderBook
  | .add order =>
    match s.addOrder order with
    | .ok (t, _) => some t
    | .error _ => none
  | .cancel orderID => some (s.cancelOrder orderID).1

/-- A book that some sequence of returning calls leads to. -/
def Reachable : Prop := ∃ acts, Run step anyStep newOrderBook acts s

/-- The orders of a level of the book, first in first out. -/
def queue (buy : Bool) (price : ℤ) : List ℕ :=
  if price ∈ (s.half buy).prices then
    toList s.links s.allocated (s.level buy price).orders
  else []

end OrderBook

end Fluxor.Matching
