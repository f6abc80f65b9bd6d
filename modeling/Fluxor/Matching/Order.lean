import Fluxor.Support.GoInt
import Fluxor.Support.LinkedHeap

/-!
# Orders and price levels

An order object is a node of a heap: its data is an `Order`, its `next` and `prev`
pointers are kept next to it as `Links`, and a price level holds the pointer to the
first order of its queue.

Quantities of one order never leave the `int64` range, since what is filled and what
is left of it add up to its quantity; the totals of a price level may, and are
reduced to their Go types after every update. Symbols, timestamps, client order ids
and callbacks are left out.
-/

namespace Fluxor.Matching

open Support

def sideBuy : UInt8 := 0
def sideSell : UInt8 := 1

def orderTypeLimit : UInt8 := 0
def orderTypeMarket : UInt8 := 1

def tifGTC : UInt8 := 0
def tifIOC : UInt8 := 1
def tifFOK : UInt8 := 2

inductive OrderStatus
  | statusNew | statusPartial | statusFilled | statusCanceled | statusRejected

/-- The data of an order; the defaults are Go's zero values. -/
structure Order where
  id : ℕ := 0
  side : UInt8 := sideBuy
  orderType : UInt8 := orderTypeLimit
  price : ℤ := 0
  quantity : ℤ := 0
  filledQty : ℤ := 0
  leavesQty : ℤ := 0
  status : OrderStatus := .statusNew
  timeInForce : UInt8 := tifGTC

structure Fill where
  orderID : ℕ
  (price quantity : ℤ)

structure Trade where
  (buyOrderID sellOrderID : ℕ)
  (price quantity : ℤ)

namespace Order

def isBuy (o : Order) : Bool := o.side == sideBuy

def isMarket (o : Order) : Bool := o.orderType == orderTypeMarket

/-- Whether an order could trade at the given price by its own limit. -/
def accepts (o : Order) (price : ℤ) : Bool :=
  if o.isBuy then decide (price ≤ o.price) else decide (o.price ≤ price)

def canMatch (o other : Order) : Bool :=
  if o.side == other.side then false
  else if o.isMarket || other.isMarket then true
  else o.accepts other.price

def fill (o : Order) (qty price : ℤ) : Option Fill × Order :=
  if qty ≤ 0 ∨ o.leavesQty < qty then (none, o)
  else
    (some ⟨o.id, price, qty⟩, { o with
        filledQty := o.filledQty + qty
        leavesQty := o.leavesQty - qty
        status := if o.leavesQty - qty = 0 then .statusFilled
          else .statusPartial })

/-- What never changes while an order is in the book. -/
structure SameTerms (o o' : Order) : Prop where
  id : o'.id = o.id
  side : o'.side = o.side
  orderType : o'.orderType = o.orderType
  price : o'.price = o.price
  quantity : o'.quantity = o.quantity
  timeInForce : o'.timeInForce = o.timeInForce

/-- An order that waits: something is left, and what is filled and what is left add
up to its quantity. -/
structure Open (o : Order) : Prop where
  leaves_pos : 0 < o.leavesQty
  balance : o.filledQty + o.leavesQty = o.quantity

/-- `o'` is `o` after `qty` more of it has been filled. -/
structure FilledBy (o o' : Order) (qty : ℤ) : Prop where
  terms : SameTerms o o'
  filledQty : o'.filledQty = o.filledQty + qty
  leavesQty : o'.leavesQty = o.leavesQty - qty

theorem SameTerms.refl (o : Order) : SameTerms o o := ⟨rfl, rfl, rfl, rfl, rfl, rfl⟩

variable {o o' : Order}

theorem SameTerms.trans {o'' : Order} (h : SameTerms o o') (h' : SameTerms o' o'') :
    SameTerms o o'' where
  id := h'.id.trans h.id
  side := h'.side.trans h.side
  orderType := h'.orderType.trans h.orderType
  price := h'.price.trans h.price
  quantity := h'.quantity.trans h.quantity
  timeInForce := h'.timeInForce.trans h.timeInForce

theorem SameTerms.isBuy (h : SameTerms o o') : o'.isBuy = o.isBuy := by
  rw [Order.isBuy, Order.isBuy, h.side]

theorem FilledBy.refl (o : Order) : FilledBy o o 0 :=
  ⟨SameTerms.refl o, (Int.add_zero _).symm, (Int.sub_zero _).symm⟩

theorem FilledBy.trans {o'' : Order} {m n : ℤ} (h : FilledBy o o' m) (h' : FilledBy o' o'' n) :
    FilledBy o o'' (m + n) where
  terms := h.terms.trans h'.terms
  filledQty := by rw [h'.filledQty, h.filledQty, Int.add_assoc]
  leavesQty := by rw [h'.leavesQty, h.leavesQty, Int.sub_sub]

theorem FilledBy.balance {qty : ℤ} (h : FilledBy o o' qty) (hle : qty ≤ o.leavesQty)
    (ho : o.filledQty + o.leavesQty = o.quantity) :
    0 ≤ o'.leavesQty ∧ o'.filledQty + o'.leavesQty = o'.quantity := by
  rw [h.filledQty, h.leavesQty, h.terms.quantity]
  omega

theorem Open.filledBy {qty : ℤ} (ho : o.Open) (h : FilledBy o o' qty) (hqty : qty < o.leavesQty) :
    o'.Open where
  leaves_pos := by rw [h.leavesQty]; omega
  balance := by
    have := ho.balance
    rw [h.filledQty, h.leavesQty, h.terms.quantity]
    omega

theorem filledBy_fill {qty : ℤ} (price : ℤ) (hpos : 0 < qty) (hle : qty ≤ o.leavesQty) :
    FilledBy o (o.fill qty price).2 qty := by
  rw [fill, if_neg (by omega)]
  exact ⟨⟨rfl, rfl, rfl, rfl, rfl, rfl⟩, rfl, rfl⟩

end Order

/-- All orders at one price: the head of their queue and their totals. The pointers
to neighbouring levels are set by nobody. -/
structure PriceLevel where
  price : ℤ := 0
  totalQty : ℤ := 0
  orders : Option ℕ := none
  count : ℤ := 0
  next : Option ℤ := none
  prev : Option ℤ := none

namespace PriceLevel

/-- `GetPriceLevel`: a level from the pool, cleared, with its price. -/
def getPriceLevel (price : ℤ) : PriceLevel := { price := price }

/-- `PutPriceLevel`: a level given back to the pool is cleared. -/
def putPriceLevel : PriceLevel := {}

variable (pl : PriceLevel)

/-- What no order of the level changes: its price and its neighbours. -/
def label : ℤ × Option ℤ × Option ℤ := (pl.price, pl.next, pl.prev)

def isEmpty : Bool := pl.orders.isNone

def updateQuantity (qtyChange : ℤ) : PriceLevel :=
  { pl with totalQty := int64 (pl.totalQty + qtyChange) }

/-- Add an order with the given open quantity at the end of the queue. The loop to
the tail ends within `size` steps unless the queue is cyclic (`none`). -/
def addOrder (links : ℕ → Links) (size : ℕ) (order : ℕ)
    (leavesQty : ℤ) : Option (PriceLevel × (ℕ → Links)) :=
  let counted : PriceLevel :=
    { pl with
      totalQty := int64 (pl.totalQty + leavesQty)
      count := int32 (pl.count + 1) }
  match pl.orders with
  | none => some ({ counted with orders := some order }, Function.update links order Links.clear)
  | some head => (lastFrom links size head).map fun tail => (counted, linkAfter links tail order)

/-- Remove an order: one without predecessor is taken for the head of the queue. -/
def removeOrder (links : ℕ → Links) (order : ℕ) (leavesQty : ℤ) : PriceLevel × (ℕ → Links) :=
  ({ pl with
      orders :=
        if (links order).prev.isSome then pl.orders else (links order).next
      totalQty := int64 (pl.totalQty - leavesQty)
      count := int32 (pl.count - 1) },
    unlink links order)

/-- `pl'` counts one more order than `pl`, with the given open quantity. -/
structure Grown (pl pl' : PriceLevel) (leavesQty : ℤ) : Prop where
  label : pl'.label = pl.label
  totalQty : pl'.totalQty = int64 (pl.totalQty + leavesQty)
  count : pl'.count = int32 (pl.count + 1)

theorem addOrder_head {pl : PriceLevel} (hempty : pl.orders = none) (links : ℕ → Links)
    (size order : ℕ) (leavesQty : ℤ) :
    ∃ pl', pl.addOrder links size order leavesQty =
        some (pl', Function.update links order Links.clear) ∧
      pl'.orders = some order ∧ Grown pl pl' leavesQty := by
  rw [addOrder, hempty]
  exact ⟨_, rfl, rfl, rfl, rfl, rfl⟩

theorem addOrder_tail {pl : PriceLevel} {links : ℕ → Links} {size head tail : ℕ}
    (hhead : pl.orders = some head) (htail : lastFrom links size head = some tail) (order : ℕ)
    (leavesQty : ℤ) :
    ∃ pl', pl.addOrder links size order leavesQty = some (pl', linkAfter links tail order) ∧
      pl'.orders = pl.orders ∧ Grown pl pl' leavesQty := by
  rw [addOrder, hhead]
  simp only [htail, Option.map_some]
  exact ⟨_, rfl, rfl, rfl, rfl, rfl⟩

end PriceLevel

end Fluxor.Matching
