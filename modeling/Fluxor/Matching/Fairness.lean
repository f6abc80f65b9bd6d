import Fluxor.Matching.Representation

/-!
# Fair matching

A call of `AddOrder` is fair when its trades follow price and time priority,
conserve quantity and leave a book in which no bid meets an ask. For a reachable
book this is the case exactly when the prices of the book are in order for the order
(`PricesInOrder`): the book is not crossed already, the cached best level is the
best if the order trades, and no opposite level is worth its limit if it comes to
rest.

The prices are in order after every run of careful calls.
-/

namespace Fluxor.Matching

open Support Transition List Half

namespace OrderBook

variable {s t : OrderBook} {a x y : ℕ} {b : Bool} {p q : ℤ} {o : Order} {fills : List (ℕ × ℤ)}

/-! ## Resting orders -/

def resting (s : OrderBook) : List ℕ :=
  [true, false].flatMap fun b => (s.half b).prices.flatMap (s.queue b)

theorem mem_resting : x ∈ s.resting ↔ ∃ b p, x ∈ s.queue b p := by
  grind [resting, mem_prices_of_mem_queue]

theorem Shape.mem_queue_of_resting (hs : s.Shape) (hx : x ∈ s.resting) :
    x ∈ s.queue (s.order x).isBuy (s.order x).price := by
  grind [mem_resting, terms_of_mem]

theorem Shape.resting_nodup (hs : s.Shape) : s.resting.Nodup := by
  have hside : ∀ b, ((s.half b).prices.flatMap (s.queue b)).Nodup := by
    intro b
    rw [nodup_flatMap]
    refine ⟨fun p _ => hs.queue_nodup b p, ?_⟩
    refine (hs.prices_nodup b).imp ?_
    intro p q hpq x hxp hxq
    exact hpq ((hs.terms_of_mem hxp).2.symm.trans (hs.terms_of_mem hxq).2)
  unfold resting
  rw [nodup_flatMap]
  refine ⟨fun b _ => hside b, ?_⟩
  rw [pairwise_cons]
  refine ⟨?_, pairwise_singleton _ _⟩
  intro b hb x hx hx'
  obtain rfl : b = false := by simpa using hb
  obtain ⟨p, -, hx⟩ := mem_flatMap.mp hx
  obtain ⟨q, -, hx'⟩ := mem_flatMap.mp hx'
  cases (hs.terms_of_mem hx).1.symm.trans (hs.terms_of_mem hx').1

/-! ## The property -/

/-- Among orders of one side, `x` is served before `y`: at a better price, or at the
same price earlier. -/
def Precedes (s : OrderBook) (x y : ℕ) : Prop :=
  beats (s.order x).isBuy (s.order x).price (s.order y).price = true ∨
    (s.order x).price = (s.order y).price ∧ x < y

def Uncrossed (s : OrderBook) : Prop :=
  ∀ x ∈ s.resting, ∀ y ∈ s.resting, (s.order x).isBuy = true →
    (s.order y).isBuy = false → (s.order x).price < (s.order y).price

def newTrades (s t : OrderBook) : List Execution := t.executions.drop s.executions.length

/-- A call that adds the order `o` to `s` and leads to `t` is fair. -/
structure Fair (s t : OrderBook) (o : Order) : Prop where
  appended : t.executions = s.executions ++ newTrades s t
  positive : ∀ e ∈ newTrades s t, 0 < e.trade.quantity
  parties : ∀ e ∈ newTrades s t, e.aggressor = s.allocated ∧
    e.resting ∈ s.resting ∧ (s.order e.resting).isBuy = !o.isBuy ∧
    e.trade.buyOrderID = (t.order (if o.isBuy then e.aggressor else e.resting)).id ∧
    e.trade.sellOrderID = (t.order (if o.isBuy then e.resting else e.aggressor)).id
  price : ∀ e ∈ newTrades s t, e.trade.price = (s.order e.resting).price ∧
    (o.isMarket || o.accepts e.trade.price) = true
  priority : ((newTrades s t).map Execution.resting).Pairwise s.Precedes
  served : ∀ e ∈ newTrades s t, ∀ x ∈ s.resting,
    (s.order x).isBuy = (s.order e.resting).isBuy → s.Precedes x e.resting → t.leaves x = 0
  filled : ((newTrades s t).map fun e => e.trade.quantity).sum = (t.order s.allocated).filledQty
  conserved : ((newTrades s t).map fun e => e.trade.quantity).sum =
    (s.resting.map fun x => s.leaves x - t.leaves x).sum
  uncrossed : t.Uncrossed

structure PricesInOrder (s : OrderBook) (o : Order) : Prop where
  uncrossed : ∀ p ∈ (s.half true).prices, ∀ q ∈ (s.half false).prices, p < q
  best : ∀ p, s.target o = some p → ∀ q ∈ (s.half !o.isBuy).prices, ¬beats (!o.isBuy) q p = true
  missed : s.target o = none → o.orderType = orderTypeLimit →
    ∀ q ∈ (s.half !o.isBuy).prices, ¬o.accepts q = true

theorem WellFormed.uncrossed_iff (hw : s.WellFormed) :
    s.Uncrossed ↔ ∀ p ∈ (s.half true).prices, ∀ q ∈ (s.half false).prices, p < q := by
  have hfull := hw.shape.noEmptyLevel_iff.mp hw.full
  constructor
  · intro h p hp q hq
    obtain ⟨x, hx⟩ := exists_mem_of_ne_nil _ (hfull true p hp)
    obtain ⟨y, hy⟩ := exists_mem_of_ne_nil _ (hfull false q hq)
    obtain ⟨hxb, rfl⟩ := hw.shape.terms_of_mem hx
    obtain ⟨hyb, rfl⟩ := hw.shape.terms_of_mem hy
    exact h x (mem_resting.mpr ⟨_, _, hx⟩) y (mem_resting.mpr ⟨_, _, hy⟩) hxb hyb
  · intro h x hx y hy hxb hyb
    grind [Shape.mem_queue_of_resting, shape, mem_prices_of_mem_queue]

/-! ## Orders that do not trade -/

theorem newTrades_eq {new : List Execution} (h : t.executions = s.executions ++ new) :
    newTrades s t = new := by
  rw [newTrades, h, drop_left]

theorem fair_of_no_trades (hs : s.Shape) (hexec : t.executions = s.executions)
    (hfilled : (t.order s.allocated).filledQty = 0)
    (hsame : ∀ x, x ≠ s.allocated → t.leaves x = s.leaves x) (huncrossed : t.Uncrossed) :
    Fair s t o := by
  have hnew : newTrades s t = [] := newTrades_eq (by rw [hexec, append_nil])
  have hzero : (s.resting.map fun x => s.leaves x - t.leaves x).sum = 0 := by
    refine sum_eq_zero ?_
    simp only [mem_map, forall_exists_index, and_imp]
    rintro m x hx rfl
    have hx := hs.lt_of_mem (hs.mem_queue_of_resting hx)
    rw [hsame x hx.ne, sub_self]
  exact {
    appended := by rw [hnew, hexec, append_nil]
    positive := by simp [hnew]
    parties := by simp [hnew]
    price := by simp [hnew]
    priority := by simp [hnew]
    served := by simp [hnew]
    filled := by simp [hnew, hfilled]
    conserved := by simp [hnew, hzero]
    uncrossed := huncrossed }

/-! ## Orders that trade -/

theorem hit_mem_queue {f : ℕ × ℤ} (hf : f ∈ allocate s.leaves o.quantity (s.queue b p)) :
    f.1 ∈ s.queue b p :=
  (allocate_sublist _ _ _).subset (mem_map_of_mem hf)

theorem hits_nodup (hs : s.Shape) :
    ((allocate s.leaves o.quantity (s.queue b p)).map Prod.fst).Nodup :=
  (hs.queue_nodup b p).sublist (allocate_sublist _ _ _)

section Trades

variable (h : Matched (s.storeOrder o) t s.allocated (!o.isBuy) p
  (allocate s.leaves o.quantity (s.queue (!o.isBuy) p)))
include h

theorem leaves_of_matched (hx : x < s.allocated) :
    t.leaves x = s.leaves x - amount (allocate s.leaves o.quantity (s.queue (!o.isBuy) p)) x := by
  have := (h.resting hx.ne).leavesQty
  rwa [order_storeOrder_of_ne o hx.ne] at this

theorem newTrades_matched :
    newTrades s t = (allocate s.leaves o.quantity (s.queue (!o.isBuy) p)).map
        ((s.storeOrder o).execution s.allocated) :=
  newTrades_eq h.executions

theorem mem_newTrades {e : Execution} (he : e ∈ newTrades s t) :
    ∃ f ∈ allocate s.leaves o.quantity (s.queue (!o.isBuy) p),
      e = (s.storeOrder o).execution s.allocated f := by
  grind [newTrades_matched]

theorem quantities_newTrades : ((newTrades s t).map fun e => e.trade.quantity).sum =
      total (allocate s.leaves o.quantity (s.queue (!o.isBuy) p)) := by
  rw [newTrades_matched h, map_map, total]
  congr 1
  refine map_congr_left fun f _ => ?_
  grind [execution, createTrade]

theorem fair_of_trades (hw : s.WellFormed) (ht : s.target o = some p)
    (hbest : ∀ q ∈ (s.half !o.isBuy).prices, ¬beats (!o.isBuy) q p = true)
    (huncrossed : t.Uncrossed) : Fair s t o := by
  have hs := hw.shape
  have hadmit := (target_eq_some_iff.mp ht).2
  have hpos : ∀ f ∈ allocate s.leaves o.quantity (s.queue (!o.isBuy) p),
      0 < f.2 := allocate_pos fun x hx => hw.leaves_pos x hx
  have hold : ∀ {f}, f ∈ allocate s.leaves o.quantity (s.queue (!o.isBuy) p) →
      (s.storeOrder o).order f.1 = s.order f.1 := fun hf =>
    order_storeOrder_of_ne o (hs.lt_of_mem (hit_mem_queue hf)).ne
  exact {
    appended := by rw [newTrades_matched h, h.executions]; rfl
    positive := by
      grind [mem_newTrades, execution, createTrade]
    parties := by
      intro e he
      obtain ⟨f, hf, rfl⟩ := mem_newTrades h he
      have hmem := hit_mem_queue hf
      refine ⟨rfl, mem_resting.mpr ⟨_, _, hmem⟩, (hs.terms_of_mem hmem).1, ?_⟩
      grind [execution, createTrade, terms_storeOrder, Order.SameTerms.id, Matched.terms]
    price := by
      intro e he
      obtain ⟨f, hf, rfl⟩ := mem_newTrades h he
      grind [execution, createTrade, Shape.terms_of_mem, hit_mem_queue]
    priority := by
      have hhits : (newTrades s t).map Execution.resting =
          (allocate s.leaves o.quantity (s.queue (!o.isBuy) p)).map
            Prod.fst := by
        rw [newTrades_matched h, map_map]
        rfl
      rw [hhits]
      have hsub := allocate_sublist s.leaves o.quantity (s.queue (!o.isBuy) p)
      refine ((hs.queue_pairwise _ p).sublist hsub).imp_of_mem ?_
      intro x y hx hy hxy
      right
      grind [Shape.terms_of_mem]
    served := by
      intro e he x hx hside hprec
      obtain ⟨f, hf, rfl⟩ := mem_newTrades h he
      have hmem := hit_mem_queue hf
      obtain ⟨hfside, hfprice⟩ := hs.terms_of_mem hmem
      have hxq := hs.mem_queue_of_resting hx
      change (s.order x).isBuy = (s.order f.1).isBuy at hside
      change s.Precedes x f.1 at hprec
      unfold Precedes at hprec
      rw [hfprice, hside, hfside] at hprec
      rw [hside, hfside] at hxq
      rcases hprec with hbetter | ⟨hsame, hlt⟩
      · grind [mem_prices_of_mem_queue]
      · -- Earlier in the same queue: it got all it had.
        rw [hsame] at hxq
        have hall := allocate_earlier (hs.queue_pairwise _ p) (mem_map_of_mem hf) hxq hlt
        grind [leaves_of_matched, Shape.lt_of_mem, amount_of_mem, hits_nodup]
    filled := by
      rw [quantities_newTrades h, h.aggressor.filledQty, order_storeOrder_self, zero_add]
    conserved := by
      rw [quantities_newTrades h, ← sum_amount hs.resting_nodup
        fun f hf => mem_resting.mpr ⟨_, _, hit_mem_queue hf⟩]
      congr 1
      refine map_congr_left fun x hx => ?_
      rw [leaves_of_matched h (hs.lt_of_mem (hs.mem_queue_of_resting hx)), sub_sub_cancel]
    uncrossed := huncrossed }

end Trades

/-! ## Prices after a call -/

theorem AddOutcome.prices_subset {e : Option BookError} (hout : AddOutcome s o (.ok (t, e)))
    (b : Bool) : (s.half b).prices ⊆ (t.half b).prices := by
  intro p hp
  cases hout with
  | rests _ ht hlimit h => exact h.mem_prices.mpr (Or.inr hp)
  | idles _ ht hlimit h => rwa [(h b p).prices]
  | trades q _ ht hmore h => rwa [h.prices]

theorem accepts_iff : o.accepts q = true ↔ if o.isBuy then q ≤ o.price else o.price ≤ q := by
  unfold Order.accepts
  cases o.isBuy <;> simp

section

variable (hw : s.WellFormed) (hq : 0 < o.quantity) (h : s.PricesInOrder o)
    (hout : AddOutcome s o (.ok (t, none)))

include hw hq h hout

theorem uncrossed_of_pricesInOrder : t.Uncrossed := by
  rw [(hout.wellFormed hw hq).uncrossed_iff]
  cases hout with
  | rests _ ht hlimit hrest =>
    obtain ⟨hbuy, -, hprice, -⟩ := terms_storeOrder s o
    have hmissed := h.missed ht hlimit
    have hmem : ∀ {b p}, p ∈ (t.half b).prices →
        (b, p) = (o.isBuy, o.price) ∨ p ∈ (s.half b).prices := by
      intro b p hp
      rw [← hbuy, ← hprice]
      exact hrest.mem_prices.mp hp
    grind [accepts_iff, PricesInOrder.uncrossed]
  | idles _ ht hlimit hidle =>
    rw [(hidle true 0).prices, (hidle true 0).prices]
    exact h.uncrossed
  | trades r _ ht hmore hmatched =>
    rw [hmatched.prices, hmatched.prices]
    exact h.uncrossed

theorem fair_of_pricesInOrder : Fair s t o := by
  have huncrossed := uncrossed_of_pricesInOrder hw hq h hout
  cases hout with
  | rests _ ht hlimit hrest =>
    refine fair_of_no_trades hw.shape hrest.executions ?_ ?_ huncrossed
    · rw [hrest.order, order_storeOrder_self]
    · intro x hx
      unfold leaves
      rw [hrest.order, order_storeOrder_of_ne o hx]
  | idles _ ht hlimit hidle =>
    refine fair_of_no_trades hw.shape ?_ ?_ ?_ huncrossed
    · rw [(hidle true 0).executions]
      exact append_nil _
    · rw [(hidle true 0).aggressor.filledQty, order_storeOrder_self]
      rfl
    · intro x hx
      have := ((hidle true 0).resting hx).leavesQty
      rwa [order_storeOrder_of_ne o hx, amount_nil, sub_zero] at this
  | trades => grind [fair_of_trades, PricesInOrder.best]

end

theorem pricesInOrder_of_fair (hw : s.WellFormed) (hq : 0 < o.quantity)
    (hout : AddOutcome s o (.ok (t, none))) (hfair : Fair s t o) : s.PricesInOrder o := by
  have huncrossed := (hout.wellFormed hw hq).uncrossed_iff.mp hfair.uncrossed
  have hfull := hw.shape.noEmptyLevel_iff.mp hw.full
  refine ⟨?_, ?_, ?_⟩
  · intro p hp q hq
    exact huncrossed p (hout.prices_subset true hp) q (hout.prices_subset false hq)
  · intro p ht q hq' hbeats
    cases hout with
    | rests _ hnone | idles _ hnone => rw [ht] at hnone; cases hnone
    | trades p' _ ht' hmore h =>
      obtain rfl : p = p' := Option.some.inj (ht.symm.trans ht')
      -- The first order of the level traded, and an order at the better
      -- price is left as it was.
      have hp := hw.shape.best_mem (target_eq_some_iff.mp ht).1
      obtain ⟨y, hy⟩ := exists_mem_of_ne_nil _ (hfull _ q hq')
      obtain ⟨hyside, hyprice⟩ := hw.shape.terms_of_mem hy
      cases hx : s.queue (!o.isBuy) p with
      | nil => exact hfull _ p hp hx
      | cons x =>
        have hxmem : x ∈ s.queue (!o.isBuy) p := by simp [hx]
        obtain ⟨hxside, hxprice⟩ := hw.shape.terms_of_mem hxmem
        have htraded : (s.storeOrder o).execution s.allocated
            (x, min o.quantity (s.leaves x)) ∈ newTrades s t := by
          grind [newTrades_matched, allocate]
        have hzero : t.leaves y = 0 := by
          refine hfair.served _ htraded y (mem_resting.mpr ⟨_, _, hy⟩) ?_ ?_
          · exact hyside.trans hxside.symm
          · left
            change beats (s.order y).isBuy (s.order y).price (s.order x).price = true
            rwa [hyside, hyprice, hxprice]
        have hne : q ≠ p := by grind [beats]
        have hnot : y ∉ (allocate s.leaves o.quantity (s.queue (!o.isBuy) p)).map Prod.fst := by
          grind [Shape.terms_of_mem, WellFormed.shape, allocate_sublist]
        rw [leaves_of_matched h (hw.shape.lt_of_mem hy), amount_of_not_mem hnot, sub_zero] at hzero
        exact (hw.leaves_pos y hy).ne' hzero
  · intro ht hlimit q hq' haccepts
    cases hout with
    | trades p _ ht' => rw [ht] at ht'; cases ht'
    | idles _ _ hother => exact hother hlimit
    | rests _ _ _ h =>
      obtain ⟨hbuy, -, hprice, -⟩ := terms_storeOrder s o
      have hself : o.price ∈ (t.half o.isBuy).prices := by grind [Rested.mem_prices]
      have hopp : q ∈ (t.half !o.isBuy).prices := by
        rw [h.mem_prices]
        exact Or.inr hq'
      grind [accepts_iff]

theorem outcome_of_ok (hs : s.Reachable) (hok : s.addOrder (some o) = .ok (t, none)) :
    0 < o.quantity ∧ AddOutcome s o (.ok (t, none)) := by
  grind [addOrder, addOrder_outcome, Reachable.wellFormed]

/-- Adding an order to a reachable book is fair exactly when the prices are in order for it. -/
theorem addOrder_fair_iff (hs : s.Reachable) (hok : s.addOrder (some o) = .ok (t, none)) :
    Fair s t o ↔ s.PricesInOrder o := by
  obtain ⟨hq, hout⟩ := outcome_of_ok hs hok
  exact ⟨pricesInOrder_of_fair hs.wellFormed hq hout,
    fun h => fair_of_pricesInOrder hs.wellFormed hq h hout⟩

/-! ## Careful runs -/

/-- Careful calls keep the book uncrossed and its best levels right. -/
structure Orderly (s : OrderBook) : Prop where
  faithful : s.Faithful
  uncrossed : ∀ p ∈ (s.half true).prices, ∀ q ∈ (s.half false).prices, p < q

theorem Orderly.pricesInOrder (h : s.Orderly) (o : Order) : s.PricesInOrder o where
  uncrossed := h.uncrossed
  best p ht q hq := by
    have hbest := h.faithful.best (!o.isBuy)
    rw [(target_eq_some_iff.mp ht).1] at hbest
    rcases hbest.2 q hq with rfl | hbeats <;> grind [beats]
  missed ht hlimit q hq haccepts := by
    have hmarket : o.isMarket = false := by
      rw [Order.isMarket, hlimit]
      rfl
    have hbest := h.faithful.best (!o.isBuy)
    cases hp : (s.half !o.isBuy).best with
    | none =>
      rw [hp] at hbest
      rw [show (s.half !o.isBuy).prices = [] from hbest] at hq
      cases hq
    | some p =>
      rw [hp] at hbest
      -- The best price is out of reach, and `q` is not better.
      have hout : ¬o.accepts p = true := by grind [target_eq_some_iff]
      rcases hbest.2 q hq with rfl | hbeats <;> grind [accepts_iff, beats]

theorem prices_removeFromBook_subset (hs : s.Shape) (x : ℕ) (b : Bool) :
    ((s.removeFromBook x).half b).prices ⊆ (s.half b).prices := by
  intro p hp
  rcases removeFromBook_cases s x with
    ⟨-, heq⟩ | ⟨-, t, rfl, ⟨-, heq⟩ | ⟨-, heq⟩⟩
  · rwa [heq] at hp
  · rw [heq, mem_prices_dropLevel (hs.removeOrder x)] at hp
    simpa using hp.2
  · rw [heq] at hp
    simpa using hp

theorem orderly_step {act : Action} (h : s.Orderly) (hcareful : s.Careful act)
    (hstep : s.step act = some t) : t.Orderly := by
  have hw := h.faithful.wellFormed
  refine ⟨faithful_step h.faithful hcareful hstep, ?_⟩
  cases act with
  | add =>
    rcases step_add_cases hw hstep with rfl | ⟨o, rfl, hq, -, hout⟩
    · exact h.uncrossed
    · exact (hout.wellFormed hw hq).uncrossed_iff.mp
        (uncrossed_of_pricesInOrder hw hq (h.pricesInOrder o) hout)
  | cancel id =>
    obtain rfl : (s.cancelOrder id).1 = t := Option.some.inj hstep
    cases hid : s.orders id with
    | none =>
      rw [cancelOrder_of_unknown hid]
      exact h.uncrossed
    | some r =>
      rw [half_cancelOrder hid]
      intro p hp q hq
      exact h.uncrossed p (prices_removeFromBook_subset hw.shape r _ hp) q
        (prices_removeFromBook_subset hw.shape r _ hq)

theorem orderly_of_careful {acts : List Action} (hrun : Run step Careful newOrderBook acts s) :
    s.Orderly :=
  hrun.invariant orderly_step ⟨faithful_newOrderBook, fun p hp => by cases hp⟩

/-- A sell order that is filled from two bids at the same price. -/
theorem addOrder_fair_iff_twoBids :
    ∃ s t : OrderBook, s.Reachable ∧ Fair s t { side := sideSell, price := 9, quantity := 6 } := by
  obtain ⟨s, hrun, hless⟩ := exists_run step Careful newOrderBook
    [.add (some { price := 10, quantity := 5 }), .add (some { price := 10, quantity := 2 }),
      .add (some { price := 7, quantity := 1 })]
    (fun s => ¬s.UsesUp { side := sideSell, price := 9, quantity := 6 })
    (by decide +kernel)
  have hs : s.Reachable := ⟨_, hrun.mono fun _ => trivial⟩
  obtain ⟨t, hadd⟩ := addOrder_of_not_usesUp hs.wellFormed (by decide) hless
  exact ⟨s, t, hs, (addOrder_fair_iff hs hadd).mpr ((orderly_of_careful hrun).pricesInOrder _)⟩

/-- Of two bids one is at price 0. After the other has been cancelled nobody finds
it, and a sell order at 0 comes to rest against it. -/
theorem addOrder_unfair_at_zero : ¬∀ (s t : OrderBook) (o : Order), s.Reachable →
      s.addOrder (some o) = .ok (t, none) → Fair s t o := by
  intro h
  obtain ⟨s, hrun, hless, hrests⟩ := exists_run step anyStep newOrderBook
    [.add (some { price := 5, quantity := 1 }), .add (some { price := 0, quantity := 1 }),
      .cancel 1]
    (fun s => ¬s.UsesUp { side := sideSell, price := 0, quantity := 1 } ∧ (s.step (.add (some
        { side := sideSell, price := 0, quantity := 1 }))).any
          (fun t => t.queue true 0 = [1] ∧ t.queue false 0 = [2] ∧
            (t.order 1).isBuy = true ∧ (t.order 2).isBuy = false ∧
            (t.order 1).price = 0 ∧ (t.order 2).price = 0) = true)
    (by decide +kernel)
  have hs : s.Reachable := ⟨_, hrun⟩
  obtain ⟨t, hadd⟩ := addOrder_of_not_usesUp hs.wellFormed (by decide) hless
  have hcross := (h s t _ hs hadd).uncrossed
  simp only [step, hadd, Option.any_some, decide_eq_true_eq] at hrests
  obtain ⟨hqueue, hqueue', hbuy, hsell, hprice, hprice'⟩ := hrests
  have hlt := hcross 1 (mem_resting.mpr ⟨true, 0, by rw [hqueue]; simp⟩)
    2 (mem_resting.mpr ⟨false, 0, by rw [hqueue']; simp⟩) hbuy hsell
  grind

/-! ## The trades of an order -/

/-- What the order `x` has bought or sold in the trades of the book. -/
def traded (s : OrderBook) (x : ℕ) : ℤ :=
  (s.executions.map fun e =>
    if e.aggressor = x ∨ e.resting = x then e.trade.quantity else 0).sum

/-- The orders agree with the trades of the book. -/
structure Audited (s : OrderBook) : Prop where
  filled : ∀ x < s.allocated, (s.order x).filledQty = s.traded x
  left : ∀ x < s.allocated, 0 ≤ (s.order x).leavesQty ∧
    (s.order x).filledQty + (s.order x).leavesQty = (s.order x).quantity
  parties : ∀ e ∈ s.executions, e.aggressor < s.allocated ∧ e.resting < s.allocated

theorem Audited.traded_allocated (h : s.Audited) : s.traded s.allocated = 0 := by
  refine sum_eq_zero ?_
  have := h.parties
  grind

theorem traded_of_matched (hm : Matched (s.storeOrder o) t s.allocated b p fills) (x : ℕ) :
    t.traded x = s.traded x + if x = s.allocated then total fills else amount fills x := by
  unfold traded total amount
  rw [hm.executions, map_append, sum_append, map_map]
  congr 1
  split <;> congr 1 <;> refine map_congr_left fun f hmem => ?_ <;>
    grind [execution, createTrade]

theorem Audited.matched (h : s.Audited) (hm : Matched (s.storeOrder o) t s.allocated b p fills)
    (hf : ∀ f ∈ fills, f.1 < s.allocated) (htotal : total fills ≤ o.quantity)
    (hle : ∀ x < s.allocated, amount fills x ≤ (s.order x).leavesQty) : t.Audited := by
  have hallocated : t.allocated = s.allocated + 1 := hm.allocated
  refine ⟨fun x hx => ?_, fun x hx => ?_, ?_⟩
  · rw [traded_of_matched hm]
    by_cases hxa : x = s.allocated
    · subst hxa
      rw [hm.aggressor.filledQty, order_storeOrder_self, if_pos rfl, h.traded_allocated]
    · rw [(hm.resting hxa).filledQty, order_storeOrder_of_ne o hxa, if_neg hxa,
        h.filled x (by omega)]
  · by_cases hxa : x = s.allocated
    · subst hxa
      have hfilled := hm.aggressor
      rw [order_storeOrder_self] at hfilled
      exact hfilled.balance htotal (zero_add _)
    · have hfilled := hm.resting hxa
      rw [order_storeOrder_of_ne o hxa] at hfilled
      exact hfilled.balance (hle x (by omega)) (h.left x (by omega)).2
  · rw [hm.executions, hallocated]
    intro e he
    rcases mem_append.mp he with he | he
    · have := h.parties e he
      omega
    · obtain ⟨f, hmem, rfl⟩ := mem_map.mp he
      exact ⟨Nat.lt_succ_self _, Nat.lt_succ_of_lt (hf f hmem)⟩

/-- Calls without trades that leave the quantities of the orders alone. -/
theorem Audited.of_no_trades (h : s.Audited) (hexec : t.executions = s.executions)
    (hallocated : t.allocated = s.allocated) (horder : ∀ x, (s.order x).FilledBy (t.order x) 0) :
    t.Audited := by
  refine ⟨fun x hx => ?_, fun x hx => ?_, by rw [hexec, hallocated]; exact h.parties⟩
  · rw [(horder x).filledQty, add_zero, h.filled x (by omega), traded, traded, hexec]
  · have hleft := h.left x (by omega)
    exact (horder x).balance hleft.1 hleft.2

theorem Audited.cancelOrder (h : s.Audited) (id : ℕ) : (s.cancelOrder id).1.Audited := by
  cases hid : s.orders id with
  | none => rwa [cancelOrder_of_unknown hid]
  | some r =>
    have hsame : (s.removeFromBook r).executions = s.executions ∧
        (s.removeFromBook r).allocated = s.allocated := by
      rcases removeFromBook_cases s r with
        ⟨-, heq⟩ | ⟨-, t, rfl, ⟨-, heq⟩ | ⟨-, heq⟩⟩ <;> rw [heq] <;> exact ⟨rfl, rfl⟩
    rw [cancelOrder_of_known hid]
    refine h.of_no_trades hsame.1 hsame.2 fun x => ?_
    by_cases hx : x = r
    · subst hx
      simpa [setOrder] using
        ⟨⟨rfl, rfl, rfl, rfl, rfl, rfl⟩, (add_zero _).symm, (sub_zero _).symm⟩
    · simpa [setOrder, hx] using Order.FilledBy.refl _

theorem Audited.addOrder (h : s.Audited) (hw : s.WellFormed) (hq : 0 < o.quantity)
    (hout : AddOutcome s o (.ok (t, none))) : t.Audited := by
  have hidle : ∀ {t}, Matched (s.storeOrder o) t s.allocated true 0 [] → t.Audited := fun hm =>
    h.matched hm (by simp) hq.le fun x hx => (h.left x hx).1
  cases hout with
  | idles _ _ _ hm => exact hidle (hm true 0)
  | rests _ _ _ hrest =>
    have hw' := hw.storeOrder o
    have hstored := hidle (.refl hw'.shape hw'.live (not_listed_storeOrder hw.shape o) true 0)
    refine hstored.of_no_trades hrest.executions hrest.allocated fun x => ?_
    rw [hrest.order]
    exact .refl _
  | trades p _ _ _ hm =>
    refine h.matched hm (fun f hf => hw.shape.lt_of_mem (hit_mem_queue hf)) ?_ fun x hx => ?_
    · rw [total_allocate hq.le hw.leaves_pos]
      exact min_le_left _ _
    by_cases hhit : x ∈ (allocate s.leaves o.quantity (s.queue (!o.isBuy) p)).map Prod.fst
    · obtain ⟨f, hf, rfl⟩ := mem_map.mp hhit
      rw [amount_of_mem (hits_nodup hw.shape) hf]
      exact allocate_le hf
    · rw [amount_of_not_mem hhit]
      exact (h.left x hx).1

theorem audited_newOrderBook : newOrderBook.Audited :=
  ⟨fun _ hx => absurd hx (Nat.not_lt_zero _), fun _ hx => absurd hx (Nat.not_lt_zero _),
    fun _ he => absurd he not_mem_nil⟩

/-- What an order has filled is what the trades of the book have given it, and never more
than its quantity. -/
theorem filledQty_eq_traded (hs : s.Reachable) (hx : x < s.allocated) :
    (s.order x).filledQty = s.traded x ∧ 0 ≤ (s.order x).leavesQty ∧
      (s.order x).filledQty + (s.order x).leavesQty = (s.order x).quantity := by
  obtain ⟨acts, hrun⟩ := hs
  have haudited : s.WellFormed ∧ s.Audited := by
    refine hrun.invariant (I := fun s => s.WellFormed ∧ s.Audited) ?_
      ⟨wellFormed_newOrderBook, audited_newOrderBook⟩
    rintro s act t ⟨hw, h⟩ - hstep
    refine ⟨wellFormed_step hw hstep, ?_⟩
    cases act with
    | add =>
      rcases step_add_cases hw hstep with rfl | ⟨o, -, hq, -, hout⟩
      · exact h
      · exact h.addOrder hw hq hout
    | cancel id =>
      obtain rfl : (s.cancelOrder id).1 = t := Option.some.inj hstep
      exact h.cancelOrder id
  exact ⟨haudited.2.filled x hx, haudited.2.left x hx⟩

/-- Two buyers take two and one of the five on offer, and the offer is cancelled. -/
theorem filledQty_eq_traded_cancelled : ∃ s : OrderBook, s.Reachable ∧ 0 < s.allocated ∧
    s.orders 1 = none ∧ s.traded 0 = 3 ∧ (s.order 0).filledQty = 3 := by
  obtain ⟨s, hrun, hlt, hgone, htraded⟩ := exists_run step anyStep newOrderBook
    [.add (some { side := sideSell, price := 10, quantity := 5 }),
      .add (some { price := 10, quantity := 2 }), .add (some { price := 11, quantity := 1 }),
      .cancel 1]
    (fun s => 0 < s.allocated ∧ s.orders 1 = none ∧ s.traded 0 = 3) (by decide +kernel)
  have hs : s.Reachable := ⟨_, hrun⟩
  exact ⟨s, hs, hlt, hgone, htraded, (filledQty_eq_traded hs hlt).1.trans htraded⟩

end OrderBook

end Fluxor.Matching
