import Fluxor.Matching.Match

/-!
# What the calls of a book do

`AddOutcome` lists what a call of `AddOrder` with a positive quantity does to a
well-formed book, and `addOrder_outcome` shows that it does nothing else. Since a
level that is used up completely makes `removeEmptyPriceLevel` dereference a nil
pointer, an order trades with at most one level: it is filled there, or the call
does not return.

So every reachable book is well formed.
-/

namespace Fluxor.Matching

open Support Transition Option

namespace OrderBook

structure WellFormed (s : OrderBook) : Prop where
  shape : s.Shape
  live : s.Live
  full : s.NoEmptyLevel

/-- The level that an order trades with: the best opposite one, if the order's limit
admits its price. -/
def target (s : OrderBook) (o : Order) : Option ℤ :=
  (s.half !o.isBuy).best.filter fun p => o.isMarket || o.accepts p

variable {s t : OrderBook} {a r : ℕ} {b : Bool} {p : ℤ} {o o' : Order} {fills : List (ℕ × ℤ)}

theorem target_eq_some_iff :
    s.target o = some p ↔ (s.half !o.isBuy).best = some p ∧ (o.isMarket || o.accepts p) = true := by
  unfold target
  cases (s.half !o.isBuy).best <;> grind [Order.accepts]

theorem canMatchImmediately_eq (hs : s.Shape) (o : Order) :
    s.canMatchImmediately o = (s.target o).isSome := by
  unfold canMatchImmediately target
  grind [Shape.level_price, Shape.best_mem]

/-! ## The outer loop -/

theorem stopsAt_target (hw : s.WellFormed) (ht : s.target o = some p) :
    s.stopsAt o (!o.isBuy) p = .ok false := by
  obtain ⟨hbest, hadmit⟩ := target_eq_some_iff.mp ht
  have hp := hw.shape.best_mem hbest
  unfold stopsAt
  by_cases hm : o.isMarket = true
  · exact if_pos hm
  rw [if_neg hm]
  cases hhead : (s.level (!o.isBuy) p).orders with
  | none => exact absurd hhead (hw.full _ p hp)
  | some head =>
    have hside := (hw.shape.head_terms ⟨hp, hhead⟩).1
    have haccept : o.accepts p = true := by simpa [hm] using hadmit
    have hne : (o.side == (s.order head).side) = false := by
      rw [beq_eq_false_iff_ne]
      intro hsame
      rw [Order.isBuy, ← hsame, ← Order.isBuy] at hside
      cases hbuy : o.isBuy <;> rw [hbuy] at hside <;> cases hside
    have hother : Order.isMarket { price := p, side := (s.order head).side } =
        false := rfl
    simp only [hw.shape.level_price hp, Order.canMatch, hne, hother, hm, haccept]
    rfl

theorem matchOrder_idle (hbest : (s.half !(s.order a).isBuy).best = none) :
    s.matchOrder a = .ok (s.setOrder a (checkTimeInForce (s.order a))) := by
  simp only [matchOrder, hbest]
  rfl

/-- The first round of the outer loop is the last: the level is used up and
removing it faults, or the order is filled. -/
theorem matchLevels_target (hw : s.WellFormed) (hfree : ¬s.Listed a) (ha : 0 < s.leaves a)
    (ht : s.target (s.order a) = some p) (fuel : ℕ) :
    ∃ t, Matched s t a (!(s.order a).isBuy) p
        (allocate s.leaves (s.leaves a) (s.queue (!(s.order a).isBuy) p)) ∧
      t.queue (!(s.order a).isBuy) p =
        remaining s.leaves (s.leaves a) (s.queue (!(s.order a).isBuy) p) ∧
      matchLevels a (fuel + 1) s (some p) =
        if t.queue (!(s.order a).isBuy) p = [] then .error .nilDereference else .ok t := by
  have hp := hw.shape.best_mem (target_eq_some_iff.mp ht).1
  have hlength : (s.queue (!(s.order a).isBuy) p).length < s.allocated + 1 :=
    Nat.lt_succ_of_le ((hw.shape.follows_queue hp).length_le hw.shape.linked
      (hw.shape.head_bound hp))
  obtain ⟨t, hloop, hmatched, hqueue⟩ := matchLevel_matched hw.shape hw.live
    hfree ha.le hp rfl hlength
  refine ⟨t, hmatched, hqueue, ?_⟩
  have hp' : p ∈ (t.half !(s.order a).isBuy).prices := by rwa [hmatched.prices]
  rw [matchLevels]
  simp only [leaves] at ha
  simp only [if_pos ha, stopsAt_target hw ht, hloop, bind, Except.bind,
    Bool.false_eq_true, if_false, PriceLevel.isEmpty,
    isNone_iff_eq_none]
  grind [Shape.queue_eq_nil_iff, Matched.shape, removeEmptyPriceLevel]

/-! ## The end of a call -/

theorem filledBy_checkTimeInForce (o : Order) : o.FilledBy (checkTimeInForce o) 0 := by
  unfold checkTimeInForce
  refine ⟨?_, ?_, ?_⟩
  · constructor <;> dsimp only <;> split <;> split <;> rfl
  · grind
  grind

theorem Matched.setAggressor (h : Matched s t a b p fills) (ho : (t.order a).FilledBy o' 0) :
    Matched s (t.setOrder a o') a b p fills := by
  have horder : ∀ {x}, x ≠ a → (t.setOrder a o').order x = t.order x :=
    fun hx => Function.update_of_ne hx _ _
  have hself : (t.setOrder a o').order a = o' := Function.update_self _ _ _
  have hsame : SameOutline t (t.setOrder a o') := by
    refine ⟨rfl, rfl, fun _ => rfl, fun _ => rfl, fun _ _ => rfl, fun _ _ => rfl, ?_⟩
    grind [Order.SameTerms.isBuy, Order.FilledBy.terms, Order.SameTerms.price]
  exact {
    shape := h.shape.of_sameOutline hsame h.shape.known
    live := by
      intro x hx
      have hx := hsame.listed.mp hx
      rw [horder fun e => h.free (e ▸ hx)]
      exact h.live x hx
    free := fun hlisted => h.free (hsame.listed.mp hlisted)
    allocated := h.allocated
    aggressor := by
      rw [hself]
      simpa using h.aggressor.trans ho
    resting := by
      grind [resting]
    executions := h.executions
    prices := h.prices
    best := h.best
    level := h.level
    queue := h.queue
    counted := by
      intro hcounted
      obtain ⟨htotal, hcount⟩ := h.counted hcounted
      refine ⟨?_, hcount⟩
      have hopen : (t.setOrder a o').openQty (t.queue b p) = t.openQty (t.queue b p) := by
        unfold openQty
        congr 1
        refine List.map_congr_left fun x hx => ?_
        rw [horder fun e => h.free (e ▸ h.shape.listed_of_mem hx)]
      exact htotal.trans (congrArg int64 hopen.symm) }

/-- What a call of `AddOrder` with a positive quantity does. -/
inductive AddOutcome (s : OrderBook) (o : Order) :
    Except Fault (OrderBook × Option BookError) → Prop
  /-- Nothing to trade with: a limit order goes to its level. -/
  | rests (t : OrderBook) (ht : s.target o = none) (hlimit : o.orderType = orderTypeLimit)
      (h : Rested (s.storeOrder o) t s.allocated) :
      AddOutcome s o (.ok (t, none))
  /-- Nothing to trade with, and the order is not a limit order. -/
  | idles (t : OrderBook) (ht : s.target o = none) (hlimit : o.orderType ≠ orderTypeLimit)
      (h : ∀ b p, Matched (s.storeOrder o) t s.allocated b p []) :
      AddOutcome s o (.ok (t, none))
  /-- The order is filled from one level, which is not used up. -/
  | trades (p : ℤ) (t : OrderBook) (ht : s.target o = some p)
      (hmore : o.quantity < s.openQty (s.queue (!o.isBuy) p))
      (h : Matched (s.storeOrder o) t s.allocated (!o.isBuy) p
        (allocate s.leaves o.quantity (s.queue (!o.isBuy) p)))
      (hqueue : t.queue (!o.isBuy) p = remaining s.leaves o.quantity (s.queue (!o.isBuy) p)) :
      AddOutcome s o (.ok (t, none))
  /-- The level is used up. -/
  | faults (p : ℤ) (ht : s.target o = some p)
      (hall : s.openQty (s.queue (!o.isBuy) p) ≤ o.quantity) :
      AddOutcome s o (.error .nilDereference)

theorem WellFormed.storeOrder (hw : s.WellFormed) (o : Order) : (s.storeOrder o).WellFormed where
  shape := hw.shape.storeOrder o
  live := hw.live.storeOrder hw.shape o
  full := hw.full

theorem WellFormed.leaves_pos (hw : s.WellFormed) : ∀ x ∈ s.queue b p, 0 < s.leaves x :=
  fun x hx => (hw.live x (hw.shape.listed_of_mem hx)).leaves_pos

theorem terms_storeOrder (s : OrderBook) (o : Order) :
    ((s.storeOrder o).order s.allocated).isBuy = o.isBuy ∧
      ((s.storeOrder o).order s.allocated).isMarket = o.isMarket ∧
      ((s.storeOrder o).order s.allocated).price = o.price ∧
      ((s.storeOrder o).order s.allocated).orderType = o.orderType := by
  rw [order_storeOrder_self]
  exact ⟨rfl, rfl, rfl, rfl⟩

theorem target_storeOrder (s : OrderBook) (o : Order) :
    (s.storeOrder o).target ((s.storeOrder o).order s.allocated) = s.target o := by
  rw [order_storeOrder_self]
  rfl

theorem WellFormed.leaves_storeOrder (hw : s.WellFormed) (o : Order) :
    ∀ x ∈ s.queue b p, (s.storeOrder o).leaves x = s.leaves x := by
  intro x hx
  unfold leaves
  rw [order_storeOrder_of_ne o (hw.shape.lt_of_mem hx).ne]

theorem not_listed_storeOrder (hs : s.Shape) (o : Order) :
    ¬(s.storeOrder o).Listed s.allocated := fun h =>
  hs.not_listed_allocated ((hs.listed_storeOrder o).mp h)

section

variable (hw : s.WellFormed) (hq : 0 < o.quantity)

include hw hq

theorem addOrder_of_no_target (ht : s.target o = none) : AddOutcome s o (s.addOrder (some o)) := by
  have hw' := hw.storeOrder o
  have hfree := not_listed_storeOrder hw.shape o
  obtain ⟨hbuy, hmarket, -, htype⟩ := terms_storeOrder s o
  have hcan : (s.storeOrder o).canMatchImmediately
      ((s.storeOrder o).order s.allocated) = false := by
    rw [canMatchImmediately_eq hw'.shape, target_storeOrder, ht]
    rfl
  have hleaves : ((s.storeOrder o).order s.allocated).leavesQty =
      o.quantity := by
    rw [order_storeOrder_self]
  unfold addOrder
  simp only [if_neg (not_le.mpr hq), hcan, hmarket, Bool.or_false]
  by_cases hm : o.isMarket = true
  · -- A market order finds the other side empty.
    have hbest : ((s.storeOrder o).half
        !((s.storeOrder o).order s.allocated).isBuy).best = none := by
      rw [hbuy]
      change (s.half !o.isBuy).best = none
      cases hbest : (s.half !o.isBuy).best <;> grind [target_eq_some_iff]
    have hlimit : o.orderType ≠ orderTypeLimit := by
      intro hlimit
      rw [Order.isMarket, hlimit] at hm
      exact absurd hm (by decide)
    have hchecked := filledBy_checkTimeInForce ((s.storeOrder o).order s.allocated)
    have hdone : ∀ b p, Matched (s.storeOrder o) ((s.storeOrder o).setOrder s.allocated
          (checkTimeInForce ((s.storeOrder o).order s.allocated)))
        s.allocated b p [] := fun b p =>
      (Matched.refl hw'.shape hw'.live hfree b p).setAggressor hchecked
    have hrest : ¬(((s.storeOrder o).setOrder s.allocated
        (checkTimeInForce ((s.storeOrder o).order s.allocated))).order
          s.allocated).orderType = orderTypeLimit := by
      rwa [((hdone true 0).terms s.allocated).orderType, htype]
    rw [if_pos hm, matchOrder_idle hbest]
    simp only [bind, Except.bind, hrest, and_false, if_false]
    exact AddOutcome.idles _ ht hlimit hdone
  · rw [if_neg hm]
    simp only [bind, Except.bind, hleaves, hq, htype, true_and]
    by_cases hlimit : o.orderType = orderTypeLimit
    · obtain ⟨t, hadd, hrested⟩ := addToBook_rested hw'.shape rfl hfree
      simp only [if_pos hlimit, hadd]
      exact AddOutcome.rests t ht hlimit hrested
    · simp only [if_neg hlimit]
      exact AddOutcome.idles _ ht hlimit fun b p => Matched.refl hw'.shape hw'.live hfree b p

theorem addOrder_of_target (ht : s.target o = some p) : AddOutcome s o (s.addOrder (some o)) := by
  have hw' := hw.storeOrder o
  have hfree := not_listed_storeOrder hw.shape o
  obtain ⟨hbuy, -, -, -⟩ := terms_storeOrder s o
  have hcan : (s.storeOrder o).canMatchImmediately ((s.storeOrder o).order s.allocated) = true := by
    rw [canMatchImmediately_eq hw'.shape, target_storeOrder, ht]
    rfl
  have hleaves : (s.storeOrder o).leaves s.allocated = o.quantity := by
    unfold leaves
    rw [order_storeOrder_self]
  have ht' : (s.storeOrder o).target ((s.storeOrder o).order s.allocated) = some p := by
    rw [target_storeOrder, ht]
  have hbest := (target_eq_some_iff.mp ht').1
  obtain ⟨t, hmatched, hqueue, hloop⟩ := matchLevels_target hw' hfree (hleaves ▸ hq) ht'
    ((s.storeOrder o).half !((s.storeOrder o).order s.allocated).isBuy).prices.length
  rw [hleaves, hbuy, hw.shape.queue_storeOrder, allocate_congr (hw.leaves_storeOrder o)] at hmatched
  rw [hleaves, hbuy, hw.shape.queue_storeOrder, remaining_congr (hw.leaves_storeOrder o)] at hqueue
  rw [hbuy] at hloop hbest
  unfold addOrder
  simp only [if_neg (not_le.mpr hq), hcan, Bool.or_true, if_true, matchOrder,
    hbuy, hbest, hloop, bind, Except.bind]
  have hp : p ∈ (s.half !o.isBuy).prices := hw.shape.best_mem (target_eq_some_iff.mp ht).1
  have hne : s.queue (!o.isBuy) p ≠ [] := hw.shape.noEmptyLevel_iff.mp hw.full _ p hp
  by_cases hall : s.openQty (s.queue (!o.isBuy) p) ≤ o.quantity
  · have hempty : t.queue (!o.isBuy) p = [] := by
      rw [hqueue, remaining_eq_nil_iff hw.leaves_pos]
      exact Or.inr hall
    rw [if_pos hempty]
    exact AddOutcome.faults p ht hall
  · have hleft : t.queue (!o.isBuy) p ≠ [] := by
      rw [hqueue, ne_eq, remaining_eq_nil_iff hw.leaves_pos]
      exact not_or.mpr ⟨hne, hall⟩
    rw [if_neg hleft]
    have hmatched' := hmatched.setAggressor (filledBy_checkTimeInForce (t.order s.allocated))
    have htotal : total (allocate s.leaves o.quantity (s.queue (!o.isBuy) p)) = o.quantity := by
      rw [total_allocate hq.le hw.leaves_pos]
      exact min_eq_left (le_of_not_ge hall)
    have hdone : ((t.setOrder s.allocated (checkTimeInForce (t.order s.allocated))).order
          s.allocated).leavesQty = 0 := by
      rw [hmatched'.aggressor.leavesQty, htotal, ← leaves, hleaves, sub_self]
    simp only [hdone, lt_irrefl, false_and, if_false]
    exact AddOutcome.trades p _ ht (not_le.mp hall) hmatched' hqueue

theorem addOrder_outcome : AddOutcome s o (s.addOrder (some o)) := by
  cases ht : s.target o <;> grind [addOrder_of_no_target, addOrder_of_target]

end

/-! ## Reachable books are well formed -/

theorem Matched.wellFormed (h : Matched s t a b p fills) (hs : s.Shape) (hfull : s.NoEmptyLevel)
    (hleft : p ∈ (s.half b).prices → t.queue b p ≠ []) : t.WellFormed where
  shape := h.shape
  live := h.live
  full := by
    rw [h.shape.noEmptyLevel_iff]
    rw [hs.noEmptyLevel_iff] at hfull
    intro b' p' hp'
    by_cases hne : (b', p') = (b, p)
    · cases hne
      exact hleft (h.prices b ▸ hp')
    · rw [h.queue hne]
      exact hfull b' p' (h.prices b' ▸ hp')

theorem AddOutcome.wellFormed {e : Option BookError} (hw : s.WellFormed) (hq : 0 < o.quantity)
    (h : AddOutcome s o (.ok (t, e))) : t.WellFormed := by
  have hw' := hw.storeOrder o
  cases h with
  | rests _ ht hlimit h =>
    have hopen : ((s.storeOrder o).order s.allocated).Open := by
      rw [order_storeOrder_self]
      exact ⟨hq, zero_add _⟩
    exact ⟨h.shape, h.live hw'.live hopen, h.noEmptyLevel hw'.shape hw'.full⟩
  | idles _ ht hlimit h =>
    refine (h true 0).wellFormed hw'.shape hw'.full ?_
    rw [(h false 0).queue (by simp)]
    exact hw'.shape.noEmptyLevel_iff.mp hw'.full true 0
  | trades p _ ht hmore h hqueue =>
    refine h.wellFormed hw'.shape hw'.full fun hp => ?_
    rw [hqueue, ne_eq, remaining_eq_nil_iff hw.leaves_pos]
    exact not_or.mpr ⟨hw.shape.noEmptyLevel_iff.mp hw.full _ p hp, not_le.mpr hmore⟩

theorem sameOutline_setStatus (s : OrderBook) (r : ℕ) (status : OrderStatus) :
    SameOutline s (s.setOrder r { s.order r with status := status }) := by
  refine ⟨rfl, rfl, fun _ => rfl, fun _ => rfl, fun _ _ => rfl, fun _ _ => rfl, ?_⟩
  intro x
  by_cases hx : x = r
  · subst hx
    simp [setOrder, Order.isBuy]
  · simp [setOrder, hx]

theorem cancelOrder_of_unknown {id : ℕ} (hid : s.orders id = none) : (s.cancelOrder id).1 = s := by
  simp only [cancelOrder, hid]

theorem cancelOrder_of_known {id : ℕ} (hid : s.orders id = some r) :
    (s.cancelOrder id).1 = { (s.removeFromBook r).setOrder r
          { (s.removeFromBook r).order r with status := .statusCanceled } with
        orders := Function.update (s.removeFromBook r).orders id none } := by
  simp only [cancelOrder, hid]
  rfl

section

variable (hw : s.WellFormed)

include hw

theorem WellFormed.cancelOrder (id : ℕ) : (s.cancelOrder id).1.WellFormed := by
  cases hid : s.orders id with
  | none => rwa [cancelOrder_of_unknown hid]
  | some r =>
    have hsame := sameOutline_setStatus (s.removeFromBook r) r .statusCanceled
    have hshape := hw.shape.removeFromBook r
    have hshape' := hshape.of_sameOutline hsame hshape.known
    rw [cancelOrder_of_known hid]
    refine ⟨hshape'.deleteOrder id, ?_, ?_⟩
    · intro x hx
      have hopen := hw.live x (listed_removeFromBook hw.shape (hsame.listed.mp hx))
      by_cases hxr : x = r
      · subst hxr
        simpa [setOrder] using ⟨hopen.leaves_pos, hopen.balance⟩
      · simpa [setOrder, hxr] using hopen
    · exact hsame.noEmptyLevel (hw.full.removeFromBook hw.shape r)

theorem step_add_cases {order : Option Order} (hstep : s.step (.add order) = some t) :
    t = s ∨ ∃ o, order = some o ∧ 0 < o.quantity ∧
      s.addOrder (some o) = .ok (t, none) ∧ AddOutcome s o (.ok (t, none)) := by
  unfold step at hstep
  cases order with
  | none =>
    obtain rfl : s = t := some.inj hstep
    exact Or.inl rfl
  | some o =>
    by_cases hq : o.quantity ≤ 0
    · grind [addOrder]
    · have hout := addOrder_outcome hw (not_le.mp hq)
      cases hadd : s.addOrder (some o) with
      | error =>
        simp only [hadd] at hstep
        cases hstep
      | ok result =>
        obtain ⟨t', e⟩ := result
        simp only [hadd, some.injEq] at hstep
        subst hstep
        rw [hadd] at hout
        have he : e = none := by cases hout <;> rfl
        grind

omit hw in
theorem wellFormed_newOrderBook : newOrderBook.WellFormed where
  shape := {
    linked := {
      next_iff := fun a b => by simp [newOrderBook, Links.clear]
      increasing := fun h => by cases h
      bounded := fun h => by cases h }
    sameLevel := fun h => by cases h
    head_lt := fun h => by cases h.1
    head_prev := fun h => by cases h.1
    head_terms := fun h => by cases h.1
    level_label := fun h => by cases h
    prices_nodup := fun _ => List.nodup_nil
    best_mem := fun h => by cases h
    known := fun h => by cases h }
  live := by
    rintro x (hlinks | ⟨b, p, hhead⟩)
    · exact absurd rfl hlinks
    · cases hhead.1
  full := by
    intro b p hp
    cases hp

theorem wellFormed_step {act : Action} (hstep : s.step act = some t) :
    t.WellFormed := by
  cases act with
  | add => grind [step_add_cases, AddOutcome.wellFormed]
  | cancel id =>
    obtain rfl : (s.cancelOrder id).1 = t := some.inj hstep
    exact hw.cancelOrder id

omit hw in
theorem Reachable.wellFormed (hs : s.Reachable) : s.WellFormed := by
  obtain ⟨acts, hrun⟩ := hs
  exact hrun.invariant (fun hw _ hstep => wellFormed_step hw hstep) wellFormed_newOrderBook

/-! ## Which calls return -/

/-- The incoming order uses up the whole level it trades with. -/
def UsesUp (s : OrderBook) (o : Order) : Prop :=
  ∃ p, s.target o = some p ∧ s.openQty (s.queue (!o.isBuy) p) ≤ o.quantity

instance (s : OrderBook) (o : Order) : Decidable (s.UsesUp o) :=
  match h : s.target o with
  | none => isFalse (by
      rintro ⟨p, hp, -⟩
      rw [h] at hp
      cases hp)
  | some p =>
    if hall : s.openQty (s.queue (!o.isBuy) p) ≤ o.quantity then
      isTrue ⟨p, h, hall⟩
    else isFalse (by
      rintro ⟨q, hq, hall'⟩
      rw [h] at hq
      cases hq
      exact hall hall')

theorem addOrder_of_not_usesUp (hq : 0 < o.quantity) (hless : ¬s.UsesUp o) :
    ∃ t, s.addOrder (some o) = .ok (t, none) := by
  have hout := addOrder_outcome hw hq
  generalize s.addOrder (some o) = result at hout ⊢
  cases hout with
  | rests t | idles t | trades _ t => exact ⟨t, rfl⟩
  | faults p ht hall => exact absurd ⟨p, ht, hall⟩ hless

theorem addOrder_of_usesUp (hq : 0 < o.quantity) (huse : s.UsesUp o) :
    s.addOrder (some o) = .error .nilDereference := by
  have hout := addOrder_outcome hw hq
  obtain ⟨p, hp, hall⟩ := huse
  generalize s.addOrder (some o) = result at hout ⊢
  cases hout <;> grind

end

/-- A valid order is added unless it uses up the level it trades with; then the call
dereferences a nil pointer. -/
theorem addOrder_returns_iff (hs : s.Reachable) (hq : 0 < o.quantity) :
    ((∃ t, s.addOrder (some o) = .ok (t, none)) ↔ ¬s.UsesUp o) ∧
      (s.addOrder (some o) = .error .nilDereference ↔ s.UsesUp o) := by
  have hw := hs.wellFormed
  by_cases huse : s.UsesUp o
  · have hfault := addOrder_of_usesUp hw hq huse
    simp [huse, hfault]
  · obtain ⟨t, ht⟩ := addOrder_of_not_usesUp hw hq huse
    simp [huse, ht]

/-- An order for three of the five that the best level offers. -/
theorem addOrder_returns_iff_partly :
    ∃ s : OrderBook, s.Reachable ∧ ∃ t, s.addOrder (some { price := 10, quantity := 3 }) =
        .ok (t, none) := by
  obtain ⟨s, hrun, hless⟩ := exists_run step anyStep newOrderBook
    [.add (some { side := sideSell, price := 10, quantity := 5 })]
    (fun s => ¬s.UsesUp { price := 10, quantity := 3 }) (by decide +kernel)
  have hs : s.Reachable := ⟨_, hrun⟩
  exact ⟨s, hs, (addOrder_returns_iff hs (by decide)).1.mpr hless⟩

/-- An order that takes exactly what is offered at one price. -/
theorem addOrder_faults_on_whole_level :
    ¬∀ (s : OrderBook) (o : Order), s.Reachable → 0 < o.quantity →
      s.addOrder (some o) ≠ .error .nilDereference := by
  intro h
  obtain ⟨s, hrun, hfault⟩ := exists_run step anyStep newOrderBook
    [.add (some { side := sideSell, price := 10, quantity := 5 })]
    (fun s => (match s.addOrder (some { price := 10, quantity := 5 }) with
      | .error .nilDereference => true
      | _ => false) = true) (by decide +kernel)
  refine h s { price := 10, quantity := 5 } ⟨_, hrun⟩ (by decide) ?_
  split at hfault
  · assumption
  · cases hfault

/-! ## Time in force -/

/-- An order that may not wait is in no level after the call, and a fill-or-kill
order is filled completely or has not traded. -/
def Honoured (s t : OrderBook) (o : Order) : Prop :=
  (∀ b p, s.allocated ∉ t.queue b p) ∧ (o.timeInForce = tifFOK →
      (t.order s.allocated).filledQty = (t.order s.allocated).quantity ∨
        t.executions = s.executions)

/-- A limit order that may not wait is treated so when it trades at once or is
invalid; otherwise it is put into the book. -/
theorem addOrder_honoured_iff {e : Option BookError} (hs : s.Reachable)
    (hlimit : o.orderType = orderTypeLimit) (hok : s.addOrder (some o) = .ok (t, e)) :
    Honoured s t o ↔ o.quantity ≤ 0 ∨ s.canMatchImmediately o = true := by
  have hw := hs.wellFormed
  by_cases hq : o.quantity ≤ 0
  · rw [addOrder, if_pos hq] at hok
    cases hok
    refine iff_of_true ⟨?_, fun _ => Or.inr rfl⟩ (Or.inl hq)
    exact hw.shape.not_mem_of_not_listed hw.shape.not_listed_allocated
  · have hout := addOrder_outcome hw (not_le.mp hq)
    rw [hok] at hout
    rw [canMatchImmediately_eq hw.shape, or_iff_right hq]
    cases hout with
    | rests _ ht _ h =>
      refine iff_of_false ?_ (by simp [ht])
      rintro ⟨hgone, -⟩
      have hself := h.queue_self
      refine hgone ((s.storeOrder o).order s.allocated).isBuy
        ((s.storeOrder o).order s.allocated).price ?_
      rw [hself]
      exact List.mem_append_right _ List.mem_cons_self
    | idles _ ht hother h => exact absurd hlimit hother
    | trades p _ ht hmore h hqueue =>
      refine iff_of_true ⟨?_, fun _ => Or.inl ?_⟩ (by simp [ht])
      · exact h.shape.not_mem_of_not_listed h.free
      · rw [h.aggressor.filledQty, h.aggressor.terms.quantity, order_storeOrder_self,
          total_allocate (not_le.mp hq).le hw.leaves_pos]
        exact (zero_add _).trans (min_eq_left hmore.le)

/-- A fill-or-kill order for three of the five that the best level offers. -/
theorem addOrder_honoured_iff_filled : ∃ s t : OrderBook, s.Reachable ∧
      Honoured s t { price := 10, quantity := 3, timeInForce := tifFOK } := by
  obtain ⟨s, hrun, hmatch⟩ := exists_run step anyStep newOrderBook
    [.add (some { side := sideSell, price := 10, quantity := 5 })]
    (fun s => ¬s.UsesUp { price := 10, quantity := 3, timeInForce := tifFOK } ∧
      s.canMatchImmediately { price := 10, quantity := 3, timeInForce := tifFOK } = true)
    (by decide +kernel)
  have hs : s.Reachable := ⟨_, hrun⟩
  obtain ⟨t, hadd⟩ := addOrder_of_not_usesUp hs.wellFormed (by decide) hmatch.1
  exact ⟨s, t, hs, (addOrder_honoured_iff hs rfl hadd).mpr (Or.inr hmatch.2)⟩

/-- An immediate-or-cancel order rests in an empty book. -/
theorem addOrder_not_honoured :
    ¬∀ (s t : OrderBook) (o : Order) (e : Option BookError), s.Reachable →
      o.orderType = orderTypeLimit →
      (o.timeInForce = tifIOC ∨ o.timeInForce = tifFOK) →
      s.addOrder (some o) = .ok (t, e) → Honoured s t o := by
  intro h
  have hreach : newOrderBook.Reachable := ⟨[], Transition.Run.nil _⟩
  have hhonoured := h newOrderBook _
    { price := 10, quantity := 3, timeInForce := tifIOC } none hreach rfl
    (Or.inl rfl) rfl
  exact hhonoured.1 true 10 (by decide)

end OrderBook

end Fluxor.Matching
