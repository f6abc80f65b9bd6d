import Fluxor.Matching.AddOrder

/-!
# Cancelling

A completely filled aggressor, and a market order that found nothing to trade with,
stay in the map of orders although they are in no level. `RemoveOrder` takes an
order without predecessor for the head of the level at its price, so cancelling such
an order replaces the queue of whatever level now exists there.
-/

namespace Fluxor.Matching

open Support Transition List

namespace OrderBook

variable {s t : OrderBook} {b : Bool} {p : ℤ} {r x id : ℕ}

/-- From `s` to `t` every resting order but the one stored under `id` keeps its
data, its level and its relative place. -/
structure KeepsOthers (s t : OrderBook) (id : ℕ) : Prop where
  queue : ∀ b p, ((s.queue b p).filter fun x => s.orders id ≠ some x).Sublist (t.queue b p)
  order : ∀ x, s.orders id ≠ some x → t.order x = s.order x

/-- The order stored under `id` has no predecessor, and the level at its side
and price is headed by another order. -/
def DropsQueue (s : OrderBook) (id : ℕ) : Prop :=
  ∃ r, s.orders id = some r ∧ (s.links r).prev = none ∧
    (s.order r).price ∈ (s.half (s.order r).isBuy).prices ∧
    (s.level (s.order r).isBuy (s.order r).price).orders ≠ some r

instance (s : OrderBook) (id : ℕ) : Decidable (s.DropsQueue id) :=
  match h : s.orders id with
  | none => isFalse (by
      rintro ⟨r, hr, -⟩
      rw [h] at hr
      cases hr)
  | some r =>
    if hdrop : (s.links r).prev = none ∧ (s.order r).price ∈ (s.half (s.order r).isBuy).prices ∧
        (s.level (s.order r).isBuy (s.order r).price).orders ≠ some r then
      isTrue ⟨r, h, hdrop⟩
    else isFalse (by
      rintro ⟨r', hr', hdrop'⟩
      rw [h] at hr'
      cases hr'
      exact hdrop hdrop')

section

variable (hid : s.orders id = some r)

include hid

theorem queue_cancelOrder (b : Bool) (p : ℤ) :
    (s.cancelOrder id).1.queue b p = (s.removeFromBook r).queue b p := by
  rw [cancelOrder_of_known hid]
  exact (sameOutline_setStatus (s.removeFromBook r) r .statusCanceled).queue b p

theorem order_cancelOrder_of_ne (hx : x ≠ r) :
    (s.cancelOrder id).1.order x = s.order x := by
  rw [cancelOrder_of_known hid]
  simp [setOrder, hx]

theorem half_cancelOrder :
    (s.cancelOrder id).1.half = (s.removeFromBook r).half := by
  rw [cancelOrder_of_known hid]
  rfl

end

theorem leaves_cancelOrder (s : OrderBook) (id : ℕ) : (s.cancelOrder id).1.leaves = s.leaves := by
  cases hid : s.orders id with
  | none => rw [cancelOrder_of_unknown hid]
  | some r =>
    rw [cancelOrder_of_known hid]
    funext x
    by_cases hx : x = r
    all_goals simp [leaves, setOrder, hx]

theorem head_lost (hs : s.Shape) (hprev : (s.links r).prev = none)
    (hx : s.Heads (s.order r).isBuy (s.order r).price x) :
    x ∉ (s.removeFromBook r).queue (s.order r).isBuy (s.order r).price := by
  have hs' := hs.removeOrder r
  -- A first order still in the level would still be first, but the level now
  -- starts with the successor of `r`.
  have hremoved : x ∉ (s.removeOrder (s.order r).isBuy (s.order r).price
      r).queue (s.order r).isBuy (s.order r).price := by
    intro hmem
    have hfirst := hs'.heads_of_mem hmem (hs.linked.prev_unlink_eq_none (hs.head_prev hx))
    have hnext := hfirst.2
    rw [head_removeOrder_self, hprev] at hnext
    have hback := (hs.linked.next_iff r x).mp (by simpa using hnext)
    rw [hs.head_prev hx] at hback
    cases hback
  rcases removeFromBook_cases s r with
    ⟨hp, -⟩ | ⟨hp, t, rfl, ⟨hempty, heq⟩ | ⟨-, heq⟩⟩
  · exact absurd hx.1 hp
  · rwa [heq, hs'.queue_dropLevel ((hs'.queue_eq_nil_iff (by simpa using hp)).mpr hempty)]
  · rwa [heq]

/-- A cancellation leaves every other resting order alone exactly when it takes no
missing order for the head of a level. -/
theorem cancelOrder_keepsOthers_iff (hs : s.Reachable) (id : ℕ) :
    KeepsOthers s (s.cancelOrder id).1 id ↔ ¬s.DropsQueue id := by
  have hw := hs.wellFormed
  constructor
  · rintro hkeeps ⟨r, hid, hprev, hp, hother⟩
    cases hhead : (s.level (s.order r).isBuy (s.order r).price).orders with
    | none => exact hw.full _ _ hp hhead
    | some x =>
      have hxr : x ≠ r := fun e => hother (e ▸ hhead)
      have hx : s.Heads (s.order r).isBuy (s.order r).price x := ⟨hp, hhead⟩
      refine head_lost hw.shape hprev hx ?_
      rw [← queue_cancelOrder hid]
      refine (hkeeps.queue _ _).subset ?_
      have hmem : x ∈ s.queue (s.order r).isBuy (s.order r).price := by
        have hf := hw.shape.follows_queue hp
        cases hq : s.queue (s.order r).isBuy (s.order r).price with
        | nil =>
          rw [(hw.shape.queue_eq_nil_iff hp).mp hq] at hhead
          cases hhead
        | cons y =>
          rw [hq, hhead] at hf
          obtain rfl : x = y := Option.some.inj hf.1
          exact mem_cons_self
      refine mem_filter.mpr ⟨hmem, ?_⟩
      simpa [hid] using hxr.symm
  · intro hno
    cases hid : s.orders id with
    | none =>
      rw [cancelOrder_of_unknown hid]
      exact ⟨fun b p => filter_sublist, fun _ _ => rfl⟩
    | some r =>
      constructor
      · intro b p
        have hothers : ((s.queue b p).filter fun x => s.orders id ≠ some x) =
            (s.queue b p).erase r := by
          rw [(hw.shape.queue_nodup b p).erase_eq_filter]
          refine filter_congr fun x _ => ?_
          by_cases hxr : x = r
          · simp [hid, hxr]
          · simp [hid, hxr, Ne.symm hxr]
        rw [hothers, queue_cancelOrder hid, hw.shape.queue_removeFromBook]
        intro hprev hp
        by_contra hother
        exact hno ⟨r, hid, hprev, hp, hother⟩
      · intro x hx
        refine order_cancelOrder_of_ne hid ?_
        rintro rfl
        exact hx hid

/-- Cancelling the first of two resting bids. -/
theorem cancelOrder_keepsOthers_iff_resting :
    ∃ s : OrderBook, s.Reachable ∧ s.queue true 10 = [0, 1] ∧
      KeepsOthers s (s.cancelOrder 1).1 1 := by
  obtain ⟨s, hrun, hqueue, hno⟩ := exists_run step anyStep newOrderBook
    [.add (some { price := 10, quantity := 5 }), .add (some { price := 10, quantity := 2 })]
    (fun s => s.queue true 10 = [0, 1] ∧ ¬s.DropsQueue 1) (by decide +kernel)
  have hs : s.Reachable := ⟨_, hrun⟩
  exact ⟨s, hs, hqueue, (cancelOrder_keepsOthers_iff hs 1).mpr hno⟩

/-- A buy order that was filled at once is cancelled when another buy order rests at
the same price: the resting order is lost. -/
theorem cancelOrder_loses_resting :
    ¬∀ (s : OrderBook) (id : ℕ), s.Reachable → KeepsOthers s (s.cancelOrder id).1 id := by
  intro h
  obtain ⟨s, hrun, hresting, hother, hlost⟩ := exists_run step anyStep newOrderBook
    [.add (some { side := sideSell, price := 10, quantity := 5 }),
      .add (some { price := 10, quantity := 2 }),
      .cancel 1,
      .add (some { price := 10, quantity := 1 })]
    (fun s => s.queue true 10 = [2] ∧ s.orders 2 = some 1 ∧
      (s.cancelOrder 2).1.queue true 10 = []) (by decide +kernel)
  have hkeeps := (h s 2 ⟨_, hrun⟩).queue true 10
  rw [hresting, hother, hlost] at hkeeps
  exact absurd hkeeps (by decide)

end OrderBook

end Fluxor.Matching
