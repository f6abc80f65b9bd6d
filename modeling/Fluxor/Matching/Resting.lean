import Fluxor.Matching.Edits
import Mathlib.Algebra.BigOperators.Group.List.Basic
import Mathlib.Algebra.Order.Group.Int

/-!
# Resting and removing orders

`addToBook` puts a new order at the end of the queue of its level, which it creates
if need be, and `removeFromBook` takes an order out of its level and deletes the
level when nothing is left. Both are described by what they do to the queues, the
prices, the best levels and the totals.
-/

namespace Fluxor.Matching

open Support Function List

namespace OrderBook

def openQty (s : OrderBook) (xs : List ℕ) : ℤ := (xs.map fun x => (s.order x).leavesQty).sum

/-- The totals of a level are those of its queue, up to the range. -/
def Counted (s : OrderBook) (b : Bool) (p : ℤ) : Prop :=
  (s.level b p).totalQty = int64 (s.openQty (s.queue b p)) ∧
    (s.level b p).count = int32 (s.queue b p).length

def CountedAll (s : OrderBook) : Prop := ∀ b, ∀ p ∈ (s.half b).prices, s.Counted b p

variable {s t : OrderBook} {b b' : Bool} {p p' : ℤ} {x r a : ℕ}

theorem Shape.noEmptyLevel_iff (hs : s.Shape) :
    s.NoEmptyLevel ↔ ∀ b, ∀ p ∈ (s.half b).prices, s.queue b p ≠ [] := by
  refine forall_congr' fun b => forall_congr' fun p => forall_congr' fun hp => ?_
  rw [ne_eq, ne_eq, hs.queue_eq_nil_iff hp]

/-- `t` is `s` after the order `a` has been added to its level. -/
structure Rested (s t : OrderBook) (a : ℕ) : Prop where
  shape : t.Shape
  order : t.order = s.order
  executions : t.executions = s.executions
  allocated : t.allocated = s.allocated
  mem_prices : ∀ {b p}, p ∈ (t.half b).prices ↔
    (b, p) = ((s.order a).isBuy, (s.order a).price) ∨ p ∈ (s.half b).prices
  queue_self : t.queue (s.order a).isBuy (s.order a).price =
    s.queue (s.order a).isBuy (s.order a).price ++ [a]
  queue_other : ∀ {b p}, (b, p) ≠ ((s.order a).isBuy, (s.order a).price) → t.queue b p = s.queue b p
  listed : ∀ {x}, t.Listed x → s.Listed x ∨ x = a
  counted : s.CountedAll → t.CountedAll
  best_self : (t.half (s.order a).isBuy).best = match (s.half (s.order a).isBuy).best with
    | none => some (s.order a).price
    | some q =>
      if Half.beats (s.order a).isBuy (s.order a).price q then
        some (s.order a).price
      else some q
  best_other : ∀ {b}, b ≠ (s.order a).isBuy → (t.half b).best = (s.half b).best

variable {pl : PriceLevel} {links : ℕ → Links}

theorem best_attach_self (hs : s.Shape) (hprice : pl.price = p) :
    ((s.attach b p pl links).half b).best = match (s.half b).best with
      | none => some p
      | some q => if Half.beats b p q then some p else some q := by
  simp only [attach, half_setHalf_self, Half.updateBestPrices, Half.setLevel]
  cases hbest : (s.half b).best with
  | none => rfl
  | some q =>
    have hq : (update (s.half b).level p pl q).price = q := by
      by_cases hqp : q = p
      · rw [hqp, update_self, hprice]
      · rw [update_of_ne hqp]
        exact hs.level_price (hs.best_mem hbest)
    simp only [update_self, hprice, hq]
    split <;> rfl

theorem counted_attach (hcounted : s.CountedAll)
    (hself : (s.attach b p pl links).queue b p = s.queue b p ++ [a])
    (hother : ∀ {b' p'}, (b', p') ≠ (b, p) → (s.attach b p pl links).queue b' p' = s.queue b' p')
    (hgrown : (s.level b p).Grown pl (s.order a).leavesQty) :
    (s.attach b p pl links).CountedAll := by
  intro b' p' hp'
  rw [prices_attach] at hp'
  obtain ⟨htotal, hnum⟩ := hcounted b' p' hp'
  by_cases hne : (b', p') = (b, p)
  · cases hne
    constructor
    · rw [level_attach_self, hgrown.totalQty, htotal, hself, int64_int64_add]
      simp [openQty, attach, setHalf]
    · rw [level_attach_self, hgrown.count, hnum, hself, int32_int32_add]
      simp
  · constructor
    · rw [level_attach_of_ne hne, hother hne, htotal]
      rfl
    · rw [level_attach_of_ne hne, hother hne, hnum]

theorem countedAll_withLevel (hs : s.Shape) (hcounted : s.CountedAll) :
    (s.withLevel b p).CountedAll := by
  intro b' p' hp'
  unfold Counted
  rw [hs.queue_withLevel]
  by_cases hmem : p' ∈ (s.half b').prices
  · rw [level_withLevel hmem]
    exact hcounted b' p' hmem
  · have hbp := (mem_prices_withLevel.mp hp').resolve_right hmem
    cases hbp
    rw [level_withLevel_new hmem, queue_of_not_mem hmem]
    exact ⟨rfl, rfl⟩

theorem rested_attach (hs : s.Shape) (hb : (s.order a).isBuy = b) (hp : (s.order a).price = p)
    (hgrown : ((s.withLevel b p).level b p).Grown pl (s.order a).leavesQty)
    (hshape : ((s.withLevel b p).attach b p pl links).Shape)
    (hself : ((s.withLevel b p).attach b p pl links).queue b p = (s.withLevel b p).queue b p ++ [a])
    (hother : ∀ {b' p'}, (b', p') ≠ (b, p) → ((s.withLevel b p).attach b p pl links).queue b' p' =
        (s.withLevel b p).queue b' p')
    (hlisted : ∀ {x}, ((s.withLevel b p).attach b p pl links).Listed x → s.Listed x ∨ x = a) :
    Rested s ((s.withLevel b p).attach b p pl links) a := by
  subst hb hp
  have hs' := hs.withLevel (s.order a).isBuy (s.order a).price
  have hlabel := hgrown.label.trans (hs'.level_label (mem_prices_withLevel.mpr (.inl rfl)))
  exact {
    shape := hshape
    order := rfl
    executions := rfl
    allocated := rfl
    mem_prices := by
      intro b p
      rw [prices_attach, mem_prices_withLevel]
    queue_self := by rw [hself, hs.queue_withLevel]
    queue_other := by
      intro b p hne
      rw [hother hne, hs.queue_withLevel]
    listed := hlisted
    counted := fun hcounted => counted_attach (countedAll_withLevel hs hcounted) hself hother hgrown
    best_self := by
      rw [best_attach_self hs' (congrArg Prod.fst hlabel), best_withLevel]
    best_other := by
      intro b hb
      rw [best_attach_of_ne hb, best_withLevel] }

theorem addToBook_eq (hb : (s.order a).isBuy = b) (hp : (s.order a).price = p) :
    s.addToBook a = match ((s.withLevel b p).level b p).addOrder s.links s.allocated a
        (s.order a).leavesQty with
      | none => .error .endless
      | some (pl, links) => .ok ((s.withLevel b p).attach b p pl links) := by
  subst hb hp
  rfl

theorem addToBook_rested (hs : s.Shape) (ha : s.allocated = a + 1) (hfree : ¬s.Listed a) :
    ∃ t, s.addToBook a = .ok t ∧ Rested s t a := by
  obtain ⟨b, hb⟩ : ∃ b, (s.order a).isBuy = b := ⟨_, rfl⟩
  obtain ⟨p, hp⟩ : ∃ p, (s.order a).price = p := ⟨_, rfl⟩
  have hs' := hs.withLevel b p
  have hmem : p ∈ ((s.withLevel b p).half b).prices := mem_prices_withLevel.mpr (.inl rfl)
  have hlabel := hs'.level_label hmem
  have hfree' : ¬(s.withLevel b p).Listed a := fun h => hfree (listed_withLevel.mp h)
  have hlt : a < s.allocated := ha ▸ Nat.lt_succ_self a
  have hfollows := hs'.follows_queue hmem
  rw [addToBook_eq hb hp]
  cases hhead : ((s.withLevel b p).level b p).orders with
  | none =>
    obtain ⟨pl, hadd, horders, hgrown⟩ :=
      PriceLevel.addOrder_head hhead s.links s.allocated a (s.order a).leavesQty
    rw [hadd, ← links_of_not_listed hfree, update_eq_self]
    have hshape := hs'.attach_head hmem hlt hfree' ⟨hb, hp⟩ horders (hgrown.label.trans hlabel)
    refine ⟨_, rfl, rested_attach hs hb hp hgrown hshape ?_ ?_ ?_⟩
    · rw [(hs'.queue_eq_nil_iff hmem).mpr hhead]
      exact queue_attach_head hshape hmem hfree' horders
    · exact queue_attach_head_of_ne
    · rintro x (hlinks | ⟨b', p', hx⟩)
      · exact .inl (.inl hlinks)
      · rcases heads_attach hx with ⟨-, hxa⟩ | ⟨-, hx⟩
        · exact .inr (Option.some.inj (hxa.symm.trans horders))
        · exact .inl (.inr ⟨b', p', heads_withLevel.mp hx⟩)
  | some head =>
    have hne : (s.withLevel b p).queue b p ≠ [] := by
      rw [ne_eq, hs'.queue_eq_nil_iff hmem, hhead]
      exact Option.some_ne_none head
    obtain ⟨tail, htail⟩ : ∃ tail, ((s.withLevel b p).queue b p).getLast? = some tail :=
      ⟨_, getLast?_eq_some_getLast hne⟩
    have hmemTail := mem_of_getLast? htail
    rw [hhead] at hfollows
    have hlast : lastFrom s.links s.allocated head = some tail := by
      rw [← htail]
      refine hfollows.lastFrom_eq (hfollows.length_le hs'.linked ?_)
      exact hhead ▸ hs'.head_bound hmem
    have hta : tail < a := by
      have hbound : tail < s.allocated := hs'.lt_of_mem hmemTail
      have hne : tail ≠ a := by
        rintro rfl
        exact hfree' (hs'.listed_of_mem hmemTail)
      omega
    obtain ⟨pl, hadd, horders, hgrown⟩ :=
      PriceLevel.addOrder_tail hhead hlast a (s.order a).leavesQty
    rw [hadd]
    have hshape := hs'.attach_tail hmem hlt hfree' ⟨hb, hp⟩ htail hta
      horders (hgrown.label.trans hlabel)
    refine ⟨_, rfl, rested_attach hs hb hp hgrown hshape ?_ ?_ ?_⟩
    · exact queue_attach_tail hs' hshape hmem hfree' htail horders
    · exact queue_attach_tail_of_ne hs' hshape hfree' hmemTail
    · rintro x (hlinks | ⟨b', p', hx⟩)
      · by_cases hxa : x = a
        · exact .inr hxa
        by_cases hxt : x = tail
        · exact .inl (listed_withLevel.mp (hxt ▸ hs'.listed_of_mem hmemTail))
        · refine .inl (.inl ?_)
          intro hclear
          refine hlinks ?_
          change linkAfter s.links tail a x = Links.clear
          simp [linkAfter, setNext, hxa, hxt, hclear]
      · rcases heads_attach hx with ⟨hbp, hxa⟩ | ⟨-, hx⟩
        · cases hbp
          exact .inl (.inr ⟨b, p, heads_withLevel.mp ⟨hmem, horders.symm.trans hxa⟩⟩)
        · exact .inl (.inr ⟨b', p', heads_withLevel.mp hx⟩)

theorem Rested.noEmptyLevel (h : Rested s t a) (hs : s.Shape) (hfull : s.NoEmptyLevel) :
    t.NoEmptyLevel := by
  rw [h.shape.noEmptyLevel_iff]
  rw [hs.noEmptyLevel_iff] at hfull
  intro b p hp
  by_cases hne : (b, p) = ((s.order a).isBuy, (s.order a).price)
  · cases hne
    rw [h.queue_self]
    exact append_ne_nil_of_right_ne_nil _ (cons_ne_nil a [])
  · rw [h.queue_other hne]
    exact hfull b p ((h.mem_prices.mp hp).resolve_left hne)

theorem Rested.live (h : Rested s t a) (hl : s.Live) (ha : (s.order a).Open) : t.Live := by
  intro x hx
  rw [h.order]
  rcases h.listed hx with hx | rfl
  · exact hl x hx
  · exact ha

/-- An order is removed from the level at its price, if there is one, which is
deleted when nothing is left. -/
theorem removeFromBook_cases (s : OrderBook) (r : ℕ) :
    (s.order r).price ∉ (s.half (s.order r).isBuy).prices ∧ s.removeFromBook r = s ∨
      (s.order r).price ∈ (s.half (s.order r).isBuy).prices ∧
        ∃ t, t = s.removeOrder (s.order r).isBuy (s.order r).price r ∧
          ((t.level (s.order r).isBuy (s.order r).price).orders = none ∧ s.removeFromBook r =
                t.dropLevel (s.order r).isBuy (s.order r).price ∨
            (t.level (s.order r).isBuy (s.order r).price).orders ≠ none ∧
              s.removeFromBook r = t) := by
  unfold removeFromBook
  by_cases hp : (s.order r).price ∈ (s.half (s.order r).isBuy).prices
  · refine .inr ⟨hp, _, rfl, ?_⟩
    simp only [if_pos hp, PriceLevel.isEmpty, Option.isNone_iff_eq_none]
    split
    next hempty => exact .inl ⟨hempty, rfl⟩
    next hempty => exact .inr ⟨hempty, rfl⟩
  · exact .inl ⟨hp, if_neg hp⟩

theorem Shape.removeFromBook (hs : s.Shape) (r : ℕ) : (s.removeFromBook r).Shape := by
  rcases removeFromBook_cases s r with
    ⟨-, heq⟩ | ⟨-, t, rfl, ⟨-, heq⟩ | ⟨-, heq⟩⟩
  · rwa [heq]
  · rw [heq]
    exact (hs.removeOrder r).dropLevel _ _
  · rw [heq]
    exact hs.removeOrder r

@[simp] theorem order_removeFromBook (s : OrderBook) (r : ℕ) :
    (s.removeFromBook r).order = s.order := by
  rcases removeFromBook_cases s r with
    ⟨-, heq⟩ | ⟨-, t, rfl, ⟨-, heq⟩ | ⟨-, heq⟩⟩
  · rw [heq]
  · rw [heq]
    rfl
  · rw [heq]
    rfl

theorem listed_removeFromBook (hs : s.Shape) (hx : (s.removeFromBook r).Listed x) : s.Listed x := by
  rcases removeFromBook_cases s r with
    ⟨-, heq⟩ | ⟨-, t, rfl, ⟨-, heq⟩ | ⟨-, heq⟩⟩
  · rwa [heq] at hx
  · rw [heq] at hx
    exact listed_removeOrder hs (listed_dropLevel (hs.removeOrder r) hx)
  · rw [heq] at hx
    exact listed_removeOrder hs hx

theorem NoEmptyLevel.removeFromBook (hfull : s.NoEmptyLevel) (hs : s.Shape) (r : ℕ) :
    (s.removeFromBook r).NoEmptyLevel := by
  have hother : ∀ b p, p ∈ (s.half b).prices → (b, p) ≠ ((s.order r).isBuy, (s.order r).price) →
      ((s.removeOrder (s.order r).isBuy (s.order r).price r).level b p).orders ≠ none := by
    intro b p hp hne
    rw [level_removeOrder_of_ne hne]
    exact hfull b p hp
  rcases removeFromBook_cases s r with
    ⟨-, heq⟩ | ⟨-, t, rfl, ⟨-, heq⟩ | ⟨hleft, heq⟩⟩
  · rwa [heq]
  · rw [heq]
    intro b p hp
    obtain ⟨hne, hp⟩ := (mem_prices_dropLevel (hs.removeOrder r)).mp hp
    rw [level_dropLevel_of_ne hne]
    exact hother b p (by simpa using hp) hne
  · rw [heq]
    intro b p hp
    by_cases hne : (b, p) = ((s.order r).isBuy, (s.order r).price)
    · cases hne
      exact hleft
    · exact hother b p (by simpa using hp) hne

/-- Removing an order with a predecessor, or the first of its level, erases it from
its queue and leaves all other queues. -/
theorem Shape.queue_removeFromBook (hs : s.Shape) (hr : (s.links r).prev = none →
      (s.order r).price ∈ (s.half (s.order r).isBuy).prices →
      (s.level (s.order r).isBuy (s.order r).price).orders = some r) (b : Bool) (p : ℤ) :
    (s.removeFromBook r).queue b p = (s.queue b p).erase r := by
  rcases removeFromBook_cases s r with
    ⟨hp, heq⟩ | ⟨hp, t, rfl, ⟨hempty, heq⟩ | ⟨-, heq⟩⟩
  · have hnot : r ∉ s.queue b p := by
      intro hmem
      obtain ⟨rfl, rfl⟩ := hs.terms_of_mem hmem
      exact hp (mem_prices_of_mem_queue hmem)
    rw [heq, erase_of_not_mem hnot]
  · have hs' := hs.removeOrder r
    have hnil := (hs'.queue_eq_nil_iff (by simpa using hp)).mpr hempty
    rw [heq, hs'.queue_dropLevel hnil]
    exact hs.queue_removeOrder (fun hprev => hr hprev hp) b p
  · rw [heq]
    exact hs.queue_removeOrder (fun hprev => hr hprev hp) b p

end OrderBook

end Fluxor.Matching
