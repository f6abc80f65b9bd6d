import Fluxor.Matching.Resting
import Fluxor.Support.Allocation

/-!
# Matching an order

An incoming order takes from the queue of the best opposite level what first come,
first served gives it: the inner loop of `matchOrder` is the allocation of the
incoming quantity along the queue (`matchLevel_matched`). The loop edits the list it
walks along, but always from its head, so in every round the iterator stands at the
first order of the level.
-/

namespace Fluxor.Matching

open Support List

namespace OrderBook

def leaves (s : OrderBook) (x : ℕ) : ℤ := (s.order x).leavesQty

def execution (s : OrderBook) (a : ℕ) (fill : ℕ × ℤ) : Execution :=
  ⟨createTrade (s.order a) (s.order fill.1) fill.2 (s.order fill.1).price, a, fill.1⟩

/-- `t` is `s` after `a` has traded with orders of one level: `fills` are the
resting orders with the traded quantities. -/
structure Matched (s t : OrderBook) (a : ℕ) (b : Bool) (p : ℤ) (fills : List (ℕ × ℤ)) : Prop where
  shape : t.Shape
  live : t.Live
  free : ¬t.Listed a
  allocated : t.allocated = s.allocated
  aggressor : (s.order a).FilledBy (t.order a) (total fills)
  resting : ∀ {x}, x ≠ a → (s.order x).FilledBy (t.order x) (amount fills x)
  executions : t.executions = s.executions ++ fills.map (s.execution a)
  prices : ∀ b', (t.half b').prices = (s.half b').prices
  best : ∀ b', (t.half b').best = (s.half b').best
  level : ∀ {b' p'}, (b', p') ≠ (b, p) → t.level b' p' = s.level b' p'
  queue : ∀ {b' p'}, (b', p') ≠ (b, p) → t.queue b' p' = s.queue b' p'
  counted : s.Counted b p → t.Counted b p

variable {s t u : OrderBook} {a r : ℕ} {b : Bool} {p : ℤ}
  {fills fills' : List (ℕ × ℤ)} {xs : List ℕ}

theorem createTrade_congr {o o' x x' : Order} (ho : o.SameTerms o') (hx : x.SameTerms x')
    (qty price : ℤ) : createTrade o' x' qty price = createTrade o x qty price := by
  unfold createTrade
  rw [ho.isBuy, ho.id, hx.id]

theorem Matched.refl (hs : s.Shape) (hl : s.Live) (hfree : ¬s.Listed a) (b : Bool) (p : ℤ) :
    Matched s s a b p [] where
  shape := hs
  live := hl
  free := hfree
  allocated := rfl
  aggressor := Order.FilledBy.refl _
  resting _ := Order.FilledBy.refl _
  executions := (append_nil _).symm
  prices _ := rfl
  best _ := rfl
  level _ := rfl
  queue _ := rfl
  counted := id

section

variable (h : Matched s t a b p fills)

include h

theorem Matched.terms (x : ℕ) :
    (s.order x).SameTerms (t.order x) := by
  by_cases hx : x = a
  · exact hx ▸ h.aggressor.terms
  · exact (h.resting hx).terms

theorem Matched.execution_eq : t.execution a = s.execution a := by
  grind [execution, Order.SameTerms.price, terms, createTrade_congr]

theorem Matched.trans (h' : Matched t u a b p fills') : Matched s u a b p (fills ++ fills') where
  shape := h'.shape
  live := h'.live
  free := h'.free
  allocated := h'.allocated.trans h.allocated
  aggressor := by
    have := h.aggressor.trans h'.aggressor
    rwa [← total_append] at this
  resting hx := by
    have := (h.resting hx).trans (h'.resting hx)
    rwa [← amount_append] at this
  executions := by
    rw [h'.executions, h.executions, h.execution_eq, map_append, append_assoc]
  prices b' := (h'.prices b').trans (h.prices b')
  best b' := (h'.best b').trans (h.best b')
  level hne := (h'.level hne).trans (h.level hne)
  queue hne := (h'.queue hne).trans (h.queue hne)
  counted hc := h'.counted (h.counted hc)

end

/-! ## One round of the inner loop -/

def fillBoth (s : OrderBook) (a : ℕ) (b : Bool) (p : ℤ) (r : ℕ) : OrderBook :=
  let m := min (s.leaves a) (s.leaves r)
  let s₁ := s.setOrder a ((s.order a).fill m (s.order r).price).2
  let s₂ := s₁.setOrder r ((s₁.order r).fill m (s.order r).price).2
  (s₂.setLevel b p ((s₂.level b p).updateQuantity (-m))).recordTrade a r m (s.order r).price

theorem matchResting_eq : s.matchResting a b p r = if (s.fillBoth a b p r).leaves r = 0 then
        { (s.fillBoth a b p r).removeOrder b p r with
          orders := Function.update (s.fillBoth a b p r).orders
            ((s.fillBoth a b p r).order r).id none }
      else s.fillBoth a b p r := rfl

section FillBoth

variable (hra : r ≠ a) (ha : 0 < s.leaves a) (hr : 0 < s.leaves r)
include hra ha hr

theorem fillBoth_party {x : ℕ} (hx : x = a ∨ x = r) :
    (s.order x).FilledBy ((s.fillBoth a b p r).order x) (min (s.leaves a) (s.leaves r)) := by
  have horder : (s.fillBoth a b p r).order x = ((s.order x).fill (min (s.leaves a) (s.leaves r))
        (s.order r).price).2 := by
    rcases hx with rfl | rfl <;>
      simp [fillBoth, recordTrade, setLevel, setHalf, setOrder, hra, hra.symm]
  rw [horder]
  refine Order.filledBy_fill _ (lt_min ha hr) ?_
  rcases hx with rfl | rfl
  · exact min_le_left ..
  · exact min_le_right ..

omit hra ha hr in
theorem fillBoth_other {x : ℕ} (hxa : x ≠ a) (hxr : x ≠ r) :
    (s.fillBoth a b p r).order x = s.order x := by
  simp [fillBoth, recordTrade, setLevel, setHalf, setOrder, hxa, hxr]

theorem fillBoth_amount {x : ℕ} (hxa : x ≠ a) : (s.order x).FilledBy ((s.fillBoth a b p r).order x)
      (amount [(r, min (s.leaves a) (s.leaves r))] x) := by
  rw [amount_cons, amount_nil, add_zero]
  grind [fillBoth_party, fillBoth_other, Order.FilledBy.refl]

theorem fillBoth_terms (x : ℕ) : (s.order x).SameTerms ((s.fillBoth a b p r).order x) := by
  grind [Order.FilledBy.terms, fillBoth_party, fillBoth_amount]

omit hra ha hr in
theorem level_fillBoth_self : (s.fillBoth a b p r).level b p =
      (s.level b p).updateQuantity (-min (s.leaves a) (s.leaves r)) :=
  level_setLevel_self _ b p _

omit hra ha hr in
theorem level_fillBoth_of_ne {b' : Bool} {p' : ℤ} (hne : (b', p') ≠ (b, p)) :
    (s.fillBoth a b p r).level b' p' = s.level b' p' :=
  level_setLevel_of_ne _ b b' p p' _ hne

theorem sameOutline_fillBoth : SameOutline s (s.fillBoth a b p r) where
  links := rfl
  allocated := rfl
  prices b' := prices_setLevel _ b b' p _
  best b' := best_setLevel _ b b' p _
  head b' p' := by
    by_cases hne : (b', p') = (b, p)
    · cases hne
      rw [level_fillBoth_self]
      rfl
    · rw [level_fillBoth_of_ne hne]
  label b' p' := by
    by_cases hne : (b', p') = (b, p)
    · cases hne
      rw [level_fillBoth_self]
      rfl
    · rw [level_fillBoth_of_ne hne]
  terms x := ⟨(fillBoth_terms hra ha hr x).isBuy, (fillBoth_terms hra ha hr x).price⟩

theorem executions_fillBoth : (s.fillBoth a b p r).executions =
      s.executions ++ [s.execution a (r, min (s.leaves a) (s.leaves r))] := by
  have hfilled : (s.fillBoth a b p r).executions = s.executions ++
      [⟨createTrade ((s.fillBoth a b p r).order a)
        ((s.fillBoth a b p r).order r) (min (s.leaves a) (s.leaves r))
        (s.order r).price, a, r⟩] := rfl
  rw [hfilled, createTrade_congr (fillBoth_terms hra ha hr a) (fillBoth_terms hra ha hr r)]
  rfl

end FillBoth

theorem openQty_filled (hnodup : xs.Nodup) (hsub : ∀ f ∈ fills, f.1 ∈ xs)
    (hfilled : ∀ x ∈ xs, (s.order x).FilledBy (t.order x) (amount fills x)) :
    t.openQty xs = s.openQty xs - total fills := by
  rw [← sum_amount hnodup hsub, eq_sub_iff_add_eq, openQty, openQty, ← sum_map_add]
  congr 1
  refine map_congr_left fun x hx => ?_
  rw [(hfilled x hx).leavesQty]
  omega

section Round

variable (hs : s.Shape) (hl : s.Live) (hfree : ¬s.Listed a)
  (ha : 0 < s.leaves a) (hqueue : s.queue b p = r :: xs)
include hs hl hfree ha hqueue

omit hl ha in
theorem head_ne_aggressor : r ≠ a := by
  rintro rfl
  exact hfree (Or.inr ⟨b, p, hs.head_of_queue hqueue⟩)

omit hfree ha in
theorem head_open : (s.order r).Open := hl r (Or.inr ⟨b, p, hs.head_of_queue hqueue⟩)

theorem shape_fillBoth : (s.fillBoth a b p r).Shape :=
  hs.of_sameOutline (sameOutline_fillBoth (head_ne_aggressor hs hfree hqueue) ha
      (head_open hs hl hqueue).leaves_pos)
    hs.known

theorem openQty_fillBoth : (s.fillBoth a b p r).openQty (r :: xs) =
      s.openQty (r :: xs) - min (s.leaves a) (s.leaves r) := by
  have hra := head_ne_aggressor hs hfree hqueue
  have hr := (head_open hs hl hqueue).leaves_pos
  have hnodup : (r :: xs).Nodup := hqueue ▸ hs.queue_nodup b p
  have hnot : ∀ x ∈ r :: xs, x ≠ a := by grind [Shape.not_mem_of_not_listed]
  rw [openQty_filled (s := s) hnodup (by simp) fun x hx => fillBoth_amount hra ha hr (hnot x hx)]
  simp [total]

theorem matched_of_fillBoth (horder : t.order = (s.fillBoth a b p r).order)
    (hexec : t.executions = (s.fillBoth a b p r).executions) (halloc : t.allocated = s.allocated)
    (hshape : t.Shape) (hlive : t.Live) (hlisted : ∀ {x}, t.Listed x → s.Listed x)
    (hprices : ∀ b', (t.half b').prices = (s.half b').prices)
    (hbest : ∀ b', (t.half b').best = (s.half b').best)
    (hlevel : ∀ {b' p'}, (b', p') ≠ (b, p) → t.level b' p' = s.level b' p')
    (hother : ∀ {b' p'}, (b', p') ≠ (b, p) → t.queue b' p' = s.queue b' p')
    (hcounted : s.Counted b p → t.Counted b p) :
    Matched s t a b p [(r, min (s.leaves a) (s.leaves r))] := by
  have hra := head_ne_aggressor hs hfree hqueue
  have hr := (head_open hs hl hqueue).leaves_pos
  exact {
    shape := hshape
    live := hlive
    free := fun h => hfree (hlisted h)
    allocated := halloc
    aggressor := by
      rw [horder]
      simpa [total] using fillBoth_party (b := b) (p := p) hra ha hr (.inl rfl)
    resting := fun hx => by
      rw [horder]
      exact fillBoth_amount hra ha hr hx
    executions := by
      rw [hexec]
      exact executions_fillBoth hra ha hr
    prices := hprices
    best := hbest
    level := hlevel
    queue := hother
    counted := hcounted }

theorem matchResting_partly (hlt : s.leaves a < s.leaves r) :
    Matched s (s.matchResting a b p r) a b p [(r, min (s.leaves a) (s.leaves r))] ∧
      (s.matchResting a b p r).queue b p = r :: xs := by
  have hra := head_ne_aggressor hs hfree hqueue
  have hopen := head_open hs hl hqueue
  have hr := hopen.leaves_pos
  have hsame := sameOutline_fillBoth (b := b) (p := p) hra ha hr
  have hfilled := fillBoth_party (b := b) (p := p) hra ha hr (.inr rfl)
  have hmin : min (s.leaves a) (s.leaves r) < s.leaves r := by omega
  have hleft : ¬(s.fillBoth a b p r).leaves r = 0 := by grind [Order.FilledBy.leavesQty, leaves]
  rw [matchResting_eq, if_neg hleft]
  refine ⟨matched_of_fillBoth hs hl hfree ha hqueue rfl rfl rfl
    (shape_fillBoth hs hl hfree ha hqueue) ?_ hsame.listed.mp hsame.prices
    hsame.best level_fillBoth_of_ne (fun _ => hsame.queue _ _) ?_, ?_⟩
  · intro x hx
    have hx := hsame.listed.mp hx
    by_cases hxr : x = r
    · subst hxr
      exact hopen.filledBy hfilled hmin
    · have hxa : x ≠ a := fun e => hfree (e ▸ hx)
      rw [fillBoth_other hxa hxr]
      exact hl x hx
  · rintro ⟨htotal, hcount⟩
    constructor
    · rw [level_fillBoth_self, hsame.queue, hqueue, openQty_fillBoth hs hl hfree ha hqueue]
      simp only [PriceLevel.updateQuantity, htotal, hqueue, int64_int64_add]
      rfl
    · rwa [level_fillBoth_self, hsame.queue]
  · rw [hsame.queue, hqueue]

theorem matchResting_fully (hle : s.leaves r ≤ s.leaves a) :
    Matched s (s.matchResting a b p r) a b p [(r, min (s.leaves a) (s.leaves r))] ∧
      (s.matchResting a b p r).queue b p = xs := by
  have hra := head_ne_aggressor hs hfree hqueue
  have hr := (head_open hs hl hqueue).leaves_pos
  have hhead := hs.head_of_queue hqueue
  have hsame := sameOutline_fillBoth (b := b) (p := p) hra ha hr
  have hfilled := fillBoth_party (b := b) (p := p) hra ha hr (.inr rfl)
  have hzero : (s.fillBoth a b p r).leaves r = 0 := by grind [Order.FilledBy.leavesQty, leaves]
  have hshape := shape_fillBoth hs hl hfree ha hqueue
  obtain ⟨hside, hprice⟩ := hshape.head_terms (hsame.heads.mpr hhead)
  rw [matchResting_eq, if_pos hzero]
  obtain ⟨u, hu⟩ : ∃ u, u = s.fillBoth a b p r := ⟨_, rfl⟩
  have hremoved : (u.removeOrder b p r).Shape := by grind [Shape.removeOrder]
  have hqueues : ∀ b' p', (u.removeOrder b p r).queue b' p' = (s.queue b' p').erase r := by
    intro b' p'
    have := hshape.queue_removeOrder (r := r)
      (fun _ => by rw [hside, hprice]; exact (hsame.heads.mpr hhead).2) b' p'
    rwa [hside, hprice, hsame.queue, ← hu] at this
  have hgone : ¬(u.removeOrder b p r).Listed r := by grind [not_listed_removeOrder_self]
  have hlisted : ∀ {x}, (u.removeOrder b p r).Listed x → s.Listed x := by
    intro x hx
    rw [hu] at hx
    exact hsame.listed.mp (listed_removeOrder hshape hx)
  rw [← hu]
  refine ⟨matched_of_fillBoth hs hl hfree ha hqueue ?_ ?_ ?_ ?_ ?_ hlisted ?_ ?_ ?_ ?_ ?_, ?_⟩
  · rw [← hu]
    rfl
  · rw [← hu]
    rfl
  · rw [hu]
    rfl
  · exact hremoved.deleteOrder _
  · intro x hx
    have hold := hlisted hx
    have hxr : x ≠ r := fun e => hgone (e ▸ hx)
    have hxa : x ≠ a := fun e => hfree (e ▸ hold)
    change (u.order x).Open
    rw [hu, fillBoth_other hxa hxr]
    exact hl x hold
  · grind [prices_removeOrder, SameOutline.prices]
  · grind [best_removeOrder, SameOutline.best]
  · intro b' p' hne
    change (u.removeOrder b p r).level b' p' = _
    rw [level_removeOrder_of_ne hne, hu, level_fillBoth_of_ne hne]
  · intro b' p' hne
    change (u.removeOrder b p r).queue b' p' = _
    obtain ⟨hside', hprice'⟩ := hs.head_terms hhead
    rw [hqueues, erase_of_not_mem]
    refine hs.not_mem_of_ne ?_
    rwa [hside', hprice']
  · rintro ⟨htotal, hcount⟩
    have hself : (u.removeOrder b p r).queue b p = xs := by rw [hqueues, hqueue, erase_cons_head]
    have hopen := openQty_fillBoth hs hl hfree ha hqueue
    have hleaves : ((s.fillBoth a b p r).order r).leavesQty = 0 := hzero
    rw [← hu] at hopen
    have hsum : u.openQty (r :: xs) = u.openQty xs := by simp [openQty, hu, hleaves]
    constructor
    · change ((u.removeOrder b p r).level b p).totalQty =
        int64 (u.openQty ((u.removeOrder b p r).queue b p))
      rw [hself, ← hsum, hopen, level_removeOrder_self]
      simp only [PriceLevel.removeOrder, hu, hleaves, level_fillBoth_self,
        PriceLevel.updateQuantity, htotal, hqueue, int64_int64_add,
        int64_int64, sub_zero]
      rfl
    · change ((u.removeOrder b p r).level b p).count =
        int32 ((u.removeOrder b p r).queue b p).length
      rw [hself, level_removeOrder_self]
      simp only [PriceLevel.removeOrder, hu, level_fillBoth_self,
        PriceLevel.updateQuantity, hcount, hqueue, int32_int32_sub,
        length_cons]
      congr 1
      omega
  · change (u.removeOrder b p r).queue b p = xs
    rw [hqueues, hqueue, erase_cons_head]

end Round

/-! ## The inner loop -/

theorem matchLevel_done (hzero : s.leaves a = 0) (fuel : ℕ) (o : Option ℕ) :
    matchLevel a b p (fuel + 1) s o = .ok s := by
  cases o with
  | none => rfl
  | some => exact if_neg (by rw [← leaves, hzero]; exact lt_irrefl 0)

/-- The inner loop hands the incoming quantity out along the queue. -/
theorem matchLevel_matched {fuel : ℕ} (hs : s.Shape) (hl : s.Live) (hfree : ¬s.Listed a)
    (ha : 0 ≤ s.leaves a) (hp : p ∈ (s.half b).prices) (hqueue : s.queue b p = xs)
    (hfuel : xs.length < fuel) :
    ∃ t, matchLevel a b p fuel s (s.level b p).orders = .ok t ∧
      Matched s t a b p (allocate s.leaves (s.leaves a) xs) ∧
      t.queue b p = remaining s.leaves (s.leaves a) xs := by
  -- Induction on the queue: a round either ends the loop or takes its head.
  induction xs generalizing s fuel with
  | nil =>
    have hhead := (hs.queue_eq_nil_iff hp).mp hqueue
    cases fuel with
    | zero => cases hfuel
    | succ fuel =>
      rw [hhead]
      exact ⟨s, rfl, Matched.refl hs hl hfree b p, hqueue⟩
  | cons r xs ih =>
    have hhead := (hs.head_of_queue hqueue).2
    have hr := (head_open hs hl hqueue).leaves_pos
    cases fuel with
    | zero => cases hfuel
    | succ fuel =>
      rcases ha.eq_or_lt with hzero | hpos
      · have hkeep : ¬s.leaves r ≤ s.leaves a := by
          rw [← hzero]
          exact not_le.mpr hr
        rw [matchLevel_done hzero.symm, ← hzero,
          allocate_of_nonpos (le_refl 0), hzero, remaining, if_neg hkeep]
        exact ⟨s, rfl, Matched.refl hs hl hfree b p, hqueue⟩
      · have hround : matchLevel a b p (fuel + 1) s (s.level b p).orders =
            matchLevel a b p fuel (s.matchResting a b p r) (s.links r).next := by
          rw [hhead]
          exact if_pos hpos
        rw [hround, allocate, if_neg (not_le.mpr hpos), remaining]
        by_cases hle : s.leaves r ≤ s.leaves a
        · obtain ⟨hstep, hrest⟩ := matchResting_fully hs hl hfree hpos hqueue hle
          have hleft : (s.matchResting a b p r).leaves a = s.leaves a - s.leaves r := by
            have := hstep.aggressor.leavesQty
            rw [total_singleton, min_eq_right hle] at this
            exact this
          have hsame : ∀ x ∈ xs, (s.matchResting a b p r).leaves x = s.leaves x := by
            intro x hx
            have hmem : x ∈ s.queue b p := by simp [hqueue, hx]
            have hxa : x ≠ a := fun e =>
              hs.not_mem_of_not_listed hfree b p (e ▸ hmem)
            have hnodup := hs.queue_nodup b p
            rw [hqueue, List.nodup_cons] at hnodup
            have hxr : r ≠ x := fun e => hnodup.1 (e ▸ hx)
            have := (hstep.resting hxa).leavesQty
            rwa [amount_cons, if_neg hxr, amount_nil, add_zero, sub_zero] at this
          have hp' : p ∈ ((s.matchResting a b p r).half b).prices := by
            rw [hstep.prices]
            exact hp
          -- The iterator stands at the new head of the level.
          have hnext : ((s.matchResting a b p r).level b p).orders = (s.links r).next := by
            have hnew := hstep.shape.follows_queue hp'
            have hold := hs.follows_queue hp
            rw [hrest] at hnew
            rw [hqueue] at hold
            exact hnew.head_eq hold.2
          obtain ⟨t, hloop, hmatched, hqueue'⟩ := ih hstep.shape hstep.live
            hstep.free (by rw [hleft]; omega) hp' hrest
            (Nat.lt_of_succ_lt_succ hfuel)
          rw [hleft, allocate_congr hsame] at hmatched
          rw [hleft, remaining_congr hsame] at hqueue'
          rw [if_pos hle, ← hnext]
          exact ⟨t, hloop, hstep.trans hmatched, hqueue'⟩
        · obtain ⟨hstep, hrest⟩ := matchResting_partly hs hl hfree hpos hqueue (not_le.mp hle)
          have hdone : (s.matchResting a b p r).leaves a = 0 := by
            have := hstep.aggressor.leavesQty
            rw [total_singleton, min_eq_left (le_of_not_ge hle)] at this
            exact this.trans (sub_self _)
          cases fuel with
          | zero => exact absurd hfuel (by simp)
          | succ fuel =>
            rw [matchLevel_done hdone, if_neg hle, allocate_of_nonpos (by omega)]
            exact ⟨_, rfl, hstep, hrest⟩

end OrderBook

end Fluxor.Matching
