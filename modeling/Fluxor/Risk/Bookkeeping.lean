import Fluxor.Risk.PositionLimit
import Mathlib.Tactic.Linarith

/-!
# Position keeping in exact integers

`UpdatePosition` without the bounds of `int64`; as long as no value leaves them the two
are the same (`buy_eq_fill`, `sell_eq_fill`). A fill first reduces an opposite position;
the totals then count only what is left of it.
-/

namespace Fluxor.Risk

open Support Transition List Position

structure Fill where
  buy : Bool
  (qty price : ℤ)

variable (a : Account) (f : Fill)

def Fill.sign : ℤ := if f.buy then 1 else -1

namespace Position

def reduce (pos : Position) (sign qty price : ℤ) : Position × ℤ :=
  if sign * pos.quantity < 0 then
    let reduceQty := min qty (-(sign * pos.quantity))
    let realized := ((price - pos.avgPrice) * reduceQty).tdiv (10 ^ 8)
    ({ pos with
        realizedPnL := pos.realizedPnL - sign * realized
        quantity := pos.quantity + sign * reduceQty }, qty - reduceQty)
  else (pos, qty)

def increase (pos : Position) (sign qty price : ℤ) : Position :=
  if 0 < qty then
    let totalCost := pos.quantity * pos.avgPrice + sign * (qty * price)
    let quantity := pos.quantity + sign * qty
    { pos with
      quantity := quantity
      avgPrice := if quantity ≠ 0 then totalCost.tdiv quantity else pos.avgPrice }
  else pos

def fill (pos : Position) (f : Fill) : Position :=
  let reduced := pos.reduce f.sign f.qty f.price
  let pos := reduced.1.increase f.sign reduced.2 f.price
  if f.buy then { pos with totalBought := pos.totalBought + reduced.2 }
  else { pos with totalSold := pos.totalSold + reduced.2 }

end Position

/-- A position with all its fills, and those since it last was zero or changed its sign. -/
structure Account where
  pos : Position := {}
  fills : List Fill := []
  since : List Fill := []

def Account.step : Option Account :=
  if 0 < f.qty ∧ 0 < f.price then
    some ⟨a.pos.fill f, a.fills ++ [f],
      if 0 < a.pos.quantity * (a.pos.fill f).quantity then a.since ++ [f] else [f]⟩
  else none

def Account.total (buy : Bool) : ℤ := ((a.fills.filter (·.buy = buy)).map (·.qty)).sum

def Account.TotalsKept : Prop := a.pos.totalBought = a.total true ∧ a.pos.totalSold = a.total false

instance : Decidable a.TotalsKept := inferInstanceAs (Decidable (_ ∧ _))

def Account.Extends : Prop := 0 ≤ f.sign * a.pos.quantity

variable {pos : Position} {f : Fill} {a a' : Account}

theorem Fill.sign_cases (f : Fill) : f.sign = 1 ∨ f.sign = -1 := by
  rw [Fill.sign]
  split <;> simp

theorem mean_bounds {q n x y : ℤ} (hq : 0 ≤ q) (hn : 0 < n) :
    min x y ≤ (q * x + n * y) / (q + n) ∧ (q * x + n * y) / (q + n) ≤ max x y := by
  have hpos : 0 < q + n := by omega
  constructor
  · refine Int.le_ediv_of_mul_le hpos ?_
    have hx : q * min x y ≤ q * x := mul_le_mul_of_nonneg_left (min_le_left ..) hq
    have hy : n * min x y ≤ n * y := mul_le_mul_of_nonneg_left (min_le_right ..) hn.le
    linarith
  · refine Int.ediv_le_of_le_mul hpos ?_
    have hx : q * x ≤ q * max x y := mul_le_mul_of_nonneg_left (le_max_left ..) hq
    have hy : n * y ≤ n * max x y := mul_le_mul_of_nonneg_left (le_max_right ..) hn.le
    linarith

namespace Position

theorem quantity_fill (hqty : 0 < f.qty) :
    (pos.fill f).quantity = pos.quantity + f.sign * f.qty := by
  have hquantity : ((pos.reduce f.sign f.qty f.price).1.increase f.sign
      (pos.reduce f.sign f.qty f.price).2 f.price).quantity = pos.quantity + f.sign * f.qty := by
    rcases f.sign_cases with hs | hs
    all_goals
      simp only [hs, reduce, increase]
      split <;> split <;> simp only at * <;> omega
  rw [← hquantity, fill]
  split <;> rfl

theorem avgPrice_fill_eq : (pos.fill f).avgPrice = ((pos.reduce f.sign f.qty f.price).1.increase
    f.sign (pos.reduce f.sign f.qty f.price).2 f.price).avgPrice := by
  rw [fill]
  split <;> rfl

theorem avgPrice_increase {s n p : ℤ} (hs : s = 1 ∨ s = -1) (hheld : 0 ≤ s * pos.quantity)
    (hn : 0 < n) (hcost : 0 ≤ s * pos.quantity * pos.avgPrice + n * p) :
    (pos.increase s n p).avgPrice =
      (s * pos.quantity * pos.avgPrice + n * p) / (s * pos.quantity + n) := by
  have hne : pos.quantity + s * n ≠ 0 := by rcases hs with rfl | rfl <;> omega
  rw [increase, if_pos hn]
  simp only [if_pos hne]
  rw [← Int.tdiv_eq_ediv_of_nonneg hcost]
  rcases hs with rfl | rfl
  · simp only [one_mul]
  · rw [← Int.neg_tdiv_neg]
    congr 1 <;> linarith

/-- A position that opens takes the price of the fill, and one that goes on has a
price between the old one and the fill's. -/
theorem avgPrice_fill (hqty : 0 < f.qty) (hprice : 0 < f.price) (havg : 0 ≤ pos.avgPrice) :
    (pos.fill f).avgPrice = f.price ∧ pos.quantity * (pos.fill f).quantity ≤ 0 ∨
      (pos.avgPrice ≤ (pos.fill f).avgPrice ∨ f.price ≤ (pos.fill f).avgPrice) ∧
        ((pos.fill f).avgPrice ≤ pos.avgPrice ∨ (pos.fill f).avgPrice ≤ f.price) ∧
        ((pos.fill f).quantity = 0 ∨ 0 < pos.quantity * (pos.fill f).quantity) := by
  have hs := f.sign_cases
  rw [quantity_fill hqty, avgPrice_fill_eq, reduce]
  generalize f.sign = s at hs ⊢
  have hproduct : pos.quantity * (pos.quantity + s * f.qty) =
      s * pos.quantity * (s * pos.quantity + f.qty) := by
    rcases hs with rfl | rfl <;> linarith
  rw [hproduct]
  split
  next hopposite =>
    rcases le_or_gt f.qty (-(s * pos.quantity)) with hle | hgt
    · -- the fill only reduces the position
      simp only [min_eq_left hle, sub_self, increase, lt_irrefl, if_false]
      refine .inr ⟨.inl le_rfl, .inl le_rfl, or_iff_not_imp_left.mpr fun hne => ?_⟩
      refine mul_pos_of_neg_of_neg hopposite ?_
      rcases hs with rfl | rfl <;> omega
    · -- the position is closed, and opened on the other side
      have hzero : pos.quantity + s * -(s * pos.quantity) = 0 := by
        rcases hs with rfl | rfl <;> omega
      have hleft : 0 < f.qty - -(s * pos.quantity) := by omega
      simp only [min_eq_right hgt.le, hzero]
      refine .inl ⟨?_, mul_nonpos_of_nonpos_of_nonneg hopposite.le (by omega)⟩
      rw [avgPrice_increase hs (by simp) hleft (by simpa using (mul_pos hleft hprice).le)]
      simp only [mul_zero, zero_mul, zero_add]
      exact Int.mul_ediv_cancel_left _ hleft.ne'
  next hsame =>
    have hheld : 0 ≤ s * pos.quantity := not_lt.mp hsame
    rw [avgPrice_increase hs hheld hqty
      (add_nonneg (mul_nonneg hheld havg) (mul_pos hqty hprice).le)]
    rcases hheld.eq_or_lt with hzero | hpos
    · rw [← hzero, zero_mul, zero_mul, zero_add, zero_add]
      exact .inl ⟨Int.mul_ediv_cancel_left _ hqty.ne', le_rfl⟩
    · obtain ⟨hmin, hmax⟩ := mean_bounds (x := pos.avgPrice) (y := f.price) hheld hqty
      exact .inr ⟨min_le_iff.mp hmin, le_max_iff.mp hmax, .inr (mul_pos hpos (by omega))⟩

theorem totals_increase (pos : Position) (sign qty price : ℤ) :
    (pos.increase sign qty price).totalBought = pos.totalBought ∧
      (pos.increase sign qty price).totalSold = pos.totalSold := by
  rw [increase]
  split <;> exact ⟨rfl, rfl⟩

theorem totals_reduce (pos : Position) (sign qty price : ℤ) :
    (pos.reduce sign qty price).1.totalBought = pos.totalBought ∧
      (pos.reduce sign qty price).1.totalSold = pos.totalSold := by
  rw [reduce]
  split <;> exact ⟨rfl, rfl⟩

/-- The totals count what is left of the fill. -/
theorem totals_fill (pos : Position) (f : Fill) :
    (pos.fill f).totalBought = pos.totalBought +
        (if f.buy then (pos.reduce f.sign f.qty f.price).2 else 0) ∧
      (pos.fill f).totalSold = pos.totalSold +
        if f.buy then 0 else (pos.reduce f.sign f.qty f.price).2 := by
  rw [fill]
  split <;> simp [totals_increase, totals_reduce]

/-- What is left of a fill; it is the whole fill only if the position is not opposite. -/
theorem reduce_le (pos : Position) (sign : ℤ) {qty : ℤ} (hqty : 0 < qty) (price : ℤ) :
    (pos.reduce sign qty price).2 ≤ qty ∧
      (qty ≤ (pos.reduce sign qty price).2 → 0 ≤ sign * pos.quantity) := by
  rw [reduce]
  split
  · simp only
    omega
  next hsame => exact ⟨le_rfl, fun _ => not_lt.mp hsame⟩

/-- The values that the code computes on the way: for the part that reduces the position,
for the part that is left, and for the totals. -/
def values (pos : Position) (f : Fill) : List ℤ :=
  let reduced := pos.reduce f.sign f.qty f.price
  let cost := reduced.1.quantity * reduced.1.avgPrice
  let totalCost := cost + f.sign * (reduced.2 * f.price)
  let quantity := reduced.1.quantity + f.sign * reduced.2
  (if f.sign * pos.quantity < 0 then
    [-(f.sign * pos.quantity), f.price - pos.avgPrice,
      (f.price - pos.avgPrice) * min f.qty (-(f.sign * pos.quantity)),
      reduced.1.realizedPnL, reduced.1.quantity, reduced.2]
  else []) ++
  (if 0 < reduced.2 then
    [cost, reduced.2 * f.price, totalCost, quantity, totalCost.tdiv quantity]
  else []) ++ [pos.totalBought + reduced.2, pos.totalSold + reduced.2]

section Exact

variable (h : ∀ x ∈ pos.values f, int64 x = x)

include h

/-- Without overflow `UpdatePosition` does what `fill` says. -/
theorem buy_eq_fill (hbuy : f.buy = true) : pos.buy f.qty f.price = pos.fill f := by
  have hsign : f.sign = 1 := if_pos hbuy
  simp only [values, hsign, one_mul, forall_mem_append] at h
  obtain ⟨⟨hreduce, hincrease⟩, htotals⟩ := h
  have hreduced : pos.reduceShort f.qty f.price = pos.reduce 1 f.qty f.price := by
    rw [reduceShort, reduce, one_mul]
    split
    next hopposite =>
      simp only [reduce, one_mul, if_pos hopposite, forall_mem_cons] at hreduce
      obtain ⟨hminus, hprice, hproduct, hpnl, hquantity, hleft, -⟩ := hreduce
      simp only [one_mul, hminus, hprice, hproduct, hpnl, hquantity, hleft]
    · rfl
  have hincreased : (pos.reduce 1 f.qty f.price).1.increaseLong
      (pos.reduce 1 f.qty f.price).2 f.price =
      (pos.reduce 1 f.qty f.price).1.increase 1 (pos.reduce 1 f.qty f.price).2 f.price := by
    rw [increaseLong, increase]
    split
    next hleft =>
      simp only [if_pos hleft, forall_mem_cons] at hincrease
      obtain ⟨hcost, hproduct, hsum, hquantity, havg, -⟩ := hincrease
      simp only [one_mul, hcost, hproduct, hsum, hquantity, havg]
    · rfl
  rw [buy, fill, hsign, if_pos hbuy]
  simp only [hreduced, hincreased, totals_increase, totals_reduce]
  rw [htotals _ mem_cons_self]

theorem sell_eq_fill (hsell : f.buy = false) : pos.sell f.qty f.price = pos.fill f := by
  have hsign : f.sign = -1 := if_neg (by simp [hsell])
  simp only [values, hsign, neg_mul, one_mul, neg_neg, forall_mem_append, neg_lt_zero] at h
  obtain ⟨⟨hreduce, hincrease⟩, htotals⟩ := h
  have hreduced : pos.reduceLong f.qty f.price = pos.reduce (-1) f.qty f.price := by
    simp only [reduceLong, reduce, neg_mul, one_mul, neg_neg, neg_lt_zero]
    split
    next hopposite =>
      simp only [reduce, neg_mul, one_mul, neg_neg, neg_lt_zero, if_pos hopposite,
        forall_mem_cons] at hreduce
      obtain ⟨-, hprice, hproduct, hpnl, hquantity, hleft, -⟩ := hreduce
      simp only [sub_eq_add_neg, neg_neg] at *
      simp only [hprice, hproduct, hpnl, hquantity, hleft]
    · rfl
  have hincreased : (pos.reduce (-1) f.qty f.price).1.increaseShort
      (pos.reduce (-1) f.qty f.price).2 f.price =
      (pos.reduce (-1) f.qty f.price).1.increase (-1) (pos.reduce (-1) f.qty f.price).2
        f.price := by
    rw [increaseShort, increase]
    split
    next hleft =>
      simp only [if_pos hleft, forall_mem_cons] at hincrease
      obtain ⟨hcost, hproduct, hsum, hquantity, havg, -⟩ := hincrease
      simp only [neg_mul, one_mul, sub_eq_add_neg, hcost, hproduct, hsum, hquantity, havg]
    · rfl
  rw [sell, fill, hsign, if_neg (by simp [hsell])]
  simp only [hreduced, hincreased, totals_increase, totals_reduce]
  rw [htotals _ (mem_cons_of_mem _ mem_cons_self)]

end Exact

end Position

/-- The part of the bookkeeping that is right. -/
structure Account.Kept (a : Account) : Prop where
  quantity : a.pos.quantity = a.total true - a.total false
  average : a.pos.quantity ≠ 0 →
    (∃ low ∈ a.since, low.price ≤ a.pos.avgPrice) ∧ ∃ high ∈ a.since, a.pos.avgPrice ≤ high.price

open Account

theorem Account.total_snoc (a : Account) (since : List Fill) (buy : Bool) :
    total ⟨a.pos.fill f, a.fills ++ [f], since⟩ buy =
      a.total buy + if f.buy = buy then f.qty else 0 := by
  by_cases hbuy : f.buy = buy <;> simp [total, filter_append, hbuy]

theorem kept_step (h : a.Kept) (havg : 0 ≤ a.pos.avgPrice) (hstep : a.step f = some a') :
    a'.Kept ∧ 0 ≤ a'.pos.avgPrice := by
  rw [step] at hstep
  split at hstep
  next hfill =>
    obtain ⟨hqty, hprice⟩ := hfill
    cases hstep
    have hquantity : (a.pos.fill f).quantity = a.pos.quantity + f.sign * f.qty :=
      quantity_fill hqty
    refine ⟨⟨?_, fun hne => ?_⟩, ?_⟩
    · change (a.pos.fill f).quantity = _
      rw [hquantity, h.quantity, total_snoc, total_snoc, Fill.sign]
      cases f.buy <;> simp <;> omega
    · rcases avgPrice_fill hqty hprice havg with ⟨heq, hle⟩ | ⟨hmin, hmax, hgoes⟩
      · rw [if_neg (not_lt.mpr hle)]
        exact ⟨⟨f, mem_singleton_self f, heq.ge⟩, f, mem_singleton_self f, heq.le⟩
      · have hpos := hgoes.resolve_left hne
        obtain ⟨⟨low, hlow, hge⟩, high, hhigh, hle⟩ :=
          h.average fun hzero => by simp [hzero] at hpos
        rw [if_pos hpos]
        constructor
        · rcases hmin with hmin | hmin
          · exact ⟨low, mem_append_left _ hlow, hge.trans hmin⟩
          · exact ⟨f, by simp, hmin⟩
        · rcases hmax with hmax | hmax
          · exact ⟨high, mem_append_left _ hhigh, hmax.trans hle⟩
          · exact ⟨f, by simp, hmax⟩
    · rcases avgPrice_fill hqty hprice havg with ⟨heq, -⟩ | ⟨hmin, -⟩
      · exact heq ▸ hprice.le
      · exact hmin.elim havg.trans hprice.le.trans
  · cases hstep

theorem totals_step (hextends : a.Extends f) (h : a.TotalsKept) (hstep : a.step f = some a') :
    a'.TotalsKept := by
  rw [step] at hstep
  split at hstep
  · cases hstep
    obtain ⟨hbought, hsold⟩ := totals_fill a.pos f
    rw [reduce, if_neg (not_lt.mpr hextends)] at hbought hsold
    rw [TotalsKept, hbought, hsold, total_snoc, total_snoc, ← h.1, ← h.2]
    cases f.buy <;> simp
  · cases hstep

/-- What the totals have missed. -/
def Account.missed (a : Account) : ℤ :=
  a.total true + a.total false - (a.pos.totalBought + a.pos.totalSold)

theorem Account.missed_snoc (a : Account) (since : List Fill) :
    missed ⟨a.pos.fill f, a.fills ++ [f], since⟩ =
      a.missed + f.qty - (a.pos.reduce f.sign f.qty f.price).2 := by
  obtain ⟨hbought, hsold⟩ := totals_fill a.pos f
  simp only [missed, total_snoc, hbought, hsold]
  cases f.buy <;> simp <;> omega

theorem missed_step (hstep : a.step f = some a') :
    a.missed ≤ a'.missed ∧ (a'.missed ≤ a.missed → a.Extends f) := by
  rw [step] at hstep
  split at hstep
  next hfill =>
    cases hstep
    obtain ⟨hle, hwhole⟩ := reduce_le a.pos f.sign hfill.1 f.price
    rw [missed_snoc]
    exact ⟨by omega, fun hmissed => hwhole (by omega)⟩
  · cases hstep

theorem totalsKept_iff {fills : List Fill} (hrun : Run Account.step anyStep {} fills a) :
    a.TotalsKept ↔ Run Account.step Account.Extends {} fills a := by
  constructor
  · intro htotals
    have hmissed : a.missed ≤ 0 := by
      rw [missed, htotals.1, htotals.2]
      omega
    clear htotals
    induction hrun with
    | nil => exact .nil _
    | snoc run _ next ih =>
      obtain ⟨hle, hextends⟩ := missed_step next
      have hnonneg := run.invariant (I := fun a => 0 ≤ a.missed)
        (fun h _ hstep => h.trans (missed_step hstep).1) le_rfl
      exact (ih (hle.trans hmissed)).snoc (hextends (hmissed.trans hnonneg)) next
  · exact fun hrun => hrun.invariant (I := TotalsKept)
      (fun h hextends hstep => totals_step hextends h hstep) ⟨rfl, rfl⟩

/-- Quantity and average price are right in every run, and the totals exactly if no fill
reduces the position. -/
theorem position_bookkeeping {fills : List Fill} {a : Account}
    (hrun : Run Account.step anyStep {} fills a) :
    a.Kept ∧ (a.TotalsKept ↔ Run Account.step Account.Extends {} fills a) := by
  refine ⟨(hrun.invariant (I := fun a => a.Kept ∧ 0 ≤ a.pos.avgPrice) ?_ ?_).1,
    totalsKept_iff hrun⟩
  · exact fun h _ hstep => kept_step h.1 h.2 hstep
  · exact ⟨⟨rfl, fun hne => absurd rfl hne⟩, le_rfl⟩

/-- Two buys and a sale. -/
theorem position_bookkeeping_sale : ∃ a, Run Account.step anyStep {}
    [⟨true, 10, 1⟩, ⟨true, 10, 4⟩, ⟨false, 5, 3⟩] a ∧ a.Kept ∧ ¬a.TotalsKept := by
  refine exists_run_of _ (fun a => ¬a.TotalsKept) (by decide) fun a hrun htotals => ?_
  exact ⟨(position_bookkeeping hrun).1, htotals⟩

/-- A buy that reduces a short position is not counted. -/
theorem totalBought_short : ∃ a, Run Account.step anyStep {} [⟨false, 10, 1⟩, ⟨true, 5, 1⟩] a ∧
      a.pos.totalBought = 0 ∧ a.total true = 5 :=
  ⟨_, run_exec Account.step anyStep _ _ (by decide), by decide, by decide⟩

end Fluxor.Risk
