import Fluxor.Risk.PositionLimit

/-!
# Exact amounts in the risk engine

`CheckOrder` compares amounts that have gone through `int64` and were rounded to whole
units. They are never above the exact ones, and below them as soon as a product or a
sum leaves the range or an amount has a fraction. The exact amounts are counted here in
units of `10 ^ -8`.
-/

namespace Fluxor.Risk

open Support Matching List RiskEngine

/-- The exact notional amount of all positions. -/
def RiskEngine.exposure (re : RiskEngine) : ℤ :=
  (re.symbols.map fun symbol => |(re.position symbol).quantity * (re.position symbol).avgPrice|).sum

/-- A product that fits into `int64` and is a number of whole units. -/
def Whole (product : ℤ) : Prop := |product| < 2 ^ 63 ∧ 10 ^ 8 ∣ product

instance (product : ℤ) : Decidable (Whole product) := inferInstanceAs (Decidable (_ ∧ _))

/-- All amounts of `CheckOrder` are whole, and their sum fits into `int64`. -/
structure RiskEngine.Fits (re : RiskEngine) (order : Order) : Prop where
  product : Whole (order.quantity * order.price)
  position : ∀ symbol ∈ re.symbols,
    Whole ((re.position symbol).quantity * (re.position symbol).avgPrice)
  total : re.exposure + order.quantity * order.price < 10 ^ 8 * 2 ^ 63

variable {qty price : ℤ}

theorem int64_lt (x : ℤ) : int64 x < 2 ^ 63 := Int.bmod_lt (by decide)

theorem le_int64 (x : ℤ) : -2 ^ 63 ≤ int64 x := Int.le_bmod (by decide)

theorem int64_le_self {x : ℤ} (hlo : -2 ^ 63 ≤ x) : int64 x ≤ x ∧ (int64 x = x ↔ x < 2 ^ 63) := by
  have hlt := int64_lt x
  by_cases hhi : x < 2 ^ 63
  · rw [int64_eq_self hlo hhi]
    exact ⟨le_rfl, iff_of_true rfl hhi⟩
  · exact ⟨by omega, iff_of_false (by omega) hhi⟩

theorem tdiv_of_nonpos {y : ℤ} (hy : y ≤ 0) : y.tdiv (10 ^ 8) = -(-y / 10 ^ 8) := by
  rw [← Int.tdiv_eq_ediv_of_nonneg (by omega), Int.neg_tdiv, neg_neg]

/-- The amount of an order is rounded down, and exact exactly if it is whole. -/
theorem notional_le (hpos : 0 < qty * price) : 10 ^ 8 * notional qty price ≤ qty * price ∧
    (10 ^ 8 * notional qty price = qty * price ↔ Whole (qty * price)) := by
  rw [notional, Whole, abs_of_pos hpos]
  generalize qty * price = x at hpos
  obtain ⟨hle, hiff⟩ := int64_le_self (x := x) (by omega)
  have hdvd : (10 ^ 8 : ℤ) ∣ x ↔ x % 10 ^ 8 = 0 := Int.dvd_iff_emod_eq_zero
  rcases le_or_gt 0 (int64 x) with hx | hx
  · rw [Int.tdiv_eq_ediv_of_nonneg hx, hdvd]
    by_cases hfits : x < 2 ^ 63
    · rw [hiff.mpr hfits]
      omega
    · have hne := mt hiff.mp hfits
      omega
  · have htdiv := tdiv_of_nonpos hx.le
    have hwrap : ¬x < 2 ^ 63 := fun h => by
      rw [hiff.mpr h] at hx
      omega
    exact ⟨by omega, iff_of_false (by omega) fun h => hwrap h.1⟩

/-- The amount of a position, likewise. -/
theorem abs64_notional_le (qty price : ℤ) : 0 ≤ abs64 (notional qty price) ∧
    10 ^ 8 * abs64 (notional qty price) ≤ |qty * price| ∧
    (10 ^ 8 * abs64 (notional qty price) = |qty * price| ↔ Whole (qty * price)) := by
  rw [notional, Whole]
  generalize qty * price = x
  have hlt := int64_lt x
  have hge := le_int64 x
  have hdvd : (10 ^ 8 : ℤ) ∣ x ↔ |x| % 10 ^ 8 = 0 := by
    rcases abs_choice x with h | h <;> rw [h] <;> omega
  have habs : abs64 ((int64 x).tdiv (10 ^ 8)) = |int64 x| / 10 ^ 8 := by
    rcases le_total 0 (int64 x) with hx | hx
    · rw [abs_of_nonneg hx, Int.tdiv_eq_ediv_of_nonneg hx, abs64, if_neg (by omega)]
    · rw [abs_of_nonpos hx, tdiv_of_nonpos hx, abs64]
      split
      · rw [neg_neg, int64_eq_self (by omega) (by omega)]
      · omega
  have hself : |int64 x| ≤ |x| ∧ (|x| < 2 ^ 63 → int64 x = x) := by
    by_cases hfits : |x| < 2 ^ 63
    · obtain ⟨hlo, hhi⟩ := abs_lt.mp hfits
      rw [int64_eq_self (by omega) hhi]
      exact ⟨le_rfl, fun _ => rfl⟩
    · refine ⟨(abs_le.mpr ⟨?_, ?_⟩ : |int64 x| ≤ 2 ^ 63).trans (not_lt.mp hfits),
        fun h => absurd h hfits⟩
      · exact hge
      · exact hlt.le
  rw [habs, hdvd]
  have hnonneg := abs_nonneg (int64 x)
  by_cases hfits : |x| < 2 ^ 63
  · rw [hself.2 hfits] at hnonneg ⊢
    omega
  · have hmax : |int64 x| ≤ 2 ^ 63 := abs_le.mpr ⟨hge, hlt.le⟩
    omega

/-- The loop of `checkNotionalExposure`, for amounts `f` of the products `x`. -/
theorem foldl_int64_le {f x : String → ℤ} (hf : ∀ s, 0 ≤ f s ∧ 10 ^ 8 * f s ≤ |x s| ∧
      (10 ^ 8 * f s = |x s| ↔ Whole (x s))) (symbols : List String) (start : ℤ)
    (hlo : -2 ^ 63 ≤ start) (hhi : start < 2 ^ 63) :
    (0 ≤ start → 0 ≤ symbols.foldl (fun total s => int64 (total + f s)) start ∨
        10 ^ 8 * 2 ^ 63 ≤ 10 ^ 8 * start + (symbols.map fun s => |x s|).sum) ∧
      10 ^ 8 * symbols.foldl (fun total s => int64 (total + f s)) start ≤
        10 ^ 8 * start + (symbols.map fun s => |x s|).sum ∧
      (10 ^ 8 * symbols.foldl (fun total s => int64 (total + f s)) start =
        10 ^ 8 * start + (symbols.map fun s => |x s|).sum ↔ (∀ s ∈ symbols, Whole (x s)) ∧
          10 ^ 8 * start + (symbols.map fun s => |x s|).sum < 10 ^ 8 * 2 ^ 63) := by
  induction symbols generalizing start with
  | nil =>
    simp
    omega
  | cons s rest ih =>
    obtain ⟨hnonneg, hle, hiff⟩ := hf s
    obtain ⟨hself, hexact⟩ := int64_le_self (x := start + f s) (by omega)
    obtain ⟨htpos, htle, htiff⟩ := ih (int64 (start + f s)) (le_int64 _) (int64_lt _)
    have hsum : 0 ≤ (rest.map fun s => |x s|).sum := sum_nonneg (by simp)
    simp only [foldl_cons, map_cons, sum_cons, forall_mem_cons]
    refine ⟨fun hpos => ?_, by omega, fun htotal => ?_, ?_⟩
    · by_cases hfits : start + f s < 2 ^ 63
      · have hsame := hexact.mpr hfits
        exact (htpos (by omega)).imp_right (by omega)
      · exact .inr (by omega)
    · have hfits : int64 (start + f s) = start + f s := by omega
      obtain ⟨hrest, hrange⟩ := htiff.mp (by omega)
      exact ⟨⟨hiff.mp (by omega), hrest⟩, by omega⟩
    · rintro ⟨⟨hwhole, hrest⟩, hrange⟩
      have hamount := hiff.mpr hwhole
      have hfits := hexact.mpr (by omega)
      have htotal := htiff.mpr ⟨hrest, by omega⟩
      omega

variable {re : RiskEngine} {order : Order}

/-- What the loop of `checkNotionalExposure` adds up. -/
def RiskEngine.heldExposure (re : RiskEngine) : ℤ :=
  re.symbols.foldl (fun total symbol => int64 (total + abs64
    (notional (re.position symbol).quantity (re.position symbol).avgPrice))) 0

/-- The amount that `checkNotionalExposure` compares with its limit. -/
def RiskEngine.totalExposure (re : RiskEngine) (order : Order) : ℤ :=
  int64 (re.heldExposure + notional order.quantity order.price)

variable (re) in
theorem totalExposure_le (hpos : 0 < order.quantity * order.price) :
    10 ^ 8 * re.totalExposure order ≤ re.exposure + order.quantity * order.price ∧
      (10 ^ 8 * notional order.quantity order.price = order.quantity * order.price ∧
        10 ^ 8 * re.totalExposure order = re.exposure + order.quantity * order.price ↔
          re.Fits order) := by
  obtain ⟨hfold, hle, hiff⟩ := foldl_int64_le (fun s =>
    abs64_notional_le (re.position s).quantity (re.position s).avgPrice) re.symbols 0
    (by decide) (by decide)
  obtain ⟨hole, hoiff⟩ := notional_le hpos
  rw [← exposure, ← heldExposure] at hfold hle hiff
  rw [totalExposure]
  have hlow : -2 ^ 63 ≤ notional order.quantity order.price := by
    have := le_int64 (order.quantity * order.price)
    rw [notional]
    rcases le_total 0 (int64 (order.quantity * order.price)) with h | h
    · rw [Int.tdiv_eq_ediv_of_nonneg h]
      omega
    · rw [tdiv_of_nonpos h]
      omega
  rcases hfold le_rfl with hnonneg | hlarge
  · obtain ⟨hself, hexact⟩ :=
      int64_le_self (x := re.heldExposure + notional order.quantity order.price) (by omega)
    refine ⟨by omega, ?_, fun hfits => ?_⟩
    · rintro ⟨horder, htotal⟩
      have hsum := hexact.mp (by omega)
      exact ⟨hoiff.mp horder, (hiff.mp (by omega)).1, by omega⟩
    · have horder := hoiff.mpr hfits.product
      have hrange := hfits.total
      have hpositions := hiff.mpr ⟨hfits.position, by omega⟩
      have hsum := hexact.mpr (by omega)
      exact ⟨horder, by omega⟩
  · have hlt := int64_lt (re.heldExposure + notional order.quantity order.price)
    refine ⟨by omega, iff_of_false (by omega) fun hfits => ?_⟩
    have hrange := hfits.total
    omega

variable {symbol : String} {marketPrice : ℤ}

theorem checkNotionalExposure_eq_none_iff : re.checkNotionalExposure order = none ↔
    re.totalExposure order ≤ re.limits.maxNotionalExposure := by
  rw [checkNotionalExposure, totalExposure, heldExposure]
  simp

theorem totalExposure_limits (limits : RiskLimits) :
    ({ re with limits := limits }.getOrCreatePosition symbol).totalExposure order =
      (re.getOrCreatePosition symbol).totalExposure order := by
  rw [getOrCreatePosition, getOrCreatePosition]
  split <;> rfl

theorem le_of_checkOrder (hok : (re.checkOrder symbol order marketPrice).2 = none) :
    notional order.quantity order.price ≤ re.limits.maxNotionalPerOrder ∧
      (re.getOrCreatePosition symbol).totalExposure order ≤ re.limits.maxNotionalExposure := by
  obtain ⟨hnotional, -, hexposure⟩ := passed_of_checkOrder hok
  rw [checkNotionalExposure_eq_none_iff, limits_getOrCreatePosition] at hexposure
  exact ⟨hnotional, hexposure⟩

theorem abs64_int64_lt (x : ℤ) : abs64 (int64 x) < 2 ^ 63 := by
  rw [abs64]
  split
  · exact int64_lt _
  · exact int64_lt _

/-- Limits under which an order is accepted that is at both of its notional limits. -/
def RiskEngine.tightLimits (re : RiskEngine) (symbol : String) (order : Order) : RiskLimits where
  maxPositionPerSymbol := 2 ^ 63 - 1
  maxNotionalPerOrder := notional order.quantity order.price
  maxOrderSize := order.quantity
  maxNotionalExposure := (re.getOrCreatePosition symbol).totalExposure order
  deviates := fun _ _ => false

theorem checkOrder_tightLimits (re : RiskEngine) (symbol : String) (order : Order)
    (marketPrice : ℤ) : ({ re with limits := re.tightLimits symbol order }.checkOrder symbol order
      marketPrice).2 = none := by
  have hposition : ({ re with limits := re.tightLimits symbol order }.getOrCreatePosition
      symbol).checkPositionLimit symbol order = none := by
    rw [checkPositionLimit, limits_getOrCreatePosition]
    refine if_neg (not_lt.mpr (Int.le_sub_one_of_lt ?_))
    split <;> exact abs64_int64_lt _
  have hdeviation : ({ re with limits := re.tightLimits symbol order }.getOrCreatePosition
      symbol).checkPriceDeviation order marketPrice = none := by
    refine if_neg ?_
    rw [limits_getOrCreatePosition]
    simp [tightLimits]
  have hexposure : ({ re with limits := re.tightLimits symbol order }.getOrCreatePosition
      symbol).checkNotionalExposure order = none := by
    rw [checkNotionalExposure_eq_none_iff, limits_getOrCreatePosition, totalExposure_limits]
    rfl
  have hsize : ¬(re.tightLimits symbol order).maxOrderSize < order.quantity := lt_irrefl _
  have hnotional : ¬(re.tightLimits symbol order).maxNotionalPerOrder <
      notional order.quantity order.price := lt_irrefl _
  rw [checkOrder, if_neg hsize, if_neg hnotional]
  simp only [hposition, hdeviation, hexposure]

/-- The exact amounts of an accepted order are within both limits, whatever these are,
exactly if they are whole and fit into `int64`. -/
theorem checkOrder_notional_iff (re : RiskEngine) (symbol : String) (order : Order)
    (marketPrice : ℤ) (hquantity : 0 < order.quantity) (hprice : 0 < order.price) :
    (∀ limits, ({ re with limits := limits }.checkOrder symbol order marketPrice).2 = none →
      order.quantity * order.price ≤ 10 ^ 8 * limits.maxNotionalPerOrder ∧
        (re.getOrCreatePosition symbol).exposure + order.quantity * order.price ≤
          10 ^ 8 * limits.maxNotionalExposure) ↔
    (re.getOrCreatePosition symbol).Fits order := by
  have hpos : 0 < order.quantity * order.price := Int.mul_pos hquantity hprice
  obtain ⟨hexposure, hiff⟩ := totalExposure_le (re.getOrCreatePosition symbol) hpos
  have horder := (notional_le hpos).1
  constructor
  · intro hall
    obtain ⟨hnotional, htotal⟩ := hall _ (checkOrder_tightLimits re symbol order marketPrice)
    exact hiff.mp ⟨horder.antisymm hnotional, hexposure.antisymm htotal⟩
  · intro hfits limits hok
    obtain ⟨hnotional, htotal⟩ := le_of_checkOrder hok
    rw [totalExposure_limits] at htotal
    obtain ⟨hexact, hexact'⟩ := hiff.mpr hfits
    dsimp only at hnotional htotal
    omega

def defaultEngine : RiskEngine := newRiskEngine (fun _ _ => false) none

theorem checkOrder_notional_small :
    (defaultEngine.checkOrder "A" { quantity := 5, price := 10 ^ 9 } 0).2 = none ∧
      5 * 10 ^ 9 ≤ 10 ^ 8 * defaultEngine.limits.maxNotionalPerOrder := by
  refine ⟨by decide, ?_⟩
  have hfits : (defaultEngine.getOrCreatePosition "A").Fits { quantity := 5, price := 10 ^ 9 } :=
    ⟨by decide, by decide, by decide⟩
  exact ((checkOrder_notional_iff defaultEngine "A" { quantity := 5, price := 10 ^ 9 } 0
    (by decide) (by decide)).mpr hfits defaultEngine.limits (by decide)).1

/-- The product of 2 and a price of 2 ^ 62 is negative in `int64`, and of an amount of
10000000.99999999 the fraction is cut off. -/
theorem checkOrder_overflow :
    (defaultEngine.checkOrder "A" { quantity := 2, price := 2 ^ 62 } 0).2 = none ∧
      10 ^ 8 * defaultEngine.limits.maxNotionalPerOrder < 2 * 2 ^ 62 ∧
    (defaultEngine.checkOrder "A" { quantity := 1, price := 1000000099999999 } 0).2 = none ∧
      10 ^ 8 * defaultEngine.limits.maxNotionalPerOrder < 1 * 1000000099999999 := by
  decide +kernel

end Fluxor.Risk
