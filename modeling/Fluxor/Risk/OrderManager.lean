import Fluxor.Support.GoInt
import Fluxor.Support.Transition
import Mathlib.Algebra.BigOperators.Group.List.Basic
import Mathlib.Algebra.Order.Group.Abs
import Mathlib.Algebra.Order.Group.Int

/-!
# The order manager of the C++ engine

`risk.h`, `order_manager.h` and `execution_sim.h` of `base/cpp_server/hft`, with the queue
of execution reports between them. Buys and sells in flight are netted in `reserved`,
and what is not filled of an order is never released.
-/

namespace Fluxor.Risk.OrderManager

open Support Transition List

structure RiskConfig where
  (maxAbsPosition maxOrderQty : ℤ)

structure RiskState where
  position : ℤ := 0
  reserved : ℤ := 0
  rejects : ℕ := 0

inductive Side
  | buy | sell
  deriving DecidableEq

def Side.signed : Side → ℤ → ℤ
  | .buy, qty => qty
  | .sell, qty => -qty

structure Order where
  side : Side
  qty : ℤ

variable (cfg : RiskConfig) (st : RiskState)

def riskCheck (o : Order) : Bool :=
  if o.qty ≤ 0 ∨ cfg.maxOrderQty < o.qty then false
  else
    let effPos := int32 (st.position + st.reserved)
    let newPos := int32 (effPos + o.side.signed o.qty)
    !decide (cfg.maxAbsPosition < newPos ∨ newPos < -cfg.maxAbsPosition)

def prepareAndCheck (o : Order) : Bool × RiskState :=
  if riskCheck cfg st o then
    (true, { st with reserved := int32 (st.reserved + o.side.signed o.qty) })
  else (false, { st with rejects := (st.rejects + 1) % 2 ^ 64 })

structure ExecReport where
  filled : Bool
  side : Side
  (filledQty positionAfter : ℤ)

def onOrder (fillQty : ℤ) (o : Order) (position : ℤ) : ExecReport :=
  let fillQty := if o.qty < fillQty then o.qty else fillQty
  ⟨0 < fillQty, o.side, fillQty,
    if 0 < fillQty then int32 (position + o.side.signed fillQty) else position⟩

def applyExec (er : ExecReport) : RiskState :=
  if er.filled then
    { st with
      reserved := int32 (st.reserved - er.side.signed er.filledQty)
      position := er.positionAfter }
  else st

/-- The strategy's risk state, the position of the exchange, the accepted orders it
has not handled, and its reports. -/
structure Engine where
  risk : RiskState := {}
  position : ℤ := 0
  outstanding : List Order := []
  reports : List ExecReport := []

inductive Event
  | send (o : Order)
  | fill (i : ℕ)
  | report

def Engine.step (fillQty : ℤ) (e : Engine) : Event → Option Engine
  | .send o =>
    let checked := prepareAndCheck cfg e.risk o
    some { e with
      risk := checked.2
      outstanding := if checked.1 then e.outstanding ++ [o] else e.outstanding }
  | .fill i => e.outstanding[i]?.map fun o =>
    let er := onOrder fillQty o e.position
    { e with
      position := er.positionAfter
      outstanding := e.outstanding.eraseIdx i
      reports := e.reports ++ [er] }
  | .report =>
    match e.reports with
    | [] => none
    | er :: rest => some { e with risk := applyExec e.risk er, reports := rest }

/-- Orders that may be accepted are filled as a whole, and none is sent while one of the
other side is outstanding. -/
def OneSided (fillQty : ℤ) (e : Engine) : Event → Prop
  | .send o =>
    (o.qty ≤ cfg.maxOrderQty → o.qty ≤ fillQty) ∧ ∀ o' ∈ e.outstanding, o'.side = o.side
  | _ => True

instance (fillQty : ℤ) (e : Engine) (event : Event) : Decidable (OneSided cfg fillQty e event) := by
  delta OneSided
  cases event <;> infer_instance

def pending (orders : List Order) : ℤ := (orders.map fun o => o.side.signed o.qty).sum

abbrev Within (limit x : ℤ) : Prop := -limit ≤ x ∧ x ≤ limit

/-- The reports lead from the position of the strategy to that of the exchange. -/
def Reported (limit : ℤ) : ℤ → List ExecReport → ℤ → Prop
  | start, [], position => start = position
  | start, er :: rest, position => er.filled = true ∧
      er.positionAfter = start + er.side.signed er.filledQty ∧
      Within limit er.positionAfter ∧ Reported limit er.positionAfter rest position

structure Safe (cfg : RiskConfig) (fillQty : ℤ) (e : Engine) : Prop where
  reported : Reported cfg.maxAbsPosition e.risk.position e.reports e.position
  reserved : e.risk.position + e.risk.reserved = e.position + pending e.outstanding
  oneSided : ∃ side, ∀ o ∈ e.outstanding, o.side = side ∧ 0 < o.qty ∧ o.qty ≤ fillQty
  start : Within cfg.maxAbsPosition e.risk.position
  position : Within cfg.maxAbsPosition e.position
  total : Within cfg.maxAbsPosition (e.position + pending e.outstanding)

variable {cfg : RiskConfig} {e : Engine} {o : Order} {orders : List Order} {fillQty : ℤ} {i : ℕ}

theorem Reported.snoc {limit start position : ℤ} {reports : List ExecReport} {er : ExecReport}
    (h : Reported limit start reports position) (hfilled : er.filled = true)
    (hafter : er.positionAfter = position + er.side.signed er.filledQty)
    (hbounds : Within limit er.positionAfter) :
    Reported limit start (reports ++ [er]) er.positionAfter := by
  induction reports generalizing start with
  | nil =>
    obtain rfl : start = position := h
    exact ⟨hfilled, hafter, hbounds, rfl⟩
  | cons r rest ih => exact ⟨h.1, h.2.1, h.2.2.1, ih h.2.2.2⟩

theorem pending_side {side : Side} {qty : ℤ}
    (h : ∀ o ∈ orders, o.side = side ∧ 0 < o.qty ∧ o.qty ≤ qty) :
    0 ≤ side.signed (pending orders) := by
  induction orders with
  | nil => cases side <;> exact le_rfl
  | cons o rest ih =>
    obtain ⟨⟨rfl, hqty, -⟩, hrest⟩ := forall_mem_cons.mp h
    have hpending := ih hrest
    rw [pending, map_cons, sum_cons, ← pending]
    cases hside : o.side <;> rw [hside] at hpending <;> simp only [Side.signed] at * <;> omega

theorem pending_eraseIdx (h : orders[i]? = some o) :
    pending orders = o.side.signed o.qty + pending (orders.eraseIdx i) := by
  obtain ⟨hi, rfl⟩ := List.getElem?_eq_some_iff.mp h
  exact ((getElem_cons_eraseIdx_perm hi).map _).sum_eq.symm

theorem onOrder_eq {position : ℤ} (hqty : 0 < o.qty) (hle : o.qty ≤ fillQty)
    (hexact : int32 (position + o.side.signed o.qty) = position + o.side.signed o.qty) :
    onOrder fillQty o position = ⟨true, o.side, o.qty, position + o.side.signed o.qty⟩ := by
  have hamount : (if o.qty < fillQty then o.qty else fillQty) = o.qty := by split <;> omega
  simp only [onOrder, hamount, hqty, decide_true, if_true, hexact]

section Step

variable (h : Safe cfg fillQty e) (hrange : 2 * cfg.maxAbsPosition + max 0 cfg.maxOrderQty < 2 ^ 31)

include h hrange

theorem Safe.send (hone : OneSided cfg fillQty e (.send o))
    (hcheck : riskCheck cfg e.risk o = true) :
    Safe cfg fillQty { e with
      risk := { e.risk with reserved := int32 (e.risk.reserved + o.side.signed o.qty) }
      outstanding := e.outstanding ++ [o] } := by
  obtain ⟨hreported, hreserved, ⟨side, hside⟩, hstart, hposition, htotal⟩ := h
  have hpending : pending (e.outstanding ++ [o]) = pending e.outstanding + o.side.signed o.qty := by
    simp [pending]
  rw [riskCheck] at hcheck
  split at hcheck
  · cases hcheck
  next hqty =>
    have hsigned : Within cfg.maxOrderQty (o.side.signed o.qty) := by
      cases o.side <;> simp only [Side.signed] <;> omega
    have hreserve := int32_eq_self (x := e.risk.reserved + o.side.signed o.qty)
      (by omega) (by omega)
    have hnew := int32_eq_self (x := e.risk.position + e.risk.reserved + o.side.signed o.qty)
      (by omega) (by omega)
    simp only [int32_int32_add, hnew, Bool.not_eq_true', decide_eq_false_iff_not, not_or,
      not_lt] at hcheck
    refine ⟨hreported, ?_, ⟨o.side, fun o' ho' => ?_⟩, hstart, hposition, ?_⟩
    · simp only [hreserve, hpending]
      omega
    · rcases mem_append.mp ho' with ho' | ho'
      · exact ⟨hone.2 o' ho', (hside o' ho').2⟩
      · obtain rfl := mem_singleton.mp ho'
        exact ⟨rfl, by omega, hone.1 (by omega)⟩
    · simp only [hpending]
      omega

theorem Safe.fill (ho : e.outstanding[i]? = some o) :
    Safe cfg fillQty { e with
      position := (onOrder fillQty o e.position).positionAfter
      outstanding := e.outstanding.eraseIdx i
      reports := e.reports ++ [onOrder fillQty o e.position] } := by
  obtain ⟨hreported, hreserved, ⟨side, hside⟩, hstart, hposition, htotal⟩ := h
  have hpending := pending_eraseIdx ho
  obtain ⟨rfl, hqty, hle⟩ := hside o (mem_of_getElem? ho)
  have hrest : ∀ o' ∈ e.outstanding.eraseIdx i, _ :=
    fun o' ho' => hside o' (mem_of_mem_eraseIdx ho')
  have hsigned := pending_side hrest
  have hbounds : Within cfg.maxAbsPosition (e.position + o.side.signed o.qty) := by
    cases hs : o.side <;> simp only [hs, Side.signed] at * <;> omega
  rw [onOrder_eq hqty hle (int32_eq_self (by omega) (by omega))]
  refine ⟨hreported.snoc rfl rfl hbounds, ?_, ⟨_, hrest⟩, hstart, hbounds, ?_⟩ <;>
    simp only <;> omega

theorem Safe.report {er : ExecReport} {rest : List ExecReport} (hreports : e.reports = er :: rest) :
    Safe cfg fillQty { e with risk := applyExec e.risk er, reports := rest } := by
  obtain ⟨hreported, hreserved, hside, hstart, hposition, htotal⟩ := h
  rw [hreports] at hreported
  obtain ⟨hfilled, hafter, hbounds, hrest⟩ := hreported
  have hexact := int32_eq_self (x := e.risk.reserved - er.side.signed er.filledQty)
    (by omega) (by omega)
  rw [applyExec, if_pos hfilled, hexact]
  refine ⟨hrest, ?_, hside, hbounds, hposition, htotal⟩
  simp only
  omega

end Step

/-- With orders of one side at a time that are filled as a whole the limit holds. -/
theorem position_within_limit {events : List Event} (hlimit : 0 ≤ cfg.maxAbsPosition)
    (hrange : 2 * cfg.maxAbsPosition + max 0 cfg.maxOrderQty < 2 ^ 31)
    (hrun : Run (Engine.step cfg fillQty) (OneSided cfg fillQty) {} events e) :
    |e.position| ≤ cfg.maxAbsPosition ∧
      (e.outstanding = [] → e.reports = [] → e.risk.reserved = 0) := by
  have hsafe : Safe cfg fillQty e := by
    refine hrun.invariant (I := Safe cfg fillQty) ?_ ⟨rfl, rfl, ⟨.buy, nofun⟩, ?_, ?_, ?_⟩
    · intro e event e' h hone hstep
      cases event with
      | send =>
        rw [Engine.step, prepareAndCheck] at hstep
        split at hstep
        next hcheck =>
          cases hstep
          exact h.send hrange hone hcheck
        · cases hstep
          exact { h with }
      | fill =>
        obtain ⟨o, ho, rfl⟩ := Option.map_eq_some_iff.mp hstep
        exact h.fill hrange ho
      | report =>
        rw [Engine.step] at hstep
        split at hstep
        · cases hstep
        next hreports =>
          cases hstep
          exact h.report hrange hreports
    all_goals simpa [Within, pending] using hlimit
  refine ⟨abs_le.mpr hsafe.position, fun houtstanding hreports => ?_⟩
  have hreserved := hsafe.reserved
  have hreported := hsafe.reported
  rw [hreports] at hreported
  have heq : e.risk.position = e.position := hreported
  simp only [houtstanding, pending, map_nil, sum_nil] at hreserved
  omega

/-- Orders of one unit, of which the exchange fills one at a time. -/
theorem position_within_limit_buys :
    ∃ e, Run (Engine.step ⟨10, 10⟩ 1) (OneSided ⟨10, 10⟩ 1) {}
        [.send ⟨.buy, 1⟩, .send ⟨.buy, 1⟩, .fill 1, .report, .fill 0, .report] e ∧
      |e.position| ≤ 10 ∧ (e.outstanding = [] → e.reports = [] → e.risk.reserved = 0) :=
  exists_run_of _ (fun _ => True) (by decide +kernel) fun _ hrun _ =>
    position_within_limit (by decide) (by decide) hrun

/-- The accepted buys are filled before the sell between them, and a part stays reserved. -/
theorem position_exceeds_limit_netted :
    (∃ e, Run (Engine.step ⟨10, 10⟩ 10) anyStep {}
        [.send ⟨.buy, 10⟩, .send ⟨.sell, 10⟩, .send ⟨.buy, 10⟩, .fill 0, .fill 1] e ∧
      10 < |e.position|) ∧
    ∃ e, Run (Engine.step ⟨10, 10⟩ 1) anyStep {} [.send ⟨.buy, 5⟩, .fill 0, .report] e ∧
      e.outstanding = [] ∧ e.reports = [] ∧ e.risk.reserved = 4 :=
  ⟨exists_run _ _ _ _ _ (by decide +kernel), exists_run _ _ _ _ _ (by decide +kernel)⟩

end Fluxor.Risk.OrderManager
