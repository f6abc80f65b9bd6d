import Fluxor.Matching.Representation

/-!
# The depth of the book

`GetDepth` starts at the best level and follows the pointers of the price ladder. No
function of the package links the levels, so that it ends after the first one.
-/

namespace Fluxor.Matching

open Support Transition List

namespace OrderBook

/-- A loop of `GetDepth`, which appends the level and goes on to its neighbour. -/
def walkLadder (s : OrderBook) (b : Bool) : ℕ → Option ℤ → List (ℤ × ℤ)
  | 0, _ | _, none => []
  | levels + 1, some p =>
    ((s.level b p).price, (s.level b p).totalQty) ::
      s.walkLadder b levels (if b then (s.level b p).prev else (s.level b p).next)

def getDepth (s : OrderBook) (b : Bool) (levels : ℕ) : List (ℤ × ℤ) :=
  s.walkLadder b levels (s.half b).best

/-- The rows are the first levels by price, the best one first, with what is open of
their orders. -/
def IsDepth (s : OrderBook) (b : Bool) (levels : ℕ) (rows : List (ℤ × ℤ)) : Prop :=
  ∃ prices : List ℤ, prices.Perm (s.half b).prices ∧
    prices.Pairwise (fun p q => Half.beats b p q = true) ∧
    rows = (prices.take levels).map fun p => (p, s.openQty (s.queue b p))

variable {s : OrderBook} {b : Bool}

theorem IsDepth.length_eq {levels : ℕ} {rows : List (ℤ × ℤ)} (h : s.IsDepth b levels rows) :
    rows.length = min levels (s.half b).prices.length := by
  obtain ⟨prices, hperm, -, rfl⟩ := h
  rw [length_map, length_take, hperm.length_eq]

theorem exists_sorted {prices : List ℤ} (hnodup : prices.Nodup) :
    ∃ sorted : List ℤ, sorted.Perm prices ∧ sorted.Pairwise fun p q => Half.beats b p q = true := by
  have hsorted : (prices.mergeSort fun p q => !Half.beats b q p).Pairwise
      fun p q => (!Half.beats b q p) = true := by
    refine pairwise_mergeSort (fun p q r hpq hqr => ?_) (fun p q => ?_) prices
    all_goals
      cases b <;> simp only [Half.beats] at * <;> grind
  have hperm := mergeSort_perm prices fun p q => !Half.beats b q p
  refine ⟨_, hperm, (hsorted.and (hperm.nodup_iff.mpr hnodup)).imp ?_⟩
  rintro p q ⟨hle, hne⟩
  exact (eq_or_beats (by simpa using hle)).resolve_left (Ne.symm hne)

/-- The walk ends after the best level, because that has no neighbours. -/
theorem getDepth_eq (hs : s.Shape) (levels : ℕ) : s.getDepth b levels =
    ((s.half b).best.toList.take levels).map fun p => (p, (s.level b p).totalQty) := by
  rw [getDepth]
  cases hbest : (s.half b).best with
  | none => cases levels <;> simp [walkLadder]
  | some p =>
    have hp := hs.best_mem hbest
    have hnext : (s.level b p).next = none := congrArg (·.2.1) (hs.level_label hp)
    have hprev : (s.level b p).prev = none := congrArg (·.2.2) (hs.level_label hp)
    cases levels with
    | zero => rfl
    | succ levels =>
      have hend : walkLadder s b levels none = [] := by cases levels <;> rfl
      simp [walkLadder, hs.level_price hp, hnext, hprev, hend]

/-- After careful calls the rows are right exactly if at most one is asked for or there is
at most one level. -/
theorem getDepth_isDepth_iff {acts : List Action} (hrun : Run step Careful newOrderBook acts s)
    (b : Bool) (levels : ℕ) : s.IsDepth b levels (s.getDepth b levels) ↔
      levels ≤ 1 ∨ (s.half b).prices.length ≤ 1 := by
  have hfaithful := hrun.invariant faithful_step faithful_newOrderBook
  have hshape := hfaithful.wellFormed.shape
  have hbest := hfaithful.best b
  rw [getDepth_eq hshape]
  constructor
  · intro hdepth
    have hlength := hdepth.length_eq
    have hle := length_take_le' levels (s.half b).best.toList
    have hone : (s.half b).best.toList.length ≤ 1 := by
      cases (s.half b).best <;> simp
    rw [length_map] at hlength
    omega
  intro hfew
  cases hcached : (s.half b).best with
  | none =>
    rw [hcached] at hbest
    have hprices : (s.half b).prices = [] := hbest
    refine ⟨[], ?_, .nil, ?_⟩
    · rw [hprices]
    · simp
  | some p =>
    rw [hcached] at hbest
    obtain ⟨hp, hbeats⟩ := hbest
    obtain ⟨rest, hperm, hsorted⟩ := exists_sorted (b := b) ((hshape.prices_nodup b).erase p)
    have hall := (hperm.cons p).trans (perm_cons_erase hp).symm
    refine ⟨p :: rest, hall, ?_, ?_⟩
    · refine pairwise_cons.mpr ⟨fun q hq => ?_, hsorted⟩
      obtain ⟨hne, hq⟩ := (hshape.prices_nodup b).mem_erase_iff.mp (hperm.mem_iff.mp hq)
      exact (hbeats q hq).resolve_left hne
    · -- both sides have the same rows, since the others are not asked for or not there
      have htake : (p :: rest).take levels = [p].take levels := by
        cases levels with
        | zero => rfl
        | succ levels =>
          rw [← hall.length_eq, length_cons] at hfew
          rw [take_succ_cons, take_succ_cons, take_nil]
          rcases hfew with hfew | hfew
          · rw [(by omega : levels = 0), take_zero]
          · rw [length_eq_zero_iff.mp (by omega : rest.length = 0), take_nil]
      rw [htake, Option.toList_some]
      refine map_congr_left fun q hq => ?_
      obtain rfl := mem_singleton.mp (mem_of_mem_take hq)
      rw [hfaithful.totalQty_eq hp]

theorem getDepth_isDepth_bid :
    ∃ s : OrderBook, (s.half true).prices.length = 2 ∧ s.IsDepth true 1 (s.getDepth true 1) := by
  obtain ⟨s, hrun, hprices⟩ := exists_run step Careful newOrderBook
    [.add (some { price := 10, quantity := 5 }), .add (some { price := 7, quantity := 1 })]
    (fun s => (s.half true).prices.length = 2) (by decide +kernel)
  exact ⟨s, hprices, (getDepth_isDepth_iff hrun true 1).mpr (.inl le_rfl)⟩

/-- Of two bids the depth has only the first. -/
theorem getDepth_short : ∃ s : OrderBook, s.Reachable ∧ ¬s.IsDepth true 2 (s.getDepth true 2) := by
  obtain ⟨s, hrun, hprices, hrows⟩ := exists_run step anyStep newOrderBook
    [.add (some { price := 10, quantity := 5 }), .add (some { price := 7, quantity := 1 })]
    (fun s => (s.half true).prices.length = 2 ∧ (s.getDepth true 2).length = 1)
    (by decide +kernel)
  refine ⟨s, ⟨_, hrun⟩, fun hdepth => ?_⟩
  have hlength := hdepth.length_eq
  rw [hprices, hrows] at hlength
  cases hlength

end OrderBook

end Fluxor.Matching
