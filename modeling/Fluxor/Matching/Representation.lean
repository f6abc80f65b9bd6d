import Fluxor.Matching.Cancel
import Mathlib.Data.List.Induction

/-!
# The representation invariant

When only resting orders are cancelled, the levels hold what their totals say and
the cached best levels are the best, with two provisos. The rescans for a best level
start from price 0 and from the largest `int64`, so that a bid at or below 0 or an
ask at the largest price is not found; and the totals of a level are fixed-width
integers. Calls that meet both provisos are `Careful`, and the invariant holds along
all their runs.
-/

namespace Fluxor.Matching

open Support Transition List Half

namespace OrderBook

/-- The cached best level of a side is its best level. -/
def IsBest (b : Bool) (prices : List ℤ) : Option ℤ → Prop
  | none => prices = []
  | some p => p ∈ prices ∧ ∀ q ∈ prices, q = p ∨ beats b p q = true

/-- What the fields of a book are meant to hold. -/
structure Representation (s : OrderBook) : Prop where
  level : ∀ b, ∀ p ∈ (s.half b).prices, ∃ xs : List ℕ, xs ≠ [] ∧ xs.Nodup ∧
    DoublyLinked s.links none (s.level b p).orders xs ∧
    (s.level b p).count = xs.length ∧
    (s.level b p).totalQty = s.openQty xs ∧
    ∀ x ∈ xs, (s.order x).Open ∧ (s.order x).isBuy = b ∧ (s.order x).price = p
  best : ∀ b, IsBest b (s.half b).prices (s.half b).best

def scanStart (b : Bool) : ℤ := if b then 0 else 2 ^ 63 - 1

variable (s : OrderBook)

/-- If removing `r` deletes its level, the rescan finds the best of the others:
there is none, or one of them beats the starting price. -/
def RescanFinds (r : ℕ) : Prop :=
  s.queue (s.order r).isBuy (s.order r).price = [r] →
    (∀ q ∈ (s.half (s.order r).isBuy).prices, q = (s.order r).price) ∨
      ∃ q ∈ (s.half (s.order r).isBuy).prices, q ≠ (s.order r).price ∧
        beats (s.order r).isBuy q (scanStart (s.order r).isBuy) = true

instance (r : ℕ) : Decidable (s.RescanFinds r) := inferInstanceAs (Decidable (_ → _))

/-- An order that comes to rest does not push its level's totals out of their range,
and only resting orders are cancelled, with a rescan that finds the best of the
other levels. -/
def Careful : Action → Prop
  | .add none => True
  | .add (some o) =>
    s.target o = none → o.orderType = orderTypeLimit →
      s.openQty (s.queue o.isBuy o.price) + o.quantity < 2 ^ 63 ∧
        (s.queue o.isBuy o.price).length + 1 < 2 ^ 31
  | .cancel id => ∀ r ∈ s.orders id,
      r ∈ s.queue (s.order r).isBuy (s.order r).price ∧ s.RescanFinds r

instance (act : Action) : Decidable (s.Careful act) :=
  match act with
  | .add none => isTrue trivial
  | .add (some _) => inferInstanceAs (Decidable (_ → _ → _))
  | .cancel id => inferInstanceAs (Decidable (∀ r ∈ s.orders id, _ ∧ _))

def InRange : Prop := ∀ b p, s.openQty (s.queue b p) < 2 ^ 63 ∧ (s.queue b p).length < 2 ^ 31

/-- The invariant of careful runs. -/
structure Faithful (s : OrderBook) : Prop where
  wellFormed : s.WellFormed
  counted : s.CountedAll
  inRange : s.InRange
  best : ∀ b, IsBest b (s.half b).prices (s.half b).best

variable {s t : OrderBook} {a r : ℕ} {b : Bool} {p q : ℤ} {o : Order}

theorem Faithful.totalQty_eq (h : s.Faithful) (hp : p ∈ (s.half b).prices) :
    (s.level b p).totalQty = s.openQty (s.queue b p) := by
  have hnonneg : 0 ≤ s.openQty (s.queue b p) := by
    refine sum_nonneg ?_
    simp only [mem_map, forall_exists_index, and_imp]
    rintro m x hx rfl
    exact (h.wellFormed.leaves_pos x hx).le
  rw [(h.counted b p hp).1, int64_eq_self (by omega) (h.inRange b p).1]

theorem Faithful.representation (h : s.Faithful) : s.Representation where
  level b p hp := by
    have hw := h.wellFormed
    have hrange := h.inRange b p
    obtain ⟨-, hcount⟩ := h.counted b p hp
    refine ⟨s.queue b p, hw.shape.noEmptyLevel_iff.mp hw.full b p hp,
      hw.shape.queue_nodup b p, ?_, ?_, ?_, ?_⟩
    · exact (hw.shape.follows_queue hp).doublyLinked hw.shape.linked
        (fun r hr => hw.shape.head_prev ⟨hp, hr⟩)
    · grind [int32_eq_self]
    · exact h.totalQty_eq hp
    · intro x hx
      exact ⟨hw.live x (hw.shape.listed_of_mem hx), hw.shape.terms_of_mem hx⟩
  best := h.best

/-! ## The best level -/

theorem IsBest.congr {prices prices' : List ℤ} {best : Option ℤ} (h : IsBest b prices best)
    (hmem : ∀ q, q ∈ prices' ↔ q ∈ prices) : IsBest b prices' best := by
  cases best with
  | none =>
    have hnil : prices = [] := h
    refine eq_nil_iff_forall_not_mem.mpr fun q hq => ?_
    rw [hmem, hnil] at hq
    cases hq
  | some p => exact ⟨(hmem p).mpr h.1, fun q hq => h.2 q ((hmem q).mp hq)⟩

theorem beats_trans {x y z : ℤ} (hxy : beats b x y = true) (hyz : beats b y z = true) :
    beats b x z = true := by
  grind [beats]

theorem beats_of_not {x y z : ℤ} (hxy : beats b x y = true) (hzy : ¬beats b z y = true) :
    beats b x z = true := by
  grind [beats]

theorem eq_or_beats {x y : ℤ} (h : ¬beats b x y = true) : x = y ∨ beats b y x = true := by
  grind [beats]

/-- What a rescan has found after the levels at `keys`. -/
def Found (b : Bool) (start : ℤ) (keys : List ℤ) (found : ℤ × Option ℤ) : Prop :=
  match found.2 with
  | none => found.1 = start ∧ ∀ k ∈ keys, ¬beats b k start = true
  | some p => found.1 = p ∧ IsBest b keys (some p)

theorem Found.snoc {start : ℤ} {keys : List ℤ} {found : ℤ × Option ℤ}
    (h : Found b start keys found) (key : ℤ) :
    Found b start (keys ++ [key])
      (if beats b key found.1 then (key, some key) else found) := by
  obtain ⟨v, best⟩ := found
  by_cases hbeats : beats b key v = true
  · rw [if_pos hbeats]
    refine ⟨rfl, by simp, ?_⟩
    intro k hk
    rcases mem_append.mp hk with hk | hk
    · right
      cases best with
      | none =>
        obtain ⟨rfl, hnone⟩ := h
        exact beats_of_not hbeats (hnone k hk)
      | some =>
        obtain ⟨hv, -, hmax⟩ := h
        grind [beats_trans]
    · exact Or.inl (mem_singleton.mp hk)
  · rw [if_neg hbeats]
    cases best with
    | none =>
      obtain ⟨rfl, hnone⟩ := h
      refine ⟨rfl, ?_⟩
      grind
    | some p =>
      obtain ⟨hv, hmem, hmax⟩ := h
      obtain rfl : v = p := hv
      refine ⟨rfl, mem_append_left _ hmem, ?_⟩
      intro k hk
      rcases mem_append.mp hk with hk | hk
      · exact hmax k hk
      · rw [mem_singleton.mp hk]
        exact eq_or_beats hbeats

theorem found_scan (start : ℤ) (h : Half) (keys : List ℤ)
    (hkeys : ∀ k ∈ keys, (h.level k).isEmpty = false ∧ (h.level k).price = k) :
    Found b start keys (keys.foldl (fun found key =>
      if !(h.level key).isEmpty && beats b (h.level key).price found.1 then
        ((h.level key).price, some key)
      else found) (start, none)) := by
  induction keys using reverseRecOn with
  | nil => exact ⟨rfl, by simp⟩
  | append_singleton keys key ih =>
    have ih := ih fun k hk => hkeys k (mem_append_left _ hk)
    grind [Found.snoc]

theorem updateBest_eq (h : Half) : h.updateBest b = h.scanBest (beats b) (scanStart b) := by
  cases b <;> rfl

theorem isBest_updateBest (h : Half)
    (hlevels : ∀ k ∈ h.prices, (h.level k).isEmpty = false ∧ (h.level k).price = k)
    (hstart : h.prices = [] ∨ ∃ q ∈ h.prices, beats b q (scanStart b) = true) :
    IsBest b h.prices (h.updateBest b).best := by
  have hfound := found_scan (b := b) (scanStart b) h h.prices hlevels
  rw [updateBest_eq]
  unfold scanBest
  generalize foldl _ _ h.prices = found at hfound ⊢
  obtain ⟨v, best⟩ := found
  cases best with
  | none =>
    rcases hstart with hnil | ⟨q, hq, hbeats⟩
    · exact hnil
    · exact absurd hbeats (hfound.2 q hq)
  | some => exact hfound.2

/-! ## Adding an order -/

theorem Faithful.storeOrder (h : s.Faithful) (o : Order) : (s.storeOrder o).Faithful := by
  have hw := h.wellFormed
  have hopen : ∀ b p, (s.storeOrder o).openQty ((s.storeOrder o).queue b p) =
      s.openQty (s.queue b p) := by
    intro b p
    rw [hw.shape.queue_storeOrder]
    unfold openQty
    congr 1
    exact map_congr_left fun x hx => hw.leaves_storeOrder o x hx
  refine ⟨hw.storeOrder o, ?_, ?_, h.best⟩
  · intro b p hp
    obtain ⟨htotal, hcount⟩ := h.counted b p hp
    constructor
    · rwa [hopen]
    · rwa [hw.shape.queue_storeOrder]
  · intro b p
    rw [hopen, hw.shape.queue_storeOrder]
    exact h.inRange b p

theorem isBest_rested (h : Rested s t a) (hbest : ∀ b, IsBest b (s.half b).prices (s.half b).best)
    (b : Bool) : IsBest b (t.half b).prices (t.half b).best := by
  have hbest := hbest b
  by_cases hb : b = (s.order a).isBuy
  · subst hb
    rw [h.best_self]
    have hmem : ∀ {q}, q ∈ (t.half (s.order a).isBuy).prices ↔
        q = (s.order a).price ∨ q ∈ (s.half (s.order a).isBuy).prices := by
      intro q
      rw [h.mem_prices]
      simp
    cases hold : (s.half (s.order a).isBuy).best with
    | none =>
      rw [hold] at hbest
      have hnil : (s.half (s.order a).isBuy).prices = [] := hbest
      refine ⟨hmem.mpr (Or.inl rfl), ?_⟩
      grind
    | some =>
      rw [hold] at hbest
      obtain ⟨hin, hmax⟩ := hbest
      dsimp only
      split
      next hbeats =>
        refine ⟨hmem.mpr (Or.inl rfl), ?_⟩
        grind [beats_trans]
      next hbeats =>
        refine ⟨hmem.mpr (Or.inr hin), ?_⟩
        intro q hq
        rcases hmem.mp hq with rfl | hq
        · exact eq_or_beats hbeats
        · exact hmax q hq
  grind [Rested.best_other, IsBest.congr, Rested.mem_prices]

theorem Faithful.rested (hf : s.Faithful) (h : Rested s t a) (ha : (s.order a).Open)
    (hqty : s.openQty (s.queue (s.order a).isBuy (s.order a).price) +
      (s.order a).leavesQty < 2 ^ 63)
    (hlength : (s.queue (s.order a).isBuy (s.order a).price).length + 1 < 2 ^ 31) : t.Faithful where
  wellFormed := ⟨h.shape, h.live hf.wellFormed.live ha,
    h.noEmptyLevel hf.wellFormed.shape hf.wellFormed.full⟩
  counted := h.counted hf.counted
  inRange b p := by
    unfold openQty at hqty ⊢
    rw [h.order]
    by_cases hne : (b, p) = ((s.order a).isBuy, (s.order a).price)
    · grind [Rested.queue_self]
    · rw [h.queue_other hne]
      exact hf.inRange b p
  best := isBest_rested h hf.best

theorem openQty_le {xs ys : List ℕ} (hsub : xs.Sublist ys) (hpos : ∀ x ∈ ys, 0 < s.leaves x)
    (hle : ∀ x ∈ xs, t.leaves x ≤ s.leaves x) : t.openQty xs ≤ s.openQty ys :=
  calc
    t.openQty xs ≤ s.openQty xs := sum_le_sum fun x hx => hle x hx
    _ ≤ s.openQty ys := by
      refine (hsub.map _).sum_le_sum ?_
      simp only [mem_map, forall_exists_index, and_imp]
      rintro m x hx rfl
      exact (hpos x hx).le

theorem Faithful.matched {fills : List (ℕ × ℤ)} (hf : s.Faithful) (h : Matched s t a b p fills)
    (hpos : ∀ f ∈ fills, 0 < f.2) (hsub : ∀ f ∈ fills, f.1 ∈ s.queue b p)
    (hqueue : (t.queue b p).Sublist (s.queue b p))
    (hleft : p ∈ (s.half b).prices → t.queue b p ≠ []) : t.Faithful := by
  have hw := hf.wellFormed
  have hnot : ∀ {b' p' x}, x ∈ t.queue b' p' → x ≠ a := by
    rintro b' p' x hx rfl
    exact h.free (h.shape.listed_of_mem hx)
  have hqueues : ∀ b' p', (t.queue b' p').Sublist (s.queue b' p') := by
    intro b' p'
    by_cases hne : (b', p') = (b, p) <;> grind [Matched.queue]
  refine ⟨h.wellFormed hw.shape hw.full hleft, ?_, ?_, ?_⟩
  · intro b' p' hp'
    rw [h.prices] at hp'
    by_cases hne : (b', p') = (b, p)
    · cases hne
      exact h.counted (hf.counted b p hp')
    · obtain ⟨htotal, hcount⟩ := hf.counted b' p' hp'
      have hopen : t.openQty (s.queue b' p') = s.openQty (s.queue b' p') := by
        unfold openQty
        congr 1
        refine map_congr_left fun x hx => ?_
        -- An order of another level is not among those that traded.
        have hx' : x ∉ fills.map Prod.fst := by
          intro hmem
          obtain ⟨f, hfills, rfl⟩ := mem_map.mp hmem
          obtain ⟨hside, hprice⟩ := hw.shape.terms_of_mem (hsub f hfills)
          grind [Shape.terms_of_mem, WellFormed.shape]
        rw [(h.resting (hnot (h.queue hne ▸ hx))).leavesQty, amount_of_not_mem hx', sub_zero]
      constructor <;> grind [Matched.level, Matched.queue]
  · intro b' p'
    obtain ⟨hqty, hlength⟩ := hf.inRange b' p'
    have hle : t.openQty (t.queue b' p') ≤ s.openQty (s.queue b' p') := by
      refine openQty_le (hqueues b' p') (fun x hx => hw.leaves_pos x hx) ?_
      intro x hx
      unfold leaves
      rw [(h.resting (hnot hx)).leavesQty]
      have := amount_nonneg (fun f hf => (hpos f hf).le) x
      omega
    grind
  · intro b'
    rw [h.prices, h.best]
    exact hf.best b'

theorem Faithful.addOrder {e : Option BookError} (hf : s.Faithful) (hq : 0 < o.quantity)
    (hcareful : s.Careful (.add (some o))) (hout : AddOutcome s o (.ok (t, e))) : t.Faithful := by
  have hw := hf.wellFormed
  have hf' := hf.storeOrder o
  obtain ⟨hbuy, -, hprice, -⟩ := terms_storeOrder s o
  cases hout with
  | rests _ ht hlimit h =>
    obtain ⟨hqty, hlength⟩ := hcareful ht hlimit
    refine hf'.rested h ?_ ?_ ?_
    · rw [order_storeOrder_self]
      exact ⟨hq, zero_add _⟩
    · rw [hbuy, hprice, hw.shape.queue_storeOrder]
      have hopen : (s.storeOrder o).openQty (s.queue o.isBuy o.price) =
          s.openQty (s.queue o.isBuy o.price) := by
        unfold openQty
        congr 1
        exact map_congr_left fun x hx => hw.leaves_storeOrder o x hx
      rwa [hopen, order_storeOrder_self]
    grind [Shape.queue_storeOrder, WellFormed.shape]
  | idles _ ht hlimit h =>
    have hsame : t.queue true 0 = (s.storeOrder o).queue true 0 := (h false 0).queue (by simp)
    refine hf'.matched (h true 0) (by simp) (by simp) ?_ ?_
    · rw [hsame]
    · rw [hsame]
      exact hf'.wellFormed.shape.noEmptyLevel_iff.mp hf'.wellFormed.full true 0
  | trades p _ ht hmore h hqueue =>
    refine hf'.matched h (allocate_pos fun x hx => hw.leaves_pos x hx) ?_ ?_ ?_
    · intro f hmem
      grind [Shape.queue_storeOrder, WellFormed.shape, allocate_sublist]
    · rw [hqueue, hw.shape.queue_storeOrder]
      exact (remaining_suffix _ _ _).sublist
    · intro hp
      rw [hqueue, ne_eq, remaining_eq_nil_iff hw.leaves_pos]
      exact not_or.mpr ⟨hw.shape.noEmptyLevel_iff.mp hw.full _ p hp, not_le.mpr hmore⟩

/-! ## Cancelling a resting order -/

section Cancel

variable (hmem : r ∈ s.queue (s.order r).isBuy (s.order r).price)
include hmem

theorem queue_removeFromBook_of_mem (hs : s.Shape) (b : Bool) (p : ℤ) :
    (s.removeFromBook r).queue b p = (s.queue b p).erase r :=
  hs.queue_removeFromBook (fun hprev _ => (hs.heads_of_mem hmem hprev).2) b p

theorem counted_removeOrder (hs : s.Shape) (hc : s.CountedAll) (hp : p ∈ (s.half b).prices) :
    (s.removeOrder (s.order r).isBuy (s.order r).price r).Counted b p := by
  obtain ⟨htotal, hcount⟩ := hc b p hp
  unfold Counted
  rw [hs.queue_removeOrder fun hprev => (hs.heads_of_mem hmem hprev).2]
  by_cases hne : (b, p) = ((s.order r).isBuy, (s.order r).price)
  · cases hne
    rw [level_removeOrder_self]
    have hsum := sum_map_erase (fun x => (s.order x).leavesQty) hmem
    have hpos := length_pos_of_mem hmem
    constructor
    · simp only [PriceLevel.removeOrder, htotal, int64_int64_sub]
      congr 1
      change s.openQty _ - _ = s.openQty _
      unfold openQty
      omega
    · simp only [PriceLevel.removeOrder, hcount, int32_int32_sub]
      grind
  · have hnot : r ∉ s.queue b p := hs.not_mem_of_ne hne
    rw [level_removeOrder_of_ne hne, erase_of_not_mem hnot]
    exact ⟨htotal, hcount⟩

theorem countedAll_removeFromBook (hs : s.Shape) (hc : s.CountedAll) :
    (s.removeFromBook r).CountedAll := by
  have hs' := hs.removeOrder r
  rcases removeFromBook_cases s r with
    ⟨-, heq⟩ | ⟨hp, t, rfl, ⟨hempty, heq⟩ | ⟨-, heq⟩⟩
  · rwa [heq]
  · have hnil := (hs'.queue_eq_nil_iff (by simpa using hp)).mpr hempty
    rw [heq]
    intro b p hbp
    obtain ⟨hne, hbp⟩ := (mem_prices_dropLevel hs').mp hbp
    rw [prices_removeOrder] at hbp
    obtain ⟨htotal, hcount⟩ := counted_removeOrder hmem hs hc hbp
    unfold Counted
    rw [level_dropLevel_of_ne hne, hs'.queue_dropLevel hnil]
    exact ⟨htotal, hcount⟩
  · rw [heq]
    intro b p hbp
    grind [prices_removeOrder, counted_removeOrder]

theorem isBest_removeFromBook (hw : s.WellFormed)
    (hbest : ∀ b, IsBest b (s.half b).prices (s.half b).best) (hscan : s.RescanFinds r) (b : Bool) :
    IsBest b ((s.removeFromBook r).half b).prices ((s.removeFromBook r).half b).best := by
  have hs' := hw.shape.removeOrder r
  have hshape := hw.shape.removeFromBook r
  have hfull := hw.full.removeFromBook hw.shape r
  rcases removeFromBook_cases s r with
    ⟨-, heq⟩ | ⟨hp, t, rfl, ⟨hempty, heq⟩ | ⟨-, heq⟩⟩
  · rw [heq]
    exact hbest b
  · have hnil := (hs'.queue_eq_nil_iff (by simpa using hp)).mpr hempty
    rw [heq] at hshape hfull ⊢
    by_cases hb : b = (s.order r).isBuy
    · subst hb
      have hlast : s.queue (s.order r).isBuy (s.order r).price = [r] := by
        rw [hw.shape.queue_removeOrder fun hprev => (hw.shape.heads_of_mem hmem hprev).2] at hnil
        exact (erase_eq_nil_iff.mp hnil).resolve_left (ne_nil_of_mem hmem)
      simp only [dropLevel, half_setHalf_self, prices_updateBest]
      refine isBest_updateBest _ ?_ ?_
      · intro k hk
        have hk' : k ∈ (((s.removeOrder (s.order r).isBuy (s.order r).price
            r).dropLevel (s.order r).isBuy (s.order r).price).half (s.order r).isBuy).prices := by
          simpa [dropLevel] using hk
        have hprice := hshape.level_price hk'
        have hsome := hfull _ k hk'
        simp only [level, dropLevel, half_setHalf_self, level_updateBest] at hprice hsome
        refine ⟨?_, hprice⟩
        rw [PriceLevel.isEmpty, ← Option.not_isSome, Option.isSome_iff_ne_none.mpr hsome]
        rfl
      · have hprices : (((s.removeOrder (s.order r).isBuy (s.order r).price
            r).half (s.order r).isBuy).deleteLevel (s.order r).price).prices =
            (s.half (s.order r).isBuy).prices.erase (s.order r).price := by
          rw [deleteLevel, prices_removeOrder]
        rw [hprices]
        have hnodup := hw.shape.prices_nodup (s.order r).isBuy
        rcases hscan hlast with hall | ⟨q, hq, hqp, hbeats⟩
        · left
          refine eq_nil_iff_forall_not_mem.mpr fun q hq => ?_
          grind
        grind
    grind [best_dropLevel_of_ne, best_removeOrder, prices_dropLevel, prices_removeOrder]
  grind [prices_removeOrder, best_removeOrder]

end Cancel

theorem Faithful.cancelOrder {id : ℕ} (hf : s.Faithful) (hcareful : s.Careful (.cancel id)) :
    (s.cancelOrder id).1.Faithful := by
  cases hid : s.orders id with
  | none => rwa [cancelOrder_of_unknown hid]
  | some r =>
    have hw := hf.wellFormed
    obtain ⟨hmem, hscan⟩ := hcareful r hid
    have hqueue : ∀ b p, (s.cancelOrder id).1.queue b p = (s.queue b p).erase r := by
      intro b p
      rw [queue_cancelOrder hid, queue_removeFromBook_of_mem hmem hw.shape]
    have hopen : (s.cancelOrder id).1.openQty = s.openQty := by
      funext xs
      change (xs.map (s.cancelOrder id).1.leaves).sum = (xs.map s.leaves).sum
      rw [leaves_cancelOrder]
    refine ⟨hw.cancelOrder id, ?_, ?_, ?_⟩
    · intro b p hp
      rw [half_cancelOrder hid] at hp
      obtain ⟨htotal, hcount⟩ := countedAll_removeFromBook hmem hw.shape hf.counted b p hp
      unfold Counted level
      rw [hopen, half_cancelOrder hid, queue_cancelOrder hid]
      refine ⟨?_, hcount⟩
      have hsame : (s.removeFromBook r).openQty = s.openQty := by
        grind [openQty, order_removeFromBook]
      rwa [← hsame]
    · intro b p
      obtain ⟨hqty, hlength⟩ := hf.inRange b p
      rw [hopen, hqueue]
      have hle : s.openQty ((s.queue b p).erase r) ≤ s.openQty (s.queue b p) :=
        openQty_le erase_sublist (fun x hx => hw.leaves_pos x hx) (fun x _ => le_refl _)
      grind
    · intro b
      rw [half_cancelOrder hid]
      exact isBest_removeFromBook hmem hw hf.best hscan b

/-! ## Careful runs -/

theorem faithful_newOrderBook : newOrderBook.Faithful where
  wellFormed := wellFormed_newOrderBook
  counted := by
    intro b p hp
    cases hp
  inRange b p := by
    rw [queue_of_not_mem (by simp [newOrderBook])]
    exact ⟨by decide, by decide⟩
  best _ := rfl

theorem faithful_step {act : Action} (hf : s.Faithful) (hcareful : s.Careful act)
    (hstep : s.step act = some t) : t.Faithful := by
  cases act with
  | add =>
    rcases step_add_cases hf.wellFormed hstep with
      rfl | ⟨o, rfl, hq, -, hout⟩
    · exact hf
    · exact hf.addOrder hq hcareful hout
  | cancel id =>
    obtain rfl : (s.cancelOrder id).1 = t := Option.some.inj hstep
    exact hf.cancelOrder hcareful

/-- In every run of careful calls the fields of the book hold what they should. -/
theorem representation_of_careful {acts : List Action}
    (hrun : Run step Careful newOrderBook acts s) : s.Representation :=
  (hrun.invariant faithful_step faithful_newOrderBook).representation

/-- Of three bids the first is filled in part and the last, at another price, is cancelled. -/
theorem representation_of_careful_fiveCalls :
    ∃ s : OrderBook, s.queue true 10 = [0, 1] ∧ s.leaves 0 = 3 ∧ s.Representation := by
  obtain ⟨s, hrun, hqueue, hleaves⟩ := exists_run step Careful newOrderBook
    [.add (some { price := 10, quantity := 5 }), .add (some { price := 10, quantity := 2 }),
      .add (some { price := 7, quantity := 1 }),
      .add (some { side := sideSell, price := 9, quantity := 2 }),
      .cancel 3]
    (fun s => s.queue true 10 = [0, 1] ∧ s.leaves 0 = 3) (by decide +kernel)
  exact ⟨s, hqueue, hleaves, representation_of_careful hrun⟩

def CancelsResting (s : OrderBook) : Action → Prop
  | .add _ => True
  | .cancel id => ∃ r ∈ s.orders id, r ∈ s.queue (s.order r).isBuy (s.order r).price

instance (s : OrderBook) (act : Action) : Decidable (s.CancelsResting act) := by
  delta CancelsResting
  cases act <;> infer_instance

/-- Of two bids one is at price 0: after the other has been cancelled there is no best bid. -/
theorem not_representation_bidAtZero : ¬∀ (acts : List Action) (s : OrderBook),
      Run step CancelsResting newOrderBook acts s → s.Representation := by
  intro h
  obtain ⟨s, hrun, hprices, hbest⟩ := exists_run step CancelsResting newOrderBook
    [.add (some { price := 5, quantity := 1 }), .add (some { price := 0, quantity := 1 }),
      .cancel 1]
    (fun s => (s.half true).prices = [0] ∧ (s.half true).best = none)
    (by decide +kernel)
  have hrep := (h _ s hrun).best true
  rw [hbest] at hrep
  cases hprices.symm.trans hrep

end OrderBook

end Fluxor.Matching
