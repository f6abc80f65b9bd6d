import Fluxor.Matching.Shape
import Mathlib.Data.List.Perm.Lattice

/-!
# The edits of the book

What each edit that changes pointers does to the book's shape and to the
queues of all levels: storing a new order, taking an order out of a level,
deleting an empty level, and adding a new order to its level.
-/

namespace Fluxor.Matching

open Support Function OrderBook Half

namespace OrderBook

variable {s t : OrderBook} {b b' : Bool} {p p' : ℤ} {x y r a : ℕ} {o : Order}

/-! ## Storing a new order -/

theorem Shape.links_storeOrder (hs : s.Shape) (o : Order) : (s.storeOrder o).links = s.links := by
  have hclear := hs.linked.eq_clear (le_refl s.allocated)
  change update s.links s.allocated Links.clear = s.links
  rw [← hclear, update_eq_self]

theorem order_storeOrder_of_ne (o : Order) (hx : x ≠ s.allocated) :
    (s.storeOrder o).order x = s.order x :=
  update_of_ne hx _ _

@[simp] theorem order_storeOrder_self (o : Order) : (s.storeOrder o).order s.allocated = { o with
        id := (s.sequence + 1) % 2 ^ 64
        status := .statusNew
        leavesQty := o.quantity
        filledQty := 0 } :=
  update_self _ _ _

theorem Shape.storeOrder (hs : s.Shape) (o : Order) : (s.storeOrder o).Shape where
  linked := by
    rw [hs.links_storeOrder]
    exact hs.linked.mono (Nat.le_succ s.allocated)
  sameLevel {x y} hxy := by
    rw [hs.links_storeOrder] at hxy
    have hy := hs.linked.bounded hxy
    have hx := (hs.linked.increasing hxy).trans hy
    grind [order_storeOrder_of_ne, sameLevel]
  head_lt hr := (hs.head_lt hr).trans (Nat.lt_succ_self s.allocated)
  head_prev hr := by
    rw [hs.links_storeOrder]
    exact hs.head_prev hr
  head_terms hr := by
    rw [order_storeOrder_of_ne o (hs.head_lt hr).ne]
    exact hs.head_terms hr
  level_label := hs.level_label
  prices_nodup := hs.prices_nodup
  best_mem := hs.best_mem
  known {id r} hr := by
    change update s.orders _ (some s.allocated) id = some r at hr
    rw [update_apply] at hr
    split at hr
    · obtain rfl : s.allocated = r := Option.some.inj hr
      exact Nat.lt_succ_self s.allocated
    · exact (hs.known hr).trans (Nat.lt_succ_self s.allocated)

theorem Shape.queue_storeOrder (hs : s.Shape) (o : Order) (b : Bool) (p : ℤ) :
    (s.storeOrder o).queue b p = s.queue b p := by
  by_cases hp : p ∈ (s.half b).prices
  · refine (hs.storeOrder o).queue_eq hp ?_
    rw [hs.links_storeOrder]
    exact hs.follows_queue hp
  grind [queue_of_not_mem, OrderBook.storeOrder]

theorem Shape.listed_storeOrder (hs : s.Shape) (o : Order) :
    (s.storeOrder o).Listed x ↔ s.Listed x := by
  unfold Listed
  rw [hs.links_storeOrder]
  rfl

theorem Shape.not_listed_allocated (hs : s.Shape) : ¬s.Listed s.allocated :=
  fun hlisted => (hs.lt_of_listed hlisted).false

theorem Live.storeOrder (hl : s.Live) (hs : s.Shape) (o : Order) : (s.storeOrder o).Live := by
  intro x hx
  rw [hs.listed_storeOrder] at hx
  rw [order_storeOrder_of_ne o (hs.lt_of_listed hx).ne]
  exact hl x hx

/-! ## Taking an order out of a level -/

@[simp] theorem links_removeOrder : (s.removeOrder b p r).links = unlink s.links r := rfl

@[simp] theorem prices_removeOrder : ((s.removeOrder b p r).half b').prices = (s.half b').prices :=
  prices_setLevel s b b' p _

@[simp] theorem best_removeOrder : ((s.removeOrder b p r).half b').best = (s.half b').best :=
  best_setLevel s b b' p _

theorem level_removeOrder_self : (s.removeOrder b p r).level b p =
      ((s.level b p).removeOrder s.links r (s.order r).leavesQty).1 :=
  level_setLevel_self s b p _

theorem level_removeOrder_of_ne (hne : (b', p') ≠ (b, p)) :
    (s.removeOrder b p r).level b' p' = s.level b' p' :=
  level_setLevel_of_ne s b b' p p' _ hne

theorem label_removeOrder : ((s.removeOrder b p r).level b' p').label = (s.level b' p').label := by
  by_cases hne : (b', p') = (b, p)
  · cases hne
    rw [level_removeOrder_self]
    rfl
  · rw [level_removeOrder_of_ne hne]

theorem head_removeOrder_self :
    ((s.removeOrder b p r).level b p).orders = if (s.links r).prev.isSome then (s.level b p).orders
      else (s.links r).next := by
  rw [level_removeOrder_self]
  rfl

theorem heads_removeOrder (hx : (s.removeOrder b p r).Heads b' p' x) :
    s.Heads b' p' x ∨ (b', p') = (b, p) ∧ (s.links r).prev = none ∧ (s.links r).next = some x := by
  obtain ⟨hp, hhead⟩ := hx
  rw [prices_removeOrder] at hp
  by_cases hne : (b', p') = (b, p)
  · cases hne
    rw [head_removeOrder_self] at hhead
    split at hhead
    · exact Or.inl ⟨hp, hhead⟩
    next hprev => exact Or.inr ⟨rfl, by simpa using hprev, hhead⟩
  · rw [level_removeOrder_of_ne hne] at hhead
    exact Or.inl ⟨hp, hhead⟩

section

variable (hs : s.Shape)

include hs

theorem Shape.removeOrder (r : ℕ) :
    (s.removeOrder (s.order r).isBuy (s.order r).price r).Shape where
  linked := hs.linked.unlink r
  sameLevel {x y} hxy := by
    rw [links_removeOrder, hs.linked.next_unlink] at hxy
    split at hxy
    · cases hxy
    · split at hxy
      next hxr =>
        obtain ⟨hside, hprice⟩ := hs.sameLevel hxr
        obtain ⟨hside', hprice'⟩ := hs.sameLevel hxy
        exact ⟨hside'.trans hside, hprice'.trans hprice⟩
      · exact hs.sameLevel hxy
  head_lt hx := by
    rcases heads_removeOrder hx with hx | ⟨-, -, hnext⟩
    · exact hs.head_lt hx
    · exact hs.linked.bounded hnext
  head_prev {b p x} hx := by
    rw [links_removeOrder]
    rcases heads_removeOrder hx with hx | ⟨-, hprev, hnext⟩
    · exact hs.linked.prev_unlink_eq_none (hs.head_prev hx)
    grind [linked, WellLinked.prev_unlink, WellLinked.next_iff]
  head_terms hx := by
    rcases heads_removeOrder hx with hx | ⟨hbp, -, hnext⟩
    · exact hs.head_terms hx
    · cases hbp
      exact hs.sameLevel hnext
  level_label hp := by
    rw [prices_removeOrder] at hp
    rw [label_removeOrder]
    exact hs.level_label hp
  prices_nodup b := by
    rw [prices_removeOrder]
    exact hs.prices_nodup b
  best_mem hp := by
    grind [best_removeOrder, prices_removeOrder, best_mem]
  known := hs.known

theorem listed_removeOrder (hx : (s.removeOrder b p r).Listed x) : s.Listed x := by
  by_contra hno
  unfold Listed at hno
  rw [not_or, not_not] at hno
  obtain ⟨hclear, hhead⟩ := hno
  have hnext : (s.links x).next = none := by rw [hclear]; rfl
  have hprev : (s.links x).prev = none := by rw [hclear]; rfl
  rcases hx with hlinks | ⟨b', p', hx⟩
  · refine hlinks ?_
    have hn := hs.linked.next_unlink (a := r) x
    have hp := hs.linked.prev_unlink (a := r) x
    rw [hnext] at hn
    rw [hprev] at hp
    cases hux : unlink s.links r x with
    | mk =>
      rw [hux] at hn hp
      rw [links_removeOrder, hux, Links.clear]
      grind
  · rcases heads_removeOrder hx with hx | ⟨-, -, hsucc⟩
    · exact hhead ⟨b', p', hx⟩
    · rw [(hs.linked.next_iff r x).mp hsucc] at hprev
      cases hprev

theorem not_listed_removeOrder_self :
    ¬(s.removeOrder (s.order r).isBuy (s.order r).price r).Listed r := by
  rintro (hlinks | ⟨b, p, hx⟩)
  · refine hlinks ?_
    simp [unlink]
  · have hx' := hx
    rcases heads_removeOrder hx with hx | ⟨-, -, hnext⟩
    · -- `r` was a head, so it had no predecessor and the level lost it.
      have hprev := hs.head_prev hx
      obtain ⟨hside, hprice⟩ := hs.head_terms hx
      subst hside hprice
      have hhead := hx'.2
      grind [head_removeOrder_self, WellLinked.next_ne, Shape.linked]
    · exact hs.linked.next_ne hnext

/-- Removing an order with a predecessor, or the first of its level, erases it from
its queue and leaves all other queues. -/
theorem Shape.queue_removeOrder (hr : (s.links r).prev = none →
      (s.level (s.order r).isBuy (s.order r).price).orders = some r) (b : Bool) (p : ℤ) :
    (s.removeOrder (s.order r).isBuy (s.order r).price r).queue b p = (s.queue b p).erase r := by
  by_cases hp : p ∈ (s.half b).prices
  · have hf := (hs.follows_queue hp).unlink hs.linked r
    refine (hs.removeOrder r).queue_eq (by simpa using hp) ?_
    rw [links_removeOrder]
    convert hf using 1
    by_cases hne : (b, p) = ((s.order r).isBuy, (s.order r).price)
    · cases hne
      rw [head_removeOrder_self, bypass]
      cases hprev : (s.links r).prev with
      | none => simp [hr hprev]
      | some =>
        have hhead : (s.level (s.order r).isBuy (s.order r).price).orders ≠ some r := by
          intro hhead
          rw [hs.head_prev ⟨hp, hhead⟩] at hprev
          cases hprev
        simp [hhead]
    · have hhead : (s.level b p).orders ≠ some r := by
        intro hhead
        obtain ⟨hside, hprice⟩ := hs.head_terms ⟨hp, hhead⟩
        exact hne (by rw [hside, hprice])
      rw [level_removeOrder_of_ne hne, bypass, if_neg hhead]
  · rw [queue_of_not_mem hp, queue_of_not_mem (by simpa using hp)]
    rfl

/-! ## Deleting an empty level -/

def dropLevel (s : OrderBook) (b : Bool) (p : ℤ) : OrderBook :=
  s.setHalf b (((s.half b).deleteLevel p).updateBest b)

omit hs in
theorem prices_dropLevel : ((s.dropLevel b p).half b').prices =
      if b' = b then (s.half b').prices.erase p else (s.half b').prices := by
  by_cases hb : b' = b
  · subst hb
    simp [dropLevel, deleteLevel]
  · simp [dropLevel, hb]

omit hs in
theorem level_dropLevel_of_ne (hne : (b', p') ≠ (b, p)) :
    (s.dropLevel b p).level b' p' = s.level b' p' := by
  by_cases hb : b' = b
  · subst hb
    have hp : p' ≠ p := fun e => hne (e ▸ rfl)
    simp [level, dropLevel, Half.deleteLevel, Half.setLevel, hp]
  · simp [level, dropLevel, hb]

theorem mem_prices_dropLevel :
    p' ∈ ((s.dropLevel b p).half b').prices ↔ (b', p') ≠ (b, p) ∧ p' ∈ (s.half b').prices := by
  grind [prices_dropLevel, Shape.prices_nodup]

theorem heads_dropLevel :
    (s.dropLevel b p).Heads b' p' x ↔ (b', p') ≠ (b, p) ∧ s.Heads b' p' x := by
  grind [Heads, mem_prices_dropLevel, level_dropLevel_of_ne]

omit hs in
theorem best_dropLevel_of_ne (hb : b' ≠ b) :
    ((s.dropLevel b p).half b').best = (s.half b').best := by
  simp [dropLevel, hb]

theorem Shape.dropLevel (b : Bool) (p : ℤ) : (s.dropLevel b p).Shape where
  linked := hs.linked
  sameLevel := hs.sameLevel
  head_lt hx := hs.head_lt ((heads_dropLevel hs).mp hx).2
  head_prev hx := hs.head_prev ((heads_dropLevel hs).mp hx).2
  head_terms hx := hs.head_terms ((heads_dropLevel hs).mp hx).2
  level_label hp := by
    obtain ⟨hne, hp⟩ := (mem_prices_dropLevel hs).mp hp
    rw [level_dropLevel_of_ne hne]
    exact hs.level_label hp
  prices_nodup b' := by
    grind [prices_dropLevel, prices_nodup]
  best_mem {b' q} hq := by
    by_cases hb : b' = b
    · grind [dropLevel, half_setHalf_self, prices_updateBest, updateBest_mem]
    grind [best_dropLevel_of_ne, prices_dropLevel, best_mem]
  known := hs.known

theorem listed_dropLevel (hx : (s.dropLevel b p).Listed x) : s.Listed x := by
  rcases hx with hlinks | ⟨b', p', hx⟩
  · exact Or.inl hlinks
  · exact Or.inr ⟨b', p', ((heads_dropLevel hs).mp hx).2⟩

theorem Shape.queue_dropLevel (hempty : s.queue b p = []) (b' : Bool) (p' : ℤ) :
    (s.dropLevel b p).queue b' p' = s.queue b' p' := by
  by_cases hne : (b', p') = (b, p)
  · grind [queue_of_not_mem, mem_prices_dropLevel]
  · unfold queue
    rw [level_dropLevel_of_ne hne]
    simp only [mem_prices_dropLevel hs, ne_eq, hne, not_false_eq_true, true_and]
    rfl

end

/-! ## Adding a new order to its level -/

variable {h : Half}

theorem mem_prices_loadOrStore : p' ∈ (h.loadOrStore p).prices ↔ p' = p ∨ p' ∈ h.prices := by
  grind [loadOrStore]

theorem nodup_loadOrStore (hnodup : h.prices.Nodup) : (h.loadOrStore p).prices.Nodup := by
  grind [loadOrStore]

theorem level_loadOrStore_of_mem (hp : p ∈ h.prices) : (h.loadOrStore p).level = h.level := by
  rw [loadOrStore, if_pos hp]

theorem level_loadOrStore_of_not_mem (hp : p ∉ h.prices) :
    (h.loadOrStore p).level = update h.level p (PriceLevel.getPriceLevel p) := by
  rw [loadOrStore, if_neg hp]
  rfl

theorem best_loadOrStore : (h.loadOrStore p).best = h.best := by
  unfold loadOrStore
  split <;> rfl

/-- The book once the level at the given side and price exists. -/
def withLevel (s : OrderBook) (b : Bool) (p : ℤ) : OrderBook :=
  s.setHalf b ((s.half b).loadOrStore p)

theorem mem_prices_withLevel :
    p' ∈ ((s.withLevel b p).half b').prices ↔ (b', p') = (b, p) ∨ p' ∈ (s.half b').prices := by
  by_cases hb : b' = b
  · subst hb
    simp [withLevel, mem_prices_loadOrStore]
  · simp [withLevel, hb]

theorem level_withLevel (hp : p' ∈ (s.half b').prices) :
    (s.withLevel b p).level b' p' = s.level b' p' := by
  by_cases hb : b' = b
  · subst hb
    by_cases hmem : p ∈ (s.half b').prices
    · simp [level, withLevel, level_loadOrStore_of_mem hmem]
    · have hne : p' ≠ p := fun e => hmem (e ▸ hp)
      simp [level, withLevel, level_loadOrStore_of_not_mem hmem, hne]
  · simp [level, withLevel, hb]

theorem level_withLevel_new (hp : p ∉ (s.half b).prices) :
    (s.withLevel b p).level b p = PriceLevel.getPriceLevel p := by
  simp [level, withLevel, level_loadOrStore_of_not_mem hp]

theorem heads_withLevel : (s.withLevel b p).Heads b' p' x ↔ s.Heads b' p' x := by
  unfold Heads
  by_cases hp : p' ∈ (s.half b').prices
  · rw [level_withLevel hp, mem_prices_withLevel]
    simp [hp]
  · rw [mem_prices_withLevel]
    simp only [hp, or_false, false_and, iff_false, not_and]
    intro hbp
    cases hbp
    rw [level_withLevel_new hp]
    exact Option.some_ne_none x ∘ Eq.symm

theorem best_withLevel : ((s.withLevel b p).half b').best = (s.half b').best := by
  by_cases hb : b' = b
  · subst hb
    simp [withLevel, best_loadOrStore]
  · simp [withLevel, hb]

theorem Shape.withLevel (hs : s.Shape) (b : Bool) (p : ℤ) : (s.withLevel b p).Shape where
  linked := hs.linked
  sameLevel := hs.sameLevel
  head_lt hx := hs.head_lt (heads_withLevel.mp hx)
  head_prev hx := hs.head_prev (heads_withLevel.mp hx)
  head_terms hx := hs.head_terms (heads_withLevel.mp hx)
  level_label {b' p'} hp := by
    by_cases hmem : p' ∈ (s.half b').prices
    · rw [level_withLevel hmem]
      exact hs.level_label hmem
    · obtain hbp := (mem_prices_withLevel.mp hp).resolve_right hmem
      cases hbp
      rw [level_withLevel_new hmem]
      rfl
  prices_nodup b' := by
    by_cases hb : b' = b
    · subst hb
      simpa [OrderBook.withLevel] using nodup_loadOrStore (hs.prices_nodup b')
    · simpa [OrderBook.withLevel, hb] using hs.prices_nodup b'
  best_mem hq := by
    grind [best_withLevel, mem_prices_withLevel, best_mem]
  known := hs.known

theorem listed_withLevel : (s.withLevel b p).Listed x ↔ s.Listed x := by
  unfold Listed
  simp only [heads_withLevel]
  rfl

theorem Shape.queue_withLevel (hs : s.Shape) (b : Bool) (p : ℤ) (b' : Bool) (p' : ℤ) :
    (s.withLevel b p).queue b' p' = s.queue b' p' := by
  by_cases hp : p' ∈ (s.half b').prices
  · have hp' : p' ∈ ((s.withLevel b p).half b').prices := mem_prices_withLevel.mpr (Or.inr hp)
    refine (hs.withLevel b p).queue_eq hp' ?_
    rw [level_withLevel hp]
    exact hs.follows_queue hp
  · rw [queue_of_not_mem hp]
    by_cases hbp : (b', p') = (b, p)
    · cases hbp
      have hp' : p ∈ ((s.withLevel b p).half b).prices := mem_prices_withLevel.mpr (Or.inl rfl)
      refine (hs.withLevel b p).queue_eq hp' ?_
      rw [level_withLevel_new hp]
      rfl
    grind [queue_of_not_mem, mem_prices_withLevel]

/-- The book with a new level object and new links. -/
def attach (s : OrderBook) (b : Bool) (p : ℤ) (pl : PriceLevel) (links : ℕ → Links) : OrderBook :=
  { s.setHalf b (((s.half b).setLevel p pl).updateBestPrices b p) with
    links := links }

section Attach

variable {pl : PriceLevel} {links : ℕ → Links}

@[simp] theorem prices_attach : ((s.attach b p pl links).half b').prices = (s.half b').prices := by
  by_cases hb : b' = b
  · subst hb
    simp [attach, Half.setLevel]
  · simp [attach, hb]

@[simp] theorem level_attach_self : (s.attach b p pl links).level b p = pl := by
  simp [attach, level, Half.setLevel]

theorem level_attach_of_ne (hne : (b', p') ≠ (b, p)) :
    (s.attach b p pl links).level b' p' = s.level b' p' := by
  by_cases hb : b' = b
  · subst hb
    have hp : p' ≠ p := fun e => hne (e ▸ rfl)
    simp [attach, level, Half.setLevel, hp]
  · simp [attach, level, hb]

theorem best_attach_of_ne (hb : b' ≠ b) :
    ((s.attach b p pl links).half b').best = (s.half b').best := by
  simp [attach, hb]

theorem best_attach_mem (hs : s.Shape) (hp : p ∈ (s.half b).prices)
    (hq : ((s.attach b p pl links).half b').best = some p') : p' ∈ (s.half b').prices := by
  by_cases hb : b' = b
  · subst hb
    simp only [attach, half_setHalf_self] at hq
    exact updateBestPrices_mem (h := (s.half b').setLevel p pl)
      (fun q hq => hs.best_mem hq) hp p' hq
  grind [best_attach_of_ne, Shape.best_mem]

theorem heads_attach (hx : (s.attach b p pl links).Heads b' p' x) :
    (b', p') = (b, p) ∧ pl.orders = some x ∨ (b', p') ≠ (b, p) ∧ s.Heads b' p' x := by
  obtain ⟨hp', hx⟩ := hx
  by_cases hne : (b', p') = (b, p)
  · grind [level_attach_self]
  · rw [level_attach_of_ne hne] at hx
    exact Or.inr ⟨hne, by simpa using hp', hx⟩

theorem Shape.attach (hs : s.Shape) (hp : p ∈ (s.half b).prices)
    (hlabel : pl.label = (p, none, none)) (hlinked : WellLinked links s.allocated)
    (hsame : ∀ {x y}, (links x).next = some y → (s.order y).isBuy = (s.order x).isBuy ∧
        (s.order y).price = (s.order x).price)
    (hheads : ∀ {b' p' x}, (s.attach b p pl links).Heads b' p' x →
      x < s.allocated ∧ (links x).prev = none ∧ (s.order x).isBuy = b' ∧ (s.order x).price = p') :
    (s.attach b p pl links).Shape where
  linked := hlinked
  sameLevel := hsame
  head_lt hx := (hheads hx).1
  head_prev hx := (hheads hx).2.1
  head_terms hx := (hheads hx).2.2
  level_label {b' p'} hp' := by
    by_cases hne : (b', p') = (b, p)
    · cases hne
      rw [level_attach_self, hlabel]
    · rw [level_attach_of_ne hne]
      exact hs.level_label (by simpa using hp')
  prices_nodup b' := by
    rw [prices_attach]
    exact hs.prices_nodup b'
  best_mem hq := by
    rw [prices_attach]
    exact best_attach_mem hs hp hq
  known := hs.known

theorem links_of_not_listed (hfree : ¬s.Listed a) : s.links a = Links.clear := by
  by_contra hlinks
  exact hfree (Or.inl hlinks)

theorem Shape.attach_head (hs : s.Shape) (hp : p ∈ (s.half b).prices) (ha : a < s.allocated)
    (hfree : ¬s.Listed a) (hterms : (s.order a).isBuy = b ∧ (s.order a).price = p)
    (hhead : pl.orders = some a) (hlabel : pl.label = (p, none, none)) :
    (s.attach b p pl s.links).Shape := by
  refine hs.attach hp hlabel hs.linked hs.sameLevel ?_
  intro b' p' x hx
  rcases heads_attach hx with ⟨hbp, hxa⟩ | ⟨-, hx⟩
  · cases hbp
    obtain rfl : a = x := Option.some.inj (hhead.symm.trans hxa)
    refine ⟨ha, ?_, hterms⟩
    rw [links_of_not_listed hfree]
    rfl
  · exact ⟨hs.head_lt hx, hs.head_prev hx, hs.head_terms hx⟩

variable {tail : ℕ}

theorem Shape.attach_tail (hs : s.Shape) (hp : p ∈ (s.half b).prices) (ha : a < s.allocated)
    (hfree : ¬s.Listed a) (hterms : (s.order a).isBuy = b ∧ (s.order a).price = p)
    (htail : (s.queue b p).getLast? = some tail) (hlt : tail < a)
    (hhead : pl.orders = (s.level b p).orders) (hlabel : pl.label = (p, none, none)) :
    (s.attach b p pl (linkAfter s.links tail a)).Shape := by
  have hend := (hs.follows_queue hp).next_getLast htail
  have hmem : tail ∈ s.queue b p := List.mem_of_getLast? htail
  refine hs.attach hp hlabel (hs.linked.linkAfter hlt ha hend (links_of_not_listed hfree)) ?_ ?_
  · grind [next_linkAfter, terms_of_mem, sameLevel]
  · intro b' p' x hx
    have hold : s.Heads b' p' x := by
      rcases heads_attach hx with ⟨hbp, hxa⟩ | ⟨-, hx⟩
      · cases hbp
        exact ⟨hp, hhead.symm.trans hxa⟩
      · exact hx
    have hxa : x ≠ a := by
      rintro rfl
      exact hfree (Or.inr ⟨b', p', hold⟩)
    refine ⟨hs.head_lt hold, ?_, hs.head_terms hold⟩
    grind [prev_linkAfter, head_prev]

theorem queue_attach_head (hshape : (s.attach b p pl s.links).Shape) (hp : p ∈ (s.half b).prices)
    (hfree : ¬s.Listed a) (hhead : pl.orders = some a) :
    (s.attach b p pl s.links).queue b p = [a] := by
  refine hshape.queue_eq (by simpa using hp) ?_
  rw [level_attach_self, hhead]
  refine ⟨rfl, ?_⟩
  change (s.links a).next = none
  rw [links_of_not_listed hfree]
  rfl

theorem queue_attach_head_of_ne (hne : (b', p') ≠ (b, p)) :
    (s.attach b p pl s.links).queue b' p' = s.queue b' p' := by
  unfold queue
  rw [prices_attach, level_attach_of_ne hne]
  rfl

theorem queue_attach_tail (hs : s.Shape)
    (hshape : (s.attach b p pl (linkAfter s.links tail a)).Shape) (hp : p ∈ (s.half b).prices)
    (hfree : ¬s.Listed a) (htail : (s.queue b p).getLast? = some tail)
    (hhead : pl.orders = (s.level b p).orders) :
    (s.attach b p pl (linkAfter s.links tail a)).queue b p = s.queue b p ++ [a] := by
  refine hshape.queue_eq (by simpa using hp) ?_
  rw [level_attach_self, hhead]
  exact (hs.follows_queue hp).linkAfter_self htail
    (hs.not_mem_of_not_listed hfree b p) (hs.queue_nodup b p)

theorem queue_attach_tail_of_ne (hs : s.Shape)
    (hshape : (s.attach b p pl (linkAfter s.links tail a)).Shape) (hfree : ¬s.Listed a)
    (htail : tail ∈ s.queue b p) (hne : (b', p') ≠ (b, p)) :
    (s.attach b p pl (linkAfter s.links tail a)).queue b' p' = s.queue b' p' := by
  by_cases hp' : p' ∈ (s.half b').prices
  · refine hshape.queue_eq (by simpa using hp') ?_
    rw [level_attach_of_ne hne]
    refine (hs.follows_queue hp').linkAfter_other ?_ (hs.not_mem_of_not_listed hfree b' p')
    -- The last order of one level is in no other.
    intro hmem
    obtain ⟨hside, hprice⟩ := hs.terms_of_mem htail
    grind [Shape.terms_of_mem]
  · rw [queue_of_not_mem hp', queue_of_not_mem (by simpa using hp')]

end Attach

end OrderBook

end Fluxor.Matching
