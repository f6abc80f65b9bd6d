import Fluxor.Matching.OrderBook

/-!
# The shape of a reachable book

The pointers of a book are in order in every state, whichever orders are cancelled:
lists are well linked, neighbours belong to the same side and price, every level of
the maps is headed by an order of its side and price without predecessor, and the
cached best prices are in the maps (`Shape`). Orders may be linked without being in
the queue of any level, so the shape speaks about all orders of the heap.

The orders that are linked or head a level are open (`Live`), and between calls no
level of the maps is empty (`NoEmptyLevel`).
-/

namespace Fluxor.Matching

open Support List

namespace OrderBook

/-! ## Reading updated books -/

section Updates

variable (s : OrderBook) (b b' : Bool) (p p' : ℤ) (h : Half) (pl : PriceLevel)

@[simp] theorem half_setHalf_self : (s.setHalf b h).half b = h := by
  simp [setHalf]

@[simp] theorem half_setHalf_of_ne (hb : b' ≠ b) : (s.setHalf b h).half b' = s.half b' := by
  simp [setHalf, hb]

@[simp] theorem level_setLevel_self : (s.setLevel b p pl).level b p = pl := by
  simp [level, setLevel, Half.setLevel]

theorem level_setLevel_of_ne (hne : (b', p') ≠ (b, p)) :
    (s.setLevel b p pl).level b' p' = s.level b' p' := by
  by_cases hb : b' = b
  · subst hb
    have hp : p' ≠ p := fun e => hne (e ▸ rfl)
    simp [level, setLevel, Half.setLevel, hp]
  · simp [level, setLevel, hb]

@[simp] theorem prices_setLevel : ((s.setLevel b p pl).half b').prices = (s.half b').prices := by
  by_cases hb : b' = b
  · subst hb
    simp [setLevel, Half.setLevel]
  · simp [setLevel, hb]

@[simp] theorem best_setLevel : ((s.setLevel b p pl).half b').best = (s.half b').best := by
  by_cases hb : b' = b
  · subst hb
    simp [setLevel, Half.setLevel]
  · simp [setLevel, hb]

end Updates

/-! ## The invariant -/

/-- The order `r` is the first of the level at the given side and price. -/
def Heads (s : OrderBook) (b : Bool) (p : ℤ) (r : ℕ) : Prop :=
  p ∈ (s.half b).prices ∧ (s.level b p).orders = some r

def Listed (s : OrderBook) (x : ℕ) : Prop := s.links x ≠ Links.clear ∨ ∃ b p, s.Heads b p x

structure Shape (s : OrderBook) : Prop where
  linked : WellLinked s.links s.allocated
  sameLevel : ∀ {x y}, (s.links x).next = some y → (s.order y).isBuy = (s.order x).isBuy ∧
      (s.order y).price = (s.order x).price
  head_lt : ∀ {b p r}, s.Heads b p r → r < s.allocated
  head_prev : ∀ {b p r}, s.Heads b p r → (s.links r).prev = none
  head_terms : ∀ {b p r}, s.Heads b p r → (s.order r).isBuy = b ∧ (s.order r).price = p
  level_label : ∀ {b p}, p ∈ (s.half b).prices → (s.level b p).label = (p, none, none)
  prices_nodup : ∀ b, (s.half b).prices.Nodup
  best_mem : ∀ {b p}, (s.half b).best = some p → p ∈ (s.half b).prices
  known : ∀ {id r}, s.orders id = some r → r < s.allocated

def Live (s : OrderBook) : Prop := ∀ x, s.Listed x → (s.order x).Open

def NoEmptyLevel (s : OrderBook) : Prop := ∀ b, ∀ p ∈ (s.half b).prices, (s.level b p).orders ≠ none

variable {s t : OrderBook} {b b' : Bool} {p p' : ℤ} {x y r a : ℕ}

/-! ## Queues -/

theorem Shape.level_price (hs : s.Shape) (hp : p ∈ (s.half b).prices) : (s.level b p).price = p :=
  congrArg Prod.fst (hs.level_label hp)

theorem queue_of_mem (hp : p ∈ (s.half b).prices) :
    s.queue b p = toList s.links s.allocated (s.level b p).orders :=
  if_pos hp

theorem queue_of_not_mem (hp : p ∉ (s.half b).prices) : s.queue b p = [] := if_neg hp

theorem mem_prices_of_mem_queue (hx : x ∈ s.queue b p) : p ∈ (s.half b).prices := by
  by_contra hp
  rw [queue_of_not_mem hp] at hx
  cases hx

theorem Shape.head_bound (hs : s.Shape) (hp : p ∈ (s.half b).prices) :
    ∀ r ∈ (s.level b p).orders, r < s.allocated :=
  fun _ hr => hs.head_lt ⟨hp, hr⟩

theorem Shape.follows_queue (hs : s.Shape) (hp : p ∈ (s.half b).prices) :
    Follows s.links (s.level b p).orders (s.queue b p) := by
  rw [queue_of_mem hp]
  exact hs.linked.follows_toList (hs.head_bound hp)

variable {xs : List ℕ}

section

variable (hs : s.Shape)

include hs

theorem Shape.queue_eq (hp : p ∈ (s.half b).prices)
    (hf : Follows s.links (s.level b p).orders xs) : s.queue b p = xs :=
  (hs.follows_queue hp).unique hf

theorem Shape.queue_pairwise (b : Bool) (p : ℤ) : (s.queue b p).Pairwise (· < ·) := by
  by_cases hp : p ∈ (s.half b).prices
  · exact (hs.follows_queue hp).pairwise_lt hs.linked
  · rw [queue_of_not_mem hp]
    exact List.Pairwise.nil

theorem Shape.queue_nodup (b : Bool) (p : ℤ) : (s.queue b p).Nodup :=
  (hs.queue_pairwise b p).imp fun hlt => hlt.ne

theorem Shape.queue_eq_nil_iff (hp : p ∈ (s.half b).prices) :
    s.queue b p = [] ↔ (s.level b p).orders = none :=
  (hs.follows_queue hp).eq_nil_iff

theorem Shape.head_of_queue (hq : s.queue b p = r :: xs) : s.Heads b p r := by
  have hp : p ∈ (s.half b).prices := mem_prices_of_mem_queue (hq ▸ mem_cons_self)
  have hf := hs.follows_queue hp
  rw [hq] at hf
  exact ⟨hp, hf.1⟩

theorem Shape.terms_of_follows {o : Option ℕ} (hf : Follows s.links o xs)
    (ho : ∀ r ∈ o, (s.order r).isBuy = b ∧ (s.order r).price = p) :
    ∀ x ∈ xs, (s.order x).isBuy = b ∧ (s.order x).price = p := by
  induction xs generalizing o with
  | nil => simp
  | cons z zs ih =>
    have hz := ho z hf.1
    intro x hx
    rcases mem_cons.mp hx with rfl | hx
    · exact hz
    · refine ih hf.2 ?_ x hx
      intro w hw
      obtain ⟨hside, hprice⟩ := hs.sameLevel hw
      exact ⟨hside.trans hz.1, hprice.trans hz.2⟩

section

variable (hx : x ∈ s.queue b p)

include hx

theorem Shape.terms_of_mem : (s.order x).isBuy = b ∧ (s.order x).price = p := by
  have hp := mem_prices_of_mem_queue hx
  exact hs.terms_of_follows (hs.follows_queue hp) (fun r hr => hs.head_terms ⟨hp, hr⟩) x hx

theorem Shape.lt_of_mem : x < s.allocated := by
  have hp := mem_prices_of_mem_queue hx
  exact (hs.follows_queue hp).lt_size hs.linked (hs.head_bound hp) x hx

omit hx in
theorem Shape.not_mem_of_ne (hne : (b, p) ≠ ((s.order x).isBuy, (s.order x).price)) :
    x ∉ s.queue b p := by
  intro hx
  obtain ⟨hside, hprice⟩ := hs.terms_of_mem hx
  exact hne (by rw [hside, hprice])

theorem Shape.heads_of_mem (hprev : (s.links x).prev = none) : s.Heads b p x := by
  have hp := mem_prices_of_mem_queue hx
  have hlinked := (hs.follows_queue hp).doublyLinked hs.linked (fun r hr => hs.head_prev ⟨hp, hr⟩)
  have htail : ∀ {zs : List ℕ} {z : ℕ} {o : Option ℕ},
      DoublyLinked s.links (some z) o zs → x ∉ zs := by
    intro zs
    induction zs with
    | nil => simp
    | cons w ws ih =>
      intro z o hd hx
      rcases mem_cons.mp hx with rfl | hx
      · rw [hd.2.1] at hprev
        cases hprev
      · exact ih hd.2.2 hx
  cases hq : s.queue b p with
  | nil =>
    rw [hq] at hx
    cases hx
  | cons =>
    rw [hq] at hx hlinked
    rcases mem_cons.mp hx with rfl | hx
    · exact hs.head_of_queue hq
    · exact absurd hx (htail hlinked.2.2)

theorem Shape.listed_of_mem : s.Listed x := by
  by_cases hlinks : s.links x = Links.clear
  · exact Or.inr ⟨b, p, hs.heads_of_mem hx (by rw [hlinks]; rfl)⟩
  · exact Or.inl hlinks

end

theorem Shape.lt_of_listed (hx : s.Listed x) : x < s.allocated := by
  rcases hx with hlinks | ⟨b, p, hhead⟩
  · cases hn : (s.links x).next with
    | some => exact (hs.linked.increasing hn).trans (hs.linked.bounded hn)
    | none =>
      cases hp : (s.links x).prev with
      | some y => exact hs.linked.bounded ((hs.linked.next_iff y x).mpr hp)
      | none =>
        refine absurd ?_ hlinks
        cases hx : s.links x with
        | mk =>
          rw [hx] at hn hp
          subst hn hp
          rfl
  · exact hs.head_lt hhead

theorem Shape.not_mem_of_not_listed (hx : ¬s.Listed x) (b : Bool) (p : ℤ) : x ∉ s.queue b p :=
  fun hmem => hx (hs.listed_of_mem hmem)

end

/-! ## Edits that leave the pointers alone -/

structure SameOutline (s t : OrderBook) : Prop where
  links : t.links = s.links
  allocated : t.allocated = s.allocated
  prices : ∀ b, (t.half b).prices = (s.half b).prices
  best : ∀ b, (t.half b).best = (s.half b).best
  head : ∀ b p, (t.level b p).orders = (s.level b p).orders
  label : ∀ b p, (t.level b p).label = (s.level b p).label
  terms : ∀ x, (t.order x).isBuy = (s.order x).isBuy ∧ (t.order x).price = (s.order x).price

section

variable (h : SameOutline s t)

include h

theorem SameOutline.queue (b : Bool) (p : ℤ) : t.queue b p = s.queue b p := by
  rw [OrderBook.queue, OrderBook.queue, h.prices, h.links, h.allocated, h.head]

theorem SameOutline.heads : t.Heads b p r ↔ s.Heads b p r := by
  rw [Heads, Heads, h.prices, h.head]

theorem SameOutline.listed : t.Listed x ↔ s.Listed x := by
  simp only [Listed, h.links, h.heads]

theorem SameOutline.noEmptyLevel (hs : s.NoEmptyLevel) : t.NoEmptyLevel := by
  intro b p hp
  rw [h.head]
  exact hs b p (h.prices b ▸ hp)

end

theorem Shape.of_sameOutline (hs : s.Shape) (h : SameOutline s t)
    (hknown : ∀ {id r}, t.orders id = some r → r < t.allocated) :
    t.Shape where
  linked := by
    rw [h.links, h.allocated]
    exact hs.linked
  sameLevel {x y} hxy := by
    rw [h.links] at hxy
    obtain ⟨hside, hprice⟩ := hs.sameLevel hxy
    rw [(h.terms x).1, (h.terms x).2, (h.terms y).1, (h.terms y).2]
    exact ⟨hside, hprice⟩
  head_lt hr := by
    rw [h.allocated]
    exact hs.head_lt (h.heads.mp hr)
  head_prev hr := by
    rw [h.links]
    exact hs.head_prev (h.heads.mp hr)
  head_terms {b p r} hr := by
    rw [(h.terms r).1, (h.terms r).2]
    exact hs.head_terms (h.heads.mp hr)
  level_label {b p} hp := by
    rw [h.label]
    exact hs.level_label (h.prices b ▸ hp)
  prices_nodup b := by
    rw [h.prices]
    exact hs.prices_nodup b
  best_mem {b p} hp := by
    rw [h.prices]
    exact hs.best_mem (h.best b ▸ hp)
  known := hknown

theorem Shape.setOrders (hs : s.Shape) {orders : ℕ → Option ℕ}
    (hknown : ∀ {id r}, orders id = some r → r < s.allocated) : Shape { s with orders := orders } :=
  hs.of_sameOutline ⟨rfl, rfl, fun _ => rfl, fun _ => rfl, fun _ _ => rfl, fun _ _ => rfl,
      fun _ => ⟨rfl, rfl⟩⟩ hknown

theorem Shape.deleteOrder (hs : s.Shape) (id : ℕ) :
    Shape { s with orders := Function.update s.orders id none } := by
  refine hs.setOrders ?_
  intro id' r hr
  rw [Function.update_apply] at hr
  split at hr
  · cases hr
  · exact hs.known hr

/-! ## Rescans -/

theorem scanBest_mem (beats : ℤ → ℤ → Bool) (start : ℤ) (h : Half)
    (hp : (h.scanBest beats start).best = some p) : p ∈ h.prices := by
  have hfold : ∀ (keys : List ℤ) (found : ℤ × Option ℤ),
      (∀ q ∈ found.2, q ∈ h.prices) → keys ⊆ h.prices →
      ∀ q ∈ (keys.foldl (fun found key =>
        if !(h.level key).isEmpty && beats (h.level key).price found.1 then
          ((h.level key).price, some key)
        else found) found).2, q ∈ h.prices := by
    intro keys
    induction keys with
    | nil => intro found hfound _; exact hfound
    | cons key keys ih =>
      intro found hfound hkeys
      rw [foldl_cons]
      refine ih _ ?_ (subset_of_cons_subset hkeys)
      split
      · intro q hq
        obtain rfl : key = q := Option.some.inj hq
        exact hkeys mem_cons_self
      · exact hfound
  exact hfold h.prices (start, none) (by simp) (List.Subset.refl _) p hp

theorem updateBest_mem {h : Half} (hp : (h.updateBest b).best = some p) : p ∈ h.prices := by
  cases b with
  | true | false => exact scanBest_mem _ _ h hp

@[simp] theorem prices_updateBest (h : Half) : (h.updateBest b).prices = h.prices := by
  cases b <;> rfl

@[simp] theorem level_updateBest (h : Half) : (h.updateBest b).level = h.level := by
  cases b <;> rfl

@[simp] theorem prices_updateBestPrices (h : Half) :
    (h.updateBestPrices b p).prices = h.prices := by
  unfold Half.updateBestPrices
  split
  · rfl
  · split <;> rfl

@[simp] theorem level_updateBestPrices (h : Half) : (h.updateBestPrices b p).level = h.level := by
  unfold Half.updateBestPrices
  split
  · rfl
  · split <;> rfl

theorem updateBestPrices_mem {h : Half} (hbest : ∀ q ∈ h.best, q ∈ h.prices) (hp : p ∈ h.prices) :
    ∀ q ∈ (h.updateBestPrices b p).best, q ∈ h.prices := by
  intro q hq
  unfold Half.updateBestPrices at hq
  split at hq
  · obtain rfl : p = q := Option.some.inj hq
    exact hp
  · split at hq
    · obtain rfl : p = q := Option.some.inj hq
      exact hp
    · exact hbest q hq

end OrderBook

end Fluxor.Matching
