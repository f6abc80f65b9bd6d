import Fluxor.EventLoop.RingBuffer
import Mathlib.Data.Nat.ModEq
import Mathlib.Tactic.Linarith

/-!
# Safety of the disruptor

The invariant ties the cursor, the gating sequence, the stamp of every slot and the
private state of every producer together. Its core is the window: unconsumed
sequences lie in `(gating, gating + size]`, where the slot map is injective, so a
store touches no other sequence's slot. A producer decides on a gating value that
may be stale; the bound it checked stays true because gating only grows.
-/

namespace Fluxor.EventLoop

open Fluxor.Transition Function List Option RingBuffer

namespace RingBuffer

variable {ε : Type*}

/-- The sizes `NewRingBuffer` accepts are the powers of two. -/
theorem newRingBuffer_isSome_iff (size : ℕ) :
    (newRingBuffer size : Option (RingBuffer ε)).isSome ↔ size.isPowerOfTwo := by
  rw [← Nat.ne_zero_and_sub_one_eq_zero_iff_isPowerOfTwo, newRingBuffer]
  grind

variable {rb : RingBuffer ε}

theorem newRingBuffer_eq {size : ℕ} (h : newRingBuffer size = some rb) :
    (∃ k, rb.bufferSize = 2 ^ k) ∧ rb.cursor = -1 ∧ rb.gating = -1 ∧ ∀ i, rb.available i = -1 := by
  have hpow : size.isPowerOfTwo := by grind [newRingBuffer_isSome_iff]
  rw [newRingBuffer] at h
  split at h
  · cases h
  · cases h
    exact ⟨hpow, rfl, rfl, fun _ => rfl⟩

theorem slot_eq_mod {k : ℕ} (hk : rb.bufferSize = 2 ^ k) (sequence : ℤ) :
    rb.slot sequence = sequence.toNat % 2 ^ k := by
  rw [slot, hk, Nat.and_two_pow_sub_one_eq_mod]

theorem slot_inj {k : ℕ} (hk : rb.bufferSize = 2 ^ k) {g i j : ℤ} (hg : -1 ≤ g)
    (hi : g < i ∧ i ≤ g + rb.bufferSize) (hj : g < j ∧ j ≤ g + rb.bufferSize)
    (h : rb.slot i = rb.slot j) : i = j := by
  rw [slot_eq_mod hk, slot_eq_mod hk] at h
  have hmod : i.toNat ≡ j.toNat [MOD 2 ^ k] := h
  have habs : |(j.toNat : ℤ) - i.toNat| < ((2 ^ k : ℕ) : ℤ) := by
    rw [← hk, abs_lt]
    omega
  have := hmod.eq_of_abs_lt habs
  omega

end RingBuffer

namespace Disruptor

variable {ι ε : Type*}

/-- Sequence `seq` was claimed by `p` for `ev` and is neither published nor
consumed. -/
structure Claimed (s : Disruptor ι ε) (p : ι) (seq : ℤ) (ev : ε) : Prop where
  unconsumed : s.rb.gating < seq
  le_cursor : seq ≤ s.rb.cursor
  claim : s.claims[seq.toNat]? = some (p, ev)
  unpublished : seq ∉ s.published

/-- What the private state of a producer says about the ring. -/
def ProducerOk (s : Disruptor ι ε) (p : ι) : Producer ε → Prop
  | .idle => True
  | .loadCursor _ => True
  | .loadGating _ current => -1 ≤ current ∧ current ≤ s.rb.cursor
  | .compareAndSwap _ current =>
    -1 ≤ current ∧ current ≤ s.rb.cursor ∧ current + 1 - s.rb.bufferSize ≤ s.rb.gating
  | .storePointer ev seq => s.Claimed p seq ev
  | .storeAvailable ev seq => s.Claimed p seq ev ∧ s.rb.get seq = some ev

/-- The consumer is at the first unconsumed sequence, with at most one iteration to go. -/
def ConsumerOk (s : Disruptor ι ε) : Consumer ε → Prop
  | .waitFor next => next = s.rb.gating + 1 ∧ (s.handled.length : ℤ) = next
  | .get seq avail =>
    avail = seq ∧ seq = s.rb.gating + 1 ∧ (s.handled.length : ℤ) = seq ∧ seq ∈ s.published
  | .handle event seq avail =>
    avail = seq ∧ seq = s.rb.gating + 1 ∧ (s.handled.length : ℤ) = seq ∧ seq ∈ s.published ∧
      ∃ c, s.claims[seq.toNat]? = some c ∧ event = some c.2
  | .consume seq avail =>
    avail = seq ∧ seq = s.rb.gating + 1 ∧ (s.handled.length : ℤ) = seq + 1 ∧ seq ∈ s.published
  | .stopped => (s.handled.length : ℤ) = s.rb.gating + 1

def Stored (s : Disruptor ι ε) (seq : ℤ) : Prop :=
  s.rb.available (s.rb.slot seq) = seq ∧
    ∃ c, s.claims[seq.toNat]? = some c ∧ s.rb.get seq = some c.2

/-- The handler calls are those of the first claims, in order. -/
def HandledInOrder (s : Disruptor ι ε) : Prop :=
  s.handled.map Prod.fst = (range s.handled.length).map Int.ofNat ∧ s.handled.map Prod.snd =
      (s.claims.take s.handled.length).map fun c => some c.2

structure Inv (s : Disruptor ι ε) : Prop where
  size : ∃ k, s.rb.bufferSize = 2 ^ k
  gating_ge : -1 ≤ s.rb.gating
  gating_le : s.rb.gating ≤ s.rb.cursor
  window : s.rb.cursor ≤ s.rb.gating + s.rb.bufferSize
  claims_length : (s.claims.length : ℤ) = s.rb.cursor + 1
  producers : ∀ p, s.ProducerOk p (s.producer p)
  consumer : s.ConsumerOk s.consumer
  published_range : ∀ j ∈ s.published, 0 ≤ j ∧ j ≤ s.rb.cursor
  published_nodup : s.published.Nodup
  consumed : ∀ j, 0 ≤ j → j ≤ s.rb.gating → j ∈ s.published
  pending : ∀ j, s.rb.gating < j → j ≤ s.rb.cursor → j ∈ s.published ∨ ∃ p ev, s.Owns p j ev
  stored : ∀ j ∈ s.published, s.rb.gating < j → s.Stored j
  stamp : ∀ j, 0 ≤ j → s.rb.available (s.rb.slot j) = j → j ∈ s.published
  handled : s.HandledInOrder

theorem inv_init [DecidableEq ι] {size : ℕ} {rb : RingBuffer ε}
    (h : newRingBuffer size = some rb) (mode : ConsumeMode) :
    Inv (init rb mode : Disruptor ι ε) := by
  obtain ⟨hsize, hcursor, hgating, havail⟩ := newRingBuffer_eq h
  have hge : ∀ j : ℤ, rb.gating < j → j ≤ rb.cursor → False := by
    intro j h1 h2
    omega
  constructor
  · exact hsize
  · exact hgating.ge
  · change rb.gating ≤ rb.cursor
    omega
  · change rb.cursor ≤ rb.gating + rb.bufferSize
    omega
  · change (([] : List (ι × ε)).length : ℤ) = rb.cursor + 1
    simp [hcursor]
  · intro p
    trivial
  · change (0 : ℤ) = rb.gating + 1 ∧ _
    simp [hgating, init]
  · simp [init]
  · simp [init]
  · intro j h0 hj
    change j ≤ rb.gating at hj
    omega
  · intro j h1 h2
    exact (hge j h1 h2).elim
  · simp [init]
  · intro j h0 hj
    change rb.available _ = j at hj
    rw [havail] at hj
    omega
  · simp [HandledInOrder, init]

/-! ## Ownership -/

variable {s : Disruptor ι ε} {p : ι} {seq : ℤ} {ev : ε}

theorem Inv.claimed_of_owns (hs : Inv s) (h : s.Owns p seq ev) : s.Claimed p seq ev := by
  have hp := hs.producers p
  rcases h with h | h
  · rwa [h] at hp
  · rw [h] at hp
    exact hp.1

theorem Claimed.owner_eq {q : ι} {ev' : ε} (hp : s.Claimed p seq ev) (hq : s.Claimed q seq ev') :
    p = q := by
  have h := hp.claim.symm.trans hq.claim
  grind

theorem Inv.in_window (hs : Inv s) (h : s.Claimed p seq ev) :
    s.rb.gating < seq ∧ seq ≤ s.rb.gating + s.rb.bufferSize :=
  ⟨h.unconsumed, le_trans h.le_cursor hs.window⟩

theorem Inv.slot_ne_of_published (hs : Inv s) {j : ℤ} (h : s.Claimed p seq ev)
    (hj : j ∈ s.published) (hg : s.rb.gating < j) : s.rb.slot j ≠ s.rb.slot seq := by
  intro hslot
  obtain ⟨k, hk⟩ := hs.size
  have hjw : s.rb.gating < j ∧ j ≤ s.rb.gating + s.rb.bufferSize :=
    ⟨hg, le_trans (hs.published_range j hj).2 hs.window⟩
  have heq := slot_inj hk hs.gating_ge hjw (hs.in_window h) hslot
  subst heq
  exact h.unpublished hj

theorem Inv.owner_of_slot (hs : Inv s) {q : ι} {i j : ℤ} {ev' : ε} (hp : s.Claimed p i ev)
    (hq : s.Claimed q j ev') (hslot : s.rb.slot i = s.rb.slot j) : p = q := by
  obtain ⟨k, hk⟩ := hs.size
  have heq := slot_inj hk hs.gating_ge (hs.in_window hp) (hs.in_window hq) hslot
  subst heq
  exact hp.owner_eq hq

/-! ## What a step leaves intact -/

variable {t : Disruptor ι ε}

theorem ProducerOk.mono {x : Producer ε} (h : s.ProducerOk p x)
    (hcursor : s.rb.cursor ≤ t.rb.cursor) (hgating : s.rb.gating ≤ t.rb.gating)
    (hsize : t.rb.bufferSize = s.rb.bufferSize)
    (hclaim : ∀ seq ev, s.Claimed p seq ev → x = .storePointer ev seq ∨
      x = .storeAvailable ev seq → t.Claimed p seq ev)
    (hget : ∀ seq ev, s.Claimed p seq ev → x = .storeAvailable ev seq →
      s.rb.get seq = some ev → t.rb.get seq = some ev) : t.ProducerOk p x := by
  cases x with
  | idle | loadCursor => trivial
  | loadGating => exact ⟨h.1, le_trans h.2 hcursor⟩
  | compareAndSwap =>
    refine ⟨h.1, le_trans h.2.1 hcursor, ?_⟩
    rw [hsize]
    exact le_trans h.2.2 hgating
  | storePointer ev seq => exact hclaim seq ev h (.inl rfl)
  | storeAvailable ev seq => exact ⟨hclaim seq ev h.1 (.inr rfl), hget seq ev h.1 rfl h.2⟩

theorem ConsumerOk.mono {x : Consumer ε} (h : s.ConsumerOk x)
    (hgating : t.rb.gating = s.rb.gating) (hhandled : t.handled = s.handled)
    (hpublished : ∀ j ∈ s.published, j ∈ t.published)
    (hclaims : ∀ (j : ℕ) c, s.claims[j]? = some c → t.claims[j]? = some c) : t.ConsumerOk x := by
  cases x <;> grind [ConsumerOk]

variable [DecidableEq ι]

section

variable (hs : Inv s)

include hs

omit [DecidableEq ι] in
theorem Inv.handled_le : s.handled.length ≤ s.claims.length := by
  have hlen := hs.claims_length
  have hgl := hs.gating_le
  have hc := hs.consumer
  cases hx : s.consumer with
  | waitFor | get | stopped => grind [ConsumerOk]
  | handle =>
    rw [hx] at hc
    obtain ⟨-, h2, h3, -⟩ := hc
    omega
  | consume seq =>
    rw [hx] at hc
    obtain ⟨-, h2, h3, h4⟩ := hc
    have := (hs.published_range seq h4).2
    omega

/-! ## The operations of a producer -/

omit hs in
theorem owns_setProducer_of_ne {q : ι} (hq : q ≠ p) (x : Producer ε) :
    (s.setProducer p x).Owns q seq ev ↔ s.Owns q seq ev := by
  simp [Owns, setProducer, hq]

theorem inv_setProducer {x : Producer ε} (hx : s.ProducerOk p x)
    (hfree : ∀ seq ev, ¬s.Owns p seq ev) : Inv (s.setProducer p x) := by
  have hsame : ∀ {q y}, s.ProducerOk q y → (s.setProducer p x).ProducerOk q y := by
    intro q y h
    refine h.mono (le_refl _) (le_refl _) rfl ?_ ?_
    · intro seq ev hc _
      exact { hc with }
    · intro seq ev _ _ hget
      exact hget
  refine { hs with producers := ?_, consumer := ?_, pending := ?_ }
  · intro q
    by_cases hq : q = p <;>
      grind [producer_setProducer_self, producer_setProducer_of_ne, Inv.producers]
  · exact hs.consumer.mono rfl rfl (fun _ h => h) (fun _ _ h => h)
  · intro j h1 h2
    rcases hs.pending j h1 h2 with hpub | ⟨q, ev, howns⟩
    · exact .inl hpub
    · have hq : q ≠ p := by
        rintro rfl
        exact hfree j ev howns
      exact .inr ⟨q, ev, (owns_setProducer_of_ne hq x).mpr howns⟩

theorem inv_claim (hp : s.producer p = .compareAndSwap ev s.rb.cursor) :
    Inv (s.claim p ev s.rb.cursor) := by
  have hok := hs.producers p
  rw [hp] at hok
  obtain ⟨-, -, hroom⟩ := hok
  have hlen := hs.claims_length
  have hgl := hs.gating_le
  have hgg := hs.gating_ge
  have hcur : s.rb.cursor ≤ s.rb.cursor + 1 := by omega
  have hold : ∀ (j : ℕ) c, s.claims[j]? = some c → (s.claims ++ [(p, ev)])[j]? = some c := by grind
  have hnew : (s.claims ++ [(p, ev)])[(s.rb.cursor + 1).toNat]? = some (p, ev) := by
    have hidx : (s.rb.cursor + 1).toNat = s.claims.length := by omega
    rw [hidx]
    simp
  refine ⟨hs.size, hs.gating_ge, ?_, ?_, ?_, ?_, ?_, ?_, hs.published_nodup,
    hs.consumed, ?_, ?_, hs.stamp, ?_⟩
  · exact le_trans hgl hcur
  · change s.rb.cursor + 1 ≤ s.rb.gating + s.rb.bufferSize
    omega
  · change ((s.claims ++ [(p, ev)]).length : ℤ) = s.rb.cursor + 1 + 1
    grind
  · intro q
    by_cases hq : q = p
    · subst hq
      simp only [claim, setProducer, update_self, ProducerOk]
      refine ⟨?_, le_refl _, hnew, ?_⟩
      · grind
      · intro hmem
        have := (hs.published_range _ hmem).2
        omega
    · simp only [claim, setProducer, update_of_ne hq]
      refine (hs.producers q).mono hcur (le_refl _) rfl ?_ ?_
      · intro seq ev' hc _
        exact ⟨hc.unconsumed, le_trans hc.le_cursor hcur, hold _ _ hc.claim, hc.unpublished⟩
      · intro seq ev' _ _ hget
        exact hget
  · exact hs.consumer.mono rfl rfl (fun _ h => h) hold
  · intro j hj
    obtain ⟨h1, h2⟩ := hs.published_range j hj
    exact ⟨h1, le_trans h2 hcur⟩
  · intro j h1 h2
    change j ≤ s.rb.cursor + 1 at h2
    by_cases hj : j = s.rb.cursor + 1
    · subst hj
      exact .inr ⟨p, ev, .inl (by simp [claim, setProducer])⟩
    · rcases hs.pending j h1 (by omega) with hpub | ⟨q, ev', howns⟩
      · exact .inl hpub
      · have hq : q ≠ p := by
          rintro rfl
          rcases howns with h | h <;> rw [hp] at h <;> cases h
        exact .inr ⟨q, ev', (owns_setProducer_of_ne hq _).mpr howns⟩
  · intro j hj hg
    obtain ⟨h1, c, h2, h3⟩ := hs.stored j hj hg
    exact ⟨h1, c, hold _ c h2, h3⟩
  · obtain ⟨h1, h2⟩ := hs.handled
    refine ⟨h1, ?_⟩
    change s.handled.map Prod.snd =
      ((s.claims ++ [(p, ev)]).take s.handled.length).map fun c => some c.2
    grind [Inv.handled_le]

omit hs [DecidableEq ι] in
theorem get_storePointer_of_ne (rb : RingBuffer ε) {j : ℤ} (ev : ε) (h : rb.slot j ≠ rb.slot seq) :
    (rb.storePointer seq ev).get j = rb.get j := by
  change update rb.buffer (rb.slot seq) (some ev) (rb.slot j) = _
  rw [update_of_ne h]
  rfl

theorem inv_writePointer (hp : s.producer p = .storePointer ev seq) :
    Inv (s.writePointer p ev seq) := by
  have hown : s.Claimed p seq ev := hs.claimed_of_owns (.inl hp)
  refine { hs with producers := ?_, consumer := ?_, pending := ?_, stored := ?_ }
  · intro q
    by_cases hq : q = p
    · subst hq
      simp only [writePointer, setProducer, update_self, ProducerOk]
      refine ⟨{ hown with }, ?_⟩
      change update s.rb.buffer (s.rb.slot seq) (some ev) (s.rb.slot seq) = some ev
      rw [update_self]
    · simp only [writePointer, setProducer, update_of_ne hq]
      refine (hs.producers q).mono (le_refl _) (le_refl _) rfl ?_ ?_
      · intro j ev' hc _
        exact { hc with }
      grind [Inv.owner_of_slot, get_storePointer_of_ne]
  · exact hs.consumer.mono rfl rfl (fun _ h => h) (fun _ _ h => h)
  · intro j h1 h2
    rcases hs.pending j h1 h2 with hpub | ⟨q, ev', howns⟩
    · exact .inl hpub
    · by_cases hq : q = p
      · subst hq
        rcases howns with h | h
        · rw [hp] at h
          cases h
          exact .inr ⟨q, ev, .inr (by simp [writePointer, setProducer])⟩
        · rw [hp] at h
          cases h
      · exact .inr ⟨q, ev', (owns_setProducer_of_ne hq _).mpr howns⟩
  · intro j hj hg
    obtain ⟨h1, c, h2, h3⟩ := hs.stored j hj hg
    refine ⟨h1, c, h2, ?_⟩
    change (s.rb.storePointer seq ev).get j = some c.2
    rwa [get_storePointer_of_ne s.rb ev (hs.slot_ne_of_published hown hj hg)]

theorem inv_markAvailable (hp : s.producer p = .storeAvailable ev seq) :
    Inv (s.markAvailable p seq) := by
  have hok := hs.producers p
  rw [hp] at hok
  obtain ⟨hown, hget⟩ := hok
  have hgg := hs.gating_ge
  have hug := hown.unconsumed
  have hmem : ∀ {j}, j ∈ s.published ++ [seq] ↔ j ∈ s.published ∨ j = seq := by
    intro j
    simp
  refine ⟨hs.size, hs.gating_ge, hs.gating_le, hs.window, hs.claims_length,
    ?_, ?_, ?_, ?_, ?_, ?_, ?_, ?_, hs.handled⟩
  · intro q
    by_cases hq : q = p
    · subst hq
      simp only [markAvailable, setProducer, update_self, ProducerOk]
    · simp only [markAvailable, setProducer, update_of_ne hq]
      refine (hs.producers q).mono (le_refl _) (le_refl _) rfl ?_ ?_
      · intro j ev' hc _
        refine { hc with unpublished := ?_ }
        grind [Claimed.unpublished, Claimed.owner_eq]
      · intro j ev' _ _ hget'
        exact hget'
  · exact hs.consumer.mono rfl rfl (fun _ h => hmem.mpr (.inl h)) (fun _ _ h => h)
  · intro j hj
    rcases hmem.mp hj with hj | rfl
    · exact hs.published_range j hj
    · exact ⟨by omega, hown.le_cursor⟩
  · refine nodup_append.mpr ⟨hs.published_nodup, by simp, ?_⟩
    grind [Claimed.unpublished]
  · intro j h0 hj
    exact hmem.mpr (.inl (hs.consumed j h0 hj))
  · intro j h1 h2
    rcases hs.pending j h1 h2 with hpub | ⟨q, ev', howns⟩
    · exact .inl (hmem.mpr (.inl hpub))
    · by_cases hq : q = p
      · subst hq
        rcases howns with h | h
        · rw [hp] at h
          cases h
        · rw [hp] at h
          cases h
          exact .inl (hmem.mpr (.inr rfl))
      · exact .inr ⟨q, ev', (owns_setProducer_of_ne hq _).mpr howns⟩
  · intro j hj hg
    rcases hmem.mp hj with hj | rfl
    · obtain ⟨h1, c, h2, h3⟩ := hs.stored j hj hg
      refine ⟨?_, c, h2, h3⟩
      change update s.rb.available (s.rb.slot seq) seq (s.rb.slot j) = j
      rwa [update_of_ne (hs.slot_ne_of_published hown hj hg)]
    · refine ⟨?_, (p, ev), hown.claim, hget⟩
      change update s.rb.available (s.rb.slot j) j (s.rb.slot j) = j
      rw [update_self]
  · intro j h0 hj
    change update s.rb.available (s.rb.slot seq) seq (s.rb.slot j) = j at hj
    by_cases hslot : s.rb.slot j = s.rb.slot seq
    · rw [hslot, update_self] at hj
      exact hmem.mpr (.inr hj.symm)
    · rw [update_of_ne hslot] at hj
      exact hmem.mpr (.inl (hs.stamp j h0 hj))

theorem inv_produce (h : s.produce p = some t) : Inv t := by
  have hok := hs.producers p
  cases hp : s.producer p with
  | idle => simp [produce, hp] at h
  | loadCursor =>
    simp only [produce, hp, some.injEq] at h
    subst h
    apply inv_setProducer hs
    · exact ⟨le_trans hs.gating_ge hs.gating_le, le_refl _⟩
    · simp [Owns, hp]
  | loadGating ev current =>
    rw [hp] at hok
    have hfree : ∀ seq ev', ¬s.Owns p seq ev' := by simp [Owns, hp]
    simp only [produce, hp] at h
    split at h
    · cases h
      exact inv_setProducer hs trivial hfree
    next hroom =>
      cases h
      have hbound : current + 1 - s.rb.bufferSize ≤ s.rb.gating := by omega
      exact inv_setProducer hs ⟨hok.1, hok.2, hbound⟩ hfree
  | compareAndSwap =>
    simp only [produce, hp] at h
    split at h
    · grind [inv_claim]
    · cases h
      exact inv_setProducer hs trivial (by simp [Owns, hp])
  | storePointer => grind [produce, inv_writePointer]
  | storeAvailable => grind [produce, inv_markAvailable]

/-! ## The operations of the consumer -/

section

omit [DecidableEq ι]

theorem inv_setHandled {x : Consumer ε} {l : List (ℤ × Option ε)}
    (hhandled : HandledInOrder { s with handled := l, consumer := x })
    (hx : ConsumerOk { s with handled := l, consumer := x } x) :
    Inv { s with handled := l, consumer := x } := by
  refine { hs with producers := ?_, consumer := hx, handled := hhandled }
  · intro p
    refine (hs.producers p).mono (le_refl _) (le_refl _) rfl ?_ ?_
    · intro seq ev hc _
      exact { hc with }
    · intro seq ev _ _ hget
      exact hget

theorem inv_setConsumer {x : Consumer ε} (hx : s.ConsumerOk x) : Inv { s with consumer := x } :=
  inv_setHandled hs hs.handled (hx.mono rfl rfl (fun _ h => h) (fun _ _ h => h))

omit hs in
theorem HandledInOrder.snoc (h : s.HandledInOrder) {c : ι × ε}
    (hc : s.claims[s.handled.length]? = some c) (hseq : (s.handled.length : ℤ) = seq)
    (x : Consumer ε) :
    HandledInOrder { s with
      handled := s.handled ++ [(seq, some c.2)]
      consumer := x } := by
  obtain ⟨h1, h2⟩ := h
  subst hseq
  constructor
  · simp only [map_append, map_cons, map_nil,
      length_append, length_singleton, range_succ, h1]
    rfl
  · simp only [map_append, map_cons, map_nil,
      length_append, length_singleton, take_add_one, hc, h2]
    rfl

theorem inv_handle {event : Option ε} {avail : ℤ} (hc : s.consumer = .handle event seq avail) :
    Inv { s with
      handled := s.handled ++ [(seq, event)]
      consumer := .consume seq avail } := by
  have hok := hs.consumer
  rw [hc] at hok
  obtain ⟨havail, hseq, hlen, hpub, c, hclaim, rfl⟩ := hok
  have hidx : s.claims[s.handled.length]? = some c := by grind
  refine inv_setHandled hs (hs.handled.snoc hidx hlen _) ⟨havail, hseq, ?_, hpub⟩
  grind

theorem inv_consumed {avail : ℤ} (hc : s.consumer = .consume seq avail) : Inv { s with
      rb := s.rb.consume seq
      consumer := loopFrom (seq + 1) avail } := by
  have hok := hs.consumer
  rw [hc] at hok
  obtain ⟨rfl, hseq, hlen, hpub⟩ := hok
  have hrange := hs.published_range avail hpub
  have hgg := hs.gating_ge
  have hle : s.rb.gating ≤ avail := by omega
  have hloop : (loopFrom (avail + 1) avail : Consumer ε) = .waitFor (avail + 1) := by
    simp [loopFrom]
  rw [hloop]
  refine ⟨hs.size, ?_, hrange.2, ?_, hs.claims_length, ?_, ?_,
    hs.published_range, hs.published_nodup, ?_, ?_, ?_, hs.stamp, hs.handled⟩
  · change -1 ≤ avail
    omega
  · have := hs.window
    change s.rb.cursor ≤ avail + s.rb.bufferSize
    omega
  · intro p
    refine (hs.producers p).mono (le_refl _) hle rfl ?_ ?_
    · intro j ev hcl _
      refine { hcl with unconsumed := ?_ }
      change avail < j
      have hne : j ≠ avail := by
        rintro rfl
        exact hcl.unpublished hpub
      have := hcl.unconsumed
      omega
    · intro j ev _ _ hget
      exact hget
  · exact ⟨rfl, hlen⟩
  · intro j h0 hj
    change j ≤ avail at hj
    grind [Inv.consumed]
  · intro j h1 h2
    exact hs.pending j (lt_of_le_of_lt hle h1) h2
  · intro j hj hg
    exact hs.stored j hj (lt_of_le_of_lt hle hg)

theorem inv_consume (h : s.consume = some t) : Inv t := by
  have hok := hs.consumer
  cases hc : s.consumer with
  | waitFor next =>
    rw [hc] at hok
    simp only [consume, hc] at h
    split at h
    next havail =>
      cases h
      obtain ⟨hnext, hlen⟩ := hok
      have hgg := hs.gating_ge
      have hpub := hs.stamp next (by omega) havail
      apply inv_setConsumer hs
      rw [loopFrom, if_pos (le_refl next)]
      exact ⟨rfl, hnext, hlen, hpub⟩
    · cases h
      exact hs
  | get seq =>
    rw [hc] at hok
    simp only [consume, hc, some.injEq] at h
    subst h
    obtain ⟨havail, hseq, hlen, hpub⟩ := hok
    obtain ⟨-, c, hclaim, hget⟩ := hs.stored seq hpub (by omega)
    apply inv_setConsumer hs
    exact ⟨havail, hseq, hlen, hpub, c, hclaim, hget⟩
  | handle =>
    rw [hc] at hok
    have havail := hok.1
    grind [inv_handle, consume]
  | consume => grind [consume, inv_consumed]
  | stopped => simp [consume, hc] at h

end

omit hs [DecidableEq ι] in
theorem consume_frame (h : s.consume = some t) : t.claims = s.claims ∧ t.producer = s.producer := by
  grind [consume]

theorem inv_step {a : DisruptorAction ι ε} (h : s.step a = some t) : Inv t := by
  cases a with
  | call p =>
    cases hp : s.producer p with
    | idle =>
      simp only [step, hp, some.injEq] at h
      subst h
      exact inv_setProducer hs trivial (by simp [Owns, hp])
    | _ => simp [step, hp] at h
  | produce => exact inv_produce hs h
  | consume => exact inv_consume hs h
  | stop =>
    have hok := hs.consumer
    cases hc : s.consumer with
    | waitFor =>
      rw [hc] at hok
      simp only [step, hc, some.injEq] at h
      subst h
      apply inv_setConsumer hs
      change (s.handled.length : ℤ) = s.rb.gating + 1
      rw [hok.2, hok.1]
    | _ => simp [step, hc] at h

/-! ## Safety -/

/-- The guarantees of the ring in one state. A sequence has one owner, the producer
that the history of claims names; when a producer is about to write a slot, every
earlier occupant of it has been handled and consumed; the handler calls are those of
sequences 0, 1, 2, ..., with the events claimed and published under them; and a
published event not handled yet is still in its slot. -/
structure Safe (s : Disruptor ι ε) : Prop where
  owner_unique : ∀ p q seq ev ev', s.Owns p seq ev → s.Owns q seq ev' → p = q
  owner_claim : ∀ p seq ev, s.Owns p seq ev → 0 ≤ seq ∧ s.claims[seq.toNat]? = some (p, ev)
  slot_free : ∀ p seq ev, s.Owns p seq ev → ∀ j, 0 ≤ j → j < seq → s.rb.slot j = s.rb.slot seq →
      j ≤ s.rb.gating ∧ j < s.handled.length
  handled_in_order : s.HandledInOrder
  handled_published : ∀ j : ℕ, j < s.handled.length → (j : ℤ) ∈ s.published
  published_once : s.published.Nodup
  published_kept : ∀ j ∈ s.published, (s.handled.length : ℤ) ≤ j → s.Stored j
  drained : ∀ next, s.consumer = .waitFor next → s.rb.available (s.rb.slot next) ≠ next →
    (∀ p seq ev, ¬s.Owns p seq ev) → s.handled.length = s.claims.length

omit [DecidableEq ι]

theorem Inv.handled_bounds : s.rb.gating + 1 ≤ s.handled.length ∧
      ∀ j : ℤ, s.rb.gating < j → j < s.handled.length → j ∈ s.published := by
  have hc := hs.consumer
  cases hx : s.consumer <;> grind [ConsumerOk]

theorem safe_of_inv : s.Safe := by
  obtain ⟨hbound, hmid⟩ := hs.handled_bounds
  refine ⟨?_, ?_, ?_, hs.handled, ?_, hs.published_nodup, ?_, ?_⟩
  · intro p q seq ev ev' hp hq
    exact (hs.claimed_of_owns hp).owner_eq (hs.claimed_of_owns hq)
  · intro p seq ev hp
    have hcl := hs.claimed_of_owns hp
    have := hcl.unconsumed
    have := hs.gating_ge
    exact ⟨by omega, hcl.claim⟩
  · intro p seq ev hp j h0 hj hslot
    have hcl := hs.claimed_of_owns hp
    have hg : j ≤ s.rb.gating := by
      by_contra hnot
      obtain ⟨k, hk⟩ := hs.size
      have hwin := hs.in_window hcl
      have hjw : s.rb.gating < j ∧ j ≤ s.rb.gating + s.rb.bufferSize := by omega
      have := slot_inj hk hs.gating_ge hjw hwin hslot
      omega
    exact ⟨hg, by omega⟩
  · grind [Inv.consumed]
  · grind [Inv.stored]
  · intro next hc hfail hfree
    have hok := hs.consumer
    rw [hc] at hok
    obtain ⟨hnext, hlen⟩ := hok
    have hclaims := hs.claims_length
    by_contra hne
    have hle := hs.handled_le
    rcases hs.pending next (by omega) (by omega) with hpub | ⟨p, ev, howns⟩
    · exact hfail (hs.stored next hpub (by omega)).1
    · exact hfree p next ev howns

theorem inInt64_of_inv (hclaims : s.claims.length < 2 ^ 63) : s.InInt64 := by
  have hlength := hs.claims_length
  have hge := hs.gating_ge
  have hle := hs.gating_le
  have hclaimed {p seq ev} (h : s.Claimed p seq ev) : -1 ≤ seq ∧ seq < 2 ^ 63 :=
    ⟨hge.trans h.unconsumed.le, by have := h.le_cursor; omega⟩
  refine ⟨by omega, fun p => ?_, ?_⟩
  · have hok := hs.producers p
    generalize s.producer p = x at hok ⊢
    cases x with
    | storePointer => exact hclaimed hok
    | storeAvailable => exact hclaimed hok.1
    | _ =>
      simp only [ProducerOk, Producer.sequence] at hok ⊢
      omega
  · have hok := hs.consumer
    have hhandled := hs.handled_le
    -- a sequence that is in the loop has been published, so it is not above the cursor
    have hpublished := fun j hj => (hs.published_range j hj).2
    generalize s.consumer = x at hok ⊢
    cases x <;> grind [ConsumerOk, Consumer.sequence]

end

/-- For every size `NewRingBuffer` accepts, any producers, either consumer and any
interleaving, every reachable state is safe, and with less than `2 ^ 63` claims no
sequence has left `int64`. -/
theorem disruptor_safe {size : ℕ} {rb : RingBuffer ε}
    (hnew : RingBuffer.newRingBuffer size = some rb) (mode : ConsumeMode)
    {acts : List (DisruptorAction ι ε)} {s : Disruptor ι ε}
    (hrun : Run step anyStep (init rb mode) acts s) :
    s.Safe ∧ (s.claims.length < 2 ^ 63 → s.InInt64) := by
  have hinv := hrun.invariant (fun h _ => inv_step h) (inv_init hnew mode)
  exact ⟨safe_of_inv hinv, inInt64_of_inv hinv⟩

def ringOfTwo : RingBuffer ε where
  buffer := fun _ => none
  available := fun _ => -1
  bufferSize := 2
  cursor := -1
  gating := -1

def raceForTwo : List (DisruptorAction Bool ℕ) :=
  [.call true 10, .produce true, .call false 20, .produce false,
    .produce false, .produce false, .produce true, .produce true,
    .produce true, .produce true, .produce true, .produce true, .produce true,
    .consume, .produce false, .produce false, .consume, .consume, .consume,
    .consume, .consume, .consume, .consume, .consume]

theorem disruptor_safe_raceForTwo :
    ((exec step anyStep (init ringOfTwo .perEvent) raceForTwo).get (by decide)).Safe ∧
    ((exec step anyStep (init ringOfTwo .perEvent) raceForTwo).get (by decide)).InInt64 ∧
    ((exec step anyStep (init ringOfTwo .perEvent) raceForTwo).get
      (by decide)).handled = [(0, some 20), (1, some 10)] := by
  have h := disruptor_safe (show newRingBuffer 2 = some ringOfTwo from rfl) .perEvent
    (run_exec step anyStep (init ringOfTwo .perEvent) raceForTwo (by decide))
  exact ⟨h.1, h.2 (by decide), by decide⟩

end Disruptor
end Fluxor.EventLoop
