import Fluxor.Concurrency.Promise

/-!
# Settled promises

What a settled promise owes to those that wait for it: each handler for its result
is invoked once, and each `Await` returns the result.

It does so when no handler is found by both sides and no two calls wait on the
one-slot channel (`Orderly`). The invariants come in layers: the state of the
promise as the settling call goes on (`Phased`), the registered handlers
(`Registered`), their invocations (`Invoked`), and the waiting calls (`Awaited`).
-/

namespace Fluxor.Concurrency.Promise

open Goroutines Config Transition List

variable {α ε : Type*} {p p' : Promise α ε} {i : ℕ} {t : Thread α ε}
  {o : Outcome (Promise α ε) (Thread α ε)}
  {c : Config (Promise α ε) (Thread α ε)}

/-! ## The runs -/

def settling : Thread α ε → ℕ
  | .settle (some _) _ => 1
  | _ => 0

def waiting : Thread α ε → ℕ
  | .await _ .waiting => 1
  | _ => 0

variable (c)

/-- One `Complete`, or one `Fail` with an error, is called. -/
def OneSettle : Move (Thread α ε) Branch → Prop
  | .spawn (.settle (some _) _) => c.total settling = 0
  | _ => True

/-- A registering call that finds a result is not among those that the settling call
has copied, and the copy has been made; and a call starts to wait only while no
other call waits. -/
def Thread.Orderly (i : ℕ) : Thread α ε → Prop
  | .register kind _ .reading =>
    ∀ r ∈ c.shared.result, Kind.of r = kind → ∃ l ∈ c.shared.copied, i ∉ l
  | .await _ .called => c.shared.completed = true ∨ c.total waiting = 0
  | .await _ .reading => c.shared.result.isSome = true ∨ c.total waiting = 0
  | _ => True

def Orderly : Move (Thread α ε) Branch → Prop
  | .spawn _ => True
  | .run i _ => ∀ t ∈ c.threads[i]?, t.Orderly c i

instance (m : Move (Thread α ε) Branch) : Decidable (OneSettle c m) := by
  delta OneSettle
  cases m with
  | spawn t =>
    cases t with
    | settle r => cases r <;> infer_instance
    | _ => infer_instance
  | run => infer_instance

instance (i : ℕ) (t : Thread α ε) : Decidable (t.Orderly c i) := by
  delta Thread.Orderly
  cases t with
  | register _ _ st | await _ st => cases st <;> infer_instance
  | settle => infer_instance

instance (m : Move (Thread α ε) Branch) : Decidable (Orderly c m) := by
  delta Orderly
  cases m <;> infer_instance

variable {c}

/-! ## The state of the promise -/

namespace Settle

def completed : Settle → Bool
  | .called => false
  | _ => true

def stored : Settle → Bool
  | .called | .storing => false
  | _ => true

def sent : Settle → Bool
  | .called | .storing | .sending => false
  | _ => true

def copied : Settle → Option (List ℕ)
  | .calling l _ | .returned l => some l
  | _ => none

def dispatched : Settle → List ℕ
  | .calling l k => l.take k
  | .returned l => l
  | _ => []

end Settle

/-- What the promise holds when its settling call has got so far. -/
structure Phase (p : Promise α ε) (r : Except ε α) (st : Settle) : Prop where
  completed : p.completed = st.completed
  result : p.result = if st.stored then some r else none
  resultChan : ∀ r' ∈ p.resultChan, st.sent = true ∧ r' = r
  copied : p.copied = st.copied

/-- What a call knows of the result. An `Await` without one has seen the end of its context. -/
def Knows (p : Promise α ε) (_ : ℕ) : Thread α ε → Prop
  | .settle (some r) st => Phase p r st
  | .await _ (.storing r) | .await _ (.returned (some r)) => p.result = some r
  | .await ends (.returned none) => ends = true
  | _ => True

structure Phased (c : Config (Promise α ε) (Thread α ε)) : Prop where
  one : c.total settling ≤ 1
  fresh : c.total settling = 0 →
    c.shared.completed = false ∧ c.shared.result = none ∧
      c.shared.resultChan = none ∧ c.shared.copied = none
  threads : c.All Knows

theorem exists_settle (h : c.total settling ≠ 0) :
    ∃ (s : ℕ) (r : Except ε α) (st : Settle), c.threads[s]? = some (.settle (some r) st) := by
  obtain ⟨s, t, ht, hw⟩ := exists_of_total_ne_zero h
  cases t with
  | settle r st =>
    cases r with
    | none => exact absurd rfl hw
    | some r => exact ⟨s, r, st, ht⟩
  | register | await => exact absurd rfl hw

namespace Phased

variable {r : Except ε α}

theorem completed_of_result (h : Phased c) (hr : c.shared.result = some r) :
    c.shared.completed = true := by
  by_cases hnone : c.total settling = 0
  · rw [(h.fresh hnone).2.1] at hr
    cases hr
  · obtain ⟨s, v, st, hs⟩ := exists_settle hnone
    have hphase : Phase c.shared v st := h.threads s _ hs
    rw [hphase.result] at hr
    rw [hphase.completed]
    cases st with
    | called => cases hr
    | _ => rfl

theorem result_of_resultChan (h : Phased c) (hr : c.shared.resultChan = some r) :
    c.shared.result = some r := by
  by_cases hnone : c.total settling = 0
  · rw [(h.fresh hnone).2.2.1] at hr
    cases hr
  · obtain ⟨s, v, st, hs⟩ := exists_settle hnone
    have hphase : Phase c.shared v st := h.threads s _ hs
    obtain ⟨hsent, rfl⟩ := hphase.resultChan r hr
    rw [hphase.result]
    cases st with
    | called | storing | sending => cases hsent
    | _ => rfl

theorem result_of_copied (h : Phased c) {l : List ℕ} (hl : c.shared.copied = some l) :
    ∃ r, c.shared.result = some r := by
  by_cases hnone : c.total settling = 0
  · rw [(h.fresh hnone).2.2.2] at hl
    cases hl
  · obtain ⟨s, v, st, hs⟩ := exists_settle hnone
    have hphase : Phase c.shared v st := h.threads s _ hs
    rw [hphase.copied] at hl
    refine ⟨v, ?_⟩
    rw [hphase.result]
    cases st with
    | called | storing | sending => cases hl
    | _ => rfl

theorem settle_unique (h : Phased c) {s s' : ℕ} {r' : Except ε α} {st st' : Settle}
    (hs : c.threads[s]? = some (.settle (some r) st))
    (hs' : c.threads[s']? = some (.settle (some r') st')) : s = s' := by
  by_contra hne
  have h2 : 1 + 1 ≤ c.total settling := add_le_total (w := settling) hne hs hs'
  have := h.one
  omega

end Phased

theorem Step.settling_eq (h : Step p i t o) : settling o.thread = settling t ∧ o.started = [] := by
  cases h <;> exact ⟨rfl, rfl⟩

theorem total_settling (ht : c.threads[i]? = some t) (h : Step c.shared i t o) :
    (c.advance i o).total settling = c.total settling := by
  grind [total_advance, Step.settling_eq]

variable {r : Except ε α}

theorem SettleStep.phase {st st' : Settle} (hstep : SettleStep p r st p' st') (h : Phase p r st) :
    Phase p' r st' ∧ ∀ r', p.result = some r' → p'.result = some r' := by
  cases hstep with
  | late hlate =>
    rw [h.completed] at hlate
    cases hlate
  | claim => exact ⟨{ h with completed := rfl }, fun _ hr => hr⟩
  | store =>
    refine ⟨{ h with result := rfl }, ?_⟩
    intro r' hr'
    rw [h.result] at hr'
    cases hr'
  | send =>
    refine ⟨{ h with resultChan := ?_ }, fun _ hr => hr⟩
    intro r' hr'
    exact ⟨rfl, (Option.some.inj hr').symm⟩
  | occupied hfull => exact absurd (h.resultChan _ hfull).1 Bool.false_ne_true
  | copy => exact ⟨{ h with copied := rfl }, fun _ hr => hr⟩
  | call | finish => exact ⟨{ h with }, fun _ hr => hr⟩

variable {kind : Kind} {handler : Bool} {st st' : Register α ε}

theorem RegisterStep.same (h : RegisterStep p i kind handler st p' st') :
    p'.completed = p.completed ∧ p'.result = p.result ∧
      p'.resultChan = p.resultChan ∧ p'.copied = p.copied := by
  cases h <;> exact ⟨rfl, rfl, rfl, rfl⟩

variable {ends : Bool}

theorem AwaitStep.same {st st' : Await α ε} (hstep : AwaitStep p ends st p' st')
    (h : Knows p i (.await ends st)) (hcompleted : ∀ r, p.result = some r → p.completed = true) :
    p' = p ∨ p' = { p with resultChan := none } := by
  cases hstep with
  | receive => exact .inr rfl
  | @store r =>
    left
    have hr : p.result = some r := h
    have hc := hcompleted r hr
    cases p
    cases hr
    cases hc
    rfl
  | _ => exact .inl rfl

variable {j : ℕ}

theorem Knows.mono {u : Thread α ε} (h : Knows p j u) (hcompleted : p'.completed = p.completed)
    (hresult : p'.result = p.result) (hchan : ∀ r ∈ p'.resultChan, r ∈ p.resultChan)
    (hcopied : p'.copied = p.copied) : Knows p' j u := by
  cases u with
  | settle r st =>
    cases r with
    | none => trivial
    | some r =>
      have hphase : Phase p r st := h
      exact ⟨hcompleted.trans hphase.completed, hresult.trans hphase.result,
        fun r' hr' => hphase.resultChan r' (hchan r' hr'),
        hcopied.trans hphase.copied⟩
  | register => trivial
  | await ends st =>
    cases st with
    | storing => exact hresult.trans h
    | returned r =>
      cases r with
      | none => exact h
      | some => exact hresult.trans h
    | _ => trivial

section

variable (h : Phased c)

include h

theorem Phased.spawn (hok : OneSettle c (.spawn t))
    (hentry : (code α ε).entry t = true) : Phased (c.spawn t) := by
  have htotal := total_spawn (w := settling) c t
  cases t with
  | settle r st =>
    cases r with
    | none =>
      exact ⟨by rw [htotal]; exact h.one,
        fun hz => h.fresh (htotal.symm.trans hz), h.threads.spawn trivial⟩
    | some =>
      have hzero : c.total settling = 0 := hok
      rw [hzero] at htotal
      obtain ⟨hcompleted, hresult, hchan, hcopied⟩ := h.fresh hzero
      refine ⟨by rw [htotal]; exact le_rfl, ?_, h.threads.spawn ?_⟩
      · intro hz
        rw [htotal] at hz
        cases hz
      · cases st with
        | called =>
          refine ⟨hcompleted, hresult, ?_, hcopied⟩
          grind
        | _ => cases hentry
  | register =>
    exact ⟨by rw [htotal]; exact h.one,
      fun hz => h.fresh (htotal.symm.trans hz), h.threads.spawn trivial⟩
  | await ends st =>
    refine ⟨by rw [htotal]; exact h.one,
      fun hz => h.fresh (htotal.symm.trans hz), h.threads.spawn ?_⟩
    cases st with
    | called => trivial
    | _ => cases hentry

theorem Phased.knows_settle {st st' : Settle}
    (ht : c.threads[i]? = some (.settle (some r) st)) (hstep : SettleStep c.shared r st p' st') :
    (c.advance i ⟨p', .settle (some r) st', []⟩).All Knows := by
  obtain ⟨hphase, hkeep⟩ := hstep.phase (h.threads i _ ht)
  apply h.threads.advance_alone rfl
  · exact hphase
  · intro j u hj hu hknows
    cases u with
    | settle r' =>
      cases r' with
      | none => trivial
      | some => exact absurd (h.settle_unique hu ht) hj
    | register => trivial
    | await ends st =>
      cases st with
      | storing r' => exact hkeep r' hknows
      | returned r' =>
        cases r' with
        | none => exact hknows
        | some r' => exact hkeep r' hknows
      | _ => trivial

theorem Phased.knows_await {st st' : Await α ε}
    (ht : c.threads[i]? = some (.await ends st)) (hstep : AwaitStep c.shared ends st p' st') :
    Knows p' i (.await ends st') := by
  cases hstep with
  | read hr => exact hr
  | receive hr => exact h.result_of_resultChan hr
  | done hends => exact hends
  | store => exact rfl
  | _ => trivial

theorem Phased.advance (ht : c.threads[i]? = some t) (hstep : Step c.shared i t o) :
    Phased (c.advance i o) := by
  have htotal := total_settling ht hstep
  have hone : (c.advance i o).total settling ≤ 1 := htotal ▸ h.one
  have hfresh := fun hz => h.fresh (htotal.symm.trans hz)
  cases hstep with
  | failNil =>
    refine ⟨hone, hfresh, ?_⟩
    apply h.threads.advance_alone rfl
    · trivial
    · intro j u _ _ hu
      exact hu
  | settle hstep =>
    refine ⟨hone, ?_, h.knows_settle ht hstep⟩
    grind [settling, Config.le_total]
  | register hstep =>
    obtain ⟨hcompleted, hresult, hchan, hcopied⟩ := hstep.same
    refine ⟨hone, ?_, ?_⟩
    · intro hz
      obtain ⟨h1, h2, h3, h4⟩ := hfresh hz
      exact ⟨hcompleted.trans h1, hresult.trans h2, hchan.trans h3, hcopied.trans h4⟩
    · apply h.threads.advance_alone rfl
      · trivial
      grind [Knows.mono]
  | await hstep =>
    have hown := h.knows_await ht hstep
    rcases hstep.same (h.threads i _ ht) (fun _ => h.completed_of_result)
      with rfl | rfl
    · refine ⟨hone, hfresh, ?_⟩
      grind [Config.All.advance_alone, threads]
    · refine ⟨hone, ?_, ?_⟩
      · intro hz
        obtain ⟨h1, h2, -, h4⟩ := hfresh hz
        exact ⟨h1, h2, rfl, h4⟩
      grind [Config.All.advance_alone, threads, Knows.mono]

/-! ## How the promise grows -/

structure Grows (p p' : Promise α ε) : Prop where
  result : ∀ r, p.result = some r → p'.result = some r
  handlers : ∀ kind, p.handlers kind ⊆ p'.handlers kind
  copied : ∀ l, p.copied = some l → p'.copied = some l
  copies : ∀ l, p.copied = none → p'.copied = some l →
    ∃ r, p.result = some r ∧ l = p.handlers (Kind.of r)

omit h in
theorem Grows.refl (p : Promise α ε) : Grows p p := by
  refine ⟨fun _ h => h, fun _ => List.Subset.refl _, fun _ h => h, ?_⟩
  intro l hnone hl
  rw [hnone] at hl
  cases hl

theorem Phased.grows (ht : c.threads[i]? = some t) (hstep : Step c.shared i t o) :
    Grows c.shared o.shared := by
  cases hstep with
  | failNil => exact .refl _
  | settle hstep =>
    have hphase : Phase c.shared _ _ := h.threads i _ ht
    have hkeep := (hstep.phase hphase).2
    cases hstep with
    | copy =>
      refine ⟨hkeep, fun _ => List.Subset.refl _, ?_, ?_⟩
      · intro l hl
        rw [hphase.copied] at hl
        cases hl
      · intro l _ hl
        exact ⟨_, hphase.result, (Option.some.inj hl).symm⟩
    | _ =>
      exact ⟨hkeep, (Grows.refl c.shared).handlers,
        (Grows.refl c.shared).copied, (Grows.refl c.shared).copies⟩
  | register hstep =>
    cases hstep with
    | append | call =>
      refine ⟨fun _ hr => hr, ?_, fun _ hl => hl, (Grows.refl c.shared).copies⟩
      grind
    | _ => exact .refl _
  | await hstep =>
    rcases hstep.same (h.threads i _ ht) (fun _ => h.completed_of_result)
      with rfl | rfl
    · exact .refl _
    · exact ⟨fun _ hr => hr, fun _ => List.Subset.refl _, fun _ hl => hl,
        (Grows.refl c.shared).copies⟩

end

/-! ## The registered handlers -/

/-- A registering call knows whether the settling call has its handler in its copy. -/
def Register.Listed (p : Promise α ε) (i : ℕ) (kind : Kind) (handler : Bool) : Register α ε → Prop
  | .called => True
  | .checking | .reading => handler = true → i ∈ p.handlers kind
  | .calling r => p.result = some r ∧ Kind.of r = kind ∧ ∃ l ∈ p.copied, i ∉ l
  | .returned true => (∃ r ∈ p.result, Kind.of r = kind) ∧ ∃ l ∈ p.copied, i ∉ l
  | .returned false => handler = true → i ∈ p.handlers kind ∧
      ∀ l ∈ p.copied, ∀ r ∈ p.result, Kind.of r = kind → i ∈ l

def Listed (p : Promise α ε) (i : ℕ) : Thread α ε → Prop
  | .register kind handler st => st.Listed p i kind handler
  | _ => True

structure Registered (c : Config (Promise α ε) (Thread α ε)) : Prop where
  origin : ∀ kind, ∀ j ∈ c.shared.handlers kind, ∃ st,
    c.threads[j]? = some (.register kind true st) ∧ st ≠ .called
  nodup : ∀ kind, (c.shared.handlers kind).Nodup
  copied : ∀ l, c.shared.copied = some l → ∃ r, c.shared.result = some r ∧
    l ⊆ c.shared.handlers (Kind.of r) ∧ l.Nodup
  threads : c.All Listed

theorem Registered.spawn (h : Registered c) (hentry : (code α ε).entry t = true) :
    Registered (c.spawn t) := by
  refine ⟨?_, h.nodup, h.copied, h.threads.spawn ?_⟩
  · intro kind j hj
    obtain ⟨st, hst, hne⟩ := h.origin kind j hj
    grind [getElem?_spawn_of_some]
  · cases t with
    | register kind handler st =>
      cases st with
      | called => trivial
      | _ => cases hentry
    | _ => trivial

theorem Step.mem_handlers (h : Step p i t o) (hj : j ∈ o.shared.handlers kind) :
    j ∈ p.handlers kind ∨ j = i ∧ o.thread = .register kind true .checking := by
  cases h with
  | failNil => exact .inl hj
  | settle h | await h => cases h <;> exact .inl hj
  | @register kind' handler st p' st' h => cases h <;> grind

theorem RegisterStep.ne_called (h : RegisterStep p i kind handler st p' st') : st' ≠ .called := by
  cases h <;> simp

theorem Registered.origin_advance (h : Registered c) (ht : c.threads[i]? = some t)
    (hstep : Step c.shared i t o) (hj : j ∈ o.shared.handlers kind) :
    ∃ st, (c.advance i o).threads[j]? = some (.register kind true st) ∧ st ≠ .called := by
  rcases hstep.mem_handlers hj with hj | ⟨rfl, hthread⟩
  · obtain ⟨st, hst, hne⟩ := h.origin kind j hj
    by_cases hji : j = i
    · subst hji
      rw [hst] at ht
      cases ht
      cases hstep
      grind [getElem?_advance_self, RegisterStep.ne_called]
    grind [getElem?_advance_of_ne]
  grind [getElem?_advance_self]

theorem Registered.nodup_advance (h : Registered c) (ht : c.threads[i]? = some t)
    (hstep : Step c.shared i t o) (kind : Kind) : (o.shared.handlers kind).Nodup := by
  cases hstep with
  | failNil => exact h.nodup kind
  | settle hstep | await hstep => cases hstep <;> exact h.nodup kind
  | @register kind' handler st p' st' hstep =>
    cases hstep with
    | append =>
      change List.Nodup (if kind = kind' then _ else _)
      split
      · rw [nodup_append]
        refine ⟨h.nodup kind, by simp, ?_⟩
        rintro j hj _ hi rfl
        obtain rfl := mem_singleton.mp hi
        obtain ⟨st, hst, hne⟩ := h.origin kind j hj
        grind
      · exact h.nodup kind
    | _ => exact h.nodup kind

theorem Registered.copied_advance (h : Registered c) (hgrows : Grows c.shared p') {l : List ℕ}
    (hl : p'.copied = some l) :
    ∃ r, p'.result = some r ∧ l ⊆ p'.handlers (Kind.of r) ∧ l.Nodup := by
  cases hold : c.shared.copied with
  | none =>
    obtain ⟨r, hr, rfl⟩ := hgrows.copies l hold hl
    grind [Grows.result, Grows.handlers, nodup]
  | some l' =>
    obtain ⟨r, hr, hsub, hnodup⟩ := h.copied l' hold
    rw [hgrows.copied l' hold] at hl
    cases hl
    exact ⟨r, hgrows.result r hr, List.Subset.trans hsub (hgrows.handlers _), hnodup⟩

theorem Register.Listed.mono (h : st.Listed p j kind handler) (hgrows : Grows p p')
    (hcopied : ∀ l, p.copied = some l → ∃ r, p.result = some r) : st.Listed p' j kind handler := by
  have hnot : (∃ l ∈ p.copied, j ∉ l) → ∃ l ∈ p'.copied, j ∉ l := by
    rintro ⟨l, hl, hj⟩
    exact ⟨l, hgrows.copied l hl, hj⟩
  cases st with
  | called => trivial
  | checking | reading => exact fun htrue => hgrows.handlers kind (h htrue)
  | calling r => exact ⟨hgrows.result r h.1, h.2.1, hnot h.2.2⟩
  | returned invoked =>
    cases invoked with
    | true =>
      obtain ⟨⟨r, hr, hkind⟩, hl⟩ := h
      exact ⟨⟨r, hgrows.result r hr, hkind⟩, hnot hl⟩
    | false =>
      intro htrue
      obtain ⟨hmem, hin⟩ := h htrue
      refine ⟨hgrows.handlers kind hmem, ?_⟩
      intro l hl r hr hkind
      cases hold : p.copied with
      | none =>
        obtain ⟨r', hr', rfl⟩ := hgrows.copies l hold hl
        grind [Grows.result]
      | some => grind [Grows.result, Grows.copied]

theorem Phased.listed_register (h : Phased c) (hlisted : st.Listed c.shared i kind handler)
    (hok : st = .reading → ∀ r ∈ c.shared.result, Kind.of r = kind →
      ∃ l ∈ c.shared.copied, i ∉ l) (hstep : RegisterStep c.shared i kind handler st p' st') :
    st'.Listed p' i kind handler := by
  cases hstep with
  | nil hfalse =>
    intro htrue
    rw [hfalse] at htrue
    cases htrue
  | append =>
    intro _
    grind
  | completed => exact hlisted
  | early hearly =>
    intro htrue
    refine ⟨hlisted htrue, ?_⟩
    intro l hl r hr
    rw [h.completed_of_result hr] at hearly
    cases hearly
  | found hr hkind => exact ⟨hr, hkind, hok rfl _ hr hkind⟩
  | other =>
    intro htrue
    refine ⟨hlisted htrue, ?_⟩
    grind
  | unset hnone =>
    intro htrue
    refine ⟨hlisted htrue, ?_⟩
    intro l _ r hr
    rw [hnone] at hr
    cases hr
  | @call r => exact ⟨⟨r, hlisted.1, hlisted.2.1⟩, hlisted.2.2⟩

variable {b : Branch}

theorem Registered.advance (h : Registered c) (hphased : Phased c) (hok : Orderly c (.run i b))
    (ht : c.threads[i]? = some t) (hstep : Step c.shared i t o) : Registered (c.advance i o) := by
  have hgrows := hphased.grows ht hstep
  refine ⟨fun _ _ => h.origin_advance ht hstep, h.nodup_advance ht hstep,
    fun _ => h.copied_advance hgrows, ?_⟩
  apply h.threads.advance_alone hstep.settling_eq.2
  · cases hstep with
    | failNil | settle | await => trivial
    | register hstep =>
      refine hphased.listed_register (h.threads i _ ht) ?_ hstep
      rintro rfl
      exact hok _ ht
  · intro j u _ _ hu
    cases u with
    | settle | await => trivial
    | register kind handler st =>
      have hlisted : st.Listed c.shared j kind handler := hu
      exact hlisted.mono hgrows (fun _ => hphased.result_of_copied)

/-! ## The invocations -/

/-- Whether a registering call has invoked its handler itself. -/
def own : Option (Thread α ε) → ℕ
  | some (.register _ _ (.returned true)) => 1
  | _ => 0

def invocations (p : Promise α ε) (j : ℕ) : ℕ := (p.invoked.map Prod.fst).count j

/-- A handler has been invoked by the settling call or by its own call. -/
structure Invoked (c : Config (Promise α ε) (Thread α ε)) : Prop where
  results : ∀ x ∈ c.shared.invoked, c.shared.result = some x.2
  count : ∀ (s : ℕ) (r : Except ε α) (st : Settle) (j : ℕ),
    c.threads[s]? = some (.settle (some r) st) →
      invocations c.shared j = st.dispatched.count j + own c.threads[j]?

theorem invocations_append (p : Promise α ε) (x : ℕ × Except ε α) (j : ℕ) :
    invocations { p with invoked := p.invoked ++ [x] } j = invocations p j + [x.1].count j := by
  grind [invocations]

theorem SettleStep.invocations_add {st st' : Settle} (h : SettleStep p r st p' st') (j : ℕ) :
    invocations p' j + st.dispatched.count j = invocations p j + st'.dispatched.count j := by
  cases h with
  | @call l k x hk =>
    rw [invocations_append]
    change _ + (l.take k).count j = _ + (l.take (k + 1)).count j
    rw [take_add_one, hk, count_append, Option.toList_some, add_right_comm, add_assoc]
  | @finish l k hk =>
    change _ + (l.take k).count j = _ + l.count j
    rw [take_of_length_le (getElem?_eq_none_iff.mp hk)]
  | _ => rfl

theorem RegisterStep.invocations_eq (h : RegisterStep p i kind handler st p' st') (j : ℕ) :
    invocations p' j = invocations p j +
      if j = i then own (some (.register kind handler st')) else 0 := by
  cases h <;> grind [own, invocations]

theorem Step.invocations_eq (h : Step p i t o) (ht : settling t = 0) (j : ℕ) :
    invocations o.shared j = invocations p j + if j = i then own (some o.thread) else 0 := by
  cases h with
  | settle => cases ht
  | register h => exact h.invocations_eq j
  | failNil =>
    change invocations p j = invocations p j + if j = i then 0 else 0
    rw [ite_self, add_zero]
  | await h =>
    cases h <;>
      (change invocations p j = invocations p j + if j = i then 0 else 0
       rw [ite_self, add_zero])

theorem Step.own_advance (h : Step c.shared i t o) (ht : c.threads[i]? = some t) (j : ℕ) :
    own (c.advance i o).threads[j]? =
      own c.threads[j]? + if j = i then own (some o.thread) else 0 := by
  rw [getElem?_advance_alone ht h.settling_eq.2]
  split
  next hji =>
    -- a goroutine that moves has not returned
    have hzero : own (some t) = 0 := by
      cases h with
      | register h => cases h <;> rfl
      | _ => rfl
    rw [hji, ht, hzero, zero_add]
  · rw [add_zero]

theorem own_of_entry (hentry : (code α ε).entry t = true) : own (some t) = 0 := by
  cases t with
  | register kind handler st =>
    cases st with
    | called => rfl
    | _ => cases hentry
  | _ => rfl

theorem own_spawn (hentry : (code α ε).entry t = true) (j : ℕ) :
    own (c.spawn t).threads[j]? = own c.threads[j]? := by
  cases hj : c.threads[j]? with
  | some => rw [getElem?_spawn_of_some hj]
  | none =>
    cases hj' : (c.spawn t).threads[j]? with
    | none => rfl
    | some =>
      rcases getElem?_spawn hj' with hu | ⟨-, rfl⟩
      · rw [hj] at hu
        cases hu
      · exact own_of_entry hentry

theorem Registered.own_eq_zero (h : Registered c) (hnone : c.shared.result = none) (j : ℕ) :
    own c.threads[j]? = 0 := by
  cases hj : c.threads[j]? with
  | none => rfl
  | some u =>
    cases u with
    | settle | await => rfl
    | register kind handler st =>
      cases st with
      | returned invoked =>
        cases invoked with
        | false => rfl
        | true =>
          obtain ⟨⟨r, hr, -⟩, -⟩ := h.threads j _ hj
          rw [hnone] at hr
          cases hr
      | _ => rfl

section

variable (h : Invoked c) (hphased : Phased c) (hregistered : Registered c)

include h hphased hregistered

theorem Invoked.spawn
    (hok : OneSettle c (.spawn t)) (hentry : (code α ε).entry t = true) : Invoked (c.spawn t) := by
  refine ⟨h.results, ?_⟩
  intro s r st j hs
  rw [own_spawn hentry]
  rcases getElem?_spawn hs with hs | ⟨rfl, rfl⟩
  · exact h.count s r st j hs
  · -- there is no result yet, so nothing has been invoked
    have hnone := (hphased.fresh hok).2.1
    have hinvoked : c.shared.invoked = [] := by
      rw [eq_nil_iff_forall_not_mem]
      intro x hx
      grind [results]
    rw [hregistered.own_eq_zero hnone, invocations]
    change (c.shared.invoked.map Prod.fst).count j = _
    rw [hinvoked]
    cases st with
    | called => rfl
    | _ => cases hentry

theorem Invoked.results_advance (ht : c.threads[i]? = some t) (hstep : Step c.shared i t o) :
    ∀ x ∈ o.shared.invoked, o.shared.result = some x.2 := by
  have hgrows := hphased.grows ht hstep
  have hold : ∀ x ∈ c.shared.invoked, o.shared.result = some x.2 :=
    fun x hx => hgrows.result _ (h.results x hx)
  cases hstep with
  | failNil => exact hold
  | settle hstep =>
    cases hstep with
    | call =>
      intro x hx
      rcases mem_append.mp hx with hx | hx
      · exact hold x hx
      · obtain rfl := mem_singleton.mp hx
        have hphase : Phase c.shared _ _ := hphased.threads i _ ht
        exact hphase.result
    | _ => exact hold
  | register hstep =>
    cases hstep with
    | call =>
      intro x hx
      rcases mem_append.mp hx with hx | hx
      · exact hold x hx
      · obtain rfl := mem_singleton.mp hx
        exact (hregistered.threads i _ ht).1
    | _ => exact hold
  | await hstep => cases hstep <;> exact hold

theorem Invoked.advance
    (ht : c.threads[i]? = some t) (hstep : Step c.shared i t o) : Invoked (c.advance i o) := by
  refine ⟨h.results_advance hphased hregistered ht hstep, ?_⟩
  intro s r st j hs
  rw [hstep.own_advance ht]
  rw [getElem?_advance_alone ht hstep.settling_eq.2] at hs
  split at hs
  · -- the settling call itself moves
    rename_i hsi
    subst hsi
    cases hstep with
    | @settle r' st' p' st'' hstep =>
      cases hs
      have hcount := h.count s r st' j ht
      have hadd := hstep.invocations_add j
      change invocations p' j = st.dispatched.count j + (own c.threads[j]? + if j = s then 0 else 0)
      rw [ite_self]
      omega
    | _ => cases hs
  next hsi =>
    have hother : settling t = 0 := by
      by_contra hne
      have htwo : 1 + settling t ≤ c.total settling := add_le_total (w := settling) hsi hs ht
      have hone := hphased.one
      omega
    change invocations o.shared j = _
    rw [hstep.invocations_eq hother, h.count s r st j hs, add_assoc]

end

/-! ## The waiting calls -/

structure Awaited (c : Config (Promise α ε) (Thread α ε)) : Prop where
  waiters : c.total waiting ≤ 1
  sent : ∀ (s : ℕ) (r : Except ε α) (st : Settle),
    c.threads[s]? = some (.settle (some r) st) → st.sent = true →
      c.shared.resultChan = some r ∨ c.total waiting = 0

theorem Awaited.spawn (h : Awaited c) (hentry : (code α ε).entry t = true) :
    Awaited (c.spawn t) := by
  have htotal : (c.spawn t).total waiting = c.total waiting := by
    rw [total_spawn]
    cases t with
    | await ends st =>
      cases st with
      | called => rfl
      | _ => cases hentry
    | _ => rfl
  refine ⟨htotal ▸ h.waiters, ?_⟩
  intro s r st hs hsent
  rw [htotal]
  rcases getElem?_spawn hs with hs | ⟨-, rfl⟩
  · exact h.sent s r st hs hsent
  · cases st with
    | called => cases hsent
    | _ => cases hentry

theorem total_waiting (ht : c.threads[i]? = some t) (h : Step c.shared i t o) :
    waiting t + (c.advance i o).total waiting = c.total waiting + waiting o.thread := by
  have htotal := total_advance (w := waiting) (o := o) ht
  rw [h.settling_eq.2] at htotal
  exact htotal

theorem Phased.sent (h : Phased c) {s : ℕ} {st : Settle}
    (hs : c.threads[s]? = some (.settle (some r) st)) (hsent : st.sent = true) :
    c.shared.completed = true ∧ c.shared.result = some r := by
  have hphase : Phase c.shared r st := h.threads s _ hs
  rw [hphase.completed, hphase.result]
  cases st with
  | called | storing | sending => cases hsent
  | _ => exact ⟨rfl, rfl⟩

theorem Awaited.settle (h : Awaited c) (hphased : Phased c) {st st' : Settle}
    (ht : c.threads[i]? = some (.settle (some r) st)) (hstep : SettleStep c.shared r st p' st')
    (hsent : st'.sent = true) : p'.resultChan = some r ∨ c.total waiting = 0 := by
  have hphase : Phase c.shared r st := hphased.threads i _ ht
  cases hstep with
  | late hlate =>
    rw [hphase.completed] at hlate
    cases hlate
  | claim | store => cases hsent
  | send => exact .inl rfl
  | occupied hfull => exact absurd (hphase.resultChan _ hfull).1 Bool.false_ne_true
  | _ => exact h.sent i r _ ht rfl

theorem Awaited.await (h : Awaited c) (hphased : Phased c) (hok : Orderly c (.run i b))
    {st st' : Await α ε} (ht : c.threads[i]? = some (.await ends st))
    (hstep : AwaitStep c.shared ends st p' st') {n : ℕ}
    (hn : waiting (.await ends st) + n = c.total waiting + waiting (.await ends st')) :
    n ≤ 1 ∧ ∀ (s : ℕ) (r : Except ε α) (st : Settle),
      c.threads[s]? = some (.settle (some r) st) → st.sent = true →
        p'.resultChan = some r ∨ n = 0 := by
  have hwaiters := h.waiters
  have horderly := hok _ ht
  cases hstep with
  | early hno | unset hno =>
    have hzero : c.total waiting = 0 :=
      Or.resolve_left horderly (by rw [hno]; exact Bool.false_ne_true)
    change 0 + n = _ + 1 at hn
    grind [Phased.sent]
  | receive | done =>
    change 1 + n = _ + 0 at hn
    grind
  | _ => grind [waiting, sent]

theorem Awaited.advance (h : Awaited c) (hphased : Phased c) (hok : Orderly c (.run i b))
    (ht : c.threads[i]? = some t) (hstep : Step c.shared i t o) : Awaited (c.advance i o) := by
  have htotal := total_waiting ht hstep
  have hthreads := getElem?_advance_alone ht hstep.settling_eq.2
  -- a settling call is at the same point as before, unless it has moved
  have hsettle : ∀ {s r st},
      (c.advance i o).threads[s]? = some (.settle (some r) st) →
        s = i ∧ o.thread = .settle (some r) st ∨
          s ≠ i ∧ c.threads[s]? = some (.settle (some r) st) := by
    grind
  generalize hn : (c.advance i o).total waiting = n at htotal
  cases hstep with
  | failNil =>
    change 0 + n = _ + 0 at htotal
    obtain rfl : n = c.total waiting := by omega
    refine ⟨hn ▸ h.waiters, ?_⟩
    intro s r st hs hsent
    rw [hn]
    rcases hsettle hs with ⟨-, hs⟩ | ⟨-, hs⟩
    · cases hs
    · exact h.sent s r st hs hsent
  | settle hstep =>
    change 0 + n = _ + 0 at htotal
    obtain rfl : n = c.total waiting := by omega
    refine ⟨hn ▸ h.waiters, ?_⟩
    intro s r st hs hsent
    rw [hn]
    rcases hsettle hs with ⟨-, hs⟩ | ⟨hne, hs⟩
    · cases hs
      exact h.settle hphased ht hstep hsent
    · exact absurd (hphased.settle_unique hs ht) hne
  | register hstep =>
    change 0 + n = _ + 0 at htotal
    obtain rfl : n = c.total waiting := by omega
    refine ⟨hn ▸ h.waiters, ?_⟩
    intro s r st hs hsent
    rw [hn]
    rcases hsettle hs with ⟨-, hs⟩ | ⟨-, hs⟩
    · cases hs
    · have hsame := h.sent s r st hs hsent
      rwa [← hstep.same.2.2.1] at hsame
  | await hstep =>
    obtain ⟨hle, hsent⟩ := h.await hphased hok ht hstep htotal
    refine ⟨hn ▸ hle, ?_⟩
    intro s r st hs hst
    rw [hn]
    rcases hsettle hs with ⟨-, hs⟩ | ⟨-, hs⟩
    · cases hs
    · exact hsent s r st hs hst

end Fluxor.Concurrency.Promise
