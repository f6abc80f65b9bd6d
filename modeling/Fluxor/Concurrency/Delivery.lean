import Mathlib.Data.List.Nodup
import Fluxor.Concurrency.Settling

/-!
# Delivery of a promise

Every handler for the result of a promise is invoked once with it, and every
`Await` returns it, in the fair executions that are `Orderly`. Without this
condition a handler may be invoked twice, and a waiting call may wait for ever.
-/

namespace Fluxor.Concurrency.Promise

open Goroutines Transition List Execution Code Option Thread

variable {α ε : Type*} {p : Promise α ε} {c : Config (Promise α ε) (Thread α ε)}

def calls (p : Promise α ε) (j : ℕ) : List (Except ε α) :=
  (p.invoked.filter fun x => x.1 == j).map Prod.snd

/-- A handler for the result has been invoked at most once, with this result, and a
handler of the other kind not at all. -/
def Once (c : Config (Promise α ε) (Thread α ε)) : Prop :=
  ∀ (s j : ℕ) (r : Except ε α) (kind : Kind) (st : Settle)
    (st' : Register α ε), c.threads[s]? = some (.settle (some r) st) →
    c.threads[j]? = some (.register kind true st') →
      calls c.shared j = [] ∨ Kind.of r = kind ∧ calls c.shared j = [r]

/-- Eventually each handler for the result has been invoked, and each `Await` whose
context does not end has returned the result. -/
def Delivered {ok : Config (Promise α ε) (Thread α ε) → Move (Thread α ε) Branch → Prop}
    (e : Execution (code α ε) ok (newPromise α ε)) : Prop :=
  ∀ (n s : ℕ) (r : Except ε α) (st : Settle),
    (e.config n).threads[s]? = some (.settle (some r) st) →
    (∀ (j : ℕ) (st' : Register α ε),
      (e.config n).threads[j]? = some (.register (Kind.of r) true st') →
        ∃ N, ∀ m, N ≤ m → calls (e.config m).shared j = [r]) ∧
    ∀ (j : ℕ) (st' : Await α ε), (e.config n).threads[j]? = some (.await false st') →
        ∃ N, ∀ m, N ≤ m → (e.config m).threads[j]? = some (.await false (.returned (some r)))

/-! ## Every run -/

structure Inv (c : Config (Promise α ε) (Thread α ε)) : Prop where
  phased : Phased c
  registered : Registered c
  invoked : Invoked c
  awaited : Awaited c

theorem inv_newPromise : Inv (newPromise α ε) := by
  have hthreads : ∀ (s : ℕ) (t : Thread α ε), (newPromise α ε).threads[s]? ≠ some t := by
    intro s t hs
    cases hs
  refine ⟨⟨Nat.zero_le 1, fun _ => ⟨rfl, rfl, rfl, rfl⟩, ?_⟩,
    ⟨?_, fun _ => nodup_nil, ?_, ?_⟩, ⟨?_, ?_⟩, ⟨Nat.zero_le 1, ?_⟩⟩
  · exact fun s t hs => absurd hs (hthreads s t)
  · intro kind j hj
    cases hj
  · intro l hl
    cases hl
  · exact fun s t hs => absurd hs (hthreads s t)
  · intro x hx
    cases hx
  · exact fun s r st j hs => absurd hs (hthreads s _)
  · exact fun s r st hs => absurd hs (hthreads s _)

theorem inv_of_run {acts : List (Move (Thread α ε) Branch)}
    (h : Run (code α ε).step (fun c a => OneSettle c a ∧ Orderly c a) (newPromise α ε) acts c) :
    Inv c := by
  refine run_invariant (I := Inv) ?_ ?_ h inv_newPromise
  · intro c t hI hok hentry
    exact ⟨hI.phased.spawn hok.1 hentry, hI.registered.spawn hentry,
      hI.invoked.spawn hI.phased hI.registered hok.1 hentry,
      hI.awaited.spawn hentry⟩
  · intro c i b t o hI hok ht ho
    have hstep := step_of_next ho
    exact ⟨hI.phased.advance ht hstep, hI.registered.advance hI.phased hok.2 ht hstep,
      hI.invoked.advance hI.phased hI.registered ht hstep,
      hI.awaited.advance hI.phased hok.2 ht hstep⟩

/-! ## At most once -/

variable {st : Settle}

theorem Settle.dispatched_of_copied (h : st.copied = none) : st.dispatched = [] := by
  cases st with
  | calling | returned => cases h
  | _ => rfl

theorem Settle.dispatched_sublist {l : List ℕ} (h : st.copied = some l) :
    st.dispatched.Sublist l := by
  cases st with
  | calling l' k =>
    cases h
    exact take_sublist k l
  | returned =>
    cases h
    exact List.Sublist.refl l
  | _ => cases h

section Handlers

variable {s j : ℕ} {r : Except ε α} {kind : Kind} {st : Settle} {st' : Register α ε}

section

variable (h : Inv c) (hs : c.threads[s]? = some (.settle (some r) st))

include h hs

theorem Inv.result_eq {r' : Except ε α} (hr' : c.shared.result = some r') : r' = r := by
  have hphase : Phase c.shared r st := h.phased.threads s _ hs
  rw [hphase.result] at hr'
  grind

theorem Inv.calls_eq : calls c.shared j = replicate (invocations c.shared j) r := by
  rw [eq_replicate_iff]
  constructor
  · rw [calls, invocations, length_map, count, countP_map,
      countP_eq_length_filter]
    rfl
  · intro x hx
    obtain ⟨y, hy, rfl⟩ := mem_map.mp hx
    grind [result_eq, Invoked.results, invoked]

section

variable (hj : c.threads[j]? = some (.register kind true st'))

include hj

theorem Inv.kind_of_mem {l : List ℕ}
    (hl : c.shared.copied = some l) (hmem : j ∈ l) : Kind.of r = kind := by
  obtain ⟨r', hr', hsub, -⟩ := h.registered.copied l hl
  obtain rfl := h.result_eq hs hr'
  obtain ⟨st'', hj', -⟩ := h.registered.origin _ j (hsub hmem)
  rw [hj] at hj'
  cases hj'
  rfl

theorem Inv.of_own
    (hown : own c.threads[j]? ≠ 0) :
    Kind.of r = kind ∧ st.dispatched.count j = 0 ∧ own c.threads[j]? = 1 := by
  rw [hj] at hown ⊢
  cases st' with
  | returned invoked =>
    cases invoked with
    | false => exact absurd rfl hown
    | true =>
      obtain ⟨⟨r', hr', hkind⟩, l, hl, hnot⟩ := h.registered.threads j _ hj
      have hphase : Phase c.shared r st := h.phased.threads s _ hs
      obtain rfl := h.result_eq hs hr'
      refine ⟨hkind, ?_, rfl⟩
      rw [count_eq_zero]
      intro hmem
      have hcopied : st.copied = some l := hphase.copied.symm.trans hl
      exact hnot ((Settle.dispatched_sublist hcopied).subset hmem)
  | _ => exact absurd rfl hown

end

end

theorem Inv.once (h : Inv c) : Once c := by
  intro s j r kind st st' hs hj
  have hcount := h.invoked.count s r st j hs
  have hphase : Phase c.shared r st := h.phased.threads s _ hs
  rw [h.calls_eq hs]
  by_cases hown : own c.threads[j]? = 0
  · rw [hown, add_zero] at hcount
    rw [hcount]
    cases hl : c.shared.copied with
    | none => grind [Settle.dispatched_of_copied, Phase.copied]
    | some l =>
      by_cases hmem : j ∈ st.dispatched
      · right
        have hsub := Settle.dispatched_sublist (hphase.copied.symm.trans hl)
        obtain ⟨r', -, -, hnodup⟩ := h.registered.copied l hl
        grind [kind_of_mem]
      grind
  · obtain ⟨hkind, hzero, hone⟩ := h.of_own hs hj hown
    right
    refine ⟨hkind, ?_⟩
    rw [hcount, hzero, hone]
    rfl

theorem Inv.calls_of_returned (h : Inv c) {l : List ℕ} {invoked : Bool}
    (hs : c.threads[s]? = some (.settle (some r) (.returned l)))
    (hj : c.threads[j]? = some (.register (Kind.of r) true (.returned invoked))) :
    calls c.shared j = [r] := by
  have hcount := h.invoked.count s r _ j hs
  have hphase : Phase c.shared r (.returned l) := h.phased.threads s _ hs
  have hlisted := h.registered.threads j _ hj
  rw [h.calls_eq hs, hcount]
  cases invoked with
  | true =>
    have hown : own c.threads[j]? ≠ 0 := by
      rw [hj]
      exact Nat.one_ne_zero
    obtain ⟨-, hzero, hone⟩ := h.of_own hs hj hown
    rw [hzero, hone]
    rfl
  | false =>
    obtain ⟨-, hin⟩ := hlisted rfl
    have hmem : j ∈ l := hin l hphase.copied r hphase.result rfl
    obtain ⟨-, -, -, hnodup⟩ := h.registered.copied l hphase.copied
    have hone : l.count j = 1 := count_eq_one_of_mem hnodup hmem
    rw [hj]
    change replicate (l.count j + 0) r = [r]
    rw [hone]
    rfl

end Handlers

/-! ## Every call comes to its end -/

def Thread.rank : Thread α ε → ℕ
  | .settle _ .called => 4
  | .settle _ .storing => 3
  | .settle _ .sending => 2
  | .settle _ .copying => 1
  | .register _ _ .called => 4
  | .register _ _ .checking => 3
  | .register _ _ .reading => 2
  | .register _ _ (.calling _) => 1
  | .await _ .called => 4
  | .await _ .reading => 3
  | .await _ .waiting => 2
  | .await _ (.storing _) => 1
  | _ => 0

def Thread.copied : Thread α ε → Option (List ℕ)
  | .settle _ st => st.copied
  | _ => none

def Thread.remaining : Thread α ε → ℕ
  | .settle _ (.calling l k) => l.length - k + 1
  | _ => 0

variable {r : Except ε α}

theorem settle_enabled {s : ℕ} (hs : c.threads[s]? = some (.settle (some r) st))
    (hst : ∀ l, st ≠ .returned l) : (code α ε).Enabled c s := by
  refine enabled_of_next (b := Branch.next) hs ?_
  change (Option.map _ (c.shared.settleNext r st)).isSome = true
  rw [isSome_map]
  fun_cases settleNext c.shared r st
  case case9 l => exact absurd rfl (hst l)
  all_goals rfl

variable {j : ℕ}

theorem register_enabled {kind : Kind} {handler : Bool} {st : Register α ε}
    (hj : c.threads[j]? = some (.register kind handler st))
    (hst : ∀ invoked, st ≠ .returned invoked) : (code α ε).Enabled c j := by
  refine enabled_of_next (b := Branch.next) hj ?_
  change (Option.map _ (c.shared.registerNext j kind handler st)).isSome = true
  rw [isSome_map]
  fun_cases registerNext c.shared j kind handler st
  case case9 invoked => exact absurd rfl (hst invoked)
  all_goals rfl

theorem await_enabled {ends : Bool} {st : Await α ε} (hj : c.threads[j]? = some (.await ends st))
    (hwaiting : st = .waiting → c.shared.resultChan.isSome = true) (hst : ∀ r, st ≠ .returned r) :
    (code α ε).Enabled c j := by
  cases st with
  | called =>
    refine enabled_of_next (b := Branch.next) hj ?_
    change (Option.map _ (ite _ _ _)).isSome = true
    split <;> rfl
  | reading =>
    refine enabled_of_next (b := Branch.next) hj ?_
    change (Option.map _ (c.shared.awaitNext ends .reading .next)).isSome = true
    rw [awaitNext]
    split <;> rfl
  | waiting =>
    refine enabled_of_next (b := Branch.channel) hj ?_
    obtain ⟨r, hr⟩ := isSome_iff_exists.mp (hwaiting rfl)
    change (Option.map _ (c.shared.awaitNext ends .waiting .channel)).isSome = true
    rw [awaitNext, hr]
    rfl
  | storing => exact enabled_of_next (b := Branch.next) hj rfl
  | returned r => exact absurd rfl (hst r)

section Liveness

variable {ok : Config (Promise α ε) (Thread α ε) → Move (Thread α ε) Branch → Prop}
  {e : Execution (code α ε) ok (newPromise α ε)} {n : ℕ}

theorem settle_copies (hfair : e.Fair) {s : ℕ} {r : Except ε α} {st : Settle}
    (hs : (e.config n).threads[s]? = some (.settle (some r) st)) :
    ∃ m u, n ≤ m ∧ (e.config m).threads[s]? = some u ∧
      (∃ st', u = .settle (some r) st') ∧ ∃ l, u.copied = some l := by
  refine eventually_done hfair (fun u => ∃ st', u = .settle (some r) st')
    (fun u => ∃ l, u.copied = some l) rank hs ⟨st, rfl⟩ ?_ ?_
  · rintro m u hm hu ⟨st', rfl⟩ hnot
    refine settle_enabled hu ?_
    rintro l rfl
    exact hnot ⟨l, rfl⟩
  · rintro m u b o hm - hu ⟨st', rfl⟩ hnot ho
    cases step_of_next ho with
    | settle hstep =>
      refine ⟨⟨_, rfl⟩, ?_⟩
      cases hstep with
      | late | copy | call | finish => exact .inl ⟨_, rfl⟩
      | _ => exact .inr (Nat.lt_succ_self _)

theorem settle_returns (hfair : e.Fair) {s : ℕ} {r : Except ε α} {st : Settle}
    (hs : (e.config n).threads[s]? = some (.settle (some r) st)) :
    ∃ m l, n ≤ m ∧ (e.config m).threads[s]? = some (.settle (some r) (.returned l)) := by
  obtain ⟨n', u, hn', hu, ⟨st', rfl⟩, l, hl⟩ := settle_copies hfair hs
  suffices ∃ m u, n' ≤ m ∧ (e.config m).threads[s]? = some u ∧
      (∃ st', u = .settle (some r) st' ∧ st'.copied = some l) ∧
      ∃ l, u = .settle (some r) (.returned l) by
    grind
  refine eventually_done hfair
    (fun u => ∃ st', u = .settle (some r) st' ∧ st'.copied = some l)
    (fun u => ∃ l, u = .settle (some r) (.returned l)) remaining hu
    ⟨st', rfl, hl⟩ ?_ ?_
  · grind [settle_enabled]
  · rintro m u b o hm - hu ⟨st', rfl, hcopied⟩ hnot ho
    cases step_of_next ho with
    | settle hstep =>
      cases hstep with
      | late | claim | store | send | occupied | copy => cases hcopied
      | @call l k h hk =>
        refine ⟨⟨_, rfl, hcopied⟩, .inr ?_⟩
        have hlt := (List.getElem?_eq_some_iff.mp hk).1
        change l.length - (k + 1) + 1 < l.length - k + 1
        omega
      | finish => exact ⟨⟨_, rfl, hcopied⟩, .inl ⟨_, rfl⟩⟩

theorem register_returns (hfair : e.Fair) {j : ℕ} {kind : Kind} {handler : Bool}
    {st : Register α ε} (hj : (e.config n).threads[j]? = some (.register kind handler st)) :
    ∃ m u, n ≤ m ∧ (e.config m).threads[j]? = some u ∧ (∃ st', u = .register kind handler st') ∧
      ∃ invoked, u = .register kind handler (.returned invoked) := by
  refine eventually_done hfair (fun u => ∃ st', u = .register kind handler st')
    (fun u => ∃ invoked, u = .register kind handler (.returned invoked))
    rank hj ⟨st, rfl⟩ ?_ ?_
  · grind [register_enabled]
  · rintro m u b o hm - hu ⟨st', rfl⟩ hnot ho
    cases step_of_next ho with
    | register hstep =>
      refine ⟨⟨_, rfl⟩, ?_⟩
      cases hstep with
      | append | completed | found => exact .inr (Nat.lt_succ_self _)
      | _ => exact .inl ⟨_, rfl⟩

theorem await_returns (hfair : e.Fair) {j : ℕ} {ends : Bool} {st : Await α ε}
    (hj : (e.config n).threads[j]? = some (.await ends st))
    (hchan : ∀ m, n ≤ m → (e.config m).threads[j]? = some (.await ends .waiting) →
        (e.config m).shared.resultChan.isSome = true) :
    ∃ m u, n ≤ m ∧ (e.config m).threads[j]? = some u ∧
      (∃ st', u = .await ends st') ∧ ∃ r, u = .await ends (.returned r) := by
  refine eventually_done hfair (fun u => ∃ st', u = .await ends st')
    (fun u => ∃ r, u = .await ends (.returned r)) rank hj
    ⟨st, rfl⟩ ?_ ?_
  · rintro m u hm hu ⟨st', rfl⟩ hnot
    refine await_enabled hu ?_ ?_
    · rintro rfl
      exact hchan m hm hu
    · rintro r rfl
      exact hnot ⟨r, rfl⟩
  · rintro m u b o hm - hu ⟨st', rfl⟩ hnot ho
    cases step_of_next ho with
    | await hstep =>
      refine ⟨⟨_, rfl⟩, ?_⟩
      cases hstep with
      | read | done | store => exact .inl ⟨_, rfl⟩
      | completed | unset | receive => exact .inr (Nat.lt_succ_self _)
      | early =>
        right
        change 2 < 4
        omega

end Liveness

/-! ## Delivery -/

/-- The executions in which one call settles the promise and the calls are
orderly. -/
abbrev OrderlyExecution (α ε : Type*) :=
  Execution (code α ε) (fun c a => OneSettle c a ∧ Orderly c a) (newPromise α ε)

variable (e : OrderlyExecution α ε)

theorem inv_of_execution (n : ℕ) : Inv (e.config n) := by
  obtain ⟨acts, hrun⟩ := e.exists_run n
  exact inv_of_run hrun

theorem handler_delivered (hfair : e.Fair) {n s : ℕ}
    {st' : Register α ε} (hs : (e.config n).threads[s]? = some (.settle (some r) st))
    (hj : (e.config n).threads[j]? = some (.register (Kind.of r) true st')) :
    ∃ N, ∀ m, N ≤ m → calls (e.config m).shared j = [r] := by
  obtain ⟨m₁, l, -, hs₁⟩ := settle_returns hfair hs
  obtain ⟨m₂, u, -, hj₂, -, invoked, rfl⟩ := register_returns hfair hj
  refine ⟨max m₁ m₂, ?_⟩
  intro m hm
  have hs : (e.config m).threads[s]? = some (.settle (some r) (.returned l)) :=
    stays (fun _ _ => rfl) hs₁ m (by omega)
  have hj : (e.config m).threads[j]? = some (.register (Kind.of r) true (.returned invoked)) :=
    stays (fun _ _ => rfl) hj₂ m (by omega)
  exact (inv_of_execution e m).calls_of_returned hs hj

theorem await_delivered (hfair : e.Fair) {n s : ℕ} {st' : Await α ε}
    (hs : (e.config n).threads[s]? = some (.settle (some r) st))
    (hj : (e.config n).threads[j]? = some (.await false st')) :
    ∃ N, ∀ m, N ≤ m → (e.config m).threads[j]? = some (.await false (.returned (some r))) := by
  obtain ⟨n₁, l, hn₁, hs₁⟩ := settle_returns hfair hs
  have hs : ∀ m, n₁ ≤ m → (e.config m).threads[s]? = some (.settle (some r) (.returned l)) :=
    stays (fun _ _ => rfl) hs₁
  obtain ⟨u, hj₁, st₁, rfl⟩ := persists (J := fun u => ∃ st, u = .await false st) (by
      rintro p u b o ⟨st, rfl⟩ ho
      cases step_of_next ho
      grind [step_of_next]) hj ⟨st', rfl⟩ n₁ hn₁
  -- the value of the channel is for the one call that waits
  have hchan : ∀ m, n₁ ≤ m → (e.config m).threads[j]? = some (.await false .waiting) →
        (e.config m).shared.resultChan.isSome = true := by
    intro m hm hwaiting
    have hone : 1 ≤ (e.config m).total waiting := Config.le_total (w := waiting) hwaiting
    rcases (inv_of_execution e m).awaited.sent s r _ (hs m hm) rfl with
      hsome | hzero
    · rw [hsome]
      rfl
    · omega
  obtain ⟨m₂, u, hm₂, hj₂, -, r₂, rfl⟩ := await_returns hfair hj₁ hchan
  have hphased := (inv_of_execution e m₂).phased
  obtain rfl : r₂ = some r := by
    have hknows := hphased.threads j _ hj₂
    cases r₂ with
    | none => cases hknows
    | some => rw [(inv_of_execution e m₂).result_eq (hs m₂ hm₂) hknows]
  exact ⟨m₂, stays (fun _ _ => rfl) hj₂⟩

/-- A settled promise reaches everyone at most once, and in the fair executions once. -/
theorem delivered_of_orderly : (∀ n, Once (e.config n)) ∧ (e.Fair → Delivered e) := by
  refine ⟨fun n => (inv_of_execution e n).once, ?_⟩
  intro hfair n s r st hs
  grind [handler_delivered, await_delivered]

/-! ## Executions that come to rest -/

def Thread.Resting (p : Promise α ε) : Thread α ε → Prop
  | .settle _ (.returned _) | .register _ _ (.returned _)
  | .await _ (.returned _) => True
  | .await ends .waiting => ends = false ∧ p.resultChan = none
  | _ => False

theorem next_of_resting (h : ∀ t ∈ c.threads, t.Resting c.shared) (i : ℕ) (t : Thread α ε)
    (b : Branch) (ht : c.threads[i]? = some t) : (code α ε).next c.shared i t b = none := by
  have hrest := h t (mem_of_getElem? ht)
  cases hnext : (code α ε).next c.shared i t b with
  | none => rfl
  | some =>
    exfalso
    cases step_of_next hnext with
    | failNil => exact hrest
    | settle hstep | register hstep => cases hstep <;> exact hrest
    | await hstep =>
      cases hstep with
      | receive hr =>
        rw [hrest.2] at hr
        cases hr
      | done hends =>
        rw [hrest.1] at hends
        cases hends
      | _ => exact hrest

/-- A handler registered before the call of `Complete`, and an `Await` that waits for it. -/
theorem delivered_of_orderly_both : ∃ (e : OrderlyExecution Unit Unit) (N : ℕ),
    (calls (e.config N).shared 0 = [.ok ()]) ∧ (∀ n, Once (e.config n)) ∧ Delivered e := by
  obtain ⟨c, hrun, hcalls, hthreads⟩ := exists_run (code Unit Unit).step
    (fun c a => OneSettle c a ∧ Orderly c a) (newPromise Unit Unit)
    [.spawn (onSuccess true), .run 0 .next, .run 0 .next,
      .spawn (await false), .run 1 .next, .spawn (complete ()), .run 2 .next,
      .run 2 .next, .run 2 .next, .run 2 .next, .run 2 .next, .run 2 .next,
      .run 1 .channel, .run 1 .next]
    (fun c => calls c.shared 0 = [.ok ()] ∧ c.threads = [.register .success true (.returned false),
        .await false (.returned (some (.ok ()))),
        .settle (some (.ok ())) (.returned [0])]) (by decide +kernel)
  obtain ⟨e, N, hfair, -, he⟩ := exists_fair hrun (next_of_resting (by
    rw [hthreads]
    simp [Resting]))
  refine ⟨e, N, ?_, (delivered_of_orderly e).1, (delivered_of_orderly e).2 hfair⟩
  rwa [he N le_rfl]

/-- A handler registered before the copy, whose call finds the result before it, is
invoked twice. Of two calls that wait together, one waits for ever. -/
theorem promise_not_delivered :
    (∃ acts c, Run (code Unit Unit).step OneSettle (newPromise Unit Unit)
      acts c ∧ calls c.shared 0 = [.ok (), .ok ()]) ∧
    ∃ (e : Execution (code Unit Unit) OneSettle (newPromise Unit Unit))
      (N : ℕ), e.Fair ∧ ∀ n, N ≤ n → (e.config n).threads[1]? = some (Thread.await false .waiting) ∧
        (e.config n).threads[2]? = some (Thread.settle (some (.ok ())) (.returned [])) := by
  refine ⟨⟨_, exists_run _ _ _
    [.spawn (onSuccess true), .run 0 .next, .spawn (complete ()), .run 1 .next,
      .run 1 .next, .run 0 .next, .run 0 .next, .run 0 .next, .run 1 .next,
      .run 1 .next, .run 1 .next] _ (by decide +kernel)⟩, ?_⟩
  obtain ⟨c, hrun, hchan, hthreads⟩ := exists_run (code Unit Unit).step OneSettle
    (newPromise Unit Unit)
    [.spawn (await false), .spawn (await false), .run 0 .next, .run 1 .next,
      .spawn (complete ()), .run 2 .next, .run 2 .next, .run 2 .next,
      .run 2 .next, .run 2 .next, .run 0 .channel, .run 0 .next]
    (fun c => c.shared.resultChan = none ∧ c.threads = [.await false (.returned (some (.ok ()))),
        .await false .waiting, .settle (some (.ok ())) (.returned [])])
    (by decide +kernel)
  obtain ⟨e, N, hfair, -, he⟩ := exists_fair hrun (next_of_resting (by
    rw [hthreads]
    simp [Resting, hchan]))
  refine ⟨e, N, hfair, ?_⟩
  grind

end Fluxor.Concurrency.Promise
