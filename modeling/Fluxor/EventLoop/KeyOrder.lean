import Fluxor.EventLoop.Dispatcher
import Fluxor.Support.CallLog

/-!
# Per-key ordering of the event-loop group

The group simulates the machine of numbered calls: a call is pending until its
compare-and-swap claims a sequence, which appends its event to the claims of the
ring, the log of the loop. A loop handles a prefix of its claims, so what the
machine says about the logs holds of the handler calls.
-/

namespace Fluxor.EventLoop

open Fluxor.Support Fluxor.Transition Function List Option Disruptor CallLog

variable {ι β η : Type*}

def Dispatched.entry (d : Dispatched ι β η) : Entry ι (Event β η) := ⟨d.producer, d.call, d.event⟩

def Route.entry (r : Route ι β η) : Entry ι (Event β η) × ℕ :=
  (⟨r.producer, r.call, r.event⟩, r.idx)

def Return.finished (x : Return ι) : Finished ι DispatchError := ⟨x.producer, x.call, x.result⟩

namespace Group

/-- The phase that the position of a producer in a ring amounts to. -/
inductive InRing (d : Dispatched ι β η) (idx : ℕ) :
    Producer (Dispatched ι β η) → CallPhase (Event β η) ℕ → Prop
  | loadCursor : InRing d idx (.loadCursor d) (.pending d.event idx)
  | loadGating (current : ℤ) : InRing d idx (.loadGating d current) (.pending d.event idx)
  | compareAndSwap (current : ℤ) : InRing d idx (.compareAndSwap d current) (.pending d.event idx)
  | storePointer (seq : ℤ) : InRing d idx (.storePointer d seq) (.logged d.event idx)
  | storeAvailable (seq : ℤ) : InRing d idx (.storeAvailable d seq) (.logged d.event idx)

/-- The phase of a producer in `Dispatch`; `pos` gives its position in every ring. -/
inductive InCall (p : ι) (call : ℕ) (pos : ℕ → Producer (Dispatched ι β η)) :
    DispatchState β η → CallPhase (Event β η) ℕ → Prop
  | idle : InCall p call pos .idle .idle
  | routed (event : Event β η) (idx : ℕ) :
      InCall p call pos (.routed event idx) (.pending event idx)
  | blocked (event : Event β η) (idx : ℕ) :
      InCall p call pos (.blocked event idx) (.pending event idx)
  | publishing {event : Event β η} {idx : ℕ} {x : CallPhase (Event β η) ℕ}
      (h : InRing ⟨p, call, event⟩ idx (pos idx) x) :
      InCall p call pos (.publishing event idx) x

def position (s : Group ι β η) (p : ι) (idx : ℕ) : Producer (Dispatched ι β η) :=
  (s.loops idx).ring.producer p

/-- The group `s` is in a state that the machine `c` describes. -/
structure Simulates (s : Group ι β η) (c : CallLog ι (Event β η) ℕ DispatchError) : Prop where
  rings : ∀ idx, (s.loops idx).ring.Inv
  log : ∀ idx, c.log idx = (s.loops idx).ring.claims.map fun x => x.2.entry
  phase : ∀ p, InCall p (s.calls p - 1) (s.position p) (s.producer p) (c.phase p)
  elsewhere : ∀ p idx, (∀ event, s.producer p ≠ .publishing event idx) → s.position p idx = .idle
  calls : c.calls = s.calls
  routes : c.routes = s.routes.map Route.entry
  returns : c.returns = s.returns.map Return.finished

variable {p : ι} {x : DispatchState β η} {y : CallPhase (Event β η) ℕ}

theorem InCall.congr {call : ℕ} {pos pos' : ℕ → Producer (Dispatched ι β η)}
    (h : InCall p call pos x y) (hpos : ∀ idx, pos' idx = pos idx) : InCall p call pos' x y := by
  have heq : pos' = pos := funext hpos
  rwa [heq]

variable {s t : Group ι β η} {c : CallLog ι (Event β η) ℕ DispatchError}

theorem Simulates.move {c' : CallLog ι (Event β η) ℕ DispatchError} (hs : Simulates s c) (p : ι)
    (idx : ℕ) (hring : (t.loops idx).ring.Inv)
    (hloops : ∀ j, j ≠ idx → (t.loops j).ring = (s.loops j).ring)
    (hlog : c'.log idx = (t.loops idx).ring.claims.map fun x => x.2.entry)
    (hlogs : ∀ j, j ≠ idx → c'.log j = c.log j)
    (hproducers : ∀ q, q ≠ p → t.producer q = s.producer q ∧
      t.position q idx = s.position q idx ∧ t.calls q = s.calls q ∧
      c'.phase q = c.phase q)
    (hphase : InCall p (t.calls p - 1) (t.position p) (t.producer p) (c'.phase p))
    (helsewhere : ∀ j, (∀ event, t.producer p ≠ .publishing event j) → t.position p j = .idle)
    (hcalls : c'.calls = t.calls) (hroutes : c'.routes = t.routes.map Route.entry)
    (hreturns : c'.returns = t.returns.map Return.finished) : Simulates t c' := by
  have hpos : ∀ q, q ≠ p → ∀ j, t.position q j = s.position q j := by grind [position]
  refine ⟨?_, ?_, ?_, ?_, hcalls, hroutes, hreturns⟩
  · grind [rings]
  · grind [log]
  · intro q
    by_cases hq : q = p
    · subst hq
      exact hphase
    · obtain ⟨h1, -, h3, h4⟩ := hproducers q hq
      rw [h1, h3, h4]
      exact (hs.phase q).congr (hpos q hq)
  grind [elsewhere]

theorem Simulates.frame (hs : Simulates s c) (hloops : ∀ idx, (t.loops idx).ring.Inv ∧
      (t.loops idx).ring.claims = (s.loops idx).ring.claims ∧
      (t.loops idx).ring.producer = (s.loops idx).ring.producer)
    (hproducer : t.producer = s.producer) (hcalls : t.calls = s.calls)
    (hroutes : t.routes = s.routes) (hreturns : t.returns = s.returns) : Simulates t c := by
  have hpos : ∀ p idx, t.position p idx = s.position p idx := by grind [position]
  refine ⟨fun idx => (hloops idx).1, ?_, ?_, ?_, ?_, ?_, ?_⟩
  · grind [log]
  · intro p
    rw [hproducer, hcalls]
    exact (hs.phase p).congr (hpos p)
  · grind [elsewhere]
  · rw [hcalls]
    exact hs.calls
  · rw [hroutes]
    exact hs.routes
  · rw [hreturns]
    exact hs.returns

@[simp] theorem ring_setRing_self (s : Group ι β η) (idx : ℕ) (r : Disruptor ι (Dispatched ι β η)) :
    ((s.setRing idx r).loops idx).ring = r := by
  simp [setRing, setLoop]

variable {idx : ℕ}

theorem loops_setRing_of_ne (s : Group ι β η) {j : ℕ} (hj : j ≠ idx)
    (r : Disruptor ι (Dispatched ι β η)) : (s.setRing idx r).loops j = s.loops j := by
  simp [setRing, setLoop, hj]

@[simp] theorem setRing_self (s : Group ι β η) (idx : ℕ) :
    s.setRing idx (s.loops idx).ring = s := by
  simp [setRing, setLoop]

variable [DecidableEq ι]

def moved (s : Group ι β η) (p : ι) (idx : ℕ)
    (r : Disruptor ι (Dispatched ι β η)) (x : DispatchState β η)
    (returns : List (Return ι)) : Group ι β η :=
  { (s.setRing idx r).setProducer p x with returns := returns }

def movedLog (c : CallLog ι (Event β η) ℕ DispatchError) (p : ι) (idx : ℕ)
    (r : Disruptor ι (Dispatched ι β η)) (y : CallPhase (Event β η) ℕ)
    (returns : List (Return ι)) : CallLog ι (Event β η) ℕ DispatchError :=
  { c with
    log := update c.log idx (r.claims.map fun x => x.2.entry)
    phase := update c.phase p y
    returns := returns.map Return.finished }

variable {r : Disruptor ι (Dispatched ι β η)}

theorem Simulates.moved (hs : Simulates s c) (hfree : ∀ j, j ≠ idx → s.position p j = .idle)
    (hinv : r.Inv) (hother : ∀ q, q ≠ p → r.producer q = s.position q idx)
    (hx : InCall p (s.calls p - 1) (update (s.position p) idx (r.producer p)) x y)
    (hidle : (∀ event, x ≠ .publishing event idx) → r.producer p = .idle)
    (returns : List (Return ι)) :
    Simulates (s.moved p idx r x returns) (movedLog c p idx r y returns) := by
  have hring : ((s.moved p idx r x returns).loops idx).ring = r := ring_setRing_self s idx r
  have hself : (s.moved p idx r x returns).producer p = x := update_self ..
  have hpos : ∀ j, (s.moved p idx r x returns).position p j =
      update (s.position p) idx (r.producer p) j := by
    intro j
    by_cases hj : j = idx
    · grind [position]
    · rw [update_of_ne hj, position, position]
      exact congrArg (fun l => l.ring.producer p) (loops_setRing_of_ne s hj r)
  refine hs.move p idx ?_ ?_ ?_ ?_ ?_ ?_ ?_ hs.calls hs.routes rfl
  · rwa [hring]
  · intro j hj
    exact congrArg Loop.ring (loops_setRing_of_ne s hj r)
  · rw [hring]
    exact update_self ..
  · intro j hj
    exact update_of_ne hj ..
  · intro q hq
    refine ⟨update_of_ne hq .., ?_, rfl, update_of_ne hq ..⟩
    rw [position, hring]
    exact hother q hq
  · rw [hself]
    have hy : (movedLog c p idx r y returns).phase p = y := update_self ..
    rw [hy]
    exact hx.congr hpos
  grind

theorem Simulates.movedLog_eq (hs : Simulates s c)
    (hclaims : r.claims = (s.loops idx).ring.claims) (hy : c.phase p = y) :
    movedLog c p idx r y s.returns = c := by
  have hlog : r.claims.map (fun x => x.2.entry) = c.log idx := by rw [hclaims, hs.log]
  rw [movedLog, hlog, ← hy, ← hs.returns]
  simp

/-- The machine follows a step to `t`, or stays where it is. -/
def Matched (c : CallLog ι (Event β η) ℕ DispatchError) (t : Group ι β η) : Prop :=
  Simulates t c ∨ ∃ b c', c.step b = some c' ∧ Simulates t c'

/-! ## The steps of a producer -/

omit [DecidableEq ι] in
theorem Simulates.phase_idle (hs : Simulates s c) (hp : s.producer p = .idle) :
    c.phase p = .idle := by
  have h := hs.phase p
  rw [hp] at h
  generalize c.phase p = y at h
  cases h
  rfl

omit [DecidableEq ι] in
theorem Simulates.position_idle (hs : Simulates s c)
    (hp : ∀ event idx, s.producer p ≠ .publishing event idx) (idx : ℕ) : s.position p idx = .idle :=
  hs.elsewhere p idx fun event => hp event idx

theorem Simulates.begin (hs : Simulates s c) (hp : s.producer p = .idle)
    (hx : InCall p (s.calls p) (s.position p) x y) (counter : ℕ) (routes : List (Route ι β η))
    (returns : List (Return ι)) :
    Simulates { s with
        roundRobinCounter := counter
        producer := update s.producer p x
        calls := update s.calls p (s.calls p + 1)
        routes := routes
        returns := returns } { c with
        phase := update c.phase p y
        calls := update c.calls p (c.calls p + 1)
        routes := routes.map Route.entry
        returns := returns.map Return.finished } := by
  have hidle : ∀ j, s.position p j = .idle := hs.position_idle (by simp [hp])
  refine hs.move p 0 (hs.rings 0) ?_ (hs.log 0) ?_ ?_ ?_ ?_ ?_ rfl rfl
  · intro j _
    rfl
  · intro j _
    rfl
  · intro q hq
    exact ⟨update_of_ne hq .., rfl, update_of_ne hq .., update_of_ne hq ..⟩
  · simp only [update_self, Nat.add_sub_cancel]
    exact hx
  · intro j _
    exact hidle j
  · simp only [hs.calls]

theorem matched_dispatch (hs : Simulates s c) (hp : s.producer p = .idle)
    (event : Option (Event β η)) : Matched c (s.dispatch p event) := by
  have hphase := hs.phase_idle hp
  have hcalls : c.calls p = s.calls p := by rw [hs.calls]
  have hreject : ∀ err, Matched c ((s.begin p).return_ p (some err)) := by
    intro err
    refine Or.inr ⟨_, _, CallLog.step_reject hphase err, ?_⟩
    have h := hs.begin hp .idle s.roundRobinCounter s.routes
      (s.returns ++ [⟨p, s.calls p, some err⟩])
    simp only [map_append, map_cons, map_nil, ← hs.returns,
      ← hs.routes, Return.finished] at h
    rw [← hphase, Function.update_eq_self, hcalls] at h
    simp only [return_, Group.begin, setProducer, Function.update_self, Nat.add_sub_cancel, hcalls]
    exact h
  cases event with
  | none => exact hreject _
  | some event =>
    simp only [dispatch]
    split
    · exact Or.inl (hs.frame (fun idx => ⟨hs.rings idx, rfl, rfl⟩) rfl rfl rfl rfl)
    · exact hreject _
    · rename_i idx counter hchoice
      refine Or.inr ⟨_, _, CallLog.step_begin hphase event idx, ?_⟩
      have h := hs.begin hp (.routed event idx) counter
        (s.routes ++ [⟨p, s.calls p, event, idx⟩]) s.returns
      simp only [map_append, map_cons, map_nil,
        ← hs.returns, ← hs.routes, Route.entry] at h
      rw [hcalls] at h
      simp only [Group.begin, setProducer, hcalls]
      exact h

section

variable (hs : Simulates s c) (hfree : ∀ j, j ≠ idx → s.position p j = .idle) (hinv : r.Inv)
    (hother : ∀ q, q ≠ p → r.producer q = s.position q idx)
    (hclaims : r.claims = (s.loops idx).ring.claims)

include hs hfree hinv hother hclaims

theorem matched_inside (hx : InCall p (s.calls p - 1)
      (update (s.position p) idx (r.producer p)) x (c.phase p))
    (hidle : (∀ event, x ≠ .publishing event idx) → r.producer p = .idle) :
    Matched c ((s.setRing idx r).setProducer p x) := by
  have h := hs.moved hfree hinv hother hx hidle s.returns
  rw [hs.movedLog_eq hclaims rfl] at h
  exact .inl h

/-- A step that returns from a call and claims nothing: the group follows any
step of the machine that ends the call with the same result. -/
theorem Simulates.return_ (hidle : r.producer p = .idle) (result : Option DispatchError) :
    Simulates ((s.setRing idx r).return_ p result) { c with
        phase := update c.phase p .idle
        returns := c.returns ++ [⟨p, c.calls p - 1, result⟩] } := by
  have hlog : r.claims.map (fun x => x.2.entry) = c.log idx := by rw [hclaims, hs.log]
  have hcalls : c.calls p = s.calls p := by rw [hs.calls]
  have h := hs.moved hfree hinv hother .idle (fun _ => hidle)
    (s.returns ++ [⟨p, s.calls p - 1, result⟩])
  rw [movedLog, hlog, update_eq_self, map_append, ← hs.returns] at h
  rwa [hcalls]

end

variable {event : Event β η}

theorem matched_fail (hs : Simulates s c) (hp : c.phase p = .pending event idx)
    (hfree : ∀ j, j ≠ idx → s.position p j = .idle) (hinv : r.Inv)
    (hother : ∀ q, q ≠ p → r.producer q = s.position q idx)
    (hclaims : r.claims = (s.loops idx).ring.claims) (hidle : r.producer p = .idle)
    (result : Option DispatchError) : Matched c ((s.setRing idx r).return_ p result) :=
  .inr ⟨_, _, step_fail hp result, hs.return_ hfree hinv hother hclaims hidle result⟩

section

variable (hs : Simulates s c)
    (hp : s.producer p = .routed event idx ∨ s.producer p = .blocked event idx)

include hs hp

omit [DecidableEq ι] in
theorem Simulates.outside : c.phase p = .pending event idx ∧ ∀ j, s.position p j = .idle := by
  have h := hs.phase p
  constructor
  · generalize c.phase p = y at h
    rcases hp with hp | hp <;> rw [hp] at h <;> cases h <;> rfl
  grind [position_idle]

theorem matched_callNext (h : s.callNext p event idx = some t) : Matched c t := by
  obtain ⟨hphase, hidle⟩ := hs.outside hp
  obtain ⟨r, hr, rfl⟩ := map_eq_some_iff.mp h
  have hinv := inv_step (hs.rings idx) hr
  have hnow : (s.loops idx).ring.producer p = .idle := hidle idx
  simp only [Disruptor.step, hnow, some.injEq] at hr
  subst hr
  refine matched_inside hs (fun j _ => hidle j) hinv ?_ rfl ?_ ?_
  · intro q hq
    exact producer_setProducer_of_ne _ hq _
  · rw [hphase, producer_setProducer_self]
    apply InCall.publishing
    rw [update_self]
    exact InRing.loadCursor
  · intro hne
    exact absurd rfl (hne event)

end

section

variable (hs : Simulates s c)

include hs

theorem matched_enter (h : s.enter p = some t) : Matched c t := by
  cases hp : s.producer p with
  | routed event idx =>
    obtain ⟨hphase, hidle⟩ := hs.outside (.inl hp)
    have hring : (s.loops idx).ring.producer p = .idle := hidle idx
    simp only [enter, hp] at h
    split at h
    · cases h
      have hm := matched_fail hs hphase (fun j _ => hidle j) (hs.rings idx)
        (fun _ _ => rfl) rfl hring (some errLoopClosed)
      rwa [setRing_self] at hm
    · split at h
      · exact matched_callNext hs (.inl hp) h
      · cases h
        have hx : InCall p (s.calls p - 1) (update (s.position p) idx
              ((s.loops idx).ring.producer p))
            (.blocked event idx) (c.phase p) := by
          rw [hphase]
          exact .blocked event idx
        have hm := matched_inside hs (fun j _ => hidle j) (hs.rings idx)
          (fun _ _ => rfl) rfl hx (fun _ => hring)
        rwa [setRing_self] at hm
  | _ => simp [enter, hp] at h

theorem matched_spin (h : s.spin p = some t) : Matched c t := by
  cases hp : s.producer p with
  | blocked event idx =>
    obtain ⟨hphase, hidle⟩ := hs.outside (.inr hp)
    simp only [spin, hp] at h
    split at h
    · cases h
      have hm := matched_fail hs hphase (fun j _ => hidle j) (hs.rings idx)
        (fun _ _ => rfl) rfl (hidle idx)
        ((s.loops idx).ctxErr.map .context)
      rwa [setRing_self] at hm
    · exact matched_callNext hs (.inr hp) h
  | _ => simp [spin, hp] at h

theorem matched_append (hp : c.phase p = .pending event idx)
    (hfree : ∀ j, j ≠ idx → s.position p j = .idle) (hinv : r.Inv)
    (hother : ∀ q, q ≠ p → r.producer q = s.position q idx)
    (hclaims : r.claims = (s.loops idx).ring.claims ++ [(p, ⟨p, s.calls p - 1, event⟩)]) {seq : ℤ}
    (hself : r.producer p = .storePointer ⟨p, s.calls p - 1, event⟩ seq) :
    Matched c ((s.setRing idx r).setProducer p (.publishing event idx)) := by
  have hlog : r.claims.map (fun x => x.2.entry) = c.log idx ++ [c.current p event] := by
    rw [hclaims, map_append, ← hs.log, current, hs.calls]
    rfl
  refine .inr ⟨_, _, step_append hp, ?_⟩
  have hx : InCall p (s.calls p - 1) (update (s.position p) idx (r.producer p))
      (.publishing event idx) (.logged event idx) := by
    apply InCall.publishing
    rw [update_self, hself]
    exact InRing.storePointer seq
  have h := hs.moved hfree hinv hother hx (fun hne => absurd rfl (hne event)) s.returns
  rwa [movedLog, hlog, ← hs.returns] at h

omit [DecidableEq ι] in
theorem Simulates.inRing (hp : s.producer p = .publishing event idx) :
    InRing ⟨p, s.calls p - 1, event⟩ idx ((s.loops idx).ring.producer p) (c.phase p) ∧
      ∀ j, j ≠ idx → s.position p j = .idle := by
  have h := hs.phase p
  rw [hp] at h
  constructor
  · generalize c.phase p = y at h
    cases h with
    | publishing h => exact h
  grind [elsewhere]

omit hs in
theorem setProducer_setRing_eq (h : s.producer p = x) (idx : ℕ)
    (r : Disruptor ι (Dispatched ι β η)) : (s.setRing idx r).setProducer p x = s.setRing idx r := by
  subst h
  simp [setProducer, setRing, setLoop]

theorem matched_inRing (hp : s.producer p = .publishing event idx)
    (hinv : r.Inv) (hother : ∀ q, q ≠ p → r.producer q = s.position q idx)
    (hclaims : r.claims = (s.loops idx).ring.claims)
    (hr : InRing ⟨p, s.calls p - 1, event⟩ idx (r.producer p) (c.phase p)) :
    Matched c (s.setRing idx r) := by
  rw [← setProducer_setRing_eq hp idx r]
  refine matched_inside hs (hs.inRing hp).2 hinv hother hclaims ?_ ?_
  · apply InCall.publishing
    rwa [update_self]
  · intro hne
    exact absurd rfl (hne event)

theorem matched_produce (h : s.produce p = some t) : Matched c t := by
  cases hp : s.producer p with
  | publishing event idx =>
    obtain ⟨hin, hfree⟩ := hs.inRing hp
    have hother : ∀ x, ∀ q, q ≠ p → ((s.loops idx).ring.setProducer p x).producer q =
          s.position q idx := by
      intro x q hq
      exact producer_setProducer_of_ne _ hq x
    simp only [produce, hp] at h
    obtain ⟨r, hr, rfl⟩ := map_eq_some_iff.mp h
    have hinv := inv_produce (hs.rings idx) hr
    generalize hx : (s.loops idx).ring.producer p = x at hin
    generalize hy : c.phase p = y at hin
    rw [Disruptor.produce, hx] at hr
    cases hin with
    | loadCursor =>
      cases hr
      refine matched_inRing hs hp hinv (hother _) rfl ?_
      rw [hy, producer_setProducer_self]
      exact InRing.loadGating _
    | loadGating =>
      simp only at hr
      split at hr
      · cases hr
        simp only [producer_setProducer_self]
        split
        · exact matched_fail hs hy hfree hinv (hother _) rfl
            (producer_setProducer_self ..) _
        · refine matched_inside hs hfree hinv (hother _) rfl ?_ ?_
          · rw [hy]
            exact .blocked event idx
          grind [producer_setProducer_self]
      · cases hr
        rw [producer_setProducer_self]
        refine matched_inRing hs hp hinv (hother _) rfl ?_
        rw [hy, producer_setProducer_self]
        exact InRing.compareAndSwap _
    | compareAndSwap =>
      simp only at hr
      split at hr
      · cases hr
        have hm := matched_append hs hy hfree hinv (hother _) rfl
          (producer_setProducer_self ..)
        grind [setProducer_setRing_eq]
      · cases hr
        refine matched_inRing hs hp hinv (hother _) rfl ?_
        rw [hy, producer_setProducer_self]
        exact InRing.loadCursor
    | storePointer seq =>
      cases hr
      refine matched_inRing hs hp hinv (hother _) rfl ?_
      have hself : ((s.loops idx).ring.writePointer p ⟨p, s.calls p - 1, event⟩ seq).producer p =
          .storeAvailable ⟨p, s.calls p - 1, event⟩ seq :=
        producer_setProducer_self ..
      rw [hy, hself]
      exact InRing.storeAvailable seq
    | storeAvailable =>
      cases hr
      exact .inr ⟨_, _, step_finish hy, hs.return_ hfree hinv (hother _) rfl
          (producer_setProducer_self ..) none⟩
  | _ => simp [produce, hp] at h

/-! ## The simulation -/

omit [DecidableEq ι]

theorem Simulates.setRing_frame (hinv : r.Inv)
    (hclaims : r.claims = (s.loops idx).ring.claims)
    (hproducer : r.producer = (s.loops idx).ring.producer) : Simulates (s.setRing idx r) c := by
  refine hs.frame ?_ rfl rfl rfl rfl
  grind [ring_setRing_self, loops_setRing_of_ne, rings]

theorem Simulates.setLoop_frame {l : Loop ι (Dispatched ι β η)}
    (hring : l.ring = (s.loops idx).ring) : Simulates (s.setLoop idx l) c := by
  refine hs.frame ?_ rfl rfl rfl rfl
  intro j
  have hj : ((s.setLoop idx l).loops j).ring = (s.loops j).ring := by
    by_cases hj : j = idx
    · subst hj
      simp [setLoop, hring]
    · simp [setLoop, hj]
  rw [hj]
  exact ⟨hs.rings j, rfl, rfl⟩

end

variable {a : GroupAction ι β η}

theorem running_of_step (h : s.step a = some t) : s.panicked = false := by
  cases hpan : s.panicked with
  | false => rfl
  | true => simp [step, hpan] at h

theorem matched_step (hs : Simulates s c) (h : s.step a = some t) : Matched c t := by
  rw [step.eq_def, if_neg (by simp [running_of_step h])] at h
  cases a with
  | dispatch => grind [matched_dispatch]
  | enter => exact matched_enter hs h
  | spin => exact matched_spin hs h
  | produce => exact matched_produce hs h
  | consume idx =>
    obtain ⟨r, hr, rfl⟩ := map_eq_some_iff.mp h
    obtain ⟨hclaims, hproducer⟩ := consume_frame hr
    exact .inl (hs.setRing_frame (inv_consume (hs.rings idx) hr) hclaims hproducer)
  | stop idx =>
    dsimp only at h
    split at h
    · obtain ⟨r, hr, rfl⟩ := map_eq_some_iff.mp h
      have hinv := inv_step (hs.rings idx) hr
      rw [Disruptor.step] at hr
      split at hr
      · cases hr
        exact .inl (hs.setRing_frame hinv rfl rfl)
      · cases hr
    · cases h
  | close | cancel =>
    simp only [some.injEq] at h
    subst h
    exact .inl (hs.setLoop_frame rfl)

variable {rb : RingBuffer (Dispatched ι β η)}

theorem simulates_init {size : ℕ} (hnew : RingBuffer.newRingBuffer size = some rb) (numLoops : ℕ)
    (backpressure : BackpressurePolicy) (extractor : KeyExtractor β) :
    Simulates (init numLoops backpressure extractor rb : Group ι β η) CallLog.init := by
  refine ⟨?_, ?_, ?_, ?_, rfl, rfl, rfl⟩
  · intro idx
    exact inv_init hnew .perEvent
  · intro idx
    rfl
  · intro p
    exact InCall.idle
  · intro p idx _
    rfl

variable {extractor : KeyExtractor β}

/-- Every run of the group ends in a state that the machine describes, and the
machine keeps its invariant. -/
theorem exists_callLog {size : ℕ} (hnew : RingBuffer.newRingBuffer size = some rb) {numLoops : ℕ}
    {backpressure : BackpressurePolicy} {acts : List (GroupAction ι β η)}
    (hrun : Run step anyStep (init numLoops backpressure extractor rb) acts s) :
    ∃ c : CallLog ι (Event β η) ℕ DispatchError, c.Inv ∧ Simulates s c := by
  have hstep : ∀ {s : Group ι β η} {a t}
      {c : CallLog ι (Event β η) ℕ DispatchError}, Simulates s c →
      anyStep s a → s.step a = some t →
      Simulates t c ∨ ∃ b c', c.step b = some c' ∧ Simulates t c' := by
    intro s a t c hR _ hnext
    exact matched_step hR hnext
  obtain ⟨acts', c, hrun', hsim⟩ := hrun.simulate hstep
    (simulates_init hnew numLoops backpressure extractor)
  have hinv := hrun'.invariant (fun h _ => CallLog.inv_step h) CallLog.inv_init
  exact ⟨c, hinv, hsim⟩

/-! ## Handler calls -/

theorem handledCalls_eq (hs : Simulates s c) (idx : ℕ) (p : ι) :
    s.handledCalls idx p = (((c.log idx).take (s.loops idx).ring.handled.length).filter
        fun e => e.producer = p).map Entry.call := by
  obtain ⟨-, h2⟩ := (hs.rings idx).handled
  have hmap : s.handledCalls idx p = ((s.loops idx).ring.handled.map Prod.snd).filterMap fun h =>
        h.bind fun d => if d.producer = p then some d.call else none := by
    rw [filterMap_map]
    rfl
  rw [hmap, h2, hs.log, ← map_take, filterMap_map]
  induction (s.loops idx).ring.claims.take (s.loops idx).ring.handled.length with
  | nil => rfl
  | cons => grind [Dispatched.entry]

variable {n : ℕ}

theorem mem_handledCalls (hs : Simulates s c) (h : n ∈ s.handledCalls idx p) :
    ∃ e ∈ c.log idx, e.producer = p ∧ e.call = n := by
  grind [handledCalls_eq]

theorem handledCalls_sorted (hs : Simulates s c) (hc : c.Inv) (idx : ℕ) (p : ι) :
    (s.handledCalls idx p).Pairwise (· < ·) := by
  rw [handledCalls_eq hs, pairwise_map]
  exact (hc.log_sorted idx p).sublist ((take_sublist ..).filter _)

/-! ## Routing -/

/-- Every route so far was chosen as `Dispatch` chooses. -/
structure Routed (n : ℕ) (extractor : KeyExtractor β) (s : Group ι β η) : Prop where
  running : s.panicked = false
  loops : s.numLoops = n
  keys : s.extractor = extractor
  in_range : ∀ r ∈ s.routes, r.idx < n
  by_key : ∀ r ∈ s.routes, routingKey extractor r.event ≠ [] →
    routeKey (routingKey extractor r.event) n = some r.idx

section

variable (hs : Routed n extractor s)

include hs

omit [DecidableEq ι] in
theorem Routed.frame (hpanicked : t.panicked = s.panicked)
    (hloops : t.numLoops = s.numLoops) (hkeys : t.extractor = s.extractor)
    (hroutes : t.routes = s.routes) : Routed n extractor t := by
  refine ⟨hpanicked.trans hs.running, hloops.trans hs.loops, hkeys.trans hs.keys, ?_, ?_⟩
  · rw [hroutes]
    exact hs.in_range
  · rw [hroutes]
    exact hs.by_key

omit hs in
theorem routed_dispatch (hn : 0 < n) (hz : n % 2 ^ 32 ≠ 0) (hs : Routed n extractor s) (p : ι)
    (event : Option (Event β η)) : Routed n extractor (s.dispatch p event) := by
  cases event with
  | none => exact hs.frame rfl rfl rfl rfl
  | some =>
    simp only [dispatch, hs.loops, hs.keys]
    split
    · grind [chooseLoop_ne_panicked]
    · exact hs.frame rfl rfl rfl rfl
    next hchoice =>
      obtain ⟨hlt, hkey⟩ := chooseLoop_loop hchoice
      refine ⟨hs.running, hs.loops, hs.keys, ?_, ?_⟩
      · intro r hr
        rcases mem_append.mp hr with hr | hr
        · exact hs.in_range r hr
        grind
      grind [Routed.by_key]

theorem routed_callNext (h : s.callNext p event idx = some t) :
    Routed n extractor t := by
  obtain ⟨r, -, rfl⟩ := map_eq_some_iff.mp h
  exact hs.frame rfl rfl rfl rfl

theorem routed_produce (h : s.produce p = some t) :
    Routed n extractor t := by
  rw [produce] at h
  split at h
  · obtain ⟨r, -, rfl⟩ := map_eq_some_iff.mp h
    split
    · split
      all_goals exact hs.frame rfl rfl rfl rfl
    all_goals exact hs.frame rfl rfl rfl rfl
  · cases h

end

theorem routed_step (hn : 0 < n) (hz : n % 2 ^ 32 ≠ 0) (hs : Routed n extractor s)
    (h : s.step a = some t) : Routed n extractor t := by
  cases a with
  | dispatch => grind [step, routed_dispatch]
  | enter =>
    simp only [step, hs.running, Bool.false_eq_true, if_false, enter] at h
    split at h
    · split at h
      · cases h
        exact hs.frame rfl rfl rfl rfl
      · split at h
        · exact routed_callNext hs h
        · cases h
          exact hs.frame rfl rfl rfl rfl
    · cases h
  | spin =>
    simp only [step, hs.running, Bool.false_eq_true, if_false, spin] at h
    split at h
    · split at h
      · cases h
        exact hs.frame rfl rfl rfl rfl
      · exact routed_callNext hs h
    · cases h
  | produce => grind [step, routed_produce]
  | consume =>
    simp only [step, hs.running, Bool.false_eq_true, if_false] at h
    obtain ⟨r, -, rfl⟩ := map_eq_some_iff.mp h
    exact hs.frame rfl rfl rfl rfl
  | stop =>
    simp only [step, hs.running, Bool.false_eq_true, if_false] at h
    split at h
    · obtain ⟨r, -, rfl⟩ := map_eq_some_iff.mp h
      exact hs.frame rfl rfl rfl rfl
    · cases h
  | close | cancel =>
    simp only [step, hs.running, Bool.false_eq_true, if_false, some.injEq] at h
    subst h
    exact hs.frame rfl rfl rfl rfl

/-! ## Ordering -/

theorem keyOrdered_of_simulates (hrouted : Routed n extractor s) (hs : Simulates s c) (hc : c.Inv) :
    s.KeyOrdered := by
  refine ⟨hrouted.running, ?_, ?_, ?_, handledCalls_sorted hs hc, ?_⟩
  · rw [hrouted.loops]
    exact hrouted.in_range
  · rw [hrouted.keys]
    intro r hr r' hr' hne heq
    have h := hrouted.by_key r hr hne
    grind [Routed.by_key]
  · intro r hr idx hmem
    obtain ⟨e, he, hproducer, hcall⟩ := mem_handledCalls hs hmem
    have hentry : r.entry ∈ c.routes := by
      rw [hs.routes]
      exact mem_map_of_mem hr
    have heq := hc.route_unique _ (hc.log_route idx e he) _ hentry hproducer hcall
    exact congrArg Prod.snd heq
  · intro x hx hres idx hmem
    obtain ⟨e, he, hproducer, hcall⟩ := mem_handledCalls hs hmem
    have hfin : x.finished ∈ c.returns := by grind [Simulates.returns]
    exact hc.return_failed _ hfin hres idx e he hproducer hcall

def keyed : Event β η where
  key := lit "a"
  address := []
  body := none
  headers := none
  handler := none

/-- `Dispatch` of a keyed event panics when the number of loops is a multiple
of `2 ^ 32`. -/
theorem dispatch_keyed_panics (hn : 0 < n) (hz : n % 2 ^ 32 = 0) (hloops : s.numLoops = n) (p : ι) :
    s.dispatch p (some keyed) = { s with panicked := true } := by
  have hne : (lit "a" : GoString) ≠ [] := by decide
  have hkey : routingKey s.extractor (keyed : Event β η) = lit "a" := by
    rw [routingKey]
    exact if_pos hne
  have hchoice : chooseLoop n s.roundRobinCounter (lit "a") = .panicked := by
    rw [chooseLoop, if_pos hne, routeKey_eq_none hne hn hz]
  simp only [dispatch, hloops, hkey, hchoice]

/-- Events with one key stay on one loop and in order in every run of `n` loops that stays
in `int64`, if and only if `n` is not a multiple of `2 ^ 32`. -/
theorem dispatch_keyOrdered_iff {n : ℕ} (hn : 0 < n) {size : ℕ}
    {rb : RingBuffer (Dispatched ι β η)} (hnew : RingBuffer.newRingBuffer size = some rb)
    (backpressure : BackpressurePolicy) (extractor : KeyExtractor β) (p : ι) :
    (∀ acts s, Run step anyStep (init n backpressure extractor rb) acts s →
      (∀ idx < n, (s.loops idx).ring.claims.length < 2 ^ 63) → s.KeyOrdered) ↔
        n % 2 ^ 32 ≠ 0 := by
  constructor
  · intro h hz
    have hstep : (init n backpressure extractor rb).step (.dispatch p (some keyed)) =
        some { init n backpressure extractor rb with panicked := true } := by
      rw [← dispatch_keyed_panics hn hz
        (show (init n backpressure extractor rb).numLoops = n from rfl) p]
      rfl
    have hrun : Run step anyStep (init n backpressure extractor rb)
        ([] ++ [.dispatch p (some keyed)]) _ :=
      Run.snoc (Run.nil _) trivial hstep
    have hrunning := (h _ _ hrun fun _ _ => by simp [init, Disruptor.init]).running
    cases hrunning
  · intro hz acts s hrun _
    obtain ⟨c, hc, hs⟩ := exists_callLog hnew hrun
    have hinit : Routed n extractor (init n backpressure extractor rb : Group ι β η) :=
      ⟨rfl, rfl, rfl, by simp [init], by simp [init]⟩
    have hrouted := hrun.invariant (fun h _ => routed_step hn hz h) hinit
    exact keyOrdered_of_simulates hrouted hs hc

def fourLoops : Group Bool Unit Unit := init 4 .drop defaultKeyExtractor ringOfTwo

def threeCalls : List (GroupAction Bool Unit Unit) :=
  [.dispatch true (some keyed), .enter true, .produce true,
    .dispatch false (some { keyed with key := [] }), .enter false,
    .produce false, .produce false, .produce false, .produce true,
    .produce true, .produce true, .produce true, .produce true,
    .produce false, .produce false, .produce true, .produce true,
    .consume 0, .consume 0, .consume 0, .consume 0, .consume 0, .consume 0,
    .consume 0, .consume 0,
    .dispatch true (some keyed), .enter true, .produce true, .produce true,
    .produce true, .produce true, .produce true, .consume 0, .consume 0,
    .consume 0, .consume 0]

theorem dispatch_keyOrdered_threeCalls :
    ((exec step anyStep fourLoops threeCalls).get (by decide +kernel)).KeyOrdered ∧
    ((exec step anyStep fourLoops threeCalls).get
      (by decide +kernel)).handledCalls 0 true = [0, 1] := by
  constructor
  · exact (dispatch_keyOrdered_iff (by decide)
      (show RingBuffer.newRingBuffer 2 = some ringOfTwo from rfl) .drop
      defaultKeyExtractor true).mpr (by decide) _ _
      (run_exec step anyStep fourLoops threeCalls (by decide +kernel)) (by decide +kernel)
  · decide +kernel

theorem dispatch_panics_two_pow_32 :
    ∃ acts s, Run step anyStep (init 4294967296 .drop defaultKeyExtractor
      (ringOfTwo : RingBuffer (Dispatched Bool Unit Unit))) acts s ∧ ¬s.KeyOrdered := by
  refine ⟨[.dispatch true (some keyed)], _, run_exec step anyStep _ _ (by decide), ?_⟩
  intro h
  have hrunning := h.running
  revert hrunning
  decide

end Group
end Fluxor.EventLoop
