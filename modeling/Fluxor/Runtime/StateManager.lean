import Fluxor.Support.Fairness

/-!
# The state manager

`stateManager` of `pkg/core/runtime/state`: calls of `Transition`, `Start` and
`Stop`, which change the state under one lock, and of `WaitForState` and `Wait`,
whose contexts do not end. Each lock section and each channel operation is a step.

A waiter reads the state, registers its channel and blocks on it in three steps. A
notification sends only to the channels that are registered and whose waiters have
come to the receive; then it forgets them all. So a transition that notifies while a
waiter is between its check and its receive is lost on it, and otherwise the waiter
returns (`wait_returns`).
-/

namespace Fluxor.Runtime.StateManager

open Goroutines Transition Function Option Execution

/-- `State`; `other` is any string that is not one of the constants. -/
inductive State
  | initial | starting | running | stopping | stopped | error
  | other (name : String)
  deriving DecidableEq

def State.toString : State → String
  | .initial => "initial"
  | .starting => "starting"
  | .running => "running"
  | .stopping => "stopping"
  | .stopped => "stopped"
  | .error => "error"
  | .other name => name

def State.valid : State → Bool
  | .other _ => false
  | _ => true

def isValidTransition (source target : State) : Bool :=
  source = target ||
    match source with
    | .initial => target ∈ [.starting, .error]
    | .starting => target ∈ [.running, .error, .stopping]
    | .running => target ∈ [.stopping, .error]
    | .stopping => target ∈ [.stopped, .error]
    | .stopped => target ∈ [.starting, .error]
    | .error => target ∈ [.initial, .starting]
    | .other _ => false

/-- The fields of `Config` that decide about transitions. -/
structure Settings where
  initialState : State := .initial
  validateTransitions : Bool := true
  transitionTimeout : ℤ := 0

structure Error where
  (code message : String)
  deriving DecidableEq

/-- What a call returns: nothing, an error of its own, that of its function, or that
of a function that takes too long. -/
inductive Result
  | ok
  | error (e : Error)
  | failed (message : String)
  | timeout
  deriving DecidableEq

def invalidState (s : State) : Result :=
  .error ⟨"INVALID_STATE", "invalid state: " ++ s.toString⟩

def invalidTarget (s : State) : Result :=
  .error ⟨"INVALID_STATE", "invalid target state: " ++ s.toString⟩

def invalidTransition (source target : State) : Result :=
  .error ⟨"INVALID_TRANSITION",
    "invalid transition from " ++ source.toString ++ " to " ++ target.toString⟩

def cannot (verb : String) (s : State) : Result :=
  .error ⟨"INVALID_TRANSITION",
    "cannot " ++ verb ++ " from state " ++ s.toString⟩

/-- `stateManager`. A waiter's channel has the number of its goroutine; `receiving`
tells who is at the receive, `signalled` who has got a value. Callbacks, history and
statistics are left out. -/
structure Manager where
  state : State := .initial
  mu : Bool := false
  waiters : State → List ℕ := fun _ => []
  receiving : ℕ → Bool := fun _ => false
  signalled : ℕ → Bool := fun _ => false

/-- The calls that change the state; `fn` tells whether a function is given. -/
inductive Method
  | transition (target : State)
  | start (fn : Bool)
  | stop (fn : Bool)
  deriving DecidableEq

/-- Such a call is before the lock, at the callbacks after it has stored a state, at
the notification, or in its function. `r` is what it returns with this state. -/
inductive Stage
  | called
  | callbacks (state : State) (r : Result)
  | notifying (state : State) (r : Result)
  | working
  | returned (r : Result)
  deriving DecidableEq

inductive Waiter
  | called | checked | registered | blocked
  | returned (r : Result)
  deriving DecidableEq

/-- `wait none` is `Wait`, `wait (some s)` is `WaitForState` with target `s`. -/
inductive Thread
  | change (method : Method) (stage : Stage)
  | wait (target : Option State) (stage : Waiter)
  deriving DecidableEq

/-- Going on, staying in a callback or a function, and the failures of a
function. -/
inductive Choice
  | go | work
  | fails (message : String)
  | timeout
  deriving DecidableEq

def awaited : Option State → List State
  | none => [.stopped, .error]
  | some target => [target]

namespace Manager

variable (m : Manager)

/-- The states from which a method goes on, and the state it stores first. -/
def admission (cfg : Settings) : Method → Except Result State
  | .transition target =>
    if cfg.validateTransitions && !isValidTransition m.state target then
      .error (invalidTransition m.state target)
    else .ok target
  | .start _ =>
    if m.state ≠ .initial ∧ m.state ≠ .stopped then
      .error (cannot "start" m.state)
    else .ok .starting
  | .stop _ =>
    if m.state = .stopped ∨ m.state = .error then .error .ok
    else if m.state ≠ .running ∧ m.state ≠ .starting then
      .error (cannot "stop" m.state)
    else .ok .stopping

def store (state : State) : Manager := { m with state := state, mu := true }

def notifyWaiters (state : State) : Manager :=
  { m with
    signalled := fun w => m.signalled w ||
      (decide (w ∈ m.waiters state) && m.receiving w)
    receiving := fun w => m.receiving w && !decide (w ∈ m.waiters state)
    waiters := update m.waiters state [] }

/-- The waiter registers its channel for each state it waits for. -/
def register (w : ℕ) (states : List State) : Manager :=
  { m with
    waiters := fun s => if s ∈ states then m.waiters s ++ [w]
      else m.waiters s }

end Manager

/-- The state that a method stores after its function has succeeded. -/
def Method.final : Method → State
  | .transition target => target
  | .start _ => .running
  | .stop _ => .stopped

variable (cfg : Settings) (m : Manager)

/-- After the notification of a state: the end of the method, its function, or the
second transition. -/
def Method.follow (state : State) (r : Result) : Method → Manager × Stage
  | .transition _ => ({ m with mu := false }, .returned r)
  | .start fn =>
    if state = .starting then
      if fn then (m, .working) else (m.store .running, .callbacks .running .ok)
    else ({ m with mu := false }, .returned r)
  | .stop fn =>
    if state = .stopping then
      if fn then (m, .working) else (m.store .stopped, .callbacks .stopped .ok)
    else ({ m with mu := false }, .returned r)

/-- A `Transition` checks its target before it takes the lock. -/
def Method.refusal : Method → Option Result
  | .transition target => if target.valid then none else some (invalidState target)
  | _ => none

def changeNext (method : Method) : Stage → Choice → Option (Manager × Stage)
  | .called, .go =>
    match method.refusal with
    | some r => some (m, .returned r)
    | none =>
      if m.mu then none
      else
        match m.admission cfg method with
        | .error r => some (m, .returned r)
        | .ok state => some (m.store state, .callbacks state .ok)
  | .callbacks state r, .work => some (m, .callbacks state r)
  | .callbacks state r, .go => some (m, .notifying state r)
  | .notifying state r, .go => some (method.follow (m.notifyWaiters state) state r)
  | .working, .work => some (m, .working)
  | .working, .go => some (m.store method.final, .callbacks method.final .ok)
  | .working, .fails message => some (m.store .error, .callbacks .error (.failed message))
  | .working, .timeout =>
    if 0 < cfg.transitionTimeout then
      some (m.store .error, .callbacks .error .timeout)
    else none
  | _, _ => none

def targetError : Option State → Option Result
  | some target => if target.valid then none else some (invalidTarget target)
  | none => none

def waitNext (w : ℕ) (target : Option State) : Waiter → Option (Manager × Waiter)
  | .called =>
    match targetError target with
    | some r => some (m, .returned r)
    | none =>
      if m.state ∈ awaited target then some (m, .returned .ok)
      else some (m, .checked)
  | .checked => some (m.register w (awaited target), .registered)
  | .registered => some ({ m with receiving := update m.receiving w true }, .blocked)
  | .blocked => if m.signalled w then some (m, .returned .ok) else none
  | .returned _ => none

def next (i : ℕ) (t : Thread) (x : Choice) : Option (Outcome Manager Thread) :=
  match t with
  | .change method stage => (changeNext cfg m method stage x).map
      fun (m, stage) => ⟨m, .change method stage, []⟩
  | .wait target stage => (waitNext m i target stage).map
      fun (m, stage) => ⟨m, .wait target stage, []⟩

def entry : Thread → Bool
  | .change _ .called | .wait _ .called => true
  | _ => false

def code : Code Manager Thread Choice := ⟨next cfg, entry⟩

def start : Config Manager Thread := ⟨{ state := cfg.initialState }, []⟩

/-! ## What a step does -/

variable {cfg : Settings} {m m' : Manager}

structure SameWaiters (m m' : Manager) : Prop where
  waiters : m'.waiters = m.waiters
  receiving : m'.receiving = m.receiving
  signalled : m'.signalled = m.signalled

theorem Method.follow_sameWaiters (method : Method) (m : Manager) (state : State) (r : Result) :
    SameWaiters m (method.follow m state r).1 := by
  cases method with
  | transition => exact ⟨rfl, rfl, rfl⟩
  | start | stop =>
    rw [Method.follow]
    split
    · split <;> exact ⟨rfl, rfl, rfl⟩
    · exact ⟨rfl, rfl, rfl⟩

variable {method : Method} {stage' : Stage} {x : Choice}

theorem changeNext_cases {stage : Stage} (h : changeNext cfg m method stage x = some (m', stage')) :
    SameWaiters m m' ∨ ∃ state r, stage = .notifying state r ∧
      SameWaiters (m.notifyWaiters state) m' := by
  revert h
  fun_cases changeNext cfg m method stage x <;> intro h
  case case7 state r =>
    right
    refine ⟨state, r, rfl, ?_⟩
    have hfst : (method.follow (m.notifyWaiters state) state r).1 = m' :=
      congrArg Prod.fst (some.inj h)
    rw [← hfst]
    exact method.follow_sameWaiters _ state r
  case case2 | case12 | case13 => cases h
  all_goals
    cases h
    exact .inl ⟨rfl, rfl, rfl⟩

def Stage.Valid (method : Method) : Stage → Prop
  | .callbacks state _ | .notifying state _ => state.valid = true
  | .working => method.final.valid = true
  | _ => True

theorem Method.follow_valid (method : Method) (m : Manager) (state : State) (r : Result) :
    (method.follow m state r).2.Valid method := by
  cases method with
  | transition => trivial
  | start | stop =>
    rw [Method.follow]
    split
    · split
      · rfl
      · rfl
    · trivial

variable {state : State}

open Manager

theorem Manager.admission_valid (hallowed : method.refusal = none)
    (h : m.admission cfg method = .ok state) : state.valid = true := by
  cases method with
  | transition => grind [Method.refusal, admission]
  | start =>
    rw [admission] at h
    split at h <;> cases h
    rfl
  | stop =>
    rw [admission] at h
    split at h
    · cases h
    · split at h <;> cases h
      rfl

theorem changeNext_valid {stage : Stage} (hvalid : stage.Valid method)
    (h : changeNext cfg m method stage x = some (m', stage')) : stage'.Valid method := by
  revert h
  fun_cases changeNext cfg m method stage x <;> intro h
  case case7 state r =>
    have hsnd : (method.follow (m.notifyWaiters state) state r).2 = stage' :=
      congrArg Prod.snd (some.inj h)
    rw [← hsnd]
    exact method.follow_valid _ state r
  all_goals cases h
  case case1 | case3 => trivial
  case case4 hallowed _ state hadmitted =>
    exact admission_valid hallowed hadmitted
  case case5 | case6 | case8 | case9 => exact hvalid
  case case10 | case11 => rfl

/-! ## Waiters -/

def Thread.misses (state : State) : Thread → Bool
  | .wait target .checked | .wait target .registered => state ∈ awaited target
  | _ => false

/-- A notification comes only when no waiter for its state is between its check
and its receive. -/
def Timely (c : Config Manager Thread) : Move Thread Choice → Prop
  | .spawn _ => True
  | .run i _ => (c.threads[i]?).all (fun t =>
    match t with
    | .change _ (.notifying state _) => c.threads.all fun u => !u.misses state
    | _ => true) = true

/-- The channel is registered for all the states that are waited for. -/
def Registered (m : Manager) (w : ℕ) (target : Option State) : Prop :=
  ∀ s ∈ awaited target, w ∈ m.waiters s

def Thread.Waits (m : Manager) (w : ℕ) : Thread → Prop
  | .change method stage => stage.Valid method
  | .wait target .registered => Registered m w target
  | .wait target .blocked => m.signalled w = true ∨ m.receiving w = true ∧ Registered m w target
  | .wait target (.returned r) => targetError target = none → r = .ok
  | .wait _ _ => True

variable {w : ℕ} {t : Thread}

theorem SameWaiters.waits (hsame : SameWaiters m m') (h : t.Waits m w) : t.Waits m' w := by
  obtain ⟨hwaiters, hreceiving, hsignalled⟩ := hsame
  cases t with
  | change => exact h
  | wait target stage =>
    cases stage with
    | registered =>
      intro s hs
      rw [hwaiters]
      exact h s hs
    | blocked =>
      change _ ∨ _ ∧ ∀ s ∈ awaited target, w ∈ m'.waiters s
      rw [hwaiters, hreceiving, hsignalled]
      exact h
    | _ => exact h

theorem notifyWaiters_of_ne {s : State} (h : s ≠ state) :
    (m.notifyWaiters state).waiters s = m.waiters s :=
  update_of_ne h _ _

theorem Thread.Waits.notify (h : t.Waits m w) (hmisses : t.misses state = false) :
    t.Waits (m.notifyWaiters state) w := by
  cases t with
  | change => exact h
  | wait target stage =>
    cases stage with
    | registered =>
      have hother : state ∉ awaited target := of_decide_eq_false hmisses
      intro s hs
      have hne : s ≠ state := fun heq => hother (heq ▸ hs)
      rw [notifyWaiters_of_ne hne]
      exact h s hs
    | blocked =>
      by_cases hnow : w ∈ m.waiters state
      · left
        rcases h with h | ⟨hreceiving, -⟩ <;> grind [notifyWaiters]
      · rcases h with h | ⟨hreceiving, hregistered⟩
        · left
          simp [notifyWaiters, h]
        · right
          constructor
          · simp [notifyWaiters, hnow, hreceiving]
          · intro s hs
            have hne : s ≠ state := fun heq => hnow (heq ▸ hregistered s hs)
            rw [notifyWaiters_of_ne hne]
            exact hregistered s hs
    | _ => exact h

theorem mem_register {w' : ℕ} {states : List State} {s : State} :
    w ∈ (m.register w' states).waiters s ↔ w ∈ m.waiters s ∨ s ∈ states ∧ w = w' := by
  grind [register]

variable {target : Option State}

open Thread

theorem waitNext_waits {stage stage' : Waiter} (h : waitNext m w target stage = some (m', stage'))
    (hwaits : (wait target stage).Waits m w) : (wait target stage').Waits m' w := by
  revert h
  fun_cases waitNext m w target stage <;> intro h <;> cases h
  case case1 r herror =>
    intro hvalid
    rw [hvalid] at herror
    cases herror
  case case2 | case6 => exact fun _ => rfl
  case case3 => trivial
  case case4 =>
    intro s hs
    exact mem_register.mpr (.inr ⟨hs, rfl⟩)
  case case5 => exact .inr ⟨update_self .., hwaits⟩

theorem Thread.Waits.other {w' : ℕ} {stage stage' : Waiter} (h : t.Waits m w) (hne : w ≠ w')
    (hnext : waitNext m w' target stage = some (m', stage')) : t.Waits m' w := by
  revert hnext
  fun_cases waitNext m w' target stage <;> intro hnext <;> cases hnext
  case case1 | case2 | case3 | case6 => exact h
  case case4 =>
    have hregister : ∀ target', Registered m w target' →
        Registered (m.register w' (awaited target)) w target' :=
      fun target' hold s hs => mem_register.mpr (.inl (hold s hs))
    cases t with
    | change => exact h
    | wait target' stage =>
      cases stage with
      | registered => exact hregister target' h
      | blocked => exact h.imp id fun h => ⟨h.1, hregister target' h.2⟩
      | _ => exact h
  case case5 =>
    cases t with
    | change => exact h
    | wait target' stage =>
      cases stage with
      | blocked =>
        refine h.imp id fun h => ⟨?_, h.2⟩
        exact (update_of_ne hne _ _).trans h.1
      | _ => exact h

variable {c : Config Manager Thread}

theorem waits_of_run {acts : List (Move Thread Choice)}
    (hrun : Run (code cfg).step Timely (start cfg) acts c) : c.All fun m w t => t.Waits m w := by
  refine Code.run_invariant (I := fun c => c.All fun m w t => t.Waits m w)
    ?_ ?_ hrun ?_
  · intro c t hc _ hentry
    refine hc.spawn ?_
    match t with
    | .change _ .called | .wait _ .called => trivial
  · intro c i x t o hc htimely ht ho
    cases t with
    | change =>
      obtain ⟨⟨m', stage'⟩, hnext, rfl⟩ := map_eq_some_iff.mp ho
      refine hc.advance_alone rfl
        (changeNext_valid (hc i _ ht) hnext) fun j u hj hu hwaits => ?_
      rcases changeNext_cases hnext with hsame | ⟨state, r, rfl, hsame⟩ <;>
        grind [SameWaiters.waits, Waits.notify, Timely]
    | wait =>
      obtain ⟨⟨m', stage'⟩, hnext, rfl⟩ := map_eq_some_iff.mp ho
      refine hc.advance_alone rfl (waitNext_waits hnext (hc i _ ht)) ?_
      grind [Waits.other]
  · intro i t ht
    cases ht

/-! ## The end of a wait -/

theorem changeNext_notifying {r : Result}
    (h : changeNext cfg m method (.notifying state r) x = some (m', stage')) :
    SameWaiters (m.notifyWaiters state) m' := by
  cases x with
  | go =>
    have hfst : (method.follow (m.notifyWaiters state) state r).1 = m' :=
      congrArg Prod.fst (some.inj h)
    grind [Method.follow_sameWaiters]
  | _ => cases h

theorem signalled_of_step {c' : Config Manager Thread} {mv : Move Thread Choice}
    (h : (code cfg).step c mv = some c') (hsignalled : c.shared.signalled w = true) :
    c'.shared.signalled w = true := by
  rcases Code.step_cases h with ⟨t, -, -, rfl⟩ | ⟨i, x, t, o, -, -, ho, rfl⟩
  · exact hsignalled
  · cases t with
    | change =>
      obtain ⟨⟨m', stage'⟩, hnext, rfl⟩ := map_eq_some_iff.mp ho
      change m'.signalled w = true
      rcases changeNext_cases hnext with hsame | ⟨state, r, -, hsame⟩
      · rw [hsame.signalled]
        exact hsignalled
      · rw [hsame.signalled]
        simp [notifyWaiters, hsignalled]
    | wait target stage =>
      obtain ⟨⟨m', stage'⟩, hnext, rfl⟩ := map_eq_some_iff.mp ho
      change m'.signalled w = true
      revert hnext
      fun_cases waitNext c.shared i target stage <;> intro hnext <;>
        cases hnext <;> exact hsignalled

section Executions

variable {ok : Config Manager Thread → Move Thread Choice → Prop}
  {e : Execution (code cfg) ok (start cfg)} {n w : ℕ} {target : Option State}

theorem returns_of_next (hfair : e.Fair) {stage : Waiter} {P : Manager → Prop}
    (hw : (e.config n).threads[w]? = some (.wait target stage))
    (hP : ∀ m, n ≤ m → P (e.config m).shared)
    (hnext : ∀ m, P m → waitNext m w target stage = some (m, .returned .ok)) :
    ∃ m, (e.config m).threads[w]? = some (.wait target (.returned .ok)) := by
  have hcode : ∀ m x, P m → (code cfg).next m w (.wait target stage) x =
      some ⟨m, .wait target (.returned .ok), []⟩ := by
    intro m x hm
    change (waitNext m w target stage).map _ = _
    rw [hnext m hm]
    rfl
  obtain ⟨m, x, o, hm, hwm, -, ho, hc⟩ := eventually_steps hfair hw
    (by
      intro m hm hwm
      apply Code.enabled_of_next (b := .go) hwm
      rw [hcode _ _ (hP m hm)]
      rfl)
  grind [Config.getElem?_advance_self]

end Executions

/-- A wait during which a transition into an awaited state completes, which then
stays, returns without an error, if notifications come only when no waiter for their
state is between its check and its receive. -/
theorem wait_returns (cfg : Settings) (e : Execution (code cfg) Timely (start cfg))
    (hfair : e.Fair) {n i w : ℕ} {x : Choice} {method : Method} {state : State} {r : Result}
    {target : Option State} {stage : Waiter}
    (hw : (e.config n).threads[w]? = some (.wait target stage))
    (hi : (e.config n).threads[i]? = some (.change method (.notifying state r)))
    (hmove : e.move n = some (.run i x)) (hawaited : state ∈ awaited target)
    (hstays : ∀ m, n < m → (e.config m).shared.state = state) :
    ∃ m, (e.config m).threads[w]? = some (.wait target (.returned .ok)) := by
  obtain ⟨acts, hrun⟩ := e.exists_run n
  have hwaits := waits_of_run hrun
  have htarget : targetError target = none := by
    have hvalid : state.valid = true := hwaits i _ hi
    cases target with
    | none => rfl
    | some target =>
      obtain rfl : state = target := List.mem_singleton.mp hawaited
      exact if_pos hvalid
  -- Nobody is in the gap, by the condition on the notification.
  have htimely : ∀ t ∈ (e.config n).threads, t.misses state = false := by
    have := e.guard hmove
    rw [Timely, hi, Option.all_some] at this
    simpa using List.all_eq_true.mp this
  have hmisses := htimely _ (List.mem_of_getElem? hw)
  obtain ⟨hstay, hc⟩ : (e.config (n + 1)).threads[w]? =
      some (.wait target stage) ∧
      SameWaiters ((e.config n).shared.notifyWaiters state)
        (e.config (n + 1)).shared := by
    obtain ⟨o, ho, hc⟩ := Execution.exists_next hmove hi
    obtain ⟨⟨m', stage'⟩, hnext, rfl⟩ := Option.map_eq_some_iff.mp ho
    rw [hc]
    refine ⟨Config.getElem?_advance_of_ne ?_ hw, changeNext_notifying hnext⟩
    rintro rfl
    rw [hw] at hi
    cases hi
  cases stage with
  | checked | registered =>
    exact absurd hawaited (of_decide_eq_false hmisses)
  | returned r =>
    obtain rfl : r = .ok := hwaits w _ hw htarget
    exact ⟨n, hw⟩
  | called =>
    refine returns_of_next hfair hstay
      (P := fun m => m.state = state) (fun m hm => hstays m hm) ?_
    intro m hm
    rw [waitNext, htarget]
    exact if_pos (hm ▸ hawaited)
  | blocked =>
    have hsignalled : (e.config (n + 1)).shared.signalled w = true := by
      rw [hc.signalled]
      rcases hwaits w _ hw with h | ⟨hreceiving, hregistered⟩
      · simp [Manager.notifyWaiters, h]
      · simp [Manager.notifyWaiters, hreceiving, hregistered state hawaited]
    refine returns_of_next hfair hstay
      (P := fun m => m.signalled w = true) ?_ fun m hm => if_pos hm
    exact Execution.always (P := fun c => c.shared.signalled w = true)
      hsignalled fun m mv _ hm hmove => signalled_of_step (e.next hmove) hm

/-! ## Examples -/

instance (c : Config Manager Thread) (a : Move Thread Choice) : Decidable (Timely c a) := by
  delta Timely
  cases a <;> infer_instance

def rests (m : Manager) (w : ℕ) : Thread → Bool
  | .change _ (.returned _) | .wait _ (.returned _) => true
  | .wait _ .blocked => !m.signalled w
  | _ => false

theorem next_eq_none (x : Choice) (h : rests m w t = true) : (code cfg).next m w t x = none := by
  match t with
  | .change method (.returned r) => cases x <;> rfl
  | .wait target (.returned r) => rfl
  | .wait target .blocked =>
    have hnone : m.signalled w = false := by simpa [rests] using h
    change (waitNext m w target .blocked).map _ = none
    rw [waitNext, hnone]
    rfl

theorem next_of_rests (h : c.every rests = true) (w : ℕ) (t : Thread) (x : Choice)
    (ht : c.threads[w]? = some t) : (code cfg).next c.shared w t x = none :=
  next_eq_none x (Config.all_of_every h w t ht)

def waitAndStart (k n : ℕ) : List (Move Thread Choice) :=
  [Move.spawn (Thread.wait (some .running) .called)] ++ List.replicate k (Move.run 0 Choice.go) ++
    [Move.spawn (Thread.change (.start false) .called)] ++
    List.replicate n (Move.run 1 Choice.go)

/-- A waiter at its receive is notified. -/
theorem wait_returns_notified : ∃ (e : Execution (code {}) Timely (start {})) (n : ℕ),
      e.Fair ∧ (e.config n).threads[0]? =
          some (Thread.wait (some .running) .blocked) ∧
        ∃ m, (e.config m).threads[0]? = some (Thread.wait (some .running) (.returned .ok)) := by
  obtain ⟨c₁, hrun, hthreads, hok, hsteps⟩ := exists_run (code {}).step Timely
    (start {}) (waitAndStart 3 4)
    (fun c => c.threads = [.wait (some .running) .blocked,
        .change (.start false) (.notifying .running .ok)] ∧
      Timely c (.run 1 .go) ∧
      ((code {}).step c (.run 1 .go)).any (fun c =>
        c.shared.state = .running && decide (Timely c (.run 0 .go)) &&
        ((code {}).step c (.run 0 .go)).any fun c =>
          c.shared.state = .running && c.every rests) = true) (by decide +kernel)
  obtain ⟨c₂, hnext, h₂⟩ := (any_eq_true _ _).mp hsteps
  rw [Bool.and_eq_true, Bool.and_eq_true] at h₂
  obtain ⟨⟨hstate₂, hok₂⟩, h₂⟩ := h₂
  obtain ⟨c₃, hnext₃, h₃⟩ := (any_eq_true _ _).mp h₂
  rw [Bool.and_eq_true] at h₃
  obtain ⟨hstate₃, hrest⟩ := h₃
  obtain ⟨e, N, h₁, hmove, h₂, h₃⟩ := exists_execution_two hrun hok hnext
    (of_decide_eq_true hok₂) hnext₃
  have hfair : e.Fair := fair_of_rest h₃ (Code.not_enabled (next_of_rests hrest))
  have hw : (e.config N).threads[0]? =
      some (wait (some .running) .blocked) := by
    rw [h₁, hthreads]
    rfl
  have hi : (e.config N).threads[1]? =
      some (change (.start false) (.notifying .running .ok)) := by
    rw [h₁, hthreads]
    rfl
  refine ⟨e, N, hfair, hw, wait_returns {} e hfair hw hi hmove
    (List.mem_singleton.mpr rfl) fun m hm => ?_⟩
  grind

/-- The waiter takes `k` steps, `Start` runs to its end, and the waiter blocks for
good, though the state is running. -/
def Misses (k : ℕ) : Prop :=
  ∃ c, Run (code {}).step anyStep (start {})
      (waitAndStart k 5 ++ List.replicate (3 - k) (Move.run 0 Choice.go)) c ∧
    c.shared.state = .running ∧
    c.threads = [.wait (some .running) .blocked, .change (.start false) (.returned .ok)] ∧
    ∃ (e : Execution (code {}) anyStep (start {})) (N : ℕ), e.Fair ∧ ∀ n, N ≤ n → e.config n = c

theorem misses_of_exec {k : ℕ} (h : (exec (code {}).step anyStep (start {})
      (waitAndStart k 5 ++ List.replicate (3 - k) (Move.run 0 Choice.go))).any
      (fun c => decide (c.shared.state = .running ∧
          c.threads = [.wait (some .running) .blocked, .change (.start false) (.returned .ok)] ∧
          c.every rests = true)) = true) : Misses k := by
  obtain ⟨c, hrun, hstate, hthreads, hrest⟩ := exists_run _ _ _ _ _ h
  obtain ⟨e, N, hfair, -, hN⟩ := exists_fair hrun (next_of_rests hrest)
  exact ⟨c, hrun, hstate, hthreads, e, N, hfair, hN⟩

/-- The transition notifies when the waiter has checked the state, or has also registered. -/
theorem loses_wake_up : Misses 1 ∧ Misses 2 := by
  constructor
  all_goals exact misses_of_exec (by decide +kernel)

end Fluxor.Runtime.StateManager
