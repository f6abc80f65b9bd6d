import Mathlib.Data.List.Nodup
import Mathlib.Data.List.Perm.Subperm
import Fluxor.Support.Fairness
import Fluxor.Supervision.SingleRun

/-!
# The end of the actor supervisor

`Start` sends the result of a child that could not be started to its own result
channel, which has room for one result of each child. With one-for-one restarts
there is at most one result or run of each child, so the send never blocks. With
all-for-one restarts the results of cancelled runs come on top, and `Start` may
block for ever.

Where the sends do not block, `Start` comes back to its `select` again and again,
and returns on a stop or the end of its context.
-/

namespace Fluxor.Supervision.Actors

open Goroutines Config Transition List Option Execution Prod Code Thread

variable {cfg : Settings} {c : Config Supervisor Thread}

/-! ## Room in the result channel -/

def Thread.pending : Thread → ℕ
  | .child _ _ .running | .child _ _ (.delivering _) => 1
  | _ => 0

/-- Under all-for-one, a child fails to start only when the results in the channel
and to come are fewer than the children. -/
def Roomy (cfg : Settings) (c : Config Supervisor Thread) : Move Thread Choice → Prop
  | .run j (.fails _) => cfg.strategy = .allForOne → ∀ origin i ctx,
        c.threads[j]? = some (.supervisor (.starting origin i ctx)) →
          c.shared.results.length + c.total Thread.pending < cfg.children
  | _ => True

/-- A send of `Start` finds room, also after the results to come. -/
def Room (cfg : Settings) (c : Config Supervisor Thread) : Prop :=
  ∀ (j : ℕ) (origin : Origin) (i : ℕ) (err : Err),
    c.threads[j]? = some (.supervisor (.sending origin i err)) →
      c.shared.results.length + c.total Thread.pending < cfg.children

variable {sv sv' : Supervisor} {t t' : Thread} {started : List Thread}

theorem Step.pending_eq (h : Step cfg sv t sv' t' started)
    (hother : ∀ stage, t ≠ .supervisor stage) :
    sv'.results.length + t'.pending + (started.map pending).sum =
      sv.results.length + t.pending := by
  cases h with
  | work | exits | request | idle | cancel => rfl
  | deliver =>
    rw [length_append]
    rfl
  | _ => exact absurd rfl (hother _)

variable {origin : Origin} {i : ℕ} {err : Err}

theorem not_sending_resume {origin' : Origin} {i' : ℕ} :
    resume cfg i origin ≠ .sending origin' i' err := by
  cases origin <;> grind [resume, loopFirst, loopAll]

variable {stage : Stage}

theorem Step.fails_of_sending
    (h : Step cfg sv (.supervisor stage) sv' (.supervisor (.sending origin i err)) started) :
    ∃ ctx, stage = .starting origin i ctx ∧ sv' = sv ∧ started = [] := by
  generalize ht : supervisor (.sending origin i err) = t' at h
  cases h with
  | fail =>
    cases ht
    exact ⟨_, rfl, rfl, rfl⟩
  | begins =>
    rw [loopFirst] at ht
    split at ht <;> cases ht
  | stopAll =>
    rw [loopAll] at ht
    split at ht <;> cases ht
  | launch | send => exact absurd (supervisor.inj ht).symm not_sending_resume
  | record =>
    rw [restart] at ht
    split at ht <;> cases ht
  | _ => cases ht

variable {x : Choice}

theorem fails_of_startNext {origin' : Origin} {i' ctx : ℕ}
    (h : startNext cfg sv (.starting origin i ctx) x =
      some (sv', .sending origin' i' err, started)) : ∃ err, x = .fails err := by
  cases x with
  | fails err => exact ⟨err, rfl⟩
  | go =>
    have hrest := (mk.inj (some.inj h)).2
    exact absurd (mk.inj hrest).1 not_sending_resume
  | _ => cases h

theorem Room.advance {j : ℕ} {o : Outcome Supervisor Thread} (h : Room cfg c)
    (hlegal : Legal cfg c) (hall : cfg.strategy = .allForOne) (ht : c.threads[j]? = some t)
    (hroomy : Roomy cfg c (.run j x)) (ho : (code cfg).next c.shared j t x = some o) :
    Room cfg (c.advance j o) := by
  have hstep := step_of_next ho
  have hlegal' := hlegal.advance ht hstep
  have htotal := total_advance (w := pending) (o := o) ht
  intro j' origin i err hsending
  obtain rfl : j' = 0 := (hlegal'.threads j' _ hsending).1
  change o.shared.results.length + _ < _
  by_cases hj : j = 0
  · subst hj
    rw [getElem?_advance_self ht] at hsending
    cases t with
    | child => exact absurd rfl (hlegal.threads 0 _ ht).1
    | stop | cancel => exact absurd rfl (hlegal.threads 0 _ ht)
    | supervisor =>
      obtain ⟨sv', t', started⟩ := o
      obtain rfl : t' = _ := some.inj hsending
      obtain ⟨ctx, rfl, rfl, rfl⟩ := hstep.fails_of_sending
      obtain ⟨⟨sv', stage', started⟩, hnext, heq⟩ := map_eq_some_iff.mp ho
      cases heq
      obtain ⟨err, rfl⟩ := fails_of_startNext hnext
      have hroom := hroomy hall origin i ctx ht
      grind [pending]
  · -- The step of another goroutine, while `Start` waits for room.
    have hother : c.threads[0]? = some (.supervisor (.sending origin i err)) := by
      grind [getElem?_advance]
    have hpending := hstep.pending_eq fun stage hstage =>
      hj ((hstage ▸ hlegal.threads j t ht : (supervisor stage).Legal cfg c.shared j).1)
    have hroom := h 0 origin i err hother
    omega

theorem length_lt_of_nodup {results : List (ℕ × Err)} {n : ℕ} (i : ℕ)
    (hnodup : (i :: results.map fst).Nodup) (hlt : ∀ k ∈ i :: results.map fst, k < n) :
    results.length < n := by
  have hsub : List.Subperm (i :: results.map fst) (range n) :=
    hnodup.subperm fun k hk => mem_range.mpr (hlt k hk)
  have hle := hsub.length_le
  grind

theorem Counted.room {j : ℕ} (h : Counted cfg c) (hone : cfg.strategy ≠ .allForOne)
    (hsending : c.threads[j]? = some (.supervisor (.sending origin i err))) :
    c.shared.results.length < cfg.children := by
  obtain ⟨-, hi, -⟩ := h.legal.threads j _ hsending
  have hcount : ∀ k, (c.shared.results.map fst).count k ≤
      resultTokens cfg k c.shared.results := by
    intro k
    rw [resultTokens, if_neg hone, count_eq_countP, countP_map]
    refine countP_mono_left fun r _ hr => ?_
    exact decide_eq_true (eq_of_beq hr).symm
  have htoken : 1 ≤ c.total (token cfg i) := by
    refine le_trans ?_ (Config.le_total hsending)
    cases origin with
    | first => exact (if_pos ⟨le_rfl, hi⟩ : _ = 1).ge
    | one | all => exact (if_pos rfl : _ = 1).ge
  refine length_lt_of_nodup i (nodup_cons.mpr ⟨?_, ?_⟩) ?_
  · intro hmem
    have hpos := count_pos_iff.mpr hmem
    have := h.once i
    have := hcount i
    omega
  · rw [nodup_iff_count_le_one]
    intro k
    have := h.once k
    have := hcount k
    omega
  · intro k hk
    rcases mem_cons.mp hk with rfl | hk
    · exact hi
    · obtain ⟨r, hr, rfl⟩ := mem_map.mp hk
      exact h.legal.results r hr

variable {acts : List (Move Thread Choice)}

theorem room_of_run {j : ℕ} (hrun : Run (code cfg).step (Roomy cfg) start acts c)
    (hsending : c.threads[j]? = some (.supervisor (.sending origin i err))) :
    c.shared.results.length < cfg.children := by
  by_cases hall : cfg.strategy = .allForOne
  · have hroom : Legal cfg c ∧ Room cfg c := by
      refine run_invariant (I := fun c => Legal cfg c ∧ Room cfg c)
        ?_ ?_ hrun ⟨legal_start, ?_⟩
      · rintro c t ⟨hlegal, hroom⟩ - hentry
        refine ⟨hlegal.spawn hentry, fun j origin i err hsending => ?_⟩
        have hidle : t.pending = 0 ∧ ∀ stage, t ≠ .supervisor stage := by
          rcases Bool.or_eq_true_iff.mp hentry with h | h <;>
            rw [of_decide_eq_true h] <;> exact ⟨rfl, by simp⟩
        rw [total_spawn, hidle.1]
        rcases getElem?_spawn hsending with hold | ⟨-, hnew⟩
        · exact hroom j origin i err hold
        · exact absurd hnew.symm (hidle.2 _)
      · grind [Legal.advance, step_of_next, Room.advance]
      · intro j origin i err hsending
        cases j with
        | zero | succ => cases hsending
    have := hroom.2 j origin i err hsending
    omega
  · refine (counted_of_run (hrun.mono fun {c m} _ => ?_)).room hall hsending
    cases m with
    | spawn => trivial
    | run => exact fun h => absurd h hall

/-! ## The way back to the `select` -/

def Origin.rank (n i : ℕ) : Origin → ℕ
  | .one => 0
  | .first | .all => 5 * (n - 1 - i)

/-- A bound for the steps of `Start` until it selects or returns. -/
def Stage.rank (n : ℕ) : Stage → ℕ
  | .called => 5 * n + 5
  | .entering origin i => origin.rank n i + 3
  | .starting origin i _ => origin.rank n i + 2
  | .sending origin i _ => origin.rank n i + 1
  | .received _ _ => 5 * n + 8
  | .recording _ => 5 * n + 7
  | .cancelling _ => 4
  | .stopping => 5 * n + 5
  | .restarting i => Origin.all.rank n i + 4
  | .finishing => 2
  | .ending => 1
  | .selecting | .returned => 0

def Stage.Waiting (stage : Stage) : Prop := stage = .selecting ∨ stage = .returned

theorem loopFirst_rank (i : ℕ) : (loopFirst cfg i).Waiting ∨
    i < cfg.children ∧ (loopFirst cfg i).rank cfg.children = 5 * (cfg.children - 1 - i) + 3 := by
  unfold loopFirst
  split
  · exact .inr ⟨‹_›, rfl⟩
  · exact .inl (.inl rfl)

theorem loopAll_rank (i : ℕ) : (loopAll cfg i).Waiting ∨
    i < cfg.children ∧ (loopAll cfg i).rank cfg.children = 5 * (cfg.children - 1 - i) + 4 := by
  unfold loopAll
  split
  · exact .inr ⟨‹_›, rfl⟩
  · exact .inl (.inl rfl)

theorem resume_rank (i : ℕ) (origin : Origin) :
    (resume cfg i origin).Waiting ∨ (resume cfg i origin).rank cfg.children <
      origin.rank cfg.children i + 1 := by
  cases origin with
  | first =>
    refine (loopFirst_rank (i + 1)).imp id ?_
    rintro ⟨hi, hrank⟩
    rw [resume, hrank, Origin.rank]
    omega
  | one => exact .inl (.inl rfl)
  | all =>
    refine (loopAll_rank (i + 1)).imp id ?_
    rintro ⟨hi, hrank⟩
    rw [resume, hrank, Origin.rank]
    omega

theorem restart_rank (i : ℕ) : (restart cfg i).Waiting ∨
    (restart cfg i).rank cfg.children < 5 * cfg.children + 7 := by
  grind [restart, Stage.rank]

theorem Step.rank_lt (h : Step cfg sv (.supervisor stage) sv' t' started) (hbusy : ¬stage.Waiting) :
    ∃ stage', t' = .supervisor stage' ∧
      (stage'.Waiting ∨ stage'.rank cfg.children < stage.rank cfg.children) := by
  cases h with
  | begins =>
    refine ⟨_, rfl, (loopFirst_rank 0).imp id fun ⟨_, hrank⟩ => ?_⟩
    rw [hrank, Stage.rank]
    omega
  | launch => exact ⟨_, rfl, (resume_rank _ _).imp id fun hrank => Nat.lt_succ_of_lt hrank⟩
  | send => exact ⟨_, rfl, resume_rank _ _⟩
  | receive | stop => exact absurd (.inl rfl) hbusy
  | record => exact ⟨_, rfl, restart_rank _⟩
  | stopAll =>
    refine ⟨_, rfl, (loopAll_rank 0).imp id fun ⟨_, hrank⟩ => ?_⟩
    rw [hrank, Stage.rank]
    omega
  | ignore => exact ⟨_, rfl, .inl (.inl rfl)⟩
  | ends => exact ⟨_, rfl, .inl (.inr rfl)⟩
  | _ =>
    refine ⟨_, rfl, .inr ?_⟩
    simp only [Stage.rank, Origin.rank]
    omega

theorem enabled_of_busy (ht : c.threads[0]? = some (.supervisor stage))
    (hbusy : ¬stage.Waiting) (hroom : ∀ origin i err, stage = .sending origin i err →
      c.shared.results.length < cfg.children) : (code cfg).Enabled c 0 := by
  have henabled : ∀ x, (startNext cfg c.shared stage x).isSome = true → (code cfg).Enabled c 0 := by
    intro x hx
    refine enabled_of_next (b := x) ht ?_
    change ((startNext cfg c.shared stage x).map _).isSome = true
    rwa [isSome_map]
  cases stage with
  | selecting => exact absurd (.inl rfl) hbusy
  | returned => exact absurd (.inr rfl) hbusy
  | sending =>
    refine henabled .go ?_
    grind [startNext]
  | received =>
    refine henabled (.clock 0) ?_
    grind [startNext]
  | recording => exact henabled (.clock 0) rfl
  | _ => exact henabled .go rfl

section Executions

variable {e : Execution (code cfg) (Roomy cfg) start}

theorem exists_stage (e : Execution (code cfg) (Roomy cfg) start) (n : ℕ) :
    ∃ stage, (e.config n).threads[0]? = some (.supervisor stage) := by
  obtain ⟨acts, hrun⟩ := e.exists_run n
  have hlegal := legal_of_run hrun
  obtain ⟨t, ht⟩ : ∃ t, (e.config n).threads[0]? = some t :=
    ⟨_, getElem?_eq_getElem hlegal.nonempty⟩
  cases t with
  | supervisor stage => exact ⟨stage, ht⟩
  | child => exact absurd rfl (hlegal.threads 0 _ ht).1
  | stop | cancel => exact absurd rfl (hlegal.threads 0 _ ht)

def Thread.rank (n : ℕ) : Thread → ℕ
  | .supervisor stage => stage.rank n
  | _ => 0

theorem eventually_waiting (hfair : e.Fair) (n : ℕ) :
    ∃ m stage, n ≤ m ∧ (e.config m).threads[0]? = some (.supervisor stage) ∧
        stage.Waiting := by
  obtain ⟨stage, ht⟩ := exists_stage e n
  have hdone := eventually_done hfair (fun u => ∃ stage, u = .supervisor stage)
    (fun u => ∃ stage, u = .supervisor stage ∧ stage.Waiting)
    (rank cfg.children) ht ⟨stage, rfl⟩
    (by
      rintro m u - hu ⟨stage, rfl⟩ hbusy
      obtain ⟨acts, hrun⟩ := e.exists_run m
      grind [enabled_of_busy, room_of_run])
    (by
      rintro m u x o - - hu ⟨stage, rfl⟩ hbusy ho
      obtain ⟨stage', hthread, hnext⟩ := (step_of_next ho).rank_lt fun h => hbusy ⟨stage, rfl, h⟩
      rw [hthread]
      exact ⟨⟨stage', rfl⟩, hnext.imp (fun h => ⟨stage', rfl, h⟩) id⟩)
  grind

theorem eventually_returned (hfair : e.Fair) {n : ℕ}
    (ht : (e.config n).threads[0]? = some (.supervisor .finishing)) :
    ∃ m, (e.config m).threads[0]? = some (supervisor .returned) := by
  have hdone := eventually_done hfair
    (fun u => u = .supervisor .finishing ∨ u = .supervisor .ending ∨ u = .supervisor .returned)
    (fun u => u = .supervisor .returned)
    (rank cfg.children) ht (.inl rfl)
    (by
      rintro m u - hu (rfl | rfl | rfl) hbusy
      · exact enabled_of_next (b := .go) hu rfl
      · exact enabled_of_next (b := .go) hu rfl
      · exact absurd rfl hbusy)
    (by
      rintro m u x ⟨sv', t', started⟩ - - hu (rfl | rfl | rfl) hbusy ho
      · cases step_of_next ho
        exact ⟨.inr (.inl rfl), .inr Nat.one_lt_two⟩
      · cases step_of_next ho
        exact ⟨.inr (.inr rfl), .inl rfl⟩
      · exact absurd rfl hbusy)
  grind

def flag (sv : Supervisor) : Choice → Bool
  | .stop => sv.stopRequested
  | .done => sv.ctxDone
  | _ => false

variable {x : Choice}

theorem startNext_flag {sv : Supervisor} (h : flag sv x = true) :
    startNext cfg sv .selecting x = some (sv, .finishing, []) := by
  cases x with
  | stop | done => exact if_pos h
  | _ => cases h

theorem finishing_of_flag {sv sv' sv'' : Supervisor} {stage stage' : Stage}
    {started : List Thread} (hx : flag sv'' x = true)
    (h : startNext cfg sv stage x = some (sv', stage', started)) : stage' = .finishing := by
  cases x with
  | stop | done => grind [startNext]
  | _ => cases hx

theorem returned_of_flag (hfair : e.Fair) (hchoice : e.FairChoice 0 x) {n : ℕ}
    (hflag : ∀ m, n ≤ m → flag (e.config m).shared x = true) :
    ∃ m, (e.config m).threads[0]? = some (.supervisor .returned) := by
  by_contra hnever
  have hagain : ∀ k, ∃ m, k ≤ m ∧ ((code cfg).step (e.config m) (.run 0 x)).isSome = true := by
    intro k
    obtain ⟨m, stage, hm, ht, rfl | rfl⟩ := eventually_waiting hfair (max k n)
    · refine ⟨m, (le_max_left k n).trans hm, ?_⟩
      have hnext : (code cfg).next (e.config m).shared 0 (.supervisor .selecting) x =
            some ⟨(e.config m).shared, .supervisor .finishing, []⟩ := by
        change (startNext cfg _ _ _).map _ = _
        grind [startNext_flag]
      rw [step_run ht hnext]
      rfl
    · exact absurd ⟨m, ht⟩ hnever
  obtain ⟨m, hm, hmove⟩ := hchoice hagain n
  obtain ⟨stage, ht⟩ := exists_stage e m
  obtain ⟨o, ho, hc⟩ := exists_next hmove ht
  obtain ⟨⟨sv', stage', started⟩, hnext, rfl⟩ := map_eq_some_iff.mp ho
  grind [finishing_of_flag, eventually_returned, getElem?_advance_self]

end Executions

theorem Step.flag_eq (h : Step cfg sv t sv' t' started) (hflag : flag sv x = true)
    (hend : t' ≠ .supervisor .returned) : flag sv' x = true := by
  cases x with
  | stop =>
    cases h with
    | ends => exact absurd rfl hend
    | request => rfl
    | @cancelOne i =>
      rw [Supervisor.cancelChild]
      split <;> exact hflag
    | _ => exact hflag
  | done =>
    cases h with
    | cancel => rfl
    | @cancelOne i =>
      rw [Supervisor.cancelChild]
      split <;> exact hflag
    | _ => exact hflag
  | _ => cases hflag

/-- If the supervisor is stopped or its context ends, `Start` returns: with
one-for-one restarts always, with all-for-one if a child fails to start only when
there is room for its result. -/
theorem start_returns (cfg : Settings) (e : Execution (code cfg) (Roomy cfg) start)
    (hfair : e.Fair) (hselect : e.FairChoice 0 .stop ∧ e.FairChoice 0 .done)
    (hstop : ∃ n, (e.config n).shared.stopRequested = true ∨ (e.config n).shared.ctxDone = true) :
    ∃ n, (e.config n).threads[0]? = some (Thread.supervisor .returned) := by
  by_contra hnever
  have hstays : ∀ x n, flag (e.config n).shared x = true →
      ∀ m, n ≤ m → flag (e.config m).shared x = true := by
    intro x n hn
    refine always (P := fun c => flag c.shared x = true) hn ?_
    intro m mv _ hm hmove
    rcases step_cases (e.next hmove) with
      ⟨t, -, -, hc⟩ | ⟨i, b, t, o, -, ht, ho, hc⟩
    · rwa [hc]
    · rw [hc]
      refine (step_of_next ho).flag_eq hm fun hend => hnever ⟨m + 1, ?_⟩
      have hself := getElem?_advance_self (o := o) ht
      rw [← hc, hend] at hself
      obtain ⟨acts, hrun⟩ := e.exists_run (m + 1)
      obtain rfl : i = 0 := ((legal_of_run hrun).threads i _ hself).1
      exact hself
  obtain ⟨n, hn | hn⟩ := hstop
  · exact hnever (returned_of_flag hfair hselect.1 (hstays .stop n hn))
  · exact hnever (returned_of_flag hfair hselect.2 (hstays .done n hn))

/-! ## Executions that come to rest -/

def Thread.resting (cfg : Settings) (sv : Supervisor) : Thread → Bool
  | .supervisor .returned | .child _ _ .finished | .stop .returned
  | .cancel true => true
  | .supervisor (.sending _ _ _) => cfg.children ≤ sv.results.length
  | .stop .waiting => !sv.done
  | _ => false

theorem next_eq_none (x : Choice) (h : t.resting cfg sv = true) :
    (code cfg).next sv i t x = none := by
  match t with
  | .supervisor .returned | .child _ _ .finished | .stop .returned
  | .cancel true => cases x <;> rfl
  | .supervisor (.sending origin i err) =>
    have hfull : cfg.children ≤ sv.results.length := of_decide_eq_true h
    cases x with
    | go =>
      change (startNext cfg sv (.sending origin i err) .go).map _ = none
      rw [startNext, if_neg (not_lt_of_ge hfull)]
      rfl
    | _ => rfl
  | .stop .waiting =>
    have hdone : sv.done = false := by simpa [resting] using h
    cases x with
    | go =>
      change (stopNext cfg sv .waiting .go).map _ = none
      rw [stopNext, hdone]
      rfl
    | _ => rfl

def Resting (cfg : Settings) (c : Config Supervisor Thread) : Prop :=
  c.threads.all (Thread.resting cfg c.shared) = true

theorem exists_fair_of_resting {ok : Config Supervisor Thread → Move Thread Choice → Prop}
    (hrun : Run (code cfg).step ok start acts c) (hrest : Resting cfg c) :
    ∃ (e : Execution (code cfg) ok start) (N : ℕ), e.Fair ∧
      (∀ i b, e.FairChoice i b) ∧ ∀ n, N ≤ n → e.config n = c := by
  refine exists_fair hrun fun i t x ht => next_eq_none x ?_
  exact all_eq_true.mp hrest t (mem_of_getElem? ht)

instance : Decidable (Resting cfg c) := inferInstanceAs (Decidable (_ = _))

/-- The guard as a test, for every strategy. -/
def roomed (cfg : Settings) (c : Config Supervisor Thread) : Move Thread Choice → Bool
  | .run _ (.fails _) => c.shared.results.length + c.total Thread.pending < cfg.children
  | _ => true

theorem roomy_of_roomed {m : Move Thread Choice} (h : roomed cfg c m = true) : Roomy cfg c m := by
  unfold Roomy
  split
  · exact fun _ _ _ _ _ => of_decide_eq_true h
  · trivial

/-- All-for-one: the first child does not start, and then the context ends. -/
theorem start_returns_done :
    ∃ e : Execution (code { children := 2, strategy := .allForOne })
        (Roomy { children := 2, strategy := .allForOne }) start,
      (e.Fair ∧ ∃ n, (e.config n).shared.ctxDone = true) ∧
        ∃ n, (e.config n).threads[0]? = some (Thread.supervisor .returned) := by
  obtain ⟨c, hrun, hrest, hdone⟩ := exists_run
    (code { children := 2, strategy := .allForOne }).step
    (fun c m => roomed { children := 2, strategy := .allForOne } c m = true) start
    (flatten [steps 0 2, [.run 0 (.fails .other)], steps 0 3,
      [.spawn (.cancel false), .run 2 .go, .run 1 (.returns .canceled), .run 1 .go,
        .run 0 .done], steps 0 2])
    (fun c => Resting { children := 2, strategy := .allForOne } c ∧ c.shared.ctxDone = true)
    (by decide +kernel)
  have hroomy := hrun.mono fun h => roomy_of_roomed h
  obtain ⟨e, N, hfair, hchoice, hN⟩ := exists_fair_of_resting hroomy hrest
  have hended : ∃ n, (e.config n).shared.ctxDone = true :=
    ⟨N, (congrArg (fun c => c.shared.ctxDone) (hN N le_rfl)).trans hdone⟩
  exact ⟨e, ⟨hfair, hended⟩, start_returns _ e hfair
    ⟨hchoice 0 .stop, hchoice 0 .done⟩ (hended.imp fun _ h => .inr h)⟩

/-- Both children fail to start again after the first has failed, and the run of the
second returns only then: the channel is full when `Start` sends once more. -/
theorem blocks_for_ever :
    ∃ e : Execution (code { children := 2, strategy := .allForOne }) anyStep start,
      e.Fair ∧ (∀ x, e.FairChoice 0 x) ∧ (∃ n, (e.config n).shared.stopRequested = true ∧
          Resting { children := 2, strategy := .allForOne } (e.config n)) ∧
        ∀ n, (e.config n).threads[0]? ≠ some (.supervisor .returned) := by
  obtain ⟨c, hrun, hrest, hstop, hsending⟩ := exists_run
    (code { children := 2, strategy := .allForOne }).step anyStep start
    (flatten [failing, [.run 0 .go, .run 0 .go, .run 0 .go, .run 0 (.fails .other), .run 0 .go,
        .run 0 .go, .run 0 .go, .run 0 (.fails .other), .run 0 .go,
        .run 2 (.returns .other), .run 0 .receive, .run 2 .go,
        .run 0 (.clock 0), .run 0 (.clock 0), .run 0 .go, .run 0 .go,
        .run 0 .go, .run 0 (.fails .other), .spawn (.stop .called),
        .run 3 .go]])
    (fun c => Resting { children := 2, strategy := .allForOne } c ∧ c.shared.stopRequested = true ∧
      c.threads[0]? = some (.supervisor (.sending .all 0 .other)))
    (by decide +kernel)
  obtain ⟨e, N, hfair, hchoice, hN⟩ := exists_fair_of_resting hrun hrest
  refine ⟨e, hfair, hchoice 0, ⟨N, ?_⟩, fun n hn => ?_⟩
  · rw [hN N le_rfl]
    exact ⟨hstop, hrest⟩
  · have hstays := stays (fun sv x => next_eq_none x rfl) hn (max n N) (le_max_left n N)
    grind

end Fluxor.Supervision.Actors
