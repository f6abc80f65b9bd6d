import Fluxor.Scheduler.TaskScheduler
import Fluxor.Support.Transition

/-!
# Executions of a task

Since `nextRun` is moved only after `Execute` has returned, the loop may find an
entry due while a goroutine for it is still executing, and start another one: a
delayed task that takes longer than a second is executed again at every tick.

Executions do not overlap, and no `nextRun` is served twice, if the loop looks at an
entry only while no goroutine of it is in flight (`Quiet`).
-/

namespace Fluxor.Scheduler

open Support GoTime Transition List

namespace TaskScheduler

/-- A one-off task was executed at most once, a recurring one at most once for each `nextRun`. -/
def AtMostOnce (s : TaskScheduler) : Prop :=
  ∀ id e, s.entries id = some e → (e.spec.isRecurring = false → (s.executions id).length ≤ 1) ∧
      (s.executions id).Nodup

/-- The loop looks at an entry only while no goroutine of it is in flight. -/
def Quiet (s : TaskScheduler) : Action → Prop
  | .test id => ∀ w ∈ s.workers, w.entry = id → w.inFlight = false
  | _ => True

instance (s : TaskScheduler) (act : Action) : Decidable (s.Quiet act) := by
  delta Quiet
  cases act <;> infer_instance

/-- While a goroutine is in flight, `nextRun` is the one it was started for;
afterwards it is cleared or later. -/
structure Settled (e : Entry) (w : Worker) : Prop where
  due_le : w.due ≤ w.now
  inFlight : w.inFlight = true → e.nextRun = w.due
  after : w.inFlight = false → e.nextRun = zeroTime ∨ e.spec.isRecurring = true ∧ w.due < e.nextRun

/-- Goroutines of one entry follow each other, for later and later times. -/
structure Serial (s : TaskScheduler) : Prop where
  settled {i : ℕ} {w : Worker} : s.workers[i]? = some w →
    ∃ e, s.entries w.entry = some e ∧ Settled e w
  order {i j : ℕ} {w w' : Worker} {e : Entry} : i < j →
    s.workers[i]? = some w → s.workers[j]? = some w' → w.entry = w'.entry →
    s.entries w.entry = some e →
    w.inFlight = false ∧ w.due < w'.due ∧ e.spec.isRecurring = true

variable {s s' : TaskScheduler} {id k : ℕ} {wk : Worker} {e : Entry}

section

variable (h : s.Serial)

include h

theorem Serial.settled_of (hwk : s.workers[k]? = some wk)
    (he : s.entries wk.entry = some e) : Settled e wk := by
  grind [settled]

theorem Serial.of_eq (hworkers : s'.workers = s.workers)
    (hentries : s'.entries = s.entries) : s'.Serial := by
  constructor
  · rw [hworkers, hentries]
    exact h.settled
  · rw [hworkers, hentries]
    exact h.order

theorem Serial.schedule {spec : ℕ} {now : ℤ}
    (hstep : s.schedule id spec now = some s') : s'.Serial := by
  unfold TaskScheduler.schedule at hstep
  split at hstep
  · cases hstep
    exact h
  · split at hstep
    next _ =>
      cases hstep
      -- No goroutine is about the new entry.
      have hold : ∀ {i : ℕ} {w : Worker}, s.workers[i]? = some w → w.entry ≠ id := by
        grind [settled]
      constructor
      · grind [settled]
      · intro i j w w' e hij hw hw' hentry he
        apply h.order hij hw hw' hentry
        simpa [Function.update_of_ne (hold hw)] using he
    · cases hstep

omit h in
theorem getElem?_snoc {α : Type*} {l : List α} {a b : α} {i : ℕ} (h : (l ++ [a])[i]? = some b) :
    l[i]? = some b ∨ i = l.length ∧ b = a := by
  grind

theorem Serial.spawn {now : ℤ} (he : s.entries id = some e)
    (hzero : e.nextRun ≠ zeroTime) (hdue : e.nextRun ≤ now)
    (hquiet : ∀ w ∈ s.workers, w.entry = id → w.inFlight = false)
    (hworkers : s'.workers = s.workers ++ [⟨id, now, e.nextRun, .spawned⟩])
    (hentries : s'.entries = s.entries) : s'.Serial := by
  constructor
  · intro i w hw
    rw [hworkers] at hw
    rw [hentries]
    rcases getElem?_snoc hw with hw | ⟨-, rfl⟩
    · exact h.settled hw
    · exact ⟨e, he, hdue, fun _ => rfl, fun hflight => by cases hflight⟩
  · intro i j w w' e' hij hw hw' hentry he'
    rw [hworkers] at hw hw'
    rw [hentries] at he'
    have hilt : i < s.workers.length := by grind
    have hw : s.workers[i]? = some w := by grind [getElem?_snoc]
    rcases getElem?_snoc hw' with hw' | ⟨-, rfl⟩
    · exact h.order hij hw hw' hentry he'
    · -- An older goroutine of the entry is done, and `nextRun` is not cleared.
      have hdone := hquiet w (mem_of_getElem? hw) hentry
      obtain rfl : e = e' := by grind
      rcases (h.settled_of hw he').after hdone with hcleared | ⟨hrec, hlt⟩ <;> grind [settled_of]

theorem Serial.test (hquiet : s.Quiet (.test id)) (hstep : s.test id = some s') : s'.Serial := by
  unfold TaskScheduler.test at hstep
  split at hstep
  next he =>
    split at hstep
    · dsimp only at hstep
      split at hstep
      next hdue =>
        cases hstep
        exact h.spawn he hdue.1 hdue.2 hquiet rfl rfl
      grind [of_eq]
    · cases hstep
  · cases hstep

omit h in
theorem workerStep_eq_some {stage : Stage} {f : Worker → Entry → TaskScheduler}
    (hstep : s.workerStep k stage f = some s') :
    ∃ wk e, s.workers[k]? = some wk ∧ s.entries wk.entry = some e ∧
      wk.stage = stage ∧ s' = f wk e := by
  grind [workerStep]

omit h in
theorem getElem?_modify_stage {l : List Worker} {stage : Stage} {i : ℕ} {w : Worker}
    (h : (l.modify k fun wk => { wk with stage := stage })[i]? = some w) :
    ∃ w₀, l[i]? = some w₀ ∧ w = if i = k then { w₀ with stage := stage } else w₀ := by
  grind

theorem Serial.advance (stage : Stage) (e' : Entry) (hwk : s.workers[k]? = some wk)
    (he : s.entries wk.entry = some e) (hspec : e'.spec = e.spec)
    (hdone : wk.inFlight = false → Worker.inFlight { wk with stage := stage } = false)
    (hself : Settled e' { wk with stage := stage })
    (hothers : ∀ {i : ℕ} {w : Worker}, i ≠ k → s.workers[i]? = some w →
      w.entry = wk.entry → Settled e w → Settled e' w)
    (hworkers : s'.workers = s.workers.modify k fun wk => { wk with stage := stage })
    (hentries : s'.entries = Function.update s.entries wk.entry (some e')) : s'.Serial := by
  constructor
  · intro i w hw
    rw [hworkers] at hw
    rw [hentries]
    obtain ⟨w₀, hw₀, rfl⟩ := getElem?_modify_stage hw
    grind [settled]
  · -- Stages do not go back into flight, and nothing else of a goroutine and
    -- nothing of a specification changes.
    intro i j w w' e'' hij hw hw' hentry he''
    rw [hworkers] at hw hw'
    rw [hentries] at he''
    obtain ⟨w₀, hw₀, rfl⟩ := getElem?_modify_stage hw
    obtain ⟨w₀', hw₀', rfl⟩ := getElem?_modify_stage hw'
    obtain ⟨e₀, he₀, -⟩ := h.settled hw₀
    have hentry₀ : w₀.entry = w₀'.entry := by split at hentry <;> split at hentry <;> exact hentry
    obtain ⟨hdone₀, hlt, hrec⟩ := h.order hij hw₀ hw₀' hentry₀ he₀
    refine ⟨?_, ?_, ?_⟩
    · split
      next hik =>
        obtain rfl : wk = w₀ := by
          rw [hik, hwk] at hw₀
          exact Option.some.inj hw₀
        exact hdone hdone₀
      · exact hdone₀
    · split <;> split <;> exact hlt
    · have hentry' : (if i = k then { w₀ with stage := stage } else w₀).entry =
          w₀.entry := by
        split <;> rfl
      rw [hentry'] at he''
      by_cases hsame : w₀.entry = wk.entry
      · rw [hsame, Function.update_self] at he''
        rw [hsame, he] at he₀
        cases he''
        cases he₀
        rwa [hspec]
      · rw [Function.update_of_ne hsame, he₀] at he''
        cases he''
        exact hrec

section

variable (hwk : s.workers[k]? = some wk) (he : s.entries wk.entry = some e)

include hwk he

theorem Serial.execute (hstage : wk.stage = .spawned) : (s.execute k wk e).Serial := by
  have hflight : wk.inFlight = true := by simp [Worker.inFlight, hstage]
  have hsettled := h.settled_of hwk he
  refine h.advance .executing { e with lastRun := wk.now, runCount := e.runCount + 1 } hwk he rfl
    ?_ ?_ ?_ rfl rfl
  · intro hdone
    rw [hflight] at hdone
    cases hdone
  · refine ⟨hsettled.due_le, ?_, ?_⟩
    · intro _
      exact hsettled.inFlight hflight
    · intro hdone
      cases hdone
  · intro i w _ _ _ hw
    exact { hw with }

theorem Serial.update (hstage : wk.stage = .executing) : (s.update k wk e).Serial := by
  have hflight : wk.inFlight = true := by simp [Worker.inFlight, hstage]
  have hsettled := h.settled_of hwk he
  have hlater : ∀ {d : ℤ}, d ≤ wk.now →
      (if e.spec.isRecurring then (e.spec.next wk.now).1 else zeroTime) = zeroTime ∨
        e.spec.isRecurring = true ∧ d < if e.spec.isRecurring then (e.spec.next wk.now).1
            else zeroTime := by
    grind [ScheduleSpec.next_gt]
  refine h.advance .updated { e with
      nextRun := if e.spec.isRecurring then (e.spec.next wk.now).1
        else zeroTime } hwk he rfl ?_ ?_ ?_ rfl rfl
  · intro hdone
    rfl
  · refine ⟨hsettled.due_le, ?_, ?_⟩
    · intro hback
      cases hback
    · intro _
      exact hlater hsettled.due_le
  · -- Another goroutine of the entry is older and done.
    intro i w hik hw hentry hsettled'
    rcases Nat.lt_or_gt_of_ne hik with hlt | hgt
    · obtain ⟨hdone, hdue, -⟩ := h.order hlt hw hwk hentry (hentry ▸ he)
      refine ⟨hsettled'.due_le, ?_, ?_⟩
      · grind
      · intro _
        exact hlater (hdue.le.trans hsettled.due_le)
    · obtain ⟨hdone, -⟩ := h.order hgt hwk hw hentry.symm he
      rw [hflight] at hdone
      cases hdone

theorem Serial.remove (hstage : wk.stage = .updated) : (s.remove k wk e).Serial := by
  have hflight : wk.inFlight = false := by simp [Worker.inFlight, hstage]
  have hsettled := h.settled_of hwk he
  refine h.advance .returned e hwk he rfl ?_ ?_ ?_ ?_ ?_
  · intro _
    rfl
  · refine ⟨hsettled.due_le, ?_, ?_⟩
    · intro hback
      cases hback
    · intro _
      exact hsettled.after hflight
  · intro i w _ _ _ hw
    exact hw
  · unfold TaskScheduler.remove
    split <;> rfl
  · rw [Function.update_eq_self_iff.mpr he.symm]
    unfold TaskScheduler.remove
    split <;> rfl

end

theorem serial_step {act : Action} (hquiet : s.Quiet act)
    (hstep : s.step act = some s') : s'.Serial := by
  cases act with
  | construct => grind [step, construct, Serial.of_eq]
  | schedule => exact h.schedule hstep
  | unschedule | stop =>
    cases hstep
    exact h.of_eq rfl rfl
  | start =>
    cases hstep
    grind [start, Serial.of_eq]
  | tick => grind [step, tick, Serial.of_eq]
  | test => exact h.test hquiet hstep
  | scanned => grind [step, scanned, Serial.of_eq]
  | exit => grind [step, exit, Serial.of_eq]
  | execute =>
    obtain ⟨wk, e, hwk, he, hstage, rfl⟩ := workerStep_eq_some hstep
    exact h.execute hwk he hstage
  | update =>
    obtain ⟨wk, e, hwk, he, hstage, rfl⟩ := workerStep_eq_some hstep
    exact h.update hwk he hstage
  | remove =>
    obtain ⟨wk, e, hwk, he, hstage, rfl⟩ := workerStep_eq_some hstep
    exact h.remove hwk he hstage

/-- Two executions of a task are in order, and only a recurring task has
two. -/
theorem Serial.pairwise_executed (he : s.entries id = some e) :
    (s.workers.filter fun w => w.entry = id ∧ w.stage ≠ .spawned).Pairwise
      fun w w' => w.due < w'.due ∧ e.spec.isRecurring = true := by
  have hall : s.workers.Pairwise fun w w' => w.entry = id → w'.entry = id →
      w.due < w'.due ∧ e.spec.isRecurring = true := by
    rw [pairwise_iff_getElem]
    intro i j hi hj hij hw hw'
    exact (h.order hij (getElem?_eq_getElem hi)
      (getElem?_eq_getElem hj) (hw.trans hw'.symm) (hw ▸ he)).2
  refine (hall.filter _).imp_of_mem ?_
  grind

theorem Serial.atMostOnce : s.AtMostOnce := by
  intro id e he
  have hpair := h.pairwise_executed he
  unfold executions
  constructor
  · intro hrec
    rw [length_map]
    cases hl : s.workers.filter fun w => w.entry = id ∧ w.stage ≠ .spawned with
    | nil => exact Nat.zero_le 1
    | cons w l => cases l <;> grind
  grind

end

/-- If the loop looks at an entry only while no goroutine of it is in flight, a task
with a delay is executed at most once, and a recurring task at most once for each
`nextRun`. -/
theorem atMostOnce_of_quiet {acts : List Action} (hrun : Run step Quiet {} acts s) :
    s.AtMostOnce := by
  have hinit : Serial {} := by constructor <;> grind
  exact (hrun.invariant (fun h hquiet hstep => serial_step h hquiet hstep) hinit).atMostOnce

section Example

def delayed : List Action :=
  [.construct 0 (.delay second (by decide) false), .schedule 0 0 1, .start,
    .tick (second + 1), .test 0, .scanned, .execute 0]

/-- The task returns before the next tick: it was executed once. -/
theorem atMostOnce_of_quiet_quickTask : ∃ s, Run step Quiet {} (delayed ++ ([.update 0, .remove 0,
        .tick (2 * second + 1), .scanned] : List Action)) s ∧
      s.executions 0 = [second + 1] ∧ s.AtMostOnce := by
  refine exists_run_of _ (fun s => s.executions 0 = [second + 1]) (by decide +kernel) ?_
  intro s hrun hexecuted
  exact ⟨hexecuted, atMostOnce_of_quiet hrun⟩

/-- The task is still executing at the next tick, which executes it again. -/
theorem not_atMostOnce_slowTask :
    ∃ s, Run step anyStep {} (delayed ++ ([.tick (2 * second + 1), .test 0,
        .execute 1] : List Action)) s ∧ ¬s.AtMostOnce := by
  refine exists_run_of _ (fun s => (s.entries 0).map (fun e => e.spec.isRecurring) = some false ∧
      s.executions 0 = [second + 1, second + 1]) (by decide +kernel) ?_
  rintro s - ⟨hspec, hexecuted⟩ honce
  obtain ⟨e, he, hrec⟩ := Option.map_eq_some_iff.mp hspec
  have hlength := (honce 0 e he).1 hrec
  grind

end Example

end TaskScheduler

end Fluxor.Scheduler
