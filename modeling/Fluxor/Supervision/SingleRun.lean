import Fluxor.Supervision.Actors

/-!
# Runs of a supervised actor

With one-for-one restarts a child is started again only after the result of its last
run has been received, so at most one run of it is in progress. With all-for-one
restarts the other children are cancelled and started again at once, whether or not
their old runs have returned.

The invariant counts, for each child, its runs, its results, and the place of
`Start` where it is about to be started.
-/

namespace Fluxor.Supervision.Actors

open Goroutines Transition List Nat Config Thread

variable {cfg : Settings} {sv sv' : Supervisor}

def Stage.Legal (cfg : Settings) : Stage → Prop
  | .entering origin i | .starting origin i _ | .sending origin i _ =>
    i < cfg.children ∧ (origin = .one → cfg.strategy = .oneForOne) ∧
      (origin = .all → cfg.strategy = .allForOne)
  | .received i _ | .recording i => i < cfg.children
  | .cancelling i => i < cfg.children ∧ cfg.strategy = .oneForOne
  | .stopping => cfg.strategy = .allForOne
  | .restarting i => i < cfg.children ∧ cfg.strategy = .allForOne
  | _ => True

def Thread.Legal (cfg : Settings) (_ : Supervisor) (j : ℕ) : Thread → Prop
  | .supervisor stage => j = 0 ∧ stage.Legal cfg
  | .child i _ _ => j ≠ 0 ∧ i < cfg.children
  | .stop _ | .cancel _ => j ≠ 0

structure Legal (cfg : Settings) (c : Config Supervisor Thread) : Prop where
  threads : c.All (Thread.Legal cfg)
  nonempty : 0 < c.threads.length
  results : ∀ r ∈ c.shared.results, r.1 < cfg.children

theorem loopFirst_legal (i : ℕ) : (loopFirst cfg i).Legal cfg := by
  rw [loopFirst]
  split
  · exact ⟨‹_›, by simp, by simp⟩
  · trivial

theorem loopAll_legal (i : ℕ) (h : cfg.strategy = .allForOne) : (loopAll cfg i).Legal cfg := by
  rw [loopAll]
  split
  · exact ⟨‹_›, h⟩
  · trivial

theorem resume_legal {origin : Origin} (i : ℕ) (h : origin = .all → cfg.strategy = .allForOne) :
    (resume cfg i origin).Legal cfg := by
  cases origin with
  | first => exact loopFirst_legal _
  | one => trivial
  | all => exact loopAll_legal _ (h rfl)

theorem restart_legal {i : ℕ} (h : i < cfg.children) : (restart cfg i).Legal cfg := by
  rw [restart]
  split
  · exact ⟨h, ‹_›⟩
  · exact ‹cfg.strategy = .allForOne›
  · trivial

variable {t : Thread} {started : List Thread}

theorem Step.legal {t' : Thread} {j : ℕ} (h : Step cfg sv t sv' t' started)
    (hlegal : t.Legal cfg sv j) (hresults : ∀ r ∈ sv.results, r.1 < cfg.children) :
    t'.Legal cfg sv' j ∧ (∀ r ∈ sv'.results, r.1 < cfg.children) ∧
      ∀ k u, k ≠ 0 → u ∈ started → u.Legal cfg sv' k := by
  have hnobody : ∀ k u, k ≠ 0 → u ∈ ([] : List Thread) → u.Legal cfg sv' k :=
    fun _ _ _ hu => absurd hu not_mem_nil
  have happend : ∀ i err, i < cfg.children →
      ∀ r ∈ sv.results ++ [(i, err)], r.1 < cfg.children := by
    grind
  cases h with
  | begins => exact ⟨⟨hlegal.1, loopFirst_legal 0⟩, hresults, hnobody⟩
  | enter | fail | allow => exact ⟨⟨hlegal.1, hlegal.2⟩, hresults, hnobody⟩
  | launch =>
    refine ⟨⟨hlegal.1, resume_legal _ hlegal.2.2.2⟩, hresults, ?_⟩
    intro k u hk hu
    rw [mem_singleton.mp hu]
    exact ⟨hk, hlegal.2.1⟩
  | send => exact ⟨⟨hlegal.1, resume_legal _ hlegal.2.2.2⟩, happend _ _ hlegal.2.1, hnobody⟩
  | receive hres =>
    rw [hres] at hresults
    exact ⟨⟨hlegal.1, hresults _ mem_cons_self⟩,
      fun r hr => hresults r (mem_cons_of_mem _ hr), hnobody⟩
  | record => exact ⟨⟨hlegal.1, restart_legal hlegal.2⟩, hresults, hnobody⟩
  | @cancelOne i =>
    refine ⟨⟨hlegal.1, hlegal.2.1, fun _ => hlegal.2.2, by simp⟩, ?_, hnobody⟩
    grind [Supervisor.cancelChild]
  | stopAll => exact ⟨⟨hlegal.1, loopAll_legal 0 hlegal.2⟩, hresults, hnobody⟩
  | replace => exact ⟨⟨hlegal.1, hlegal.2.1, by simp, fun _ => hlegal.2.2⟩, hresults, hnobody⟩
  | stop | ignore | giveUp | finish | ends => exact ⟨⟨hlegal.1, trivial⟩, hresults, hnobody⟩
  | work | exits | request | idle | cancel => exact ⟨hlegal, hresults, hnobody⟩
  | deliver => exact ⟨hlegal, happend _ _ hlegal.2, hnobody⟩

section Legal

variable {c : Config Supervisor Thread}

theorem Legal.spawn {t : Thread} (h : Legal cfg c) (hentry : entry t = true) :
    Legal cfg (c.spawn t) := by
  have hpos := h.nonempty
  have hlegal : t.Legal cfg c.shared c.threads.length := by
    rcases Bool.or_eq_true_iff.mp hentry with h | h <;>
      rw [of_decide_eq_true h] <;> exact hpos.ne'
  refine ⟨h.threads.spawn hlegal, ?_, h.results⟩
  simp [Config.spawn]

theorem Legal.advance {i : ℕ} {t : Thread} {o : Outcome Supervisor Thread} (h : Legal cfg c)
    (ht : c.threads[i]? = some t) (hstep : Step cfg c.shared t o.shared o.thread o.started) :
    Legal cfg (c.advance i o) := by
  obtain ⟨hown, hresults, hstarted⟩ := hstep.legal (h.threads i t ht) h.results
  have hpos := h.nonempty
  refine ⟨h.threads.advance hown (fun _ _ _ _ hu => hu) ?_, ?_, hresults⟩
  · grind
  grind [advance]

theorem legal_start : Legal cfg start := by
  refine ⟨?_, one_pos, fun r hr => absurd hr not_mem_nil⟩
  intro i t ht
  cases i with
  | zero =>
    cases ht
    exact ⟨rfl, trivial⟩
  | succ => cases ht

theorem legal_of_run {ok : Config Supervisor Thread → Move Thread Choice → Prop}
    {acts : List (Move Thread Choice)} (hrun : Run (code cfg).step ok start acts c) :
    Legal cfg c := by
  refine Code.run_invariant (I := Legal cfg) ?_ ?_ hrun legal_start
  · intro c t hc _ hentry
    exact hc.spawn hentry
  grind [Legal.advance, step_of_next]

end Legal

/-- `Start` is about to start child `k`, or, unless all are started again anyway,
handles its result. -/
def Stage.token (cfg : Settings) (k : ℕ) : Stage → ℕ
  | .called => if k < cfg.children then 1 else 0
  | .entering .first i | .starting .first i _ | .sending .first i _ =>
    if i ≤ k ∧ k < cfg.children then 1 else 0
  | .entering _ i | .starting _ i _ | .sending _ i _ | .cancelling i => if k = i then 1 else 0
  | .received i _ | .recording i => if cfg.strategy ≠ .allForOne ∧ k = i then 1 else 0
  | _ => 0

def Thread.token (cfg : Settings) (k : ℕ) : Thread → ℕ
  | .supervisor stage => stage.token cfg k
  | .child i _ .running => if k = i then 1 else 0
  | .child i _ (.delivering _) => if cfg.strategy ≠ .allForOne ∧ k = i then 1 else 0
  | _ => 0

def resultTokens (cfg : Settings) (k : ℕ) (results : List (ℕ × Err)) : ℕ :=
  if cfg.strategy = .allForOne then 0 else results.countP fun r => k = r.1

theorem resultTokens_append (k i : ℕ) (err : Err) (results : List (ℕ × Err)) :
    resultTokens cfg k (results ++ [(i, err)]) = resultTokens cfg k results +
        if cfg.strategy ≠ .allForOne ∧ k = i then 1 else 0 := by
  grind [resultTokens]

theorem resultTokens_cons (k i : ℕ) (err : Err) (results : List (ℕ × Err)) :
    resultTokens cfg k ((i, err) :: results) = resultTokens cfg k results +
        if cfg.strategy ≠ .allForOne ∧ k = i then 1 else 0 := by
  grind [resultTokens]

theorem token_loopFirst (k i : ℕ) : (loopFirst cfg i).token cfg k =
    if i ≤ k ∧ k < cfg.children then 1 else 0 := by
  unfold loopFirst
  split
  · rfl
  · rw [if_neg (by omega)]
    rfl

theorem token_loopAll (k i : ℕ) : (loopAll cfg i).token cfg k = 0 := by
  unfold loopAll
  split <;> rfl

theorem token_resume (k i ctx : ℕ) (origin : Origin) (hi : i < cfg.children) :
    (resume cfg i origin).token cfg k + (if k = i then 1 else 0) =
      (Stage.starting origin i ctx).token cfg k := by
  cases origin with
  | first =>
    rw [resume, token_loopFirst, Stage.token]
    split_ifs <;> omega
  | one => exact zero_add _
  | all =>
    rw [resume, token_loopAll]
    exact zero_add _

theorem token_restart (k i : ℕ) :
    (restart cfg i).token cfg k ≤ (Stage.recording i).token cfg k := by
  grind [restart, Stage.token]

theorem Step.token_le {t' : Thread} {j : ℕ} (k : ℕ) (h : Step cfg sv t sv' t' started)
    (hlegal : t.Legal cfg sv j) (hne : t ≠ .supervisor (.restarting k)) :
    resultTokens cfg k sv'.results + t'.token cfg k + (started.map (token cfg k)).sum ≤
      resultTokens cfg k sv.results + t.token cfg k := by
  cases h with
  | begins =>
    have hloop : (loopFirst cfg 0).token cfg k =
        if 0 ≤ k ∧ k < cfg.children then 1 else 0 := token_loopFirst k 0
    change resultTokens cfg k sv.results + (loopFirst cfg 0).token cfg k ≤
      resultTokens cfg k sv.results + if k < cfg.children then 1 else 0
    rw [hloop]
    split_ifs <;> omega
  | @enter origin | @fail origin => cases origin <;> exact le_rfl
  | @launch origin i ctx =>
    have := token_resume k i ctx origin hlegal.2.1
    grind [token]
  | @send origin i err =>
    have := token_resume k i 0 origin hlegal.2.1
    have hsame : (Stage.sending origin i err).token cfg k =
        (Stage.starting origin i 0).token cfg k := by
      cases origin <;> rfl
    grind [token, resultTokens_append]
  | receive hres =>
    rw [hres, resultTokens_cons]
    exact le_rfl
  | @record i now => exact Nat.add_le_add_left (token_restart k i) _
  | @cancelOne i =>
    have hsame : (sv.cancelChild i).results = sv.results := by
      rw [Supervisor.cancelChild]
      split <;> rfl
    rw [hsame]
    exact le_rfl
  | stopAll =>
    simp only [token, token_loopAll]
    exact le_rfl
  | @replace i =>
    have hki : k ≠ i := by
      rintro rfl
      exact hne rfl
    simp only [token, Stage.token, if_neg hki]
    exact le_rfl
  | @exits i ctx err => grind [token]
  | deliver =>
    rw [resultTokens_append]
    exact le_rfl
  | allow | work => exact le_rfl
  | _ =>
    exact Nat.add_le_add_left (Nat.zero_le _) _

def Thread.runs (k : ℕ) : Thread → ℕ
  | .child i _ .running => if k = i then 1 else 0
  | _ => 0

def inProgress (c : Config Supervisor Thread) (k : ℕ) : ℕ :=
  c.total (Thread.runs k)

/-- Under all-for-one, a restart comes to a child only when it has no run in progress. -/
def Waits (cfg : Settings) (c : Config Supervisor Thread) : Move Thread Choice → Prop
  | .spawn _ => True
  | .run j _ => cfg.strategy = .allForOne →
      ∀ k, c.threads[j]? = some (.supervisor (.restarting k)) → inProgress c k = 0

structure Counted (cfg : Settings) (c : Config Supervisor Thread) : Prop where
  legal : Legal cfg c
  once : ∀ k, resultTokens cfg k c.shared.results + c.total (Thread.token cfg k) ≤ 1

variable {c : Config Supervisor Thread}

theorem Legal.total_eq_zero {j k : ℕ} (h : Legal cfg c)
    (hj : c.threads[j]? = some (.supervisor (.restarting k))) (hidle : inProgress c k = 0) :
    c.total (token cfg k) = 0 := by
  obtain ⟨rfl, -, hall⟩ := h.threads j _ hj
  by_contra hne
  obtain ⟨i, t, ht, htoken⟩ := exists_of_total_ne_zero hne
  have hlegal := h.threads i t ht
  match t with
  | .supervisor stage =>
    obtain rfl : i = 0 := hlegal.1
    rw [hj] at ht
    cases ht
    exact htoken rfl
  | .child i' ctx .running =>
    have hruns := le_total (w := runs k) ht
    rw [show c.total (runs k) = 0 from hidle] at hruns
    exact htoken (le_zero.mp hruns)
  | .child i' ctx (.delivering err) => exact htoken (if_neg fun hki => hki.1 hall)
  | .child _ _ .finished | .stop _ | .cancel _ => exact htoken rfl

theorem Counted.advance {i : ℕ} {x : Choice} {o : Outcome Supervisor Thread} (h : Counted cfg c)
    (hwaits : Waits cfg c (.run i x)) (ht : c.threads[i]? = some t)
    (hstep : Step cfg c.shared t o.shared o.thread o.started) : Counted cfg (c.advance i o) := by
  refine ⟨h.legal.advance ht hstep, fun k => ?_⟩
  have htotal := total_advance (w := token cfg k) (o := o) ht
  have honce := h.once k
  change resultTokens cfg k o.shared.results + _ ≤ 1
  by_cases hrestart : t = .supervisor (.restarting k)
  · subst hrestart
    have hall := (h.legal.threads i _ ht).2.2
    have hzero := h.legal.total_eq_zero ht (hwaits hall k ht)
    obtain ⟨sv', t', started⟩ := o
    cases hstep
    have hresults : resultTokens cfg k c.shared.results = 0 := if_pos hall
    have hentering : (supervisor (.entering .all k)).token cfg k = 1 := if_pos rfl
    grind [resultTokens]
  · have hle := hstep.token_le k (h.legal.threads i t ht) hrestart
    omega

theorem counted_of_run {acts : List (Move Thread Choice)}
    (hrun : Run (code cfg).step (Waits cfg) start acts c) : Counted cfg c := by
  refine Code.run_invariant (I := Counted cfg) ?_ ?_ hrun ⟨legal_start, ?_⟩
  · intro c t hc _ hentry
    refine ⟨hc.legal.spawn hentry, fun k => ?_⟩
    have hzero : t.token cfg k = 0 := by
      rcases Bool.or_eq_true_iff.mp hentry with h | h <;>
        rw [of_decide_eq_true h] <;> rfl
    rw [total_spawn, hzero]
    exact hc.once k
  · grind [Counted.advance, step_of_next]
  · intro k
    have hresults : resultTokens cfg k ([] : List (ℕ × Err)) = 0 := by simp [resultTokens]
    change resultTokens cfg k [] + (token cfg k _ + 0) ≤ 1
    grind [token, Stage.token]

theorem inProgress_le_total (cfg : Settings) (c : Config Supervisor Thread) (k : ℕ) :
    inProgress c k ≤ c.total (token cfg k) := by
  refine sum_le_sum fun t _ => ?_
  match t with
  | .child i ctx .running => exact le_rfl
  | .child _ _ (.delivering _) | .child _ _ .finished | .supervisor _ | .stop _ | .cancel _ =>
    exact zero_le _

/-- At most one run of each child is in progress, always with one-for-one restarts,
and with all-for-one if the supervisor waits for the runs that it has cancelled. -/
theorem inProgress_le_one (cfg : Settings) {acts : List (Move Thread Choice)}
    {c : Config Supervisor Thread} (hrun : Run (code cfg).step (Waits cfg) start acts c) (k : ℕ) :
    inProgress c k ≤ 1 := by
  have hle := inProgress_le_total cfg c k
  have honce := (counted_of_run hrun).once k
  omega

def steps (j n : ℕ) : List (Move Thread Choice) :=
  replicate n (.run j .go)

def failing : List (Move Thread Choice) :=
  steps 0 5 ++ ([.run 1 (.returns .other), .run 1 .go, .run 0 .receive,
    .run 0 (.clock 0), .run 0 (.clock 0)] : List (Move Thread Choice))

/-- The guard as a test, for every strategy. -/
def waited (c : Config Supervisor Thread) : Move Thread Choice → Bool
  | .spawn _ => true
  | .run j _ =>
    match c.threads[j]? with
    | some (.supervisor (.restarting k)) => inProgress c k = 0
    | _ => true

theorem waits_of_waited {m : Move Thread Choice} (h : waited c m = true) : Waits cfg c m := by
  cases m with
  | spawn => trivial
  | run j =>
    intro _ k hk
    rw [waited, hk] at h
    exact of_decide_eq_true h

/-- All-for-one: the cancelled run of the second child returns before both are started
again. -/
theorem inProgress_le_one_restarted : ∃ acts c,
    Run (code { children := 2, strategy := .allForOne }).step
        (Waits { children := 2, strategy := .allForOne }) start acts c ∧
      inProgress c 0 = 1 ∧ inProgress c 1 = 1 ∧ ∀ k, inProgress c k ≤ 1 := by
  obtain ⟨c, hrun, h₀, h₁⟩ := exists_run (code { children := 2, strategy := .allForOne }).step
    (fun c m => waited c m = true) start
    (failing ++ ([.run 0 .go, .run 2 (.returns .canceled)] : List (Move Thread Choice)) ++
      steps 0 6)
    (fun c => inProgress c 0 = 1 ∧ inProgress c 1 = 1) (by decide +kernel)
  have hwaits : Run _ (Waits { children := 2, strategy := .allForOne }) _ _ c :=
    hrun.mono fun h => waits_of_waited h
  exact ⟨_, c, hwaits, h₀, h₁, inProgress_le_one _ hwaits⟩

/-- All-for-one: the second child is started again while its cancelled run goes
on. -/
theorem two_in_progress : ∃ acts c,
    Run (code { children := 2, strategy := .allForOne }).step anyStep start
      acts c ∧ inProgress c 1 = 2 :=
  ⟨_, exists_run _ _ _ (failing ++ steps 0 7) _ (by decide +kernel)⟩

end Fluxor.Supervision.Actors
