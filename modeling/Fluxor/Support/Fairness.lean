import Mathlib.Order.WellFounded
import Fluxor.Support.Goroutines

/-!
# Fair executions

An execution is an infinite sequence of configurations; at each moment one move is
made or nothing happens. It is fair when a goroutine that can take a step from some
moment on does take one. Nothing is assumed about the environment, which may start
goroutines or stop doing so. Where a `select` must not pass over one of its cases
for ever, that is a condition of its own (`FairChoice`).

What happens eventually is shown in three ways: a condition that keeps a goroutine
able to move, and is kept until it moves, makes it move; a rank that falls with
every step of its own makes it finish; and a rank that falls with the steps of
helpful goroutines comes to its end.
-/

namespace Fluxor.Goroutines

open Transition Option

variable {σ θ χ : Type*} {code : Code σ θ χ} {ok : Config σ θ → Move θ χ → Prop} {init : Config σ θ}

def Code.Enabled (code : Code σ θ χ) (c : Config σ θ) (i : ℕ) : Prop :=
  ∃ b c', code.step c (.run i b) = some c'

variable {c : Config σ θ}

theorem Code.enabled_of_next {i : ℕ} {t : θ} {b : χ} (ht : c.threads[i]? = some t)
    (h : (code.next c.shared i t b).isSome = true) : code.Enabled c i := by
  obtain ⟨o, ho⟩ := isSome_iff_exists.mp h
  exact ⟨b, c.advance i o, Code.step_run ht ho⟩

theorem Code.not_enabled (h : ∀ i t b, c.threads[i]? = some t → code.next c.shared i t b = none)
    (i : ℕ) : ¬code.Enabled c i := by
  rintro ⟨b, c', hstep⟩
  rcases Code.step_cases hstep with ⟨t, heq, -⟩ | ⟨i, b, t, o, -, ht, ho, -⟩ <;> grind [step_cases]

/-- An infinite execution, all of whose moves meet `ok`. -/
structure Execution (code : Code σ θ χ) (ok : Config σ θ → Move θ χ → Prop)
    (init : Config σ θ) where
  config : ℕ → Config σ θ
  move : ℕ → Option (Move θ χ)
  start : config 0 = init
  idle {n : ℕ} : move n = none → config (n + 1) = config n
  guard {n : ℕ} {m : Move θ χ} : move n = some m → ok (config n) m
  next {n : ℕ} {m : Move θ χ} : move n = some m → code.step (config n) m = some (config (n + 1))

namespace Execution

variable (e : Execution code ok init)

/-- A goroutine that can move from some moment on does move. -/
def Fair : Prop :=
  ∀ i n, (∀ m, n ≤ m → code.Enabled (e.config m) i) → ∃ m b, n ≤ m ∧ e.move m = some (.run i b)

/-- A branch that goroutine `i` can take again and again is taken again and
again. -/
def FairChoice (i : ℕ) (b : χ) : Prop :=
  (∀ n, ∃ m, n ≤ m ∧ (code.step (e.config m) (.run i b)).isSome = true) →
    ∀ n, ∃ m, n ≤ m ∧ e.move m = some (.run i b)

theorem exists_run (n : ℕ) : ∃ acts, Run code.step ok init acts (e.config n) := by
  induction n with
  | zero =>
    rw [e.start]
    exact ⟨[], Run.nil init⟩
  | succ n ih =>
    obtain ⟨acts, hrun⟩ := ih
    cases hm : e.move n with
    | none =>
      rw [e.idle hm]
      exact ⟨acts, hrun⟩
    | some m => exact ⟨acts ++ [m], hrun.snoc (e.guard hm) (e.next hm)⟩

variable {e} {P : Config σ θ → Prop} {n : ℕ}

theorem always (hn : P (e.config n))
    (hstep : ∀ m mv, n ≤ m → P (e.config m) → e.move m = some mv → P (e.config (m + 1))) :
    ∀ m, n ≤ m → P (e.config m) := by
  intro m hm
  induction m, hm using Nat.le_induction with
  | base => exact hn
  | succ m => cases hmove : e.move m <;> grind [idle]

variable {i : ℕ}

/-- A condition that makes a goroutine able to move, and that the moves of the
others keep, holds when the goroutine next moves. -/
theorem eventually_moves (hfair : e.Fair) (hn : P (e.config n))
    (henabled : ∀ m, n ≤ m → P (e.config m) → code.Enabled (e.config m) i)
    (hkeep : ∀ m mv, n ≤ m → P (e.config m) → e.move m = some mv →
      (∀ b, mv ≠ .run i b) → P (e.config (m + 1))) :
    ∃ m b, n ≤ m ∧ P (e.config m) ∧ e.move m = some (.run i b) := by
  by_contra hnever
  have hstays : ∀ m, n ≤ m → P (e.config m) := by
    refine always hn ?_
    grind
  obtain ⟨m, b, hm, hmove⟩ := hfair i n fun m hm => henabled m hm (hstays m hm)
  exact hnever ⟨m, b, hm, hstays m hm, hmove⟩

theorem getElem?_succ {m j : ℕ} {mv : Move θ χ} {u : θ} (hmove : e.move m = some mv)
    (hu : (e.config m).threads[j]? = some u) :
    ((∀ b, mv ≠ .run j b) ∧ (e.config (m + 1)).threads[j]? = some u) ∨
      ∃ b o, mv = .run j b ∧ code.next (e.config m).shared j u b = some o ∧
        e.config (m + 1) = (e.config m).advance j o := by
  rcases Code.step_cases (e.next hmove) with
    ⟨t, rfl, -, hc⟩ | ⟨i, b, t, o, rfl, ht, ho, hc⟩
  · grind [Config.getElem?_spawn_of_some]
  grind [Config.getElem?_advance_of_ne]

variable {t : θ}

theorem exists_next {m : ℕ} {b : χ} (hmove : e.move m = some (.run i b))
    (ht : (e.config m).threads[i]? = some t) :
    ∃ o, code.next (e.config m).shared i t b = some o ∧
      e.config (m + 1) = (e.config m).advance i o := by
  rcases getElem?_succ hmove ht with ⟨hother, -⟩ | ⟨b', o, heq, ho, hc⟩ <;> grind [getElem?_succ]

theorem getElem?_succ_of_ne {m : ℕ} {mv : Move θ χ} (hmove : e.move m = some mv)
    (hother : ∀ b, mv ≠ .run i b) (ht : (e.config m).threads[i]? = some t) :
    (e.config (m + 1)).threads[i]? = some t := by
  grind [getElem?_succ]

/-- A goroutine that is able to move as long as it stays at its point moves. -/
theorem eventually_steps (hfair : e.Fair) (ht : (e.config n).threads[i]? = some t)
    (henabled : ∀ m, n ≤ m → (e.config m).threads[i]? = some t → code.Enabled (e.config m) i) :
    ∃ m b o, n ≤ m ∧ (e.config m).threads[i]? = some t ∧ e.move m = some (.run i b) ∧
      code.next (e.config m).shared i t b = some o ∧
      e.config (m + 1) = (e.config m).advance i o := by
  obtain ⟨m, b, hm, ht, hmove⟩ := eventually_moves hfair
    (P := fun c => c.threads[i]? = some t) ht henabled
    (fun m mv _ ht hmove hother => getElem?_succ_of_ne hmove hother ht)
  obtain ⟨o, ho, hc⟩ := exists_next hmove ht
  exact ⟨m, b, o, hm, ht, hmove, ho, hc⟩

theorem persists {J : θ → Prop} {j : ℕ} {u : θ}
    (hkeep : ∀ s u b o, J u → code.next s j u b = some o → J o.thread)
    (hu : (e.config n).threads[j]? = some u) (hJ : J u) :
    ∀ m, n ≤ m → ∃ u', (e.config m).threads[j]? = some u' ∧ J u' := by
  refine always (P := fun c => ∃ u', c.threads[j]? = some u' ∧ J u') ⟨u, hu, hJ⟩ ?_
  grind [getElem?_succ, Config.getElem?_advance_self]

theorem stays {j : ℕ} {u : θ} (hdone : ∀ s b, code.next s j u b = none)
    (hu : (e.config n).threads[j]? = some u) : ∀ m, n ≤ m → (e.config m).threads[j]? = some u := by
  refine always (P := fun c => c.threads[j]? = some u) hu ?_
  grind [getElem?_succ]

variable {ι : Type*}

/-- A goroutine that is able to move until it is done, and whose rank falls with
each of its steps, is done eventually. The points on its way satisfy `J`. -/
theorem eventually_done (hfair : e.Fair) [Preorder ι] [WellFoundedLT ι] (J done : θ → Prop)
    (rank : θ → ι) (ht : (e.config n).threads[i]? = some t) (hJ : J t)
    (henabled : ∀ m u, n ≤ m → (e.config m).threads[i]? = some u → J u →
      ¬done u → code.Enabled (e.config m) i)
    (hstep : ∀ m u b o, n ≤ m → e.move m = some (.run i b) →
      (e.config m).threads[i]? = some u → J u → ¬done u →
      code.next (e.config m).shared i u b = some o →
        J o.thread ∧ (done o.thread ∨ rank o.thread < rank u)) :
    ∃ m u, n ≤ m ∧ (e.config m).threads[i]? = some u ∧ J u ∧ done u := by
  induction hr : rank t using WellFoundedLT.induction generalizing n t with
  | ind r ih =>
    by_cases hdone : done t
    · exact ⟨n, t, le_rfl, ht, hJ, hdone⟩
    · obtain ⟨m, b, o, hm, hP, hmove, ho, hc⟩ := eventually_steps hfair ht
        fun m hm hP => henabled m t hm hP hJ hdone
      have hnext : (e.config (m + 1)).threads[i]? = some o.thread := by
        rw [hc]
        exact Config.getElem?_advance_self hP
      obtain ⟨hJo, hfinished | hless⟩ := hstep m t b o hm hmove hP hJ hdone ho
      · grind
      · obtain ⟨k, u, hk, hu⟩ := ih (rank o.thread) (hr ▸ hless) hnext hJo
          (fun k u hk => henabled k u (by omega))
          (fun k u b o hk => hstep k u b o (by omega)) rfl
        exact ⟨k, u, by omega, hu⟩

/-- A goroutine each of whose steps reaches `Q` or lowers its rank reaches `Q`. -/
theorem eventually_shared (hfair : e.Fair) [Preorder ι] [WellFoundedLT ι] (J : θ → Prop)
    {Q : σ → Prop} (rank : θ → ι) (ht : (e.config n).threads[i]? = some t) (hJ : J t)
    (henabled : ∀ m u, n ≤ m → (e.config m).threads[i]? = some u → J u →
      code.Enabled (e.config m) i) (hstep : ∀ m u b o, (e.config m).threads[i]? = some u → J u →
      code.next (e.config m).shared i u b = some o →
        Q o.shared ∨ (J o.thread ∧ rank o.thread < rank u)) :
    ∃ m, n ≤ m ∧ Q (e.config m).shared := by
  by_contra hnever
  obtain ⟨m, u, hm, hu, -, hdone⟩ := eventually_done hfair J (fun _ => False)
    rank ht hJ (fun m u hm hu hJ _ => henabled m u hm hu hJ) (by
      intro m u b o hm hmove hu hJ _ ho
      rcases hstep m u b o hu hJ ho with hQ | ⟨hJ, hless⟩
      · obtain ⟨o', ho', hc⟩ := exists_next hmove hu
        obtain rfl := some.inj (ho.symm.trans ho')
        refine absurd ⟨m + 1, by omega, ?_⟩ hnever
        rwa [hc]
      · exact ⟨hJ, .inr hless⟩)
  exact hdone

/-- A goroutine moves on if, while it stays, a fairly chosen branch is open to it
again and again. -/
theorem eventually_moves_of_choice {b : χ} (hchoice : e.FairChoice i b)
    (ht : (e.config n).threads[i]? = some t)
    (hagain : (∀ m, n ≤ m → (e.config m).threads[i]? = some t) → ∀ k, n ≤ k → ∃ m, k ≤ m ∧
        (code.next (e.config m).shared i t b).isSome = true) :
    ∃ m b, n ≤ m ∧ (e.config m).threads[i]? = some t ∧ e.move m = some (.run i b) := by
  by_contra hnever
  have hstays : ∀ m, n ≤ m → (e.config m).threads[i]? = some t := by
    refine always (P := fun c => c.threads[i]? = some t) ht ?_
    grind [getElem?_succ_of_ne]
  have hopen : ∀ k, ∃ m, k ≤ m ∧ (code.step (e.config m) (.run i b)).isSome = true := by
    intro k
    obtain ⟨m, hm, hsome⟩ := hagain hstays (max k n) (le_max_right k n)
    obtain ⟨o, ho⟩ := isSome_iff_exists.mp hsome
    have hmn : n ≤ m := (le_max_right k n).trans hm
    refine ⟨m, (le_max_left k n).trans hm, ?_⟩
    rw [Code.step_run (hstays m hmn) ho]
    rfl
  obtain ⟨m, hm, hmove⟩ := hchoice hopen n
  exact hnever ⟨m, b, hm, hstays m hm, hmove⟩

/-- A rank that falls leads to `Q`: while `P h` holds, goroutine `h` is able to
move, and each move reaches `Q`, or lowers the rank, perhaps for another helper, or
is a move of another goroutine that keeps both. -/
theorem eventually_of_rank (hfair : e.Fair) [Preorder ι] [WellFoundedLT ι]
    {P : ℕ → Config σ θ → Prop} {Q : Config σ θ → Prop} (rank : ℕ → Config σ θ → ι) {h : ℕ}
    (hn : P h (e.config n))
    (henabled : ∀ m h, n ≤ m → P h (e.config m) → code.Enabled (e.config m) h)
    (hstep : ∀ m h mv, n ≤ m → P h (e.config m) → e.move m = some mv → Q (e.config (m + 1)) ∨
        (∃ h', P h' (e.config (m + 1)) ∧ rank h' (e.config (m + 1)) < rank h (e.config m)) ∨
        (P h (e.config (m + 1)) ∧ rank h (e.config (m + 1)) = rank h (e.config m) ∧
          ∀ b, mv ≠ .run h b)) : ∃ m, n ≤ m ∧ Q (e.config m) := by
  induction hr : rank h (e.config n) using WellFoundedLT.induction generalizing n h with
  | ind r =>
    by_contra hnever
    -- neither `Q` nor a lower rank is ever reached
    have hno : ∀ m, n ≤ m → ¬Q (e.config m) := fun m hm hQ => hnever ⟨m, hm, hQ⟩
    have hnot : ∀ m h', n ≤ m → P h' (e.config m) → ¬rank h' (e.config m) < r := by grind
    obtain ⟨m, b, hm, ⟨hP, hrank⟩, hmove⟩ := eventually_moves
      (P := fun c => P h c ∧ rank h c = r) hfair ⟨hn, hr⟩
      (fun m hm hP => henabled m h hm hP.1) (by
        grind)
    grind

/-- An execution whose moves lower a rank comes to rest, and if it is fair then no
goroutine can move any more. -/
theorem eventually_rests (hfair : e.Fair) (rank : Config σ θ → ℕ)
    (hstep : ∀ n mv, e.move n = some mv → rank (e.config (n + 1)) < rank (e.config n)) :
    ∃ N, (∀ n, N ≤ n → e.config n = e.config N) ∧ ∀ i, ¬code.Enabled (e.config N) i := by
  have hrest : ∀ r n, rank (e.config n) = r → ∃ N, ∀ m, N ≤ m → e.move m = none := by
    intro r
    induction r using Nat.strongRecOn with
    | ind r ih =>
      intro n hr
      by_cases hmoves : ∃ m, n ≤ m ∧ e.move m ≠ none
      · obtain ⟨m, hm, hmove⟩ := hmoves
        obtain ⟨mv, hmv⟩ := ne_none_iff_exists'.mp hmove
        have hle : rank (e.config m) ≤ r := by
          refine always (P := fun c => rank c ≤ r) hr.le ?_ m hm
          grind
        exact ih _ ((hstep m mv hmv).trans_le hle) (m + 1) rfl
      · refine ⟨n, fun m hm => ?_⟩
        grind
  obtain ⟨N, hN⟩ := hrest _ 0 rfl
  have hstays : ∀ n, N ≤ n → e.config n = e.config N := by
    refine always (P := fun c => c = e.config N) rfl ?_
    grind
  refine ⟨N, hstays, fun i henabled => ?_⟩
  obtain ⟨m, b, hm, hmove⟩ := hfair i N fun m hm => by rwa [hstays m hm]
  rw [hN m hm] at hmove
  cases hmove

end Execution

/-- The moves of an execution up to moment `N`, then the move `a`, and then rest. -/
def Execution.extend (e : Execution code ok init) (N : ℕ) {a : Move θ χ}
    {c : Config σ θ} (hok : ok (e.config N) a)
    (hnext : code.step (e.config N) a = some c) : Execution code ok init where
  config n := if n ≤ N then e.config n else c
  move n := if n < N then e.move n else if n = N then some a else none
  start := by simpa using e.start
  idle := by
    grind [idle]
  guard := by
    grind [guard]
  next := by
    grind [next]

variable {acts : List (Move θ χ)}

theorem exists_execution (h : Run code.step ok init acts c) :
    ∃ (e : Execution code ok init) (N : ℕ), ∀ n, N ≤ n → e.config n = c := by
  induction h with
  | nil =>
    refine ⟨⟨fun _ => init, fun _ => none, rfl, fun _ => rfl, ?_, ?_⟩, 0, fun _ _ => rfl⟩
    all_goals
      intro n m hm
      cases hm
  | snoc _ hok hnext ih =>
    obtain ⟨e, N, hN⟩ := ih
    rw [← hN N le_rfl] at hok hnext
    refine ⟨e.extend N hok hnext, N + 1, ?_⟩
    intro n hn
    exact if_neg (by omega)

/-- A run and two more moves, the first of which is marked by its moment. -/
theorem exists_execution_two {c₁ c₂ c₃ : Config σ θ} {a a' : Move θ χ}
    (h : Run code.step ok init acts c₁) (hok : ok c₁ a) (hnext : code.step c₁ a = some c₂)
    (hok' : ok c₂ a') (hnext' : code.step c₂ a' = some c₃) :
    ∃ (e : Execution code ok init) (N : ℕ), e.config N = c₁ ∧
      e.move N = some a ∧ e.config (N + 1) = c₂ ∧ ∀ n, N + 2 ≤ n → e.config n = c₃ := by
  obtain ⟨e, N, hN⟩ := exists_execution h
  rw [← hN N le_rfl] at hok hnext
  have hlast : (e.extend N hok hnext).config (N + 1) = c₂ := if_neg (by omega)
  rw [← hlast] at hok' hnext'
  refine ⟨(e.extend N hok hnext).extend (N + 1) hok' hnext', N, ?_, ?_, ?_, ?_⟩
  · grind [Execution.extend]
  · calc ((e.extend N hok hnext).extend (N + 1) hok' hnext').move N
        = (e.extend N hok hnext).move N := if_pos (by omega)
      _ = some a := by simp [Execution.extend]
  · grind [Execution.extend]
  · intro n hn
    exact if_neg (by omega)

theorem Execution.fair_of_rest {e : Execution code ok init} {N : ℕ}
    (h : ∀ n, N ≤ n → e.config n = c) (hrest : ∀ i, ¬code.Enabled c i) : e.Fair := by
  intro i n henabled
  have := henabled (max n N) (le_max_left n N)
  grind

/-- A run to a configuration in which no goroutine can move begins an execution that
is fair in every sense. -/
theorem exists_fair (h : Run code.step ok init acts c)
    (hrest : ∀ i t b, c.threads[i]? = some t → code.next c.shared i t b = none) :
    ∃ (e : Execution code ok init) (N : ℕ), e.Fair ∧
      (∀ i b, e.FairChoice i b) ∧ ∀ n, N ≤ n → e.config n = c := by
  have hstuck := Code.not_enabled hrest
  obtain ⟨e, N, hN⟩ := exists_execution h
  refine ⟨e, N, Execution.fair_of_rest hN hstuck, fun i b hagain => ?_, hN⟩
  obtain ⟨m, hm, hsome⟩ := hagain N
  rw [hN m hm] at hsome
  obtain ⟨c', hc'⟩ := isSome_iff_exists.mp hsome
  exact absurd ⟨b, c', hc'⟩ (hstuck i)

end Fluxor.Goroutines
