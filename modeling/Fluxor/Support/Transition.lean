import Mathlib.Data.List.Basic

/-!
# Guarded runs of executable transition systems

A transition system is an executable partial step function: `step s a` is the state
after action `a`, or `none` when `a` is not enabled in `s`. A run is described by
the list of its actions. Many results hold for those runs in which every step meets
a condition on the state it is taken in, so the run relation carries such a guard;
the unrestricted runs are those of the guard that is always true.
-/

namespace Fluxor.Transition

open Option List

variable {σ α : Type*}

/-- The actions `acts`, taken one after the other from `s`, are all enabled, all
meet `ok`, and lead to `t`. -/
inductive Run (step : σ → α → Option σ) (ok : σ → α → Prop) : σ → List α → σ → Prop
  | nil (s : σ) : Run step ok s [] s
  | snoc {s t u : σ} {acts : List α} {a : α} (run : Run step ok s acts t) (guard : ok t a)
      (next : step t a = some u) : Run step ok s (acts ++ [a]) u

/-- The guard met by every step: its runs are all runs of the system. -/
def anyStep (_ : σ) (_ : α) : Prop := True

/-- Execute actions, failing at the first one that is not enabled or does not meet the guard. -/
def exec (step : σ → α → Option σ) (ok : σ → α → Prop)
    [∀ s a, Decidable (ok s a)] (s : σ) : List α → Option σ
  | [] => some s
  | a :: acts => if ok s a then (step s a).bind fun t => exec step ok t acts else none

instance (s : σ) (a : α) : Decidable (anyStep s a) := isTrue trivial

variable {step : σ → α → Option σ} {ok : σ → α → Prop} {s t : σ} {acts : List α}

theorem Run.invariant {I : σ → Prop} (hstep : ∀ {s a t}, I s → ok s a → step s a = some t → I t)
    (hrun : Run step ok s acts t) (hs : I s) : I t := by
  induction hrun with
  | nil => exact hs
  | snoc _ hguard hnext ih => exact hstep ih hguard hnext

variable {ok' : σ → α → Prop}

open Run

theorem Run.mono (hok : ∀ {s a}, ok s a → ok' s a) (hrun : Run step ok s acts t) :
    Run step ok' s acts t := by
  induction hrun with
  | nil => exact nil _
  | snoc _ hguard hnext ih => exact snoc ih (hok hguard) hnext

theorem Run.mono_of_invariant {I : σ → Prop}
    (hinv : ∀ {s a t}, I s → ok s a → step s a = some t → I t)
    (hok : ∀ {s a t}, I s → ok s a → step s a = some t → ok' s a) (hrun : Run step ok s acts t)
    (hs : I s) : Run step ok' s acts t := by
  induction hrun with
  | nil => exact nil _
  | snoc hrun hguard hnext ih => exact snoc ih (hok (hrun.invariant hinv hs) hguard hnext) hnext

variable {u : σ}

theorem Run.of_snoc {a : α} (hrun : Run step ok s (acts ++ [a]) u) :
    ∃ t, Run step ok s acts t ∧ ok t a ∧ step t a = some u := by
  generalize hacts : acts ++ [a] = acts' at hrun
  cases hrun with
  | nil => simp at hacts
  | snoc hrun hguard hnext =>
    obtain ⟨rfl, hlast⟩ := append_inj' hacts rfl
    obtain rfl := singleton_inj.mp hlast
    exact ⟨_, hrun, hguard, hnext⟩

theorem Run.and (hrun : Run step ok s acts t) (hrun' : Run step ok' s acts u) :
    Run step (fun s a => ok s a ∧ ok' s a) s acts t ∧ u = t := by
  induction hrun generalizing u with
  | nil =>
    generalize hacts : ([] : List α) = acts at hrun'
    cases hrun' with
    | nil => exact ⟨nil _, rfl⟩
    | snoc => simp at hacts
  | snoc _ hguard hnext ih =>
    obtain ⟨t', hrun', hguard', hnext'⟩ := hrun'.of_snoc
    obtain ⟨hboth, rfl⟩ := ih hrun'
    exact ⟨snoc hboth ⟨hguard, hguard'⟩ hnext, some.inj (hnext'.symm.trans hnext)⟩

theorem Run.cons {a : α} (hguard : ok s a) (hnext : step s a = some t)
    (hrun : Run step ok t acts u) : Run step ok s (a :: acts) u := by
  induction hrun with
  | nil => exact snoc (nil s) hguard hnext
  | snoc _ hguard' hnext' ih => exact snoc ih hguard' hnext'

theorem Run.append {acts' : List α} (hrun : Run step ok s acts t) (hrun' : Run step ok t acts' u) :
    Run step ok s (acts ++ acts') u := by
  induction hrun' with
  | nil =>
    rwa [append_nil]
  | snoc _ hguard hnext ih =>
    rw [← append_assoc]
    exact snoc ih hguard hnext

/-- Forward simulation. If every step of one system is matched by a step of another
or leaves the other where it is, so is every run. -/
theorem Run.simulate {τ β : Type*} {step' : τ → β → Option τ} {R : σ → τ → Prop}
    (hstep : ∀ {s a t c}, R s c → ok s a → step s a = some t →
      R t c ∨ ∃ b c', step' c b = some c' ∧ R t c') {c : τ} (hrun : Run step ok s acts t)
    (hs : R s c) : ∃ acts' c', Run step' anyStep c acts' c' ∧ R t c' := by
  induction hrun with
  | nil => exact ⟨[], c, nil c, hs⟩
  | snoc _ hguard hnext ih =>
    obtain ⟨acts', c', hrun', hR⟩ := ih
    rcases hstep hR hguard hnext with hR' | ⟨b, c'', hb, hR'⟩
    · exact ⟨acts', c', hrun', hR'⟩
    · exact ⟨acts' ++ [b], c'', snoc hrun' trivial hb, hR'⟩

theorem exec_anyStep_cons (step : σ → α → Option σ) (s : σ) (a : α) (acts : List α) :
    exec step anyStep s (a :: acts) = (step s a).bind fun t => exec step anyStep t acts :=
  if_pos trivial

theorem run_of_exec [∀ s a, Decidable (ok s a)] (h : exec step ok s acts = some t) :
    Run step ok s acts t := by
  induction acts generalizing s with
  | nil =>
    simp only [exec, some.injEq] at h
    subst h
    exact nil s
  | cons a acts ih =>
    rw [exec] at h
    split at h
    next hguard =>
      obtain ⟨u, hu, hrest⟩ := bind_eq_some_iff.mp h
      exact cons hguard hu (ih hrest)
    · cases h

theorem run_exec (step : σ → α → Option σ) (ok : σ → α → Prop) [∀ s a, Decidable (ok s a)] (s : σ)
    (acts : List α) (h : (exec step ok s acts).isSome) :
    Run step ok s acts ((exec step ok s acts).get h) :=
  run_of_exec (some_get h).symm

theorem exists_run (step : σ → α → Option σ) (ok : σ → α → Prop) [∀ s a, Decidable (ok s a)]
    (s : σ) (acts : List α) (P : σ → Prop) [DecidablePred P]
    (h : (exec step ok s acts).any (fun t => decide (P t)) = true) :
    ∃ t, Run step ok s acts t ∧ P t := by
  cases ht : exec step ok s acts with
  | none =>
    rw [ht] at h
    cases h
  | some t =>
    rw [ht] at h
    exact ⟨t, run_of_exec ht, of_decide_eq_true h⟩

theorem exists_run_of {step : σ → α → Option σ} {ok : σ → α → Prop} [∀ s a, Decidable (ok s a)]
    {s : σ} {P : σ → Prop} (acts : List α) (Q : σ → Prop) [DecidablePred Q]
    (h : (exec step ok s acts).any (fun t => decide (Q t)) = true)
    (hP : ∀ t, Run step ok s acts t → Q t → P t) : ∃ t, Run step ok s acts t ∧ P t := by
  obtain ⟨t, hrun, hQ⟩ := exists_run step ok s acts Q h
  exact ⟨t, hrun, hP t hrun hQ⟩

end Fluxor.Transition
