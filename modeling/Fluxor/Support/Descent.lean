import Mathlib.Data.Nat.Basic
import Mathlib.Order.Basic

/-!
# Recursive descent by loops

A recursive-descent reader is a family of loops. An iteration of a loop ends the
loop, goes on with the next iteration, or reads a nested value and then ends or goes
on; reading a value gives a result at once or enters another loop. `Descent` has the
iterations of all loops as one function of the loop head, and `Descent.run` executes
them with a bound on the depth of calls and the number of iterations.

Suppose that every iteration brings the position closer to the end, except
iterations from certain stuck heads, and that an iteration from a stuck head goes on
to another one. Then the reader returns if and only if it reaches no stuck head
(`Measured.returns_iff`).
-/

namespace Fluxor.Support

open Option

/-- How an iteration ends: it goes on with the next one, or leaves the loop. -/
inductive Turn (η ρ : Type*)
  | next (h : η)
  | done (r : ρ)

/-- The result of reading a value: an error, or the value and the position
after it. -/
abbrev Reading (π ν ε : Type*) := Except ε (ν × π)

/-- An iteration ends, or reads a value at a position and ends then. An error in the
value leaves the loop. -/
inductive Iteration (η π ν ε : Type*)
  | turn (t : Turn η (Reading π ν ε))
  | read (p : π) (k : ν → π → Turn η (Reading π ν ε))

inductive ValueStart (η π ν ε : Type*)
  | loop (h : η)
  | result (r : Reading π ν ε)

/-- A reader with loop heads `η`, positions `π`, values `ν` and errors `ε`. -/
structure Descent (η π ν ε : Type*) where
  iter : η → Iteration η π ν ε
  enter : π → ValueStart η π ν ε

namespace Descent

variable {η π ν ε : Type*} (D : Descent η π ν ε)

/-- The rest of an iteration after its value was read. -/
def resume (k : ν → π → Turn η (Reading π ν ε)) : Reading π ν ε → Turn η (Reading π ν ε)
  | .ok (v, p) => k v p
  | .error e => .done (.error e)

/-- Run the loop from a head; `none` says that the fuel is used up. -/
def run : ℕ → η → Option (Reading π ν ε)
  | 0, _ => none
  | fuel + 1, h =>
    let finish : Turn η (Reading π ν ε) → Option (Reading π ν ε)
      | .next h => run fuel h
      | .done r => some r
    match D.iter h with
    | .turn t => finish t
    | .read p k =>
      match D.enter p with
      | .loop h => (run fuel h).bind fun r => finish (resume k r)
      | .result r => finish (resume k r)

def value (fuel : ℕ) (p : π) : Option (Reading π ν ε) :=
  match D.enter p with
  | .loop h => D.run fuel h
  | .result r => some r

/-- The end of an iteration: go on with the remaining fuel, or return. -/
def finish (fuel : ℕ) : Turn η (Reading π ν ε) → Option (Reading π ν ε)
  | .next h => D.run fuel h
  | .done r => some r

def Returns (h : η) : Prop := ∃ fuel r, D.run fuel h = some r

/-- One iteration goes on to the next loop head. -/
inductive Next (h h' : η) : Prop
  | turn (hiter : D.iter h = .turn (.next h'))
  | read {p : π} {k : ν → π → Turn η (Reading π ν ε)} {fuel : ℕ}
      {r : Reading π ν ε} (hiter : D.iter h = .read p k)
      (hvalue : D.value fuel p = some r) (hk : resume k r = .next h')

/-- An iteration enters the loop of a nested value. -/
def Enters (h h' : η) : Prop := ∃ p k, D.iter h = .read p k ∧ D.enter p = .loop h'

/-- The loop heads that a run reaches, in its own loop and in nested ones. -/
inductive Reaches : η → η → Prop
  | refl (h : η) : Reaches h h
  | next {h h' h'' : η} (hnext : D.Next h h') (hreach : Reaches h' h'') : Reaches h h''
  | enter {h h' h'' : η} (henter : D.Enters h h') (hreach : Reaches h' h'') : Reaches h h''

variable {D} {h h' : η} {fuel fuel' : ℕ} {r : Reading π ν ε} {t : Turn η (Reading π ν ε)}

theorem run_turn (hiter : D.iter h = .turn t) : D.run (fuel + 1) h = D.finish fuel t := by
  simp only [run, hiter]
  cases t <;> rfl

variable {p : π} {k : ν → π → Turn η (Reading π ν ε)}

theorem run_read (hiter : D.iter h = .read p k) :
    D.run (fuel + 1) h = (D.value fuel p).bind fun r => D.finish fuel (resume k r) := by
  simp only [run, hiter, value]
  cases D.enter p with
  | loop | result => rfl

theorem run_succ (hrun : D.run fuel h = some r) : D.run (fuel + 1) h = some r := by
  induction fuel generalizing h r with
  | zero => cases hrun
  | succ fuel ih =>
    have hfinish : ∀ {t}, D.finish fuel t = some r → D.finish (fuel + 1) t = some r := by
      intro t ht
      cases t with
      | next => exact ih ht
      | done => exact ht
    cases hiter : D.iter h with
    | turn =>
      rw [run_turn hiter] at hrun ⊢
      exact hfinish hrun
    | read =>
      rw [run_read hiter] at hrun ⊢
      obtain ⟨r', hvalue, hrest⟩ := bind_eq_some_iff.mp hrun
      apply bind_eq_some_iff.mpr
      refine ⟨r', ?_, hfinish hrest⟩
      unfold value at hvalue ⊢
      split at hvalue
      · exact ih hvalue
      · exact hvalue

theorem run_mono (hle : fuel ≤ fuel') (hrun : D.run fuel h = some r) : D.run fuel' h = some r := by
  induction hle with
  | refl => exact hrun
  | step _ ih => exact run_succ ih

theorem value_mono (hle : fuel ≤ fuel') (hvalue : D.value fuel p = some r) :
    D.value fuel' p = some r := by
  unfold value at hvalue ⊢
  split at hvalue
  · exact run_mono hle hvalue
  · exact hvalue

theorem finish_mono (hle : fuel ≤ fuel') (hfinish : D.finish fuel t = some r) :
    D.finish fuel' t = some r := by
  cases t with
  | next => exact run_mono hle hfinish
  | done => exact hfinish

variable {r' : Reading π ν ε}

theorem value_unique (hvalue : D.value fuel p = some r) (hvalue' : D.value fuel' p = some r') :
    r = r' := by
  have h₁ := value_mono (Nat.le_max_left fuel fuel') hvalue
  have h₂ := value_mono (Nat.le_max_right fuel fuel') hvalue'
  rw [h₁] at h₂
  exact some.inj h₂

theorem returns_of_read (hiter : D.iter h = .read p k) (hvalue : D.value fuel p = some r)
    (hfinish : D.finish fuel' (resume k r) = some r') : D.Returns h := by
  refine ⟨max fuel fuel' + 1, r', ?_⟩
  rw [run_read hiter, value_mono (Nat.le_max_left fuel fuel') hvalue]
  exact finish_mono (Nat.le_max_right fuel fuel') hfinish

variable (D) in
/-- The distances `left` of a position and `size` of a loop head from the end
of the input shrink, except in iterations from stuck heads. -/
structure Measured (left : π → ℕ) (size : η → ℕ) (stuck : η → Prop) : Prop where
  done_le {h : η} {v : ν} {p : π} : D.iter h = .turn (.done (.ok (v, p))) → left p ≤ size h
  next_lt {h h' : η} : D.iter h = .turn (.next h') → size h' < size h
  read_le {h : η} {p : π} {k : ν → π → Turn η (Reading π ν ε)} :
    D.iter h = .read p k → left p ≤ size h
  resume_next_le {h h' : η} {p p' : π} {v : ν} {k : ν → π → Turn η (Reading π ν ε)} :
    D.iter h = .read p k → k v p' = .next h' → size h' ≤ left p'
  resume_done_le {h : η} {p p' p'' : π} {v v' : ν} {k : ν → π → Turn η (Reading π ν ε)} :
    D.iter h = .read p k → k v p' = .done (.ok (v', p'')) → left p'' ≤ left p'
  enter_lt {p : π} {h : η} : D.enter p = .loop h → size h < left p
  result_le {p p' : π} {v : ν} : D.enter p = .result (.ok (v, p')) → left p' ≤ left p
  result_lt {h : η} {p p' : π} {v : ν} {k : ν → π → Turn η (Reading π ν ε)} :
    ¬stuck h → D.iter h = .read p k → D.enter p = .result (.ok (v, p')) → left p' < size h
  repeats {h : η} : stuck h → ∃ p k r h', D.iter h = .read p k ∧
    D.enter p = .result r ∧ resume k r = .next h' ∧ stuck h'

namespace Measured

variable {left : π → ℕ} {size : η → ℕ} {stuck : η → Prop} (M : D.Measured left size stuck)

include M

theorem run_le {v : ν} {p : π} (hrun : D.run fuel h = some (.ok (v, p))) : left p ≤ size h := by
  induction fuel generalizing h v p with
  | zero => cases hrun
  | succ fuel ih =>
    cases hiter : D.iter h with
    | turn t =>
      rw [run_turn hiter] at hrun
      cases t with
      | next => exact (ih hrun).trans (M.next_lt hiter).le
      | done =>
        cases hrun
        exact M.done_le hiter
    | read q k =>
      rw [run_read hiter] at hrun
      obtain ⟨r, hvalue, hfinish⟩ := bind_eq_some_iff.mp hrun
      cases r with
      | error => cases hfinish
      | ok vq =>
        obtain ⟨v', q'⟩ := vq
        have hq' : left q' ≤ size h := by
          apply le_trans _ (M.read_le hiter)
          unfold value at hvalue
          split at hvalue
          next hloop => exact (ih hvalue).trans (M.enter_lt hloop).le
          next hresult =>
            cases hvalue
            exact M.result_le hresult
        change D.finish fuel (k v' q') = _ at hfinish
        cases hk : k v' q' with
        | next =>
          rw [hk] at hfinish
          exact (ih hfinish).trans ((M.resume_next_le hiter hk).trans hq')
        | done =>
          rw [hk] at hfinish
          cases hfinish
          exact (M.resume_done_le hiter hk).trans hq'

theorem size_lt_of_next (hstuck : ¬stuck h) (hnext : D.Next h h') : size h' < size h := by
  cases hnext with
  | turn hiter => exact M.next_lt hiter
  | @read p k fuel r hiter hvalue hk =>
    cases r with
    | error => cases hk
    | ok vp =>
      obtain ⟨v, p'⟩ := vp
      refine lt_of_le_of_lt (M.resume_next_le hiter hk) ?_
      unfold value at hvalue
      split at hvalue
      next hloop =>
        calc
          left p' ≤ size _ := M.run_le hvalue
          _ < left p := M.enter_lt hloop
          _ ≤ size h := M.read_le hiter
      next hresult =>
        cases hvalue
        exact M.result_lt hstuck hiter hresult

/-- Without stuck heads the loop returns, by induction on the distance of its
head from the end. -/
theorem returns_of_not_stuck (hfree : ∀ h', D.Reaches h h' → ¬stuck h') : D.Returns h := by
  induction hn : size h using Nat.strongRecOn generalizing h with
  | ind n ih =>
    subst hn
    have hnext : ∀ {h'}, D.Next h h' → D.Returns h' := by
      intro h' hnext
      exact ih (size h') (M.size_lt_of_next (hfree h (.refl h)) hnext)
        (fun h'' hreach => hfree h'' (.next hnext hreach)) rfl
    have hturn : ∀ {t}, (∀ h', t = .next h' → D.Next h h') →
        ∃ fuel r, D.finish fuel t = some r := by
      intro t ht
      cases t with
      | next h' => exact hnext (ht h' rfl)
      | done r => exact ⟨0, r, rfl⟩
    cases hiter : D.iter h with
    | turn t =>
      obtain ⟨fuel, r, hfinish⟩ := hturn (t := t) (fun h' ht => .turn (ht ▸ hiter))
      exact ⟨fuel + 1, r, by rw [run_turn hiter, hfinish]⟩
    | read p k =>
      obtain ⟨fuel, r, hvalue⟩ : ∃ fuel r, D.value fuel p = some r := by
        cases henter : D.enter p with
        | result r => exact ⟨0, r, by simp only [value, henter]⟩
        | loop h' =>
          have hlt : size h' < size h := (M.enter_lt henter).trans_le (M.read_le hiter)
          obtain ⟨fuel, r, hrun⟩ := ih (size h') hlt (fun h'' hreach =>
              hfree h'' (.enter ⟨p, k, hiter, henter⟩ hreach)) rfl
          exact ⟨fuel, r, by simp only [value, henter, hrun]⟩
      obtain ⟨fuel', r', hfinish⟩ := hturn (t := resume k r) (fun h' hk => .read hiter hvalue hk)
      exact returns_of_read hiter hvalue hfinish

theorem run_of_stuck (hstuck : stuck h) (fuel : ℕ) : D.run fuel h = none := by
  induction fuel generalizing h with
  | zero => rfl
  | succ fuel ih =>
    obtain ⟨p, k, r, h', hiter, henter, hk, hstuck'⟩ := M.repeats hstuck
    rw [run_read hiter]
    simp only [value, henter, bind_some, hk]
    exact ih hstuck'

/-- A loop that reaches a stuck head never returns. -/
theorem run_of_reaches (hreach : D.Reaches h h') (hstuck : stuck h') (fuel : ℕ) :
    D.run fuel h = none := by
  induction hreach generalizing fuel with
  | refl => exact M.run_of_stuck hstuck fuel
  | @next h h₁ h₂ hnext hreach ih =>
    cases fuel with
    | zero => rfl
    | succ fuel =>
      cases hnext with
      | turn hiter =>
        rw [run_turn hiter]
        exact ih hstuck fuel
      | read hiter hvalue hk =>
        rw [run_read hiter]
        apply bind_eq_none_iff.mpr
        intro r hr
        rw [value_unique hr hvalue, hk]
        exact ih hstuck fuel
  | @enter h h₁ h₂ henter hreach ih =>
    cases fuel with
    | zero => rfl
    | succ fuel =>
      obtain ⟨p, k, hiter, henter⟩ := henter
      rw [run_read hiter]
      simp only [value, henter, ih hstuck fuel, bind_none]

theorem returns_iff : D.Returns h ↔ ∀ h', D.Reaches h h' → ¬stuck h' := by
  constructor
  · rintro ⟨fuel, r, hrun⟩ h' hreach hstuck
    rw [M.run_of_reaches hreach hstuck fuel] at hrun
    cases hrun
  · exact M.returns_of_not_stuck

end Measured

end Descent

end Fluxor.Support
