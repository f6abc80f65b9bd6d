import Fluxor.Support.Goroutines

/-!
# Tokens of goroutines

A token is made by one goroutine and handed on: it is in some place of the shared
state, with a goroutine that has received it, or still with its maker. What steps
only hand on is never doubled.
-/

namespace Fluxor.Goroutines

open Config Transition

variable {σ θ χ κ : Type*}

/-- How often the token `k` is in the shared state and with a goroutine, and whether
its maker still has it. -/
structure Tokens (σ θ κ : Type*) where
  placed : σ → κ → ℕ
  held : κ → θ → ℕ
  maker : κ → ℕ
  unsent : κ → θ → Bool

namespace Tokens

variable (T : Tokens σ θ κ) {code : Code σ θ χ} {c c' : Config σ θ} {k : κ}

/-- A maker that has not been started has its tokens. -/
def made (k : κ) : Option θ → ℕ
  | none => 1
  | some t => (T.unsent k t).toNat

def count (c : Config σ θ) (k : κ) : ℕ :=
  T.placed c.shared k + c.total (T.held k) + T.made k c.threads[T.maker k]?

/-- A step of goroutine `i` adds no token. -/
def Kept (s : σ) (i : ℕ) (t : θ) (o : Outcome σ θ) (k : κ) : Prop :=
  T.placed o.shared k + T.held k o.thread + (o.started.map (T.held k)).sum +
      (if T.maker k = i then (T.unsent k o.thread).toNat else 0) ≤
    T.placed s k + T.held k t + if T.maker k = i then (T.unsent k t).toNat else 0

theorem made_le_one (k : κ) (u : Option θ) : T.made k u ≤ 1 := by
  cases u with
  | none => exact le_rfl
  | some t => exact Bool.toNat_le _

theorem made_advance {i : ℕ} {t : θ} {o : Outcome σ θ} (ht : c.threads[i]? = some t) :
    T.made k (c.advance i o).threads[T.maker k]? ≤ if T.maker k = i then
      (T.unsent k o.thread).toNat else T.made k c.threads[T.maker k]? := by
  split
  next hi => rw [hi, getElem?_advance_self ht, made]
  next hi =>
    cases hu : c.threads[T.maker k]? with
    | none => exact T.made_le_one k _
    | some u => rw [getElem?_advance_of_ne hi hu]

/-- A token that nobody but its maker has at first is never doubled. -/
theorem count_le_one {acts : List (Move θ χ)} (hplaced : T.placed c.shared k = 0)
    (hheld : c.total (T.held k) = 0) (hentry : ∀ t, code.entry t = true → T.held k t = 0)
    (hstep : ∀ {s i t b o}, code.next s i t b = some o → T.Kept s i t o k)
    (h : Run code.step anyStep c acts c') : T.count c' k ≤ 1 := by
  refine Code.run_invariant (I := fun c => T.count c k ≤ 1) ?_ ?_ h ?_
  · intro c t hle _ ht
    refine le_trans ?_ hle
    rw [count, count, total_spawn, hentry t ht]
    cases hu : c.threads[T.maker k]? with
    | none => exact Nat.add_le_add_left (T.made_le_one k _) _
    | some u => exact Nat.add_le_add_left (getElem?_spawn_of_some hu ▸ le_rfl) _
  · intro c i b t o hle _ ht ho
    refine le_trans ?_ hle
    have hkept := hstep ho
    have htotal := total_advance (w := T.held k) (o := o) ht
    have hmade := T.made_advance (k := k) (o := o) ht
    simp only [Kept, count, advance] at *
    grind [made]
  · rw [count, hplaced, hheld, Nat.zero_add]
    exact T.made_le_one k _

end Tokens

end Fluxor.Goroutines
