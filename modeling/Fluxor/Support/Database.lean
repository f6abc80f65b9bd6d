import Mathlib.Algebra.BigOperators.Group.List.Basic
import Mathlib.Data.List.AList
import Mathlib.Tactic.Abel

/-!
# Programs on a database

A program reads and changes the tables and returns a value or an error. The
changes made before an error stay, unless the program is a transaction. A
table with a primary key is an association list without repeated keys.
-/

namespace Fluxor.Database

open List

variable {σ ε α β : Type}

/-- A program on the tables `σ` with errors `ε`. -/
def Program (σ ε α : Type) : Type := σ → Except ε α × σ

namespace Program

instance : Monad (Program σ ε) where
  pure a := fun s => (.ok a, s)
  bind x f := fun s =>
    match x s with
    | (.ok a, s') => f a s'
    | (.error e, s') => (.error e, s')

def tables : Program σ ε σ :=
  fun s => (.ok s, s)

def modify (f : σ → σ) : Program σ ε Unit :=
  fun s => (.ok (), f s)

def throw (e : ε) : Program σ ε α :=
  fun s => (.error e, s)

def require (p : Prop) [Decidable p] (e : ε) : Program σ ε Unit :=
  if p then pure () else throw e

def found (x : Option α) (e : ε) : Program σ ε α :=
  match x with
  | some a => pure a
  | none => throw e

/-- The outcome of a computation that does not use the tables. -/
def lift (x : Except ε α) : Program σ ε α :=
  fun s => (x, s)

def mapError (f : ε → ε) (x : Program σ ε α) : Program σ ε α := fun s =>
  match x s with
  | (.ok a, s') => (.ok a, s')
  | (.error e, s') => (.error (f e), s')

variable (x : Program σ ε α)

/-- The value of the program, or nothing if it fails. -/
def attempt : Program σ ε (Option α) := fun s =>
  match x s with
  | (.ok a, s') => (.ok (some a), s')
  | (.error _, s') => (.ok none, s')

/-- A transaction: the changes made before an error are taken back. -/
def transaction : Program σ ε α := fun s =>
  match x s with
  | (.ok a, s') => (.ok a, s')
  | (.error e, _) => (.error e, s)

/-- `x` returns `a` from the tables `s`, and leaves the tables `s'`. -/
def Returns (s : σ) (a : α) (s' : σ) : Prop := x s = (.ok a, s')

def Succeeds (s : σ) : Prop := ∃ a s', x.Returns s a s'

variable {x : Program σ ε α} {f : α → Program σ ε β} {s s' : σ} {a b : α}

@[simp] theorem returns_pure : (pure a : Program σ ε α).Returns s b s' ↔ b = a ∧ s' = s := by
  constructor
  · intro h
    cases h
    exact ⟨rfl, rfl⟩
  · rintro ⟨rfl, rfl⟩
    rfl

@[simp] theorem returns_bind {b : β} : (x >>= f).Returns s b s' ↔
    ∃ a t, x.Returns s a t ∧ (f a).Returns t b s' := by
  change (match x s with
    | (.ok a, t) => f a t
    | (.error e, t) => (.error e, t)) = _ ↔ _
  constructor
  · intro h
    split at h
    next a t hx => exact ⟨a, t, hx, h⟩
    · cases h
  · rintro ⟨a, t, hx, hf⟩
    rw [hx]
    exact hf

@[simp] theorem returns_tables {t : σ} :
    (tables : Program σ ε σ).Returns s t s' ↔ t = s ∧ s' = s := by
  constructor
  · intro h
    cases h
    exact ⟨rfl, rfl⟩
  · rintro ⟨rfl, rfl⟩
    rfl

@[simp] theorem returns_modify {g : σ → σ} {u : Unit} :
    (modify g : Program σ ε Unit).Returns s u s' ↔ s' = g s := by
  constructor
  · intro h
    cases h
    rfl
  · rintro rfl
    rfl

@[simp] theorem returns_throw {e : ε} : ¬(throw e : Program σ ε α).Returns s a s' := by
  intro h
  cases h

@[simp] theorem returns_require {p : Prop} [Decidable p] {e : ε} {u : Unit} :
    (require p e : Program σ ε Unit).Returns s u s' ↔ p ∧ s' = s := by
  rw [require]
  split
  all_goals
    rename_i hp
    simp [hp]

@[simp] theorem returns_found {o : Option α} {e : ε} :
    (found o e : Program σ ε α).Returns s a s' ↔ o = some a ∧ s' = s := by
  cases o with
  | none => simp [found]
  | some => simp [found, eq_comm]

@[simp] theorem returns_lift {r : Except ε α} :
    (lift r : Program σ ε α).Returns s a s' ↔ r = .ok a ∧ s' = s := by
  constructor
  · intro h
    cases h
    exact ⟨rfl, rfl⟩
  · rintro ⟨rfl, rfl⟩
    rfl

@[simp] theorem returns_mapError {g : ε → ε} :
    (x.mapError g).Returns s a s' ↔ x.Returns s a s' := by
  rw [Returns, mapError, Returns]
  split
  next hx => rw [hx]
  next hx =>
    rw [hx]
    simp

theorem Returns.attempt (h : x.Returns s a s') : x.attempt s = (.ok (some a), s') := by
  rw [Program.attempt, h]

@[simp] theorem returns_transaction : x.transaction.Returns s a s' ↔ x.Returns s a s' := by
  rw [Returns, transaction, Returns]
  split
  next hx => rw [hx]
  next hx =>
    rw [hx]
    simp

/-- Run a program, and check what it returns and leaves. -/
def check (x : Program σ ε α) (s : σ) (P : α → σ → Prop) [∀ a t, Decidable (P a t)] : Bool :=
  match x s with
  | (.ok a, t) => decide (P a t)
  | (.error _, _) => false

theorem exists_returns {P : α → σ → Prop} [∀ a t, Decidable (P a t)] (h : x.check s P = true) :
    ∃ a t, x.Returns s a t ∧ P a t := by
  rw [check] at h
  split at h
  next a t hx => exact ⟨a, t, hx, of_decide_eq_true h⟩
  · cases h

end Program

section Sums

variable {κ ρ γ : Type*} [DecidableEq κ]

def total [Add γ] [Zero γ] (column : ρ → γ) (table : AList fun _ : κ => ρ) : γ :=
  (table.entries.map fun row => column row.2).sum

variable [AddCommGroup γ] {column : ρ → γ}

theorem sum_kerase {key : κ} {row : ρ} {rows : List (Σ _ : κ, ρ)}
    (h : rows.dlookup key = some row) :
    ((rows.kerase key).map fun row => column row.2).sum =
      (rows.map fun row => column row.2).sum - column row := by
  induction rows with
  | nil => cases h
  | cons first rest ih =>
    by_cases hkey : key = first.1
    · obtain ⟨key', row'⟩ := first
      subst hkey
      rw [dlookup_cons_eq] at h
      obtain rfl := Option.some.inj h
      have herase : kerase key (⟨key, row'⟩ :: rest) = rest := kerase_cons_eq rfl
      rw [herase, map_cons, sum_cons]
      abel
    · rw [dlookup_cons_ne rest first hkey] at h
      rw [kerase_cons_ne hkey, map_cons, sum_cons, ih h, map_cons, sum_cons]
      abel

variable {table : AList fun _ : κ => ρ}

theorem total_insert_of_some {key : κ} {row row' : ρ} (h : table.lookup key = some row) :
    total column (table.insert key row') = total column table - column row + column row' := by
  rw [total, AList.entries_insert, map_cons, sum_cons, sum_kerase h, total]
  abel

theorem total_insert_of_none {key : κ} {row : ρ} (h : table.lookup key = none) :
    total column (table.insert key row) = total column table + column row := by
  have hkey : key ∉ table.entries.keys := dlookup_eq_none.mp h
  rw [total, AList.entries_insert, kerase_of_notMem_keys hkey, map_cons, sum_cons, total]
  abel

end Sums

end Fluxor.Database
