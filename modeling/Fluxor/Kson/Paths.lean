import Fluxor.Kson.Value
import Fluxor.Support.Transition

/-!
# Dotted paths

`setNested` on the map itself, which a failed call leaves changed as far as it came, and `Get`.
-/

namespace Fluxor.Kson

open Transition List Map

/-- The components of a key between its dots, after what was read of the first one. -/
def components (head : Bytes) : Bytes → List Bytes
  | [] => [head]
  | c :: tail =>
    if c = '.'.toUInt8 then head :: components [] tail else components (head ++ [c]) tail

/-- The map after `setNested`, and whether there was no error. -/
def assign (val : Value) : Map → List Bytes → Map × Bool
  | m, [] => (m, true)
  | m, [key] => (Map.set key val m, true)
  | m, head :: tail =>
    match m.lookup head with
    | none =>
      let r := assign val [] tail
      (Map.set head (.map r.1) m, r.2)
    | some (.map sub) =>
      let r := assign val sub tail
      (Map.set head (.map r.1) m, r.2)
    | some _ => (m, false)

def get : Map → List Bytes → Value
  | _, [] => .nil
  | m, [key] => (m.lookup key).getD .nil
  | m, head :: tail =>
    match m.lookup head with
    | some (.map sub) => get sub tail
    | _ => .nil

variable {m : Map} {key head : Bytes} {val : Value} {path q : List Bytes}

theorem exists_components (head key : Bytes) :
    ∃ first rest, components head key = first :: rest := by
  induction key generalizing head with
  | nil => exact ⟨head, [], rfl⟩
  | cons c tail ih =>
    rw [components]
    split
    · exact ⟨_, _, rfl⟩
    · exact ih _

theorem toOption_bind {x : Except (Bytes × Bytes) Map} {r : Map × Bool} (f : Map → Map)
    (h : x.toOption = if r.2 then some r.1 else none) :
    (x >>= fun sub => .ok (f sub)).toOption = if r.2 then some (f r.1) else none := by
  cases x <;> cases hr : r.2 <;> simp_all [Except.toOption, bind, Except.bind]

theorem setNested_toOption (val : Value) (m : Map) (head key : Bytes) :
    (setNested val m head key).toOption =
      if (assign val m (components head key)).2 then some (assign val m (components head key)).1
      else none := by
  induction key generalizing m head with
  | nil => rfl
  | cons c tail ih =>
    rw [setNested, components]
    split
    · obtain ⟨first, rest, hrest⟩ := exists_components [] tail
      have ih := fun m => ih m []
      rw [hrest] at ih ⊢
      cases hlookup : m.lookup head with
      | none =>
        simp only [assign, hlookup]
        exact toOption_bind (fun sub => set head (.map sub) m) (ih [])
      | some v =>
        cases v with
        | map sub =>
          simp only [assign, hlookup]
          exact toOption_bind (fun sub => set head (.map sub) m) (ih sub)
        | _ =>
          simp only [assign, hlookup]
          rfl
    · exact ih m _

theorem lookup_set (m : Map) (key : Bytes) (val : Value) (k : Bytes) :
    (set key val m).lookup k = if k = key then some val else m.lookup k := by
  induction m with
  | nil =>
    rw [Map.set, lookup_cons]
    split <;> simp_all
  | cons =>
    rw [Map.set]
    split <;> simp only [lookup_cons] <;> grind

theorem set_of_lookup (h : m.lookup key = some val) : set key val m = m := by
  induction m with
  | nil => cases h
  | cons =>
    rw [Map.set]
    rw [lookup_cons] at h
    grind

theorem get_nil (path : List Bytes) : get [] path = .nil := by
  cases path with
  | nil => rfl
  | cons head tail => cases tail <;> rfl

theorem get_congr {m' : Map} {tail : List Bytes} (h : m.lookup head = m'.lookup head) :
    get m (head :: tail) = get m' (head :: tail) := by
  cases tail <;> simp only [get, h]

theorem assign_nil (val : Value) (path : List Bytes) : (assign val [] path).2 = true := by
  induction path with
  | nil => rfl
  | cons head tail ih =>
    cases tail with
    | nil => rfl
    | cons => exact ih

theorem assign_error (h : (assign val m path).2 = false) : (assign val m path).1 = m := by
  revert h
  fun_induction assign val m path <;> grind [assign_nil, set_of_lookup]

theorem get_assign (hpath : path ≠ []) (h : (assign val m path).2 = true) :
    get (assign val m path).1 path = val := by
  revert h
  fun_induction assign val m path <;> grind [get, lookup_set]

theorem get_assign_of_apart (hbelow : ¬path <+: q) (habove : ¬q <+: path) :
    get (assign val m path).1 q = get m q := by
  obtain ⟨first, rest, rfl⟩ : ∃ first rest, q = first :: rest :=
    exists_cons_of_ne_nil fun hnil => habove (hnil ▸ nil_prefix)
  induction path generalizing m first rest with
  | nil => exact absurd nil_prefix hbelow
  | cons head tail ih =>
    by_cases hne : first = head
    · subst hne
      rw [cons_prefix_cons] at hbelow habove
      cases rest with
      | nil => exact absurd ⟨rfl, nil_prefix⟩ habove
      | cons second rest =>
        cases tail with
        | nil => exact absurd ⟨rfl, nil_prefix⟩ hbelow
        | cons =>
          have hsub := fun m => ih (m := m) second rest (fun h => hbelow ⟨rfl, h⟩)
            fun h => habove ⟨rfl, h⟩
          simp only [assign]
          split <;> simp only [get, lookup_set, if_true, *]
          exact get_nil _
    · refine get_congr ?_
      cases tail <;> grind [assign, lookup_set]

def set (m : Map) (s : Bytes × Value) : Option Map := (setNested s.2 m [] s.1).toOption

/-- One path is the other one, above it or below it. -/
def Related (k q : Bytes) : Prop :=
  components [] k <+: components [] q ∨ components [] q <+: components [] k

theorem assign_of_set {m' : Map} {s : Bytes × Value} (h : set m s = some m') :
    (assign s.2 m (components [] s.1)).2 = true ∧ (assign s.2 m (components [] s.1)).1 = m' := by
  rw [set, setNested_toOption] at h
  split at h
  next hok =>
    cases h
    exact ⟨hok, rfl⟩
  · cases h

theorem get_set_of_apart {m' : Map} {s : Bytes × Value} {q : Bytes} (h : set m s = some m')
    (happart : ¬Related s.1 q) : get m' (components [] q) = get m (components [] q) := by
  obtain ⟨-, rfl⟩ := assign_of_set h
  rw [Related, not_or] at happart
  exact get_assign_of_apart happart.1 happart.2

theorem get_of_run {sets before after : List (Bytes × Value)} (hrun : Run set anyStep [] sets m)
    (hsets : sets = before ++ (key, val) :: after) (hafter : ∀ s ∈ after, ¬Related s.1 key) :
    get m (components [] key) = val := by
  induction hrun generalizing after with
  | nil => simp at hsets
  | snoc run guard next ih =>
    rcases eq_nil_or_concat after with rfl | ⟨after, s, rfl⟩
    · obtain ⟨-, hlast⟩ := append_inj' hsets rfl
      cases hlast
      obtain ⟨hok, rfl⟩ := assign_of_set next
      obtain ⟨first, rest, hpath⟩ := exists_components [] key
      exact get_assign (by simp [hpath]) hok
    · rw [concat_eq_append, ← cons_append, ← append_assoc] at hsets
      obtain ⟨hinit, hlast⟩ := append_inj' hsets rfl
      cases hlast
      rw [get_set_of_apart next (hafter _ (by simp))]
      exact ih hinit fun s hs => hafter s (by simp [hs])

/-- `Get` returns what was last set, a call changes only paths related to its own, and one that
returns an error changes nothing. -/
theorem get_after_setNested :
    (∀ sets m before key val after, Run set anyStep [] sets m →
      sets = before ++ (key, val) :: after → (∀ s ∈ after, ¬Related s.1 key) →
        get m (components [] key) = val) ∧
    (∀ m s m', set m s = some m' → ∀ q, ¬Related s.1 q →
      get m' (components [] q) = get m (components [] q)) ∧
    ∀ m s, set m s = none → ∀ q,
      get (assign s.2 m (components [] s.1)).1 (components [] q) = get m (components [] q) := by
  refine ⟨fun _ _ _ _ _ _ hrun hsets hafter => get_of_run hrun hsets hafter,
    fun _ _ _ hset _ happart => get_set_of_apart hset happart, fun m s hset q => ?_⟩
  rw [assign_error]
  rw [set, setNested_toOption] at hset
  simpa using hset

/-- The value at `a.b` stays when `c` is set. -/
theorem get_after_setNested_two : ∃ m, Run set anyStep []
    [([97, 46, 98], Value.int 1), ([99], Value.int 2)] m ∧
      get m (components [] [97, 46, 98]) = Value.int 1 :=
  exists_run_of _ (fun _ => True) (by decide +kernel) fun m hrun _ =>
    get_after_setNested.1 _ m [] [97, 46, 98] (.int 1) [([99], .int 2)] hrun rfl
      fun s hs => by
        rw [mem_singleton.mp hs, Related]
        decide

end Fluxor.Kson
