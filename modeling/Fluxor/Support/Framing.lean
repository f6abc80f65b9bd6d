import Mathlib.Data.List.Basic

/-!
# Framed streams

A reader `next` takes one frame off the front of a stream, or finds no
complete frame there. `parse next` is the list of frames up to the first place
where there is none.
-/

namespace Fluxor.Support

open List

variable {β ρ : Type*}

def parseUpTo (next : List β → Option (ρ × List β)) :
    ℕ → List β → List ρ
  | 0, _ => []
  | n + 1, xs =>
    match next xs with
    | none => []
    | some (r, ys) => r :: parseUpTo next n ys

def parse (next : List β → Option (ρ × List β)) (xs : List β) : List ρ :=
  parseUpTo next (xs.length + 1) xs

def Consumes (next : List β → Option (ρ × List β)) : Prop :=
  ∀ {xs r ys}, next xs = some (r, ys) → ys.length < xs.length

variable {next : List β → Option (ρ × List β)} {xs : List β}

theorem parseUpTo_congr (hnext : Consumes next) {n m : ℕ} (hn : xs.length < n)
    (hm : xs.length < m) : parseUpTo next n xs = parseUpTo next m xs := by
  induction n generalizing m xs with
  | zero => omega
  | succ n ih =>
    cases m with
    | zero => omega
    | succ =>
      simp only [parseUpTo]
      cases hxs : next xs with
      | none => rfl
      | some p =>
        obtain ⟨r, ys⟩ := p
        have hlt := hnext hxs
        simp only [cons.injEq, true_and]
        exact ih (by omega) (by omega)

theorem parse_of_none (h : next xs = none) : parse next xs = [] := by
  simp only [parse, parseUpTo, h]

theorem parse_of_some (hnext : Consumes next) {ys : List β} {r : ρ} (h : next xs = some (r, ys)) :
    parse next xs = r :: parse next ys := by
  have hlt := hnext h
  simp only [parse, parseUpTo, h, cons.injEq, true_and]
  exact parseUpTo_congr hnext hlt (Nat.lt_succ_self _)

theorem forall_mem_parse {P : ρ → Prop} (hP : ∀ {xs r ys}, next xs = some (r, ys) → P r) {r : ρ}
    (hr : r ∈ parse next xs) : P r := by
  rw [parse] at hr
  generalize xs.length + 1 = n at hr
  induction n generalizing xs with
  | zero => cases hr
  | succ n ih =>
    simp only [parseUpTo] at hr
    cases hxs : next xs with
    | none =>
      rw [hxs] at hr
      cases hr
    | some p =>
      obtain ⟨r', ys⟩ := p
      rw [hxs] at hr
      rcases mem_cons.mp hr with rfl | hr
      · exact hP hxs
      · exact ih hr

variable {enc : ρ → List β}

/-- A stream begins with the frames that are read from it. -/
theorem exists_parse_append (henc : ∀ {xs r ys}, next xs = some (r, ys) → xs = enc r ++ ys)
    (xs : List β) : ∃ tail, xs = (parse next xs).flatMap enc ++ tail := by
  rw [parse]
  generalize xs.length + 1 = n
  induction n generalizing xs with
  | zero => exact ⟨xs, rfl⟩
  | succ n ih =>
    simp only [parseUpTo]
    cases hxs : next xs with
    | none => exact ⟨xs, rfl⟩
    | some p =>
      obtain ⟨r, ys⟩ := p
      obtain ⟨tail, htail⟩ := ih ys
      refine ⟨tail, ?_⟩
      simp only [flatMap_cons, append_assoc]
      rw [← htail]
      exact henc hxs

theorem parse_flatMap_append (hnext : Consumes next) {rs : List ρ}
    (henc : ∀ r ∈ rs, ∀ xs, next (enc r ++ xs) = some (r, xs)) (xs : List β) :
    parse next (rs.flatMap enc ++ xs) = rs ++ parse next xs := by
  induction rs with
  | nil => rfl
  | cons r rs ih =>
    have hhead := henc r (mem_cons_self) (rs.flatMap enc ++ xs)
    rw [flatMap_cons, append_assoc, parse_of_some hnext hhead,
      ih (fun r' hr' => henc r' (mem_cons_of_mem r hr')),
      cons_append]

end Fluxor.Support
