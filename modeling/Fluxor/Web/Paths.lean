import Fluxor.Support.LittleEndian
import Mathlib.Logic.Function.Basic

/-!
# The patterns of the two routers

`matchPath` and `extractParams` of `pkg/web/router.go` and
`pkg/web/fast_router.go`. The loops go through the parts of pattern and path
together: no part of the path is left where the index is not below `len(pathParts)`.
-/

namespace Fluxor.Web

open Support List Function

def split (s : Bytes) : List Bytes := s.splitOn 47

def isParam (part : Bytes) : Bool := part.head? = some 58

def isWildcard (part : Bytes) : Bool := part.head? = some 42

abbrev Params := Bytes → Option Bytes

namespace Router

def matchParts (parts values : List Bytes) : Bool :=
  parts.length = values.length ∧
    (parts.zip values).all fun (part, value) => isParam part ∨ part = value

def extractLoop : List Bytes → List Bytes → Params → Params
  | part :: parts, value :: values, params => extractLoop parts values
    (if isParam part then update params (part.drop 1) (some value) else params)
  | _, _, params => params

def matchPath (pattern path : Bytes) : Bool := matchParts (split pattern) (split path)

def extractParams (pattern path : Bytes) : Params :=
  extractLoop (split pattern) (split path) fun _ => none

end Router

namespace FastRouter

def matchParts : List Bytes → List Bytes → Bool
  | part :: parts, values =>
    if isWildcard part then true
    else match values with
      | value :: values => (isParam part || part = value) && matchParts parts values
      | [] => false
  | [], values => values.isEmpty

def extractLoop : List Bytes → List Bytes → Params → Params
  | part :: parts, value :: values, params =>
    if isWildcard part then update params (part.drop 1) (some ([47].intercalate (value :: values)))
    else extractLoop parts values
      (if isParam part then update params (part.drop 1) (some value) else params)
  | _, _, params => params

def matchPath (pattern path : Bytes) : Bool := matchParts (split pattern) (split path)

def extractParams (pattern path : Bytes) (params : Params) : Params :=
  extractLoop (split pattern) (split path) params

end FastRouter

def names (parts : List Bytes) : List Bytes := (parts.filter isParam).map (·.drop 1)

def substitute (params : Params) (part : Bytes) : Bytes :=
  if isParam part then (params (part.drop 1)).getD part else part

open Router

variable {parts values : List Bytes} {params : Params}

section

variable (h : ∀ part ∈ parts, isWildcard part = false)

include h

theorem matchParts_eq : matchParts parts values = FastRouter.matchParts parts values := by
  induction parts generalizing values with
  | nil => cases values <;> rfl
  | cons part parts ih =>
    obtain ⟨hpart, h⟩ := forall_mem_cons.mp h
    cases values with
    | nil => simp [matchParts, FastRouter.matchParts, hpart]
    | cons value values =>
      rw [FastRouter.matchParts, hpart, ← ih h]
      simp [matchParts]
      grind

theorem extractLoop_eq :
    extractLoop parts values params = FastRouter.extractLoop parts values params := by
  fun_induction extractLoop parts values params with
  | case1 part parts value values params ih =>
    obtain ⟨hpart, h⟩ := forall_mem_cons.mp h
    rw [FastRouter.extractLoop, hpart, ih h]
    rfl
  | case2 => grind [FastRouter.extractLoop]

end

theorem extractLoop_of_notMem {name : Bytes} (h : name ∉ names parts) :
    extractLoop parts values params name = params name := by
  fun_induction extractLoop parts values params with
  | case1 part parts value values params ih => grind [names]
  | case2 => rfl

theorem map_substitute (hmatch : matchParts parts values = true) (hnames : (names parts).Nodup) :
    parts.map (substitute (extractLoop parts values params)) = values := by
  fun_induction extractLoop parts values params with
  | case1 part parts value values params ih =>
    have ⟨hpart, hmatch⟩ : (isParam part ∨ part = value) ∧ matchParts parts values := by
      grind [matchParts]
    cases hparam : isParam part <;> simp only [names, filter_cons, hparam] at hnames ih hpart ⊢
    · rw [map_cons, ih hmatch hnames, substitute, hparam]
      simpa using hpart
    · -- The rest has no parameter with the name of the first.
      obtain ⟨hnew, hnames⟩ := nodup_cons.mp hnames
      rw [map_cons, ih hmatch hnames, substitute, extractLoop_of_notMem hnew, hparam]
      simp
  | case2 parts values => cases parts <;> cases values <;> grind [matchParts]

/-- For a pattern without wildcards the two routers agree, and the bindings rebuild
the path. -/
theorem routers_agree (pattern path : Bytes)
    (hplain : ∀ part ∈ split pattern, isWildcard part = false) :
    matchPath pattern path = FastRouter.matchPath pattern path ∧
      (matchPath pattern path = true →
        extractParams pattern path = FastRouter.extractParams pattern path (fun _ => none) ∧
        ((names (split pattern)).Nodup → [47].intercalate ((split pattern).map
          (substitute (extractParams pattern path))) = path)) := by
  refine ⟨matchParts_eq hplain, fun hmatch => ⟨extractLoop_eq hplain, fun hnames => ?_⟩⟩
  rw [extractParams, map_substitute hmatch hnames, split, intercalate_splitOn]

/-- `/:/b` and `/a/b`, where the name is empty. -/
theorem routers_agree_empty :
    matchPath [47, 58, 47, 98] [47, 97, 47, 98] = true ∧
      [47].intercalate ((split [47, 58, 47, 98]).map (substitute
        (extractParams [47, 58, 47, 98] [47, 97, 47, 98]))) = [47, 97, 47, 98] :=
  ⟨by decide, ((routers_agree _ _ (by decide)).2 (by decide)).2 (by decide)⟩

end Fluxor.Web
