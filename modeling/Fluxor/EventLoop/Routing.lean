import Fluxor.Support.GoString
import Mathlib.Tactic.NormNum

/-!
# Routing keys

`DefaultKeyExtractor`, `HashKey` and `RouteKey` of
`pkg/core/eventloop/key.go`, and the choice of a loop in
`Dispatcher.Dispatch`.
-/

namespace Fluxor.EventLoop

open Fluxor.Support

/-- An event as producers dispatch it. A nil body and a nil handler are
`none`. -/
structure Event (β η : Type*) where
  (key address : GoString)
  body : Option β
  headers : GoStringMap
  handler : Option η

abbrev KeyExtractor (β : Type*) :=
  GoStringMap → GoString → Option β → GoString

variable {β η : Type*}

/-- The header names `DefaultKeyExtractor` tries, most specific first. -/
def keyOrder : List GoString :=
  [lit "X-Route-Key", lit "X-Flox-ID", lit "X-User-ID", lit "X-Session-ID", lit "X-Request-ID"]

/-- The loop over `keyOrder`: the first header that is present and not
empty. -/
def firstHeader (headers : GoStringMap) : List GoString → GoString
  | [] => []
  | name :: names =>
    match headers.lookup name with
    | some val => if val ≠ [] then val else firstHeader headers names
    | none => firstHeader headers names

def defaultKeyExtractor : KeyExtractor β := fun headers _ _ =>
  if headers = none then [] else firstHeader headers keyOrder

/-- `GetRoutingKey` of an envelope, with the header names that it tries. -/
def getRoutingKey (order : List GoString) (key : GoString) (headers : GoStringMap) : GoString :=
  if key ≠ [] then key else if headers = none then [] else firstHeader headers order

/-- `GetRoutingKey` of `core.Envelope`, which does not know `X-Flox-ID`. -/
def Envelope.getRoutingKey : GoString → GoStringMap → GoString :=
  EventLoop.getRoutingKey
    [lit "X-Route-Key", lit "X-User-ID", lit "X-Session-ID", lit "X-Request-ID"]

def EnvelopeData.getRoutingKey : GoString → GoStringMap → GoString :=
  EventLoop.getRoutingKey keyOrder

/-- `HashKey`: 32-bit FNV-1a of the bytes, and zero for the empty key. -/
def hashKey (key : GoString) : UInt32 :=
  if key = [] then 0
  else key.foldl (fun h b => (h ^^^ b.toUInt32) * 16777619) 2166136261

def maxInt32 : ℕ := 2 ^ 31 - 1

/-- `RouteKey`. `uint32(numLoops)` keeps the low 32 bits; when they are zero the
remainder panics. -/
def routeKey (key : GoString) (numLoops : ℤ) : Option ℕ :=
  if numLoops ≤ 0 then some 0
  else if key = [] then some 0
  else
    let divisor := (numLoops % 2 ^ 32).toNat
    if divisor = 0 then none
    else
      let modResult := (hashKey key).toNat % divisor
      if modResult > maxInt32 then some (maxInt32 % numLoops.toNat)
      else some modResult

def routingKey (extractor : KeyExtractor β) (event : Event β η) : GoString :=
  if event.key ≠ [] then event.key
  else extractor event.headers event.address event.body

def roundRobin (counter numLoops : ℕ) : ℕ :=
  let modResult := counter % numLoops
  if modResult > maxInt32 then maxInt32 % numLoops else modResult

/-- How `Dispatcher.Dispatch` picks a loop: it panics, there is no loop, or a loop
is chosen and the round-robin counter is as given. -/
inductive Choice
  | panicked | noLoops
  | loop (idx counter : ℕ)

/-- The locked round-robin section of `Dispatch`; the counter is a `uint64`. -/
def chooseRoundRobin (numLoops counter : ℕ) : Choice :=
  if numLoops ≤ 0 then .noLoops
  else .loop (roundRobin counter numLoops) ((counter + 1) % 2 ^ 64)

/-- The choice of a loop for the given key: by hash when the key is not empty
and the index exists, else round robin. -/
def chooseLoop (numLoops counter : ℕ) (key : GoString) : Choice :=
  if key ≠ [] then
    match routeKey key numLoops with
    | none => .panicked
    | some idx =>
      if idx < numLoops then .loop idx counter
      else chooseRoundRobin numLoops counter
  else chooseRoundRobin numLoops counter

theorem roundRobin_lt (counter : ℕ) {numLoops : ℕ} (h : 0 < numLoops) :
    roundRobin counter numLoops < numLoops := by
  simp only [roundRobin]
  split
  all_goals exact Nat.mod_lt _ h

variable {key : GoString} {n : ℕ}

/-- A non-empty key is routed to an existing loop exactly when the number of loops
is not a multiple of `2 ^ 32`. -/
theorem routeKey_lt_iff (hkey : key ≠ []) (hn : 0 < n) :
    (∃ idx, routeKey key n = some idx ∧ idx < n) ↔ n % 2 ^ 32 ≠ 0 := by
  have hpos : ¬((n : ℤ) ≤ 0) := by omega
  have hdiv : ((n : ℤ) % 2 ^ 32).toNat = n % 2 ^ 32 := by omega
  simp only [routeKey, if_neg hpos, if_neg hkey, hdiv, Int.toNat_natCast]
  by_cases hz : n % 2 ^ 32 = 0
  · rw [if_pos hz]
    constructor
    · rintro ⟨idx, h, -⟩
      cases h
    · intro h
      exact absurd hz h
  · rw [if_neg hz]
    have hmod : (hashKey key).toNat % (n % 2 ^ 32) < n :=
      Nat.lt_of_lt_of_le (Nat.mod_lt _ (Nat.pos_of_ne_zero hz)) (Nat.mod_le n _)
    constructor
    · intro _
      exact hz
    · intro _
      split
      · exact ⟨_, rfl, Nat.mod_lt _ hn⟩
      · exact ⟨_, rfl, hmod⟩

theorem routeKey_eq_none (hkey : key ≠ []) (hn : 0 < n) (hz : n % 2 ^ 32 = 0) :
    routeKey key n = none := by
  have hpos : ¬((n : ℤ) ≤ 0) := by omega
  have hdiv : ((n : ℤ) % 2 ^ 32).toNat = n % 2 ^ 32 := by omega
  simp only [routeKey, if_neg hpos, if_neg hkey, hdiv, if_pos hz]

/-- A chosen loop exists; for a non-empty key the key hashes to it. -/
theorem chooseLoop_loop {counter idx counter' : ℕ}
    (h : chooseLoop n counter key = .loop idx counter') :
    idx < n ∧ (key ≠ [] → n % 2 ^ 32 ≠ 0 → routeKey key n = some idx) := by
  have hround : chooseRoundRobin n counter = .loop idx counter' → idx < n := by
    intro h
    rw [chooseRoundRobin] at h
    split at h
    · cases h
    · cases h
      exact roundRobin_lt counter (by omega)
  rw [chooseLoop] at h
  split at h
  next hkey =>
    split at h
    · cases h
    next hroute =>
      split at h
      next hlt =>
        cases h
        exact ⟨hlt, fun _ _ => hroute⟩
      next hge =>
        refine ⟨hround h, fun _ hz => ?_⟩
        have hn : 0 < n := by omega
        obtain ⟨idx'', h1, h2⟩ := (routeKey_lt_iff hkey hn).mpr hz
        rw [hroute] at h1
        cases h1
        exact absurd h2 hge
  next hkey => exact ⟨hround h, fun hk => absurd hk hkey⟩

theorem chooseLoop_ne_panicked (hn : 0 < n) (hz : n % 2 ^ 32 ≠ 0) (counter : ℕ) (key : GoString) :
    chooseLoop n counter key ≠ .panicked := by
  have hround : chooseRoundRobin n counter ≠ .panicked := by
    rw [chooseRoundRobin]
    split <;> simp
  rw [chooseLoop]
  split
  next hkey =>
    obtain ⟨idx, h1, h2⟩ := (routeKey_lt_iff hkey hn).mpr hz
    simp [h1, h2]
  · exact hround

theorem firstHeader_cons (headers : GoStringMap) (name : GoString) (names : List GoString) :
    firstHeader headers (name :: names) = if (headers.lookup name).getD [] ≠ [] then
      (headers.lookup name).getD [] else firstHeader headers names := by
  rw [firstHeader]
  cases headers.lookup name <;> rfl

/-- Without an explicit key the three agree exactly where `X-Flox-ID` is not decisive. -/
theorem routingKeys_agree_iff (headers : GoStringMap) (address : GoString) (body : Option β) :
    (Envelope.getRoutingKey [] headers = EnvelopeData.getRoutingKey [] headers ∧
      EnvelopeData.getRoutingKey [] headers = defaultKeyExtractor headers address body) ↔
      (headers.lookup (lit "X-Route-Key")).getD [] ≠ [] ∨
      (headers.lookup (lit "X-Flox-ID")).getD [] = [] ∨
      (headers.lookup (lit "X-Flox-ID")).getD [] = firstHeader headers
        [lit "X-User-ID", lit "X-Session-ID", lit "X-Request-ID"] := by
  simp only [Envelope.getRoutingKey, EnvelopeData.getRoutingKey, defaultKeyExtractor,
    getRoutingKey, keyOrder, ne_eq, not_true_eq_false, if_false]
  cases headers with
  | none => simp [GoStringMap.lookup]
  | some values =>
    rw [if_neg (by simp), if_neg (by simp), firstHeader_cons _ (lit "X-Route-Key"),
      firstHeader_cons _ (lit "X-Route-Key"), firstHeader_cons _ (lit "X-Flox-ID")]
    by_cases hroute : (GoStringMap.lookup (some values) (lit "X-Route-Key")).getD [] = []
    · by_cases hflox : (GoStringMap.lookup (some values) (lit "X-Flox-ID")).getD [] = []
      · simp [hroute, hflox]
      · simp only [hroute, hflox, ne_eq, not_true_eq_false, if_false, not_false_eq_true, if_true,
          and_true, false_or]
        exact eq_comm
    · simp [hroute]

/-- Headers with `X-Flox-ID` alone, for which a `core.Envelope` has no key. -/
def floxHeaders : GoStringMap :=
  some fun name => if name = lit "X-Flox-ID" then some (lit "a") else none

theorem routingKeys_differ : Envelope.getRoutingKey [] floxHeaders = [] ∧
    EnvelopeData.getRoutingKey [] floxHeaders = lit "a" := by
  decide +kernel

end Fluxor.EventLoop
