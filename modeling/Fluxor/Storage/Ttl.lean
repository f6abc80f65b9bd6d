import Fluxor.Support.GoInt
import Fluxor.Support.LittleEndian
import Fluxor.Support.Transition

/-!
# Values that expire

`TTLStorage` of `pkg/buckey_storage/ttl.go` over a storage that acts like a map.
A value with an expiry is stored behind a header of eight bytes, a value without
one as it is, and `Get` tells them apart by the length alone.
-/

namespace Fluxor.Storage

open Support Transition Function

/-- A `BlobStorage`, for keys that `ValidateKey` accepts. -/
abbrev Blobs (κ : Type*) := κ → Option Bytes

variable {κ : Type*} [DecidableEq κ]

namespace TTLStorage

/-- What `PutWithTTL` stores at the time `now`; times are in nanoseconds. -/
def encode (data : Bytes) (ttl now : ℤ) : Bytes :=
  if ttl ≤ 0 then data else putUint 8 ((now + ttl) % 2 ^ 64).toNat ++ data

def putWithTTL (s : Blobs κ) (key : κ) (data : Bytes) (ttl now : ℤ) : Blobs κ :=
  update s key (some (encode data ttl now))

/-- The value that `Get` returns, or `ErrNotFound`. -/
def decode (now : ℤ) (data : Bytes) : Option Bytes :=
  if data.length < 8 then some data
  else if int64 (getUint (data.take 8)) ≤ now then none
  else some (data.drop 8)

def get (s : Blobs κ) (key : κ) (now : ℤ) : Option Bytes × Blobs κ :=
  match s key with
  | none => (none, s)
  | some data =>
    match decode now data with
    | none => (none, update s key none)
    | some value => (some value, s)

inductive Call (κ : Type*)
  | putWithTTL (key : κ) (data : Bytes) (ttl now : ℤ)
  | get (key : κ) (now : ℤ)
  | delete (key : κ)

def step (s : Blobs κ) : Call κ → Option (Blobs κ)
  | .putWithTTL key data ttl now => some (putWithTTL s key data ttl now)
  | .get key now => some (get s key now).2
  | .delete key => some (update s key none)

/-- A call before `now` that does not write or delete the key. -/
def Leaves (key : κ) (now : ℤ) (_ : Blobs κ) : Call κ → Prop
  | .putWithTTL other .. | .delete other => key ≠ other
  | .get _ time => time ≤ now

/-- What can be read back: data without an expiry that is shorter than a
header, and data with an expiry that is an `int64`. -/
def ReadsBack (data : Bytes) (ttl start : ℤ) : Prop :=
  if ttl ≤ 0 then data.length < 8 else -2 ^ 63 ≤ start + ttl ∧ start + ttl < 2 ^ 63

variable {s t : Blobs κ} {key : κ} {data : Bytes} {ttl start now : ℤ} {calls : List (Call κ)}

theorem decode_encode (h : ReadsBack data ttl start) :
    decode now (encode data ttl start) =
      if ttl ≤ 0 ∨ now < start + ttl then some data else none := by
  rw [ReadsBack] at h
  rw [encode]
  split at h
  next httl => rw [if_pos httl, decode, if_pos h, if_pos (.inl httl)]
  next httl =>
    have hlen := length_putUint 8 ((start + ttl) % 2 ^ 64).toNat
    have hexpiry : int64 (getUint (putUint 8 ((start + ttl) % 2 ^ 64).toNat)) = start + ttl := by
      rw [getUint_putUint (by omega), Int.toNat_of_nonneg (by omega)]
      exact (Int.emod_bmod (start + ttl) (2 ^ 64)).trans (int64_eq_self h.1 h.2)
    rw [if_neg httl, decode, if_neg (by rw [List.length_append]; omega), List.take_left' hlen,
      List.drop_left' hlen, hexpiry]
    simp only [httl, false_or, ← not_lt, ite_not]

theorem get_cases (s : Blobs κ) (key other : κ) (time : ℤ) :
    (get s other time).2 key = s key ∨
      (get s other time).2 key = none ∧ ∃ data, s key = some data ∧ decode time data = none := by
  rw [get]
  split
  · exact .inl rfl
  next data hdata =>
    split
    next hexpired =>
      by_cases hkey : key = other
      · subst hkey
        exact .inr ⟨update_self .., data, hdata, hexpired⟩
      · exact .inl (update_of_ne hkey ..)
    · exact .inl rfl

/-- The key has kept its value, or a `Get` has found it expired. -/
theorem kept_of_run (hrun : Run step (Leaves key now) (putWithTTL s key data ttl start) calls t) :
    t key = some (encode data ttl start) ∨
      t key = none ∧ ∃ time ≤ now, decode time (encode data ttl start) = none := by
  refine hrun.invariant (I := fun t => t key = _ ∨ t key = none ∧ _) ?_ (.inl (update_self ..))
  intro t call t' h hleaves hstep
  cases call with
  | putWithTTL | delete =>
    cases hstep
    simpa only [putWithTTL, update_of_ne hleaves] using h
  | get other time =>
    cases hstep
    rcases get_cases t key other time with heq | ⟨hnone, value, hvalue, hexpired⟩
    · rwa [heq]
    · refine .inr ⟨hnone, ?_⟩
      rcases h with h | ⟨-, h⟩
      · cases h.symm.trans hvalue
        exact ⟨time, hleaves, hexpired⟩
      · exact h

/-- Other data is never returned while it should be: without an expiry it loses its first
eight bytes, and an expiry that wraps around has passed. -/
theorem decode_encode_ne (hback : ¬ReadsBack data ttl start) (hstart : -2 ^ 63 ≤ start)
    (hnow : start ≤ now) (hint : now < 2 ^ 63) (httl : ttl < 2 ^ 63) :
    (ttl ≤ 0 ∨ now < start + ttl) ∧ decode now (encode data ttl start) ≠ some data := by
  rw [ReadsBack] at hback
  split at hback
  next hle =>
    refine ⟨.inl hle, ?_⟩
    rw [encode, if_pos hle, decode, if_neg hback]
    split
    · exact (Option.some_ne_none data).symm
    · intro heq
      have hlength := congrArg List.length (Option.some.inj heq)
      rw [List.length_drop] at hlength
      omega
  next hpos =>
    have hexpiry : int64 (getUint (putUint 8 ((start + ttl) % 2 ^ 64).toNat)) =
        start + ttl - 2 ^ 64 := by
      rw [getUint_putUint (by omega), Int.toNat_of_nonneg (by omega), int64, Int.bmod_def]
      split <;> omega
    refine ⟨.inr (by omega), ?_⟩
    have hlen := length_putUint 8 ((start + ttl) % 2 ^ 64).toNat
    rw [encode, if_neg hpos, decode, if_neg (by rw [List.length_append]; omega),
      List.take_left' hlen, hexpiry, if_pos (by omega)]
    exact (Option.some_ne_none data).symm

theorem get_fst (t : Blobs κ) (key : κ) (now : ℤ) :
    (get t key now).1 = (t key).bind (decode now) := by
  rw [get]
  cases t key with
  | none => rfl
  | some value =>
    simp only [Option.bind_some]
    split
    next hnone => exact hnone.symm
    next hvalue => exact hvalue.symm

/-- `Get` returns what it should exactly if the data can be read back. Times and TTLs are
`int64`. -/
theorem get_putWithTTL_iff (hstart : -2 ^ 63 ≤ start) (hnow : start ≤ now) (hint : now < 2 ^ 63)
    (httl : ttl < 2 ^ 63)
    (hrun : Run step (Leaves key now) (putWithTTL s key data ttl start) calls t) :
    (get t key now).1 = (if ttl ≤ 0 ∨ now < start + ttl then some data else none) ↔
      ReadsBack data ttl start := by
  rw [get_fst]
  constructor
  · intro hget
    by_contra hback
    obtain ⟨hvalid, hne⟩ := decode_encode_ne hback hstart hnow hint httl
    rw [if_pos hvalid] at hget
    rcases kept_of_run hrun with h | ⟨h, -⟩
    · rw [h] at hget
      exact hne hget
    · rw [h] at hget
      cases hget
  · intro hback
    rcases kept_of_run hrun with h | ⟨h, time, htime, hexpired⟩
    · rw [h]
      exact decode_encode hback
    · rw [decode_encode hback, ite_eq_right_iff] at hexpired
      rw [h, if_neg]
      · rfl
      · rintro (hle | hlt)
        · cases hexpired (.inl hle)
        · cases hexpired (.inr (htime.trans_lt hlt))

theorem get_putWithTTL_byte : (get (putWithTTL (fun _ => none) () [7] 60 0) () 59).1 = some [7] :=
  (get_putWithTTL_iff (by decide) (by decide) (by decide) (by decide) (Run.nil _)).mpr
    (by rw [ReadsBack]; decide)

/-- Eight bytes without an expiry look like one that has passed. -/
theorem get_putWithTTL_zeros :
    (get (putWithTTL (fun _ => none) () (List.replicate 8 0) 0 0) () 0).1 = none := by
  decide

end TTLStorage

end Fluxor.Storage
