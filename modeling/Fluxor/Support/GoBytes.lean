import Fluxor.Support.LittleEndian

/-!
# Byte strings with bounds checks

An index or a slice expression that is out of range makes a Go program panic,
as does the use of a pointer that is nil. A computation that may panic returns
`Except Fault`; it is safe if it returns a value.
-/

namespace Fluxor.Support

open List

inductive Fault
  | outOfRange | nilDereference

/-- The computation does not panic. -/
def Safe {α : Type} (x : Except Fault α) : Prop :=
  ∃ a, x = .ok a

instance {α : Type} (x : Except Fault α) : Decidable (Safe x) :=
  match x with
  | .ok a => isTrue ⟨a, rfl⟩
  | .error _ => isFalse fun h => h.elim fun _ h => (nomatch h)

def index (data : Bytes) (i : ℕ) : Except Fault UInt8 :=
  match data[i]? with
  | some b => .ok b
  | none => .error .outOfRange

def slice (data : Bytes) (lo hi : ℕ) : Except Fault Bytes :=
  if lo ≤ hi ∧ hi ≤ data.length then .ok ((data.drop lo).take (hi - lo))
  else .error .outOfRange

/-- Write the bytes over those from `lo` on: `copy(data[lo:lo+n], bytes)`. -/
def splice (data : Bytes) (lo : ℕ) (bytes : Bytes) : Except Fault Bytes :=
  if lo + bytes.length ≤ data.length then
    .ok (data.take lo ++ bytes ++ data.drop (lo + bytes.length))
  else .error .outOfRange

/-- The integer that the bytes stand for, most significant byte first. -/
def bigEndian (bytes : Bytes) : ℕ :=
  getUint bytes.reverse

/-- The `k` low bytes of `n`, most significant byte first. -/
def putBigEndian (k n : ℕ) : Bytes :=
  (putUint k n).reverse

section Safe

variable {α β : Type} {x : Except Fault α} {f : α → Except Fault β}
  {data bytes : Bytes} {i lo hi : ℕ}

theorem safe_pure (a : α) : Safe (pure a) :=
  ⟨a, rfl⟩

theorem safe_bind (hx : Safe x) (hf : ∀ a, x = .ok a → Safe (f a)) : Safe (x >>= f) := by
  obtain ⟨a, ha⟩ := hx
  rw [ha]
  exact hf a ha

theorem safe_map {g : α → β} : Safe (x.map g) ↔ Safe x := by
  cases x with
  | error | ok => simp [Safe, Except.map]

theorem bind_eq_ok {b : β} : (x >>= f) = .ok b ↔ ∃ a, x = .ok a ∧ f a = .ok b := by
  cases x with
  | error =>
    constructor
    · intro h
      cases h
    · rintro ⟨a, h, -⟩
      cases h
  | ok a =>
    constructor
    · intro h
      exact ⟨a, rfl, h⟩
    · rintro ⟨a', h, hf⟩
      cases h
      exact hf

theorem safe_index (h : i < data.length) : Safe (index data i) := by
  refine ⟨data[i], ?_⟩
  rw [index, getElem?_eq_getElem h]

theorem slice_eq_ok : slice data lo hi = .ok bytes ↔
    (lo ≤ hi ∧ hi ≤ data.length) ∧ bytes = (data.drop lo).take (hi - lo) := by
  rw [slice]
  split
  next h => simp [h, eq_comm]
  next h => simp [h]

theorem safe_slice (hle : lo ≤ hi) (hhi : hi ≤ data.length) : Safe (slice data lo hi) :=
  ⟨_, slice_eq_ok.mpr ⟨⟨hle, hhi⟩, rfl⟩⟩

theorem length_of_slice (h : slice data lo hi = .ok bytes) : bytes.length = hi - lo := by
  obtain ⟨⟨-, hhi⟩, rfl⟩ := slice_eq_ok.mp h
  rw [length_take, length_drop]
  omega

theorem safe_splice (h : lo + bytes.length ≤ data.length) : Safe (splice data lo bytes) := by
  rw [splice, if_pos h]
  exact ⟨_, rfl⟩

theorem length_of_splice {result : Bytes} (h : splice data lo bytes = .ok result) :
    result.length = data.length := by
  rw [splice] at h
  split at h
  · obtain rfl := Except.ok.inj h
    rw [length_append, length_append, length_take, length_drop]
    omega
  · cases h

end Safe

@[simp] theorem length_putBigEndian (k n : ℕ) : (putBigEndian k n).length = k := by
  rw [putBigEndian, length_reverse, length_putUint]

theorem bigEndian_putBigEndian {k n : ℕ} (h : n < 256 ^ k) : bigEndian (putBigEndian k n) = n := by
  rw [bigEndian, putBigEndian, reverse_reverse, getUint_putUint h]

theorem putBigEndian_bigEndian {k : ℕ} {b : Bytes} (h : b.length = k) :
    putBigEndian k (bigEndian b) = b := by
  rw [putBigEndian, bigEndian, ← h, ← length_reverse, putUint_getUint, reverse_reverse]

theorem bigEndian_lt {k : ℕ} {b : Bytes} (h : b.length = k) : bigEndian b < 256 ^ k := by
  simpa [bigEndian, h] using getUint_lt b.reverse

end Fluxor.Support
