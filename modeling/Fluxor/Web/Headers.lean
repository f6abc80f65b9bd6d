import Fluxor.Support.GoBytes

/-!
# The end of the headers

`is_complete_request` of `base/cpp_server/http_layer.cpp`. What a loop reads is a slice
of the buffer. The vector loop checks the offsets 0 to 12 of a window of 16 bytes and
goes on with the next window: it misses a terminator at the offsets 13 to 15.
-/

namespace Fluxor.Web.HTTPParser

open Support List

def terminator : Bytes := [13, 10, 13, 10]

/-- Look for the terminator at the first `n` positions. -/
def scan : ℕ → Bytes → Except Fault Bool
  | n + 1, buf => do
    if (← slice buf 0 4) = terminator then return true
    scan n (buf.drop 1)
  | 0, _ => return false

/-- While `need` bytes are left, `check` positions are looked at and the loop goes on
`step` bytes further; then the rest is looked at. -/
def scanLoop (need check step : ℕ) : ℕ → Bytes → Except Fault Bool
  | fuel + 1, buf =>
    if need ≤ buf.length then do
      if ← scan check (← slice buf 0 (check + 3)) then return true
      scanLoop need check step fuel (buf.drop step)
    else scan (buf.length - 3) buf
  | 0, _ => return false

def isCompleteRequestScalar (buf : Bytes) : Except Fault Bool :=
  if buf.length < 4 then return false else scanLoop 11 4 4 buf.length buf

def isCompleteRequestSimd (buf : Bytes) : Except Fault Bool :=
  if buf.length < 4 then return false else scanLoop 19 13 16 buf.length buf

def isCompleteRequest (simd : Bool) (buf : Bytes) : Except Fault Bool :=
  if buf.length < 4 then return false
  else if 16 ≤ buf.length ∧ simd then isCompleteRequestSimd buf
  else isCompleteRequestScalar buf

def At (buf : Bytes) (i : ℕ) : Prop := terminator <+: buf.drop i

/-- The position is looked at. The vector loop skips the last three offsets of a window,
and the bytes after its last window are left to the scalar loop. -/
def LookedAt (simd : Bool) (buf : Bytes) (i : ℕ) : Prop :=
  16 ≤ buf.length ∧ simd = true → i % 16 ≤ 12 ∨ 16 * ((buf.length - 3) / 16) ≤ i

/-- All reads are in range, and the answer is whether `P` holds. -/
def Tells (x : Except Fault Bool) (P : Prop) : Prop := ∃ r, x = .ok r ∧ (r = true ↔ P)

variable {b : Bytes} {i n : ℕ}

theorem At.le (h : At b i) : i + 4 ≤ b.length := by
  have hle : 4 ≤ (b.drop i).length := IsPrefix.length_le h
  rw [length_drop] at hle
  omega

theorem at_drop (k : ℕ) : At (b.drop k) i ↔ At b (i + k) := by
  rw [At, drop_drop, Nat.add_comm, At]

theorem at_take (h : i + 4 ≤ n) : At (b.take n) i ↔ At b i := by
  rw [At, At, drop_take]
  exact prefix_take_iff.trans (and_iff_left (Nat.le_sub_of_add_le' h))

theorem scan_tells (h : n = 0 ∨ n + 3 ≤ b.length) : Tells (scan n b) (∃ i < n, At b i) := by
  induction n generalizing b with
  | zero => exact ⟨false, rfl, by simp⟩
  | succ n ih =>
    have hslice : slice b 0 4 = .ok (b.take 4) := if_pos (by omega)
    have hzero : At b 0 ↔ b.take 4 = terminator := prefix_iff_eq_take.trans eq_comm
    rw [Nat.exists_lt_succ_left, hzero, scan, hslice]
    by_cases hat : b.take 4 = terminator
    · exact ⟨true, if_pos hat, by simp [hat]⟩
    · obtain ⟨r, hr, hiff⟩ := ih (b := b.drop 1) (by rw [length_drop]; omega)
      refine ⟨r, (if_neg hat).trans hr, ?_⟩
      simp only [hiff, at_drop, hat, false_or]

theorem tells_false (h : b.length < 4) {P : ℕ → Prop} :
    Tells (.ok false) (∃ i, At b i ∧ P i) := by
  refine ⟨false, rfl, iff_of_false Bool.false_ne_true ?_⟩
  rintro ⟨i, hat, -⟩
  have := hat.le
  omega

theorem scanLoop_tells (need check step : ℕ) {fuel : ℕ} (hcheck : check + 3 ≤ need)
    (hstep : 0 < step) (hneed : step ≤ need) (hfuel : b.length ≤ fuel) :
    Tells (scanLoop need check step fuel b) (∃ i, At b i ∧
      (i % step < check ∨ step * ((b.length + step - need) / step) ≤ i)) := by
  induction fuel generalizing b with
  | zero => exact tells_false (by omega)
  | succ fuel ih =>
    rw [scanLoop]
    split
    next hlong =>
      have hslice : slice b 0 (check + 3) = .ok (b.take (check + 3)) := if_pos (by omega)
      obtain ⟨r, hr, hiff⟩ := scan_tells (n := check) (b := b.take (check + 3))
        (.inr (by rw [length_take]; omega))
      have hdiv : (b.length + step - need) / step = (b.length - need) / step + 1 := by
        rw [← Nat.add_div_right _ hstep]
        congr 1
        omega
      rw [hslice, hdiv]
      change Tells (scan _ _ >>= _) _
      rw [hr]
      cases r with
      | true =>
        obtain ⟨i, hi, hat⟩ := hiff.mp rfl
        exact ⟨true, rfl, iff_of_true rfl
          ⟨i, (at_take (by omega)).mp hat, .inl ((Nat.mod_le ..).trans_lt hi)⟩⟩
      | false =>
        obtain ⟨r, hloop, hrest⟩ := ih (b := b.drop step) (by rw [length_drop]; omega)
        rw [length_drop, Nat.sub_add_cancel (by omega)] at hrest
        refine ⟨r, hloop, hrest.trans ⟨?_, ?_⟩⟩
        · rintro ⟨i, hat, h⟩
          refine ⟨i + step, (at_drop step).mp hat, ?_⟩
          rw [Nat.add_mod_right, Nat.mul_succ]
          omega
        · rintro ⟨i, hat, h⟩
          have hle : step ≤ i := by
            by_contra hlt
            rw [Nat.mod_eq_of_lt (by omega), Nat.mul_succ] at h
            have hi : i < check := by omega
            exact Bool.false_ne_true (hiff.mpr ⟨i, hi, (at_take (by omega)).mpr hat⟩)
          obtain ⟨j, rfl⟩ := Nat.exists_eq_add_of_le' hle
          refine ⟨j, (at_drop step).mpr hat, ?_⟩
          rw [Nat.add_mod_right, Nat.mul_succ] at h
          omega
    next hshort =>
      obtain ⟨r, hr, hiff⟩ := scan_tells (n := b.length - 3) (b := b) (by omega)
      refine ⟨r, hr, hiff.trans ⟨?_, ?_⟩⟩
      · rintro ⟨i, -, hat⟩
        refine ⟨i, hat, .inr ?_⟩
        rw [Nat.div_eq_of_lt (by omega)]
        exact Nat.zero_le i
      · rintro ⟨i, hat, -⟩
        have := hat.le
        exact ⟨i, by omega, hat⟩

theorem isCompleteRequest_tells (simd : Bool) (buf : Bytes) :
    Tells (isCompleteRequest simd buf) (∃ i, At buf i ∧ LookedAt simd buf i) := by
  simp only [LookedAt]
  rw [isCompleteRequest]
  split
  next hshort => exact tells_false hshort
  next hlong =>
    split
    next hsimd =>
      rw [isCompleteRequestSimd, if_neg hlong]
      have h := scanLoop_tells 19 13 16 (by omega) (by omega) (by omega) (le_refl buf.length)
      simpa [hsimd, Nat.lt_succ_iff] using h
    next hscalar =>
      rw [isCompleteRequestScalar, if_neg hlong]
      have h := scanLoop_tells 11 4 4 (by omega) (by omega) (by omega) (le_refl buf.length)
      simpa [hscalar, Nat.mod_lt] using h

/-- All reads are in range, and the answer is right exactly if there is no terminator or one
of them is looked at. -/
theorem isCompleteRequest_exact_iff (simd : Bool) (buf : Bytes) :
    Safe (isCompleteRequest simd buf) ∧ (Tells (isCompleteRequest simd buf) (∃ i, At buf i) ↔
      (¬∃ i, At buf i) ∨ ∃ i, At buf i ∧ LookedAt simd buf i) := by
  obtain ⟨r, hr, hiff⟩ := isCompleteRequest_tells simd buf
  refine ⟨⟨r, hr⟩, ?_, ?_⟩
  · rintro ⟨r', hr', hright⟩
    cases hr.symm.trans hr'
    by_cases hat : ∃ i, At buf i
    · exact .inr (hiff.mp (hright.mpr hat))
    · exact .inl hat
  · intro hfound
    refine ⟨r, hr, hiff.trans ⟨?_, ?_⟩⟩
    · rintro ⟨i, hat, -⟩
      exact ⟨i, hat⟩
    · intro hat
      exact hfound.resolve_left (not_not_intro hat)

/-- A terminator at offset 13 of a buffer of 19 bytes. -/
theorem isCompleteRequest_misses : ∃ buf, At buf 13 ∧ isCompleteRequest true buf = .ok false :=
  ⟨replicate 13 97 ++ terminator ++ [97, 97], ⟨[97, 97], rfl⟩, rfl⟩

end Fluxor.Web.HTTPParser
