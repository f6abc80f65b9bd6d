import Fluxor.Support.Framing
import Fluxor.Support.LittleEndian
import Mathlib.Data.List.MinMax

/-!
# Segment files

The record format of `pkg/appendlog/fs_store.go` and the two functions that go
through a segment file, `scanSegmentMaxOffset` and `readSegmentRange`. Both
stop quietly at a record that is not complete.
-/

namespace Fluxor.AppendLog

open Fluxor.Support List Option Nat

def offsetBound : ℕ := 2 ^ 64

def sizeBound : ℕ := 2 ^ 32

structure Record where
  offset : ℕ
  data : Bytes
  deriving DecidableEq

namespace Record

/-- The record can be written: its fields fit their places in the header. -/
structure Fits (r : Record) : Prop where
  offset_lt : r.offset < offsetBound
  size_lt : r.data.length < sizeBound

variable (r : Record)

instance : Decidable r.Fits :=
  decidable_of_iff (r.offset < offsetBound ∧ r.data.length < sizeBound)
    ⟨fun h => ⟨h.1, h.2⟩, fun h => ⟨h.offset_lt, h.size_lt⟩⟩

def header : Bytes := putUint 8 r.offset ++ putUint 4 r.data.length

def encode : Bytes := r.header ++ r.data

@[simp] theorem length_header : r.header.length = 12 := by
  simp [header]

@[simp] theorem length_encode : r.encode.length = 12 + r.data.length := by
  simp [encode]

end Record

/-- One round of the reading loops: the header, then as many bytes as it
announces. -/
def readRecord (bs : Bytes) : Option (Record × Bytes) :=
  if bs.length < 12 then none
  else
    let off := getUint (bs.take 8)
    let n := getUint ((bs.drop 8).take 4)
    let rest := bs.drop 12
    if rest.length < n then none
    else some (⟨off, rest.take n⟩, rest.drop n)

/-- The records of a segment file up to the first incomplete one. -/
def records (bs : Bytes) : List Record := parse readRecord bs

theorem consumes_readRecord : Consumes readRecord := by
  intro bs r rest h
  simp only [readRecord] at h
  split at h
  · cases h
  · split at h
    · cases h
    · simp only [some.injEq, Prod.mk.injEq] at h
      obtain ⟨-, rfl⟩ := h
      simp only [length_drop]
      omega

variable {r : Record}

open Record

theorem readRecord_encode (hr : r.Fits) (bs : Bytes) :
    readRecord (r.encode ++ bs) = some (r, bs) := by
  have hoff : getUint ((r.encode ++ bs).take 8) = r.offset := by
    have htake : (r.encode ++ bs).take 8 = putUint 8 r.offset := by
      rw [encode, header, append_assoc, append_assoc]
      exact take_left' (length_putUint 8 r.offset)
    rw [htake]
    exact getUint_putUint hr.offset_lt
  have hsize : getUint (((r.encode ++ bs).drop 8).take 4) =
      r.data.length := by
    have hdrop : (r.encode ++ bs).drop 8 = putUint 4 r.data.length ++ (r.data ++ bs) := by
      rw [encode, header, append_assoc, append_assoc]
      exact drop_left' (length_putUint 8 r.offset)
    rw [hdrop, take_left' (length_putUint 4 r.data.length)]
    exact getUint_putUint hr.size_lt
  have hrest : (r.encode ++ bs).drop 12 = r.data ++ bs := by
    rw [encode, append_assoc]
    exact drop_left' r.length_header
  have hlen : ¬(r.encode ++ bs).length < 12 := by
    rw [length_append, length_encode]
    omega
  simp only [readRecord, if_neg hlen, hoff, hsize, hrest]
  simp

variable {rs : List Record}

theorem records_encode_append (hrs : ∀ r ∈ rs, r.Fits) (bs : Bytes) :
    records (rs.flatMap encode ++ bs) = rs ++ records bs :=
  parse_flatMap_append consumes_readRecord (fun r hr xs => readRecord_encode (hrs r hr) xs) bs

theorem records_encode (hrs : ∀ r ∈ rs, r.Fits) : records (rs.flatMap encode) = rs := by
  have h := records_encode_append hrs []
  rwa [append_nil, show records [] = [] from rfl, append_nil] at h

variable {bs : Bytes}

theorem fits_of_readRecord {rest : Bytes} (h : readRecord bs = some (r, rest)) : r.Fits := by
  simp only [readRecord] at h
  split at h
  · cases h
  next hlen =>
    split at h
    · cases h
    next hn =>
      simp only [some.injEq, Prod.mk.injEq] at h
      obtain ⟨rfl, -⟩ := h
      constructor
      · have hlt := getUint_lt (bs.take 8)
        rwa [length_take, Nat.min_eq_left (by omega)] at hlt
      · have hlt := getUint_lt ((bs.drop 8).take 4)
        rw [length_take, length_drop, Nat.min_eq_left (by omega)] at hlt
        simp only [length_take]
        exact lt_of_le_of_lt (min_le_left _ _) hlt

theorem encode_of_readRecord {rest : Bytes} (h : readRecord bs = some (r, rest)) :
    bs = r.encode ++ rest := by
  simp only [readRecord] at h
  split at h
  · cases h
  next hlen =>
    split at h
    · cases h
    next hn =>
      simp only [some.injEq, Prod.mk.injEq] at h
      obtain ⟨rfl, rfl⟩ := h
      have hoff : putUint 8 (getUint (bs.take 8)) = bs.take 8 := by
        have hput := putUint_getUint (bs.take 8)
        rwa [length_take, Nat.min_eq_left (by omega)] at hput
      have hsize : putUint 4 (getUint ((bs.drop 8).take 4)) = (bs.drop 8).take 4 := by
        have hput := putUint_getUint ((bs.drop 8).take 4)
        rwa [length_take, length_drop, Nat.min_eq_left (by omega)] at hput
      simp only [encode, header, length_take,
        min_eq_left (not_lt.mp hn), hoff, hsize, append_assoc,
        take_append_drop]
      have hdrop : (bs.drop 8).drop 4 = bs.drop 12 := by rw [drop_drop]
      rw [← hdrop, take_append_drop, take_append_drop]

theorem readRecord_torn {t : Bytes} (hr : r.Fits) (ht : t <+: r.encode) (hne : t ≠ r.encode) :
    readRecord t = none := by
  cases h : readRecord t with
  | none => rfl
  | some p =>
    obtain ⟨r', rest⟩ := p
    obtain ⟨more, hmore⟩ := ht
    have heq := encode_of_readRecord h
    have hread := readRecord_encode hr []
    have hread' := readRecord_encode (fits_of_readRecord h) (rest ++ more)
    rw [append_nil, ← hmore, heq, append_assoc, hread'] at hread
    simp only [some.injEq, Prod.mk.injEq, append_eq_nil_iff] at hread
    obtain ⟨-, -, hnil⟩ := hread
    rw [hnil, append_nil] at hmore
    exact absurd hmore hne

theorem fits_of_mem_records (h : r ∈ records bs) : r.Fits := forall_mem_parse fits_of_readRecord h

theorem exists_of_mem_records (h : r ∈ records bs) :
    ∃ pre post : List Record, ∃ tail : Bytes, records bs = pre ++ r :: post ∧
      bs = pre.flatMap encode ++ (r.encode ++ tail) := by
  obtain ⟨tail, htail⟩ := exists_parse_append encode_of_readRecord bs
  obtain ⟨pre, post, hsplit⟩ := append_of_mem h
  refine ⟨pre, post, post.flatMap encode ++ tail, hsplit, ?_⟩
  change bs = (records bs).flatMap encode ++ tail at htail
  rw [hsplit] at htail
  rw [htail, flatMap_append, flatMap_cons]
  simp only [append_assoc]

def scanLoop : ℕ → Bytes → ℕ → ℕ
  | 0, _, m => m
  | fuel + 1, bs, m =>
    match readRecord bs with
    | none => m
    | some (r, rest) => scanLoop fuel rest (if r.offset > m then r.offset else m)

/-- Every round uses up a header, so the length of the file bounds the rounds. -/
def scanSegmentMaxOffset (bs : Bytes) : ℕ := scanLoop (bs.length + 1) bs 0

def readLoop (start limit : ℕ) : ℕ → Bytes → List Record → List Record
  | 0, _, out => out
  | fuel + 1, bs, out =>
    if out.length < limit then
      match readRecord bs with
      | none => out
      | some (r, rest) =>
        if r.offset < start then readLoop start limit fuel rest out
        else readLoop start limit fuel rest (out ++ [r])
    else out

def readSegmentRange (bs : Bytes) (start limit : ℕ) : List Record :=
  if limit ≤ 0 then [] else readLoop start limit (bs.length + 1) bs []

def maxOffset (rs : List Record) : ℕ := (rs.map Record.offset).foldr max 0

theorem maxOffset_append (rs rs' : List Record) :
    maxOffset (rs ++ rs') = max (maxOffset rs) (maxOffset rs') := by
  induction rs with
  | nil => simp [maxOffset]
  | cons r rs ih =>
    simp only [maxOffset] at ih
    simp only [maxOffset, cons_append, map_cons, foldr_cons, ih, max_assoc]

theorem le_maxOffset (h : r ∈ rs) : r.offset ≤ maxOffset rs :=
  le_max_of_le (mem_map_of_mem h) le_rfl

theorem maxOffset_lt (h : ∀ r ∈ rs, r.Fits) : maxOffset rs < offsetBound := by
  induction rs with
  | nil => exact Nat.two_pow_pos 64
  | cons r rs ih =>
    have hhead := (h r mem_cons_self).offset_lt
    have htail := ih fun r' hr' => h r' (mem_cons_of_mem r hr')
    exact max_lt hhead htail

theorem scanLoop_eq (fuel : ℕ) (bs : Bytes) (m : ℕ) :
    scanLoop fuel bs m = max m (maxOffset (parseUpTo readRecord fuel bs)) := by
  induction fuel generalizing bs m with
  | zero => simp [scanLoop, parseUpTo, maxOffset]
  | succ fuel ih =>
    simp only [scanLoop, parseUpTo]
    cases readRecord bs with
    | none => simp [maxOffset]
    | some p =>
      have hmax : (if p.1.offset > m then p.1.offset else m) = max m p.1.offset := by
        split <;> omega
      simp only [ih, hmax, max_assoc]
      rfl

theorem scanSegmentMaxOffset_eq (bs : Bytes) :
    scanSegmentMaxOffset bs = maxOffset (records bs) := by
  rw [scanSegmentMaxOffset, scanLoop_eq, zero_max]
  rfl

theorem readLoop_eq (start limit fuel : ℕ) (bs : Bytes) (out : List Record)
    (hout : out.length ≤ limit) :
    readLoop start limit fuel bs out = (out ++ (parseUpTo readRecord fuel bs).filter
        (start ≤ offset ·)).take limit := by
  induction fuel generalizing bs out with
  | zero => simp [readLoop, parseUpTo, take_of_length_le hout]
  | succ fuel ih =>
    simp only [readLoop, parseUpTo]
    split
    next hlt =>
      cases readRecord bs with
      | none => simp [take_of_length_le hout]
      | some =>
        simp only
        split
        next hskip => rw [ih _ _ hout, filter_cons_of_neg (by simpa using hskip)]
        next hkeep =>
          rw [ih _ _ (by simpa using hlt), filter_cons_of_pos (by simpa using hkeep),
            append_assoc, singleton_append]
    next hfull =>
      have hlen : out.length = limit := by omega
      rw [← hlen, take_left]

/-- The reader returns the first `limit` complete records from `start` on. -/
theorem readSegmentRange_eq (bs : Bytes) (start limit : ℕ) : readSegmentRange bs start limit =
      ((records bs).filter (start ≤ offset ·)).take limit := by
  rw [readSegmentRange]
  split
  next hlimit => rw [le_zero.mp hlimit, take_zero]
  · rw [readLoop_eq _ _ _ _ _ (zero_le _), nil_append]
    rfl

end Fluxor.AppendLog
