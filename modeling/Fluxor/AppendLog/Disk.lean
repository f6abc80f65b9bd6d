import Fluxor.AppendLog.Segment
import Fluxor.Support.BufWriter

/-!
# Segment files on disk

The part of `fsStore` that its mutex protects: the directory, the active
segment and its buffer, with `openOrRecover`, `rotateLocked` and
`appendToDisk`; and `Read`, which goes through the files of the directory.
File operations succeed here.
-/

namespace Fluxor.AppendLog

open Fluxor.Support List Record

structure Segment where
  id : ℕ
  bytes : Bytes

/-- The segment files of a directory, in any order. -/
abbrev Dir := List Segment

variable (dir : Dir)

def listSegments : List Segment := dir.insertionSort fun a b => a.id ≤ b.id

/-- `os.OpenFile` with `O_CREATE`. -/
def openFile (id : ℕ) : Dir :=
  if dir.any (·.id = id) then dir else dir ++ [⟨id, []⟩]

def fileSize (id : ℕ) : ℕ :=
  match dir.find? (·.id = id) with
  | some seg => seg.bytes.length
  | none => 0

/-- A write to a file opened with `O_APPEND`. -/
def writeFile (id : ℕ) (p : Bytes) : Dir :=
  dir.map fun seg => if seg.id = id then { seg with bytes := seg.bytes ++ p } else seg

inductive Durability
  | memory | fsync
  deriving DecidableEq

structure FSStoreConfig where
  (maxSegmentBytes maxBufferedBytes : ℤ)
  durability : Durability

/-- The limits that `NewFSStore` puts in for those that are not positive. -/
def FSStoreConfig.withDefaults (cfg : FSStoreConfig) : FSStoreConfig :=
  { cfg with
    maxSegmentBytes :=
      if cfg.maxSegmentBytes ≤ 0 then 64 * 2 ^ 20 else cfg.maxSegmentBytes
    maxBufferedBytes :=
      if cfg.maxBufferedBytes ≤ 0 then 8 * 2 ^ 20 else cfg.maxBufferedBytes }

/-- The errors of the store. `tooLarge` wraps `ErrInvalidData`. -/
inductive StoreError
  | errClosed | errInvalidData | errBackpressure | errInvalidReadArg
  | tooLarge (size : ℕ)
  deriving DecidableEq

def bufferSize : ℕ := 256 * 2 ^ 10

structure Disk where
  dir : Dir
  activeID : ℕ
  activeBuf : BufWriter UInt8
  activeSize : ℕ

namespace Disk

variable (cfg : FSStoreConfig) (d : Disk)

def write (p : Bytes) : Disk :=
  let (out, buf) := d.activeBuf.write p
  { d with dir := writeFile d.dir d.activeID out, activeBuf := buf }

def flush : Disk :=
  let (out, buf) := d.activeBuf.flush
  { d with dir := writeFile d.dir d.activeID out, activeBuf := buf }

def rotateLocked : Disk :=
  let d := d.flush
  { dir := openFile d.dir (d.activeID + 1)
    activeID := d.activeID + 1
    activeBuf := .new bufferSize
    activeSize := 0 }

/-- The record does not fit into the active segment. -/
def full (data : Bytes) : Prop := d.activeSize + 12 + data.length > cfg.maxSegmentBytes

instance (data : Bytes) : Decidable (d.full cfg data) := inferInstanceAs (Decidable ((_ : ℤ) > _))

/-- `appendToDisk` after the rotation. -/
def put (offset : ℕ) (data : Bytes) : Disk :=
  let hdr := putUint 8 offset ++ putUint 4 data.length
  let d := (d.write hdr).write data
  let d := { d with activeSize := d.activeSize + (hdr.length + data.length) }
  let d := if d.activeBuf.buf.length > bufferSize then d.flush else d
  if cfg.durability = .fsync then d.flush else d

def appendToDisk (closed : Bool) (d : Disk)
    (offset : ℕ) (data : Bytes) : Option StoreError × Disk :=
  if sizeBound ≤ data.length then (some (.tooLarge data.length), d)
  else if closed then (some .errClosed, d)
  else
    let d := if d.full cfg data then d.rotateLocked else d
    (none, d.put cfg offset data)

end Disk

/-- `openOrRecover`: the next offset and the opened active segment. -/
def openOrRecover : ℕ × Disk :=
  let segments := listSegments dir
  let maxID := segments.foldl
    (fun m seg => if seg.id > m then seg.id else m) 0
  let maxOffset := segments.foldl
    (fun m seg =>
      let off := scanSegmentMaxOffset seg.bytes
      if off > m then off else m) 0
  let activeID := if maxID = 0 ∧ segments.length = 0 then 1 else maxID
  let dir := openFile dir activeID
  ((maxOffset + 1) % offsetBound,
    { dir := dir
      activeID := activeID
      activeBuf := .new bufferSize
      activeSize := fileSize dir activeID })

def nextStart (start : ℕ) (recs : List Record) : ℕ :=
  match recs.getLast? with
  | some r => (r.offset + 1) % offsetBound
  | none => start

def readSegments (limit : ℕ) : List Segment → ℕ → List Record → List Record
  | [], _, out => out
  | seg :: segs, start, out =>
    let recs := readSegmentRange seg.bytes start (limit - out.length)
    let out := out ++ recs
    if out.length ≥ limit then out
    else readSegments limit segs (nextStart start recs) out

def read (start limit : ℕ) : Except StoreError (List Record) :=
  if limit ≤ 0 then .error .errInvalidReadArg
  else .ok (readSegments limit (listSegments dir) start [])

/-! ## The layout of a directory -/

variable {dir : Dir}

theorem listSegments_of_sorted (h : dir.Pairwise (·.id < ·.id)) : listSegments dir = dir := by
  apply List.Pairwise.insertionSort_eq
  exact h.imp fun hlt => hlt.le

namespace Disk

/-- The active segment is the last one of the directory; its file and its buffer hold `total`. -/
structure Layout (d : Disk) (front : List Segment) (total : Bytes) : Prop where
  dir : ∃ file, d.dir = front ++ [⟨d.activeID, file⟩] ∧ file ++ d.activeBuf.buf = total
  below : ∀ seg ∈ front, seg.id < d.activeID
  sorted : front.Pairwise (·.id < ·.id)

theorem writeFile_last {front : List Segment} {id : ℕ} {file : Bytes}
    (h : ∀ seg ∈ front, seg.id < id) (p : Bytes) :
    writeFile (front ++ [⟨id, file⟩]) id p = front ++ [⟨id, file ++ p⟩] := by
  rw [writeFile, map_append]
  congr 1
  · conv_rhs => rw [← map_id front]
    apply map_congr_left
    intro seg hseg
    rw [if_neg (h seg hseg).ne]
    rfl
  · simp

theorem openFile_new {dir : Dir} {id : ℕ} (h : ∀ seg ∈ dir, seg.id < id) :
    openFile dir id = dir ++ [⟨id, []⟩] := by
  grind [openFile]

variable {d : Disk} {front : List Segment} {total : Bytes}

section

variable (h : d.Layout front total)

include h

theorem Layout.write (p : Bytes) : (d.write p).Layout front (total ++ p) := by
  obtain ⟨file, hdir, htotal⟩ := h.dir
  refine ⟨⟨file ++ (d.activeBuf.write p).1, ?_, ?_⟩, h.below, h.sorted⟩
  · grind [Disk.write, writeFile_last, below]
  grind [Disk.write, BufWriter.write_append]

theorem Layout.flush : d.flush.Layout front total := by
  obtain ⟨file, hdir, htotal⟩ := h.dir
  refine ⟨⟨total, ?_, ?_⟩, h.below, h.sorted⟩
  · grind [Disk.flush, BufWriter.flush, writeFile_last, below]
  · simp [Disk.flush, BufWriter.flush]

theorem Layout.dir_eq (hbuf : d.activeBuf.buf = []) : d.dir = front ++ [⟨d.activeID, total⟩] := by
  grind [dir]

theorem Layout.sorted_dir : d.dir.Pairwise (·.id < ·.id) := by
  grind [dir, sorted, below]

theorem Layout.rotateLocked : d.rotateLocked.Layout (front ++ [⟨d.activeID, total⟩]) [] := by
  have hdir := h.flush.dir_eq rfl
  have hbelow : ∀ seg ∈ front ++ [⟨d.activeID, total⟩],
      seg.id < d.activeID + 1 := by
    intro seg hseg
    rcases mem_append.mp hseg with hseg | hseg
    · exact Nat.lt_succ_of_lt (h.below seg hseg)
    grind
  have hsorted := h.flush.sorted_dir
  rw [hdir] at hsorted
  refine ⟨⟨[], ?_, rfl⟩, hbelow, hsorted⟩
  change openFile d.flush.dir (d.activeID + 1) = _
  rw [hdir]
  exact openFile_new hbelow

omit h in
@[simp] theorem activeSize_write (d : Disk) (p : Bytes) :
    (d.write p).activeSize = d.activeSize := rfl

omit h in
@[simp] theorem activeSize_flush (d : Disk) : d.flush.activeSize = d.activeSize := rfl

theorem Layout.setActiveSize (n : ℕ) : ({ d with activeSize := n } : Disk).Layout front total :=
  { h with }

end

theorem Layout.put (cfg : FSStoreConfig) (h : d.Layout front total) (offset : ℕ) (data : Bytes) :
    (d.put cfg offset data).Layout front (total ++ encode ⟨offset, data⟩) := by
  have hwrite := ((h.write (header ⟨offset, data⟩)).write data)
  rw [append_assoc] at hwrite
  simp only [Disk.put]
  split
  · split
    · exact (hwrite.setActiveSize _).flush.flush
    · exact (hwrite.setActiveSize _).flush
  · split
    · exact (hwrite.setActiveSize _).flush
    · exact hwrite.setActiveSize _

theorem activeSize_put (cfg : FSStoreConfig) (d : Disk) (offset : ℕ) (data : Bytes) :
    (d.put cfg offset data).activeSize = d.activeSize + (12 + data.length) := by
  simp only [Disk.put]
  split <;> split <;> simp

/-- The segments before the active one hold the records `old`, the active one just `cur`. -/
structure Stores (d : Disk) (old : List (List Record)) (cur : List Record) : Prop where
  layout : ∃ front, d.Layout front (cur.flatMap encode) ∧
    front.map (fun seg => records seg.bytes) = old
  size : d.activeSize = (cur.flatMap encode).length
  fits : ∀ r ∈ cur, r.Fits

variable {old : List (List Record)} {cur : List Record}

theorem Stores.flush (h : d.Stores old cur) : d.flush.Stores old cur := by
  obtain ⟨front, hlayout, hold⟩ := h.layout
  exact ⟨⟨front, hlayout.flush, hold⟩, h.size, h.fits⟩

theorem Stores.rotateLocked (h : d.Stores old cur) : d.rotateLocked.Stores (old ++ [cur]) [] := by
  obtain ⟨front, hlayout, hold⟩ := h.layout
  refine ⟨⟨_, hlayout.rotateLocked, ?_⟩, rfl, by simp⟩
  grind [records_encode, fits]

theorem Stores.put (cfg : FSStoreConfig) (h : d.Stores old cur) {offset : ℕ} {data : Bytes}
    (hfits : Record.Fits ⟨offset, data⟩) :
    (d.put cfg offset data).Stores old (cur ++ [⟨offset, data⟩]) := by
  obtain ⟨front, hlayout, hold⟩ := h.layout
  have htotal : (cur ++ [(⟨offset, data⟩ : Record)]).flatMap encode =
      cur.flatMap encode ++ encode ⟨offset, data⟩ := by
    simp
  refine ⟨⟨front, ?_, hold⟩, ?_, ?_⟩
  · rw [htotal]
    exact hlayout.put cfg offset data
  · grind [activeSize_put, size, length_encode]
  grind [fits]

theorem Stores.records_listSegments (h : d.Stores old cur) (hbuf : d.activeBuf.buf = []) :
    (listSegments d.dir).map (fun seg => records seg.bytes) = old ++ [cur] := by
  obtain ⟨front, hlayout, hold⟩ := h.layout
  rw [listSegments_of_sorted hlayout.sorted_dir, hlayout.dir_eq hbuf,
    map_append, hold, map_singleton, records_encode h.fits]

end Disk

theorem appendToDisk_eq (cfg : FSStoreConfig) (d : Disk) (offset : ℕ) {data : Bytes}
    (hdata : data.length < sizeBound) :
    d.appendToDisk cfg false offset data =
      (none, (if d.full cfg data then d.rotateLocked else d).put cfg offset data) := by
  grind [Disk.appendToDisk]

theorem appendToDisk_cases (cfg : FSStoreConfig) (closed : Bool) (d : Disk) (offset : ℕ)
    (data : Bytes) :
    ((d.appendToDisk cfg closed offset data).1 ≠ none ∧
      (d.appendToDisk cfg closed offset data).2 = d ∧
      (sizeBound ≤ data.length ∨ closed = true)) ∨
    ((d.appendToDisk cfg closed offset data).1 = none ∧ data.length < sizeBound ∧
      (d.appendToDisk cfg closed offset data).2 =
        (if d.full cfg data then d.rotateLocked else d).put cfg offset data) := by
  grind [Disk.appendToDisk]

/-! ## Opening -/

def dirRecords (dir : Dir) : List Record := dir.flatMap fun seg => records seg.bytes

theorem foldl_maxOffset (segs : List Segment) (m : ℕ) : segs.foldl (fun m seg =>
      if scanSegmentMaxOffset seg.bytes > m then
        scanSegmentMaxOffset seg.bytes else m) m =
      max m (maxOffset (dirRecords segs)) := by
  induction segs generalizing m with
  | nil => simp [dirRecords, maxOffset]
  | cons seg segs ih =>
    have hmax : (if scanSegmentMaxOffset seg.bytes > m then
        scanSegmentMaxOffset seg.bytes else m) =
        max m (maxOffset (records seg.bytes)) := by
      rw [← scanSegmentMaxOffset_eq]
      split <;> omega
    rw [foldl_cons, ih, hmax, max_assoc, ← maxOffset_append]
    rfl

theorem openOrRecover_fst (h : dir.Pairwise (·.id < ·.id)) :
    (openOrRecover dir).1 = (maxOffset (dirRecords dir) + 1) % offsetBound := by
  grind [openOrRecover, listSegments_of_sorted, foldl_maxOffset]

variable {front : List Segment} {last : Segment}

theorem foldl_maxID (m : ℕ) (hm : m ≤ last.id) (h : ∀ seg ∈ front, seg.id < last.id) :
    (front ++ [last]).foldl (fun m seg => if seg.id > m then seg.id else m) m = last.id := by
  induction front generalizing m with
  | nil => grind
  | cons =>
    rw [cons_append, foldl_cons]
    grind

theorem openOrRecover_snd (h : (front ++ [last]).Pairwise (·.id < ·.id)) :
    (openOrRecover (front ++ [last])).2 =
      { dir := front ++ [last]
        activeID := last.id
        activeBuf := .new bufferSize
        activeSize := last.bytes.length } := by
  obtain ⟨hfront, -, hcross⟩ := pairwise_append.mp h
  have hbelow : ∀ seg ∈ front, seg.id < last.id := fun seg hseg =>
    hcross seg hseg last (mem_singleton_self _)
  have hmaxID := foldl_maxID 0 (Nat.zero_le _) hbelow
  have hopen : openFile (front ++ [last]) last.id = front ++ [last] := by
    rw [openFile, if_pos]
    simp
  have hsize : fileSize (front ++ [last]) last.id = last.bytes.length := by
    have hfind : (front ++ [last]).find? (·.id = last.id) = some last := by
      rw [find?_append, find?_eq_none.mpr]
      · simp
      · intro seg hseg
        simpa using (hbelow seg hseg).ne
    rw [fileSize, hfind]
  simp only [openOrRecover, listSegments_of_sorted h, hmaxID,
    length_append, length_singleton, Nat.succ_ne_zero, and_false,
    if_false, hopen, hsize]

theorem layout_openOrRecover (h : (front ++ [last]).Pairwise (·.id < ·.id)) :
    (openOrRecover (front ++ [last])).2.Layout front last.bytes := by
  obtain ⟨hfront, -, hcross⟩ := pairwise_append.mp h
  rw [openOrRecover_snd h]
  refine ⟨⟨last.bytes, rfl, append_nil _⟩, ?_, hfront⟩
  intro seg hseg
  exact hcross seg hseg last (mem_singleton_self _)

/-! ## Reading -/

/-- What `Read` collects from segments that hold the given records. -/
def collect (start : ℕ) : List (List Record) → List Record
  | [] => []
  | recs :: rest =>
    let got := recs.filter (start ≤ offset ·)
    got ++ collect (nextStart start got) rest

theorem length_collect_le (start : ℕ) (recss : List (List Record)) :
    (collect start recss).length ≤ recss.flatten.length := by
  induction recss generalizing start with
  | nil => rfl
  | cons => grind [collect]

variable {limit start : ℕ}

theorem readSegments_eq_take {segs : List Segment} {out : List Record} (h : out.length ≤ limit) :
    readSegments limit segs start out =
      (out ++ collect start (segs.map fun seg => records seg.bytes)).take limit := by
  induction segs generalizing start out with
  | nil => rw [readSegments, map_nil, collect, append_nil, take_of_length_le h]
  | cons seg =>
    simp only [readSegments, readSegmentRange_eq, map_cons, collect]
    generalize (records seg.bytes).filter
      (start ≤ offset ·) = got
    by_cases hgot : limit - out.length ≤ got.length
    · have hlen : (got.take (limit - out.length)).length =
          limit - out.length := length_take_of_le hgot
      rw [if_pos (by rw [length_append, hlen]; omega), take_append, take_of_length_le h,
        take_append_of_le_length hgot]
    · have hall : got.take (limit - out.length) = got :=
        take_of_length_le (Nat.le_of_not_le hgot)
      grind

theorem read_eq_take (hpos : 0 < limit) : read dir start limit = .ok ((collect start
      ((listSegments dir).map fun seg => records seg.bytes)).take limit) := by
  grind [read, readSegments_eq_take]

theorem read_eq (hpos : 0 < limit)
    (h : ((listSegments dir).map fun seg => records seg.bytes).flatten.length ≤ limit) :
    read dir start limit = .ok (collect start
      ((listSegments dir).map fun seg => records seg.bytes)) := by
  rw [read_eq_take hpos, take_of_length_le ((length_collect_le _ _).trans h)]

end Fluxor.AppendLog
