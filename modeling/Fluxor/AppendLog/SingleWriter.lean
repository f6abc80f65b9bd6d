import Fluxor.AppendLog.ReadOrder

/-!
# One writer and a directory that starts empty

A single writer appends records with increasing offsets and rotates whenever it
likes. The segments then hold their encodings, and whatever has left the write
buffer is read back. With `DurabilityMemory` the last records may still be in that
buffer; `Sync` writes it out.
-/

namespace Fluxor.AppendLog

open Fluxor.Support List Record

/-- What the writer does: `appendToDisk` and `Rotate`. -/
inductive WriterAction
  | append (r : Record)
  | rotate

variable (acts : List WriterAction)

def appended : List Record :=
  acts.filterMap fun
    | .append r => some r
    | .rotate => none

theorem appended_append (r : Record) : appended (acts ++ [.append r]) = appended acts ++ [r] := by
  simp [appended]

theorem appended_rotate : appended (acts ++ [.rotate]) = appended acts := by
  simp [appended]

namespace Disk

def act (cfg : FSStoreConfig) (d : Disk) : WriterAction → Disk
  | .append r => (d.appendToDisk cfg false r.offset r.data).2
  | .rotate => d.rotateLocked

/-- What the writer leaves on a disk that starts empty, with a store made by `NewFSStore`. -/
def written (cfg : FSStoreConfig) (acts : List WriterAction) : Disk :=
  acts.foldl (act cfg.withDefaults) (openOrRecover []).2

theorem written_append (cfg : FSStoreConfig) (acts : List WriterAction) (a : WriterAction) :
    written cfg (acts ++ [a]) = (written cfg acts).act cfg.withDefaults a := by
  rw [written, foldl_append]
  rfl

end Disk

def WithinLimit (cfg : FSStoreConfig) (rs : List Record) : Prop :=
  1 < rs.length → (rs.flatMap encode).length ≤ cfg.maxSegmentBytes

def segmentOf (seg : ℕ × List Record) : Segment := ⟨seg.1, seg.2.flatMap encode⟩

namespace Disk

/-- The disk holds the segments `old` and, in the active one and its buffer, the records `cur`. -/
structure Holds (cfg : FSStoreConfig) (d : Disk)
    (old : List (ℕ × List Record)) (cur : List Record) : Prop where
  layout : d.Layout (old.map segmentOf) (cur.flatMap encode)
  size : d.activeSize = (cur.flatMap encode).length
  fits : ∀ r ∈ old.flatMap Prod.snd ++ cur, r.Fits
  limits : ∀ seg ∈ old, WithinLimit cfg seg.2
  limit : WithinLimit cfg cur

variable {cfg : FSStoreConfig} {d : Disk} {old : List (ℕ × List Record)} {cur : List Record}

theorem holds_openOrRecover (cfg : FSStoreConfig) : (openOrRecover []).2.Holds cfg [] [] where
  layout := ⟨⟨[], rfl, rfl⟩, by simp, List.Pairwise.nil⟩
  size := rfl
  fits := by simp
  limits := by simp
  limit := by
    intro h
    cases h

section

variable (h : d.Holds cfg old cur)

include h

theorem Holds.flush : d.flush.Holds cfg old cur :=
  { h with layout := h.layout.flush }

theorem Holds.rotateLocked : d.rotateLocked.Holds cfg (old ++ [(d.activeID, cur)]) [] where
  layout := by
    rw [map_append]
    exact h.layout.rotateLocked
  size := rfl
  fits := by
    have hfits := h.fits
    simpa using hfits
  limits := by
    intro seg hseg
    rcases mem_append.mp hseg with hseg | hseg
    · exact h.limits seg hseg
    · rw [mem_singleton.mp hseg]
      exact h.limit
  limit := by
    intro hlen
    cases hlen

theorem Holds.put {r : Record} (hr : r.Fits) (hroom : cur = [] ∨ ¬d.full cfg r.data) :
    (d.put cfg r.offset r.data).Holds cfg old (cur ++ [r]) := by
  have htotal : (cur ++ [r]).flatMap encode = cur.flatMap encode ++ r.encode := by simp
  have hlength : ((cur ++ [r]).flatMap encode).length =
      d.activeSize + (12 + r.data.length) := by
    rw [htotal, length_append, length_encode, h.size]
  refine ⟨?_, ?_, ?_, h.limits, ?_⟩
  · rw [htotal]
    exact h.layout.put cfg r.offset r.data
  · rw [activeSize_put, hlength]
  · rw [← append_assoc]
    intro r' hr'
    rcases mem_append.mp hr' with hr' | hr'
    · exact h.fits r' hr'
    · rwa [mem_singleton.mp hr']
  · intro hmany
    rcases hroom with rfl | hroom
    · simp at hmany
    · rw [hlength]
      rw [full] at hroom
      push_cast
      omega

theorem Holds.append {r : Record} (hr : r.Fits) :
    ∃ old' cur', (d.act cfg (.append r)).Holds cfg old' cur' ∧
      old'.flatMap Prod.snd ++ cur' = old.flatMap Prod.snd ++ cur ++ [r] := by
  rw [act, appendToDisk_eq cfg d r.offset hr.size_lt]
  by_cases hfull : d.full cfg r.data
  · rw [if_pos hfull]
    exact ⟨_, _, h.rotateLocked.put hr (Or.inl rfl), by simp⟩
  · rw [if_neg hfull]
    exact ⟨_, _, h.put hr (Or.inr hfull), (append_assoc _ _ _).symm⟩

end

theorem holds_written (cfg : FSStoreConfig) {acts : List WriterAction}
    (hfits : ∀ r ∈ appended acts, r.Fits) :
    ∃ old cur, (written cfg acts).Holds cfg.withDefaults old cur ∧
      old.flatMap Prod.snd ++ cur = appended acts := by
  induction acts using reverseRecOn with
  | nil => exact ⟨[], [], holds_openOrRecover _, rfl⟩
  | append_singleton acts a ih =>
    rw [written_append]
    cases a with
    | append r =>
      rw [appended_append] at hfits ⊢
      obtain ⟨old, cur, h, hlog⟩ := ih fun r' hr' => hfits r' (mem_append_left _ hr')
      obtain ⟨old', cur', h', hlog'⟩ := h.append (hfits r (by simp))
      exact ⟨old', cur', h', by rw [hlog', hlog]⟩
    | rotate =>
      rw [appended_rotate] at hfits ⊢
      obtain ⟨old, cur, h, hlog⟩ := ih hfits
      exact ⟨_, _, h.rotateLocked, by rw [← hlog]; simp⟩

theorem Holds.listSegments_eq (h : d.Holds cfg old cur) (hbuf : d.activeBuf.buf = []) :
    listSegments d.dir = (old ++ [(d.activeID, cur)]).map segmentOf := by
  rw [listSegments_of_sorted h.layout.sorted_dir, h.layout.dir_eq hbuf, map_append]
  rfl

end Disk

/-- The largest offset in the segments, as `openOrRecover` computes it. -/
def scanSegments (dir : Dir) : ℕ :=
  (listSegments dir).foldl (fun m seg =>
      let off := scanSegmentMaxOffset seg.bytes
      if off > m then off else m) 0

/-- The segments of a directory are a faithful copy of `log`. -/
structure FaithfulCopy (cfg : FSStoreConfig) (dir : Dir) (log : List Record) : Prop where
  decoded : ∀ limit, log.length ≤ limit →
    readSegmentRange ((listSegments dir).flatMap Segment.bytes) 0 limit = log
  bounded : ∀ seg ∈ dir, 1 < (records seg.bytes).length → seg.bytes.length ≤ cfg.maxSegmentBytes
  scanned : scanSegments dir = (log.getLast?.map offset).getD 0
  paged : ∀ start limit, 0 < limit → read dir start limit =
    .ok ((log.filter (start ≤ offset ·)).take limit)

theorem maxOffset_of_increasing {log : List Record} (h : Increasing log) :
    maxOffset log = (log.getLast?.map offset).getD 0 := by
  rcases eq_nil_or_concat log with rfl | ⟨front, last, rfl⟩
  · rfl
  · rw [concat_eq_append] at h ⊢
    have hlast : maxOffset [last] = last.offset := by simp [maxOffset]
    have hle : maxOffset front ≤ last.offset := by
      apply max_le_of_forall_le
      intro offset hoffset
      obtain ⟨r, hr, rfl⟩ := mem_map.mp hoffset
      exact ((pairwise_append.mp h).2.2 r hr last (by simp)).le
    rw [maxOffset_append, hlast, max_eq_right hle, getLast?_concat]
    rfl

theorem records_segmentOf {seg : ℕ × List Record} (h : ∀ r ∈ seg.2, r.Fits) :
    records (segmentOf seg).bytes = seg.2 :=
  records_encode h

variable {cfg : FSStoreConfig}

theorem faithfulCopy_of_segments {dir : Dir} {segs : List (ℕ × List Record)}
    (hdir : dir = segs.map segmentOf) (hsorted : dir.Pairwise (·.id < ·.id))
    (hfits : ∀ r ∈ segs.flatMap Prod.snd, r.Fits) (hlimits : ∀ seg ∈ segs, WithinLimit cfg seg.2)
    (hlog : Increasing (segs.flatMap Prod.snd)) : FaithfulCopy cfg dir (segs.flatMap Prod.snd) := by
  have hlist := listSegments_of_sorted hsorted
  have hrecords : dir.map (fun seg => records seg.bytes) = segs.map Prod.snd := by
    rw [hdir, map_map]
    apply map_congr_left
    intro seg hseg
    exact records_segmentOf fun r hr => hfits r (mem_flatMap.mpr ⟨seg, hseg, hr⟩)
  have hbytes : dir.flatMap Segment.bytes = (segs.flatMap Prod.snd).flatMap encode := by
    rw [hdir, flatMap_map, flatMap_assoc]
    rfl
  refine ⟨?_, ?_, ?_, ?_⟩
  · intro limit hlimit
    rw [hlist, hbytes, readSegmentRange_eq, records_encode hfits]
    simp [take_of_length_le hlimit]
  · intro seg hseg hmany
    rw [hdir] at hseg
    obtain ⟨seg', hseg', rfl⟩ := mem_map.mp hseg
    rw [records_segmentOf fun r hr => hfits r (mem_flatMap.mpr ⟨seg', hseg', hr⟩)] at hmany
    exact hlimits seg' hseg' hmany
  · simp only [scanSegments]
    rw [hlist, foldl_maxOffset, Nat.zero_max, dirRecords, flatMap_def,
      hrecords, ← flatMap_def, maxOffset_of_increasing hlog]
  · intro start limit hpos
    rw [read_eq_take hpos, hlist, hrecords, collect_of_increasing]
    · rw [← flatMap_def]
    · rwa [← flatMap_def]
    · rw [← flatMap_def]
      exact fun r hr => (hfits r hr).offset_lt

theorem Disk.Holds.faithfulCopy {d : Disk} {old : List (ℕ × List Record)} {cur : List Record}
    (h : d.Holds cfg old cur) (hbuf : d.activeBuf.buf = [])
    (hlog : Increasing (old.flatMap Prod.snd ++ cur)) :
    FaithfulCopy cfg d.dir (old.flatMap Prod.snd ++ cur) := by
  have hsegs : (old ++ [(d.activeID, cur)]).flatMap Prod.snd = old.flatMap Prod.snd ++ cur := by
    simp
  have hsorted := h.layout.sorted_dir
  have hdir := h.listSegments_eq hbuf
  rw [listSegments_of_sorted hsorted] at hdir
  rw [← hsegs] at hlog ⊢
  refine faithfulCopy_of_segments hdir hsorted ?_ ?_ hlog
  · rw [hsegs]
    exact h.fits
  · intro seg hseg
    rcases mem_append.mp hseg with hseg | hseg
    · exact h.limits seg hseg
    · rw [mem_singleton.mp hseg]
      exact h.limit

theorem Disk.buf_written_of_fsync (hcfg : cfg.durability = .fsync) {acts : List WriterAction}
    (hfits : ∀ r ∈ appended acts, r.Fits) : (written cfg acts).activeBuf.buf = [] := by
  rcases eq_nil_or_concat acts with rfl | ⟨acts, a, rfl⟩
  · rfl
  · rw [concat_eq_append] at hfits ⊢
    rw [written_append]
    cases a with
    | append r =>
      rw [appended_append] at hfits
      have hfsync : cfg.withDefaults.durability = .fsync := hcfg
      rw [act, appendToDisk_eq cfg.withDefaults _ r.offset (hfits r (by simp)).size_lt]
      simp only [put, hfsync, if_true]
      rfl
    | rotate => rfl

theorem FaithfulCopy.of_withDefaults {dir : Dir} {log : List Record}
    (h : FaithfulCopy cfg.withDefaults dir log) (hpos : 0 < cfg.maxSegmentBytes) :
    FaithfulCopy cfg dir log := by
  have hlimit : cfg.withDefaults.maxSegmentBytes = cfg.maxSegmentBytes := if_neg (by omega)
  refine ⟨h.decoded, fun seg hseg hmany => ?_, h.scanned, h.paged⟩
  rw [← hlimit]
  exact h.bounded seg hseg hmany

/-- Whatever a single writer appends with increasing offsets, the segments are a
faithful copy of it: after a `Sync`, and with `DurabilityFsync` at any time. -/
theorem written_faithfulCopy {cfg : FSStoreConfig} (hpos : 0 < cfg.maxSegmentBytes)
    {acts : List WriterAction} (hfits : ∀ r ∈ appended acts, r.Fits)
    (hlog : Increasing (appended acts)) :
    FaithfulCopy cfg (Disk.written cfg acts).flush.dir (appended acts) ∧ (cfg.durability = .fsync →
        FaithfulCopy cfg (Disk.written cfg acts).dir (appended acts)) := by
  obtain ⟨old, cur, h, heq⟩ := Disk.holds_written cfg hfits
  rw [← heq] at hlog ⊢
  refine ⟨(h.flush.faithfulCopy rfl hlog).of_withDefaults hpos, ?_⟩
  intro hcfg
  exact (h.faithfulCopy (Disk.buf_written_of_fsync hcfg hfits) hlog).of_withDefaults hpos

/-- Of three records the limit of 30 bytes puts two into the first segment; and a
manual rotation. -/
theorem written_faithfulCopy_threeRecords :
    FaithfulCopy ⟨30, 0, .fsync⟩ (Disk.written ⟨30, 0, .fsync⟩
        [.append ⟨1, [7]⟩, .append ⟨2, [8]⟩, .rotate, .rotate, .append ⟨5, [9]⟩]).dir
      [⟨1, [7]⟩, ⟨2, [8]⟩, ⟨5, [9]⟩] :=
  (written_faithfulCopy (by decide) (by decide) (by decide)).2 rfl

/-- With `DurabilityMemory` the last record is in the buffer, and `Read` does not return it. -/
theorem written_unread_in_buffer :
    ¬∀ (cfg : FSStoreConfig) (acts : List WriterAction), 0 < cfg.maxSegmentBytes →
      (∀ r ∈ appended acts, r.Fits ∧ r.data ≠ []) →
      Increasing (appended acts) →
        FaithfulCopy cfg (Disk.written cfg acts).dir (appended acts) := by
  intro h
  have hcopy := h ⟨64, 0, .memory⟩ [.append ⟨1, [7]⟩] (by decide) (by decide) (by decide)
  have hread := hcopy.paged 1 1 (by decide)
  revert hread
  decide

end Fluxor.AppendLog
