import Fluxor.AppendLog.Store

/-!
# Reading in offset order

`Append` takes its offset and enqueues its record in two steps, so two callers can
enqueue in the other order. `Read` relies on the order: at the end of a segment it
goes on behind the last offset it has seen.
-/

namespace Fluxor.AppendLog

open Fluxor.Support Fluxor.Transition Function List

/-! ## Sorted logs -/

def Increasing (rs : List Record) : Prop := rs.Pairwise (·.offset < ·.offset)

instance (rs : List Record) : Decidable (Increasing rs) :=
  inferInstanceAs (Decidable (rs.Pairwise (·.offset < ·.offset)))

/-- `Read` finds everything in segments whose offsets increase. -/
theorem collect_of_increasing {recss : List (List Record)} (start : ℕ)
    (h : Increasing recss.flatten) (hlt : ∀ r ∈ recss.flatten, r.offset < offsetBound) :
    collect start recss = recss.flatten.filter (start ≤ Record.offset ·) := by
  induction recss generalizing start with
  | nil => rfl
  | cons recs rest ih =>
    rw [flatten_cons] at h hlt
    obtain ⟨-, hrest, hcross⟩ := pairwise_append.mp h
    rw [collect, flatten_cons, filter_append, ih _ hrest fun r hr => hlt r (mem_append_right _ hr)]
    congr 1
    apply filter_congr
    intro r hr
    rw [decide_eq_decide, nextStart]
    split
    next last hlast =>
      have hmem := mem_of_getLast? hlast
      obtain ⟨hin, hstart⟩ := mem_filter.mp hmem
      have hless := hcross last hin r hr
      have hbound := hlt r (mem_append_right _ hr)
      have hle : start ≤ last.offset := by simpa using hstart
      rw [Nat.mod_eq_of_lt (by omega)]
      omega
    · rfl

namespace Disk

def Logs (d : Disk) (log : List Record) : Prop :=
  ∃ old cur, d.Stores old cur ∧ (old ++ [cur]).flatten = log

variable {d : Disk} {log : List Record}

theorem Logs.flush (h : d.Logs log) : d.flush.Logs log := by
  obtain ⟨old, cur, hstores, hlog⟩ := h
  exact ⟨old, cur, hstores.flush, hlog⟩

theorem Logs.rotateLocked (h : d.Logs log) : d.rotateLocked.Logs log := by
  obtain ⟨old, cur, hstores, hlog⟩ := h
  refine ⟨old ++ [cur], [], hstores.rotateLocked, ?_⟩
  rw [flatten_append, hlog]
  simp

theorem Logs.put (cfg : FSStoreConfig) (h : d.Logs log) {r : Record} (hr : r.Fits) :
    (d.put cfg r.offset r.data).Logs (log ++ [r]) := by
  obtain ⟨old, cur, hstores, hlog⟩ := h
  refine ⟨old, cur ++ [r], hstores.put cfg hr, ?_⟩
  rw [← hlog]
  simp

theorem Logs.appendToDisk (cfg : FSStoreConfig) (closed : Bool) (h : d.Logs log) {r : Record}
    (hr : r.offset < offsetBound) :
    (d.appendToDisk cfg closed r.offset r.data).2.Logs
      (if (d.appendToDisk cfg closed r.offset r.data).1 = none then
        log ++ [r] else log) := by
  rcases appendToDisk_cases cfg closed d r.offset r.data with
    ⟨herr, hdisk, -⟩ | ⟨herr, hsize, hdisk⟩
  · rwa [if_neg herr, hdisk]
  · rw [if_pos herr, hdisk]
    split
    · exact h.rotateLocked.put cfg ⟨hr, hsize⟩
    · exact h.put cfg ⟨hr, hsize⟩

/-- When nothing is buffered, `Read` returns the records of an increasing log
from `start` on. -/
theorem Logs.read_eq (h : d.Logs log) (hbuf : d.activeBuf.buf = []) (hlog : Increasing log)
    (hlt : ∀ r ∈ log, r.offset < offsetBound) (start : ℕ) {limit : ℕ} (hpos : 0 < limit)
    (hlimit : log.length ≤ limit) :
    read d.dir start limit = .ok (log.filter (start ≤ Record.offset ·)) := by
  obtain ⟨old, cur, hstores, rfl⟩ := h
  grind [Stores.records_listSegments, AppendLog.read_eq, collect_of_increasing]

end Disk

/-! ## Directories without a torn tail -/

/-- A directory that a store has left behind: numbered segments, the last one with
nothing but records, and increasing offsets from 1 on. -/
structure Intact (dir : Dir) : Prop where
  sorted : dir.Pairwise (·.id < ·.id)
  clean : ∀ last ∈ dir.getLast?, ∃ rs : List Record,
    (∀ r ∈ rs, r.Fits) ∧ last.bytes = rs.flatMap Record.encode
  increasing : Increasing (dirRecords dir)
  positive : ∀ r ∈ dirRecords dir, 1 ≤ r.offset
  room : maxOffset (dirRecords dir) + 1 < offsetBound

theorem Intact.logs {dir : Dir} (h : Intact dir) : (openOrRecover dir).2.Logs (dirRecords dir) := by
  rcases eq_nil_or_concat dir with rfl | ⟨front, last, rfl⟩
  · refine ⟨[], [], ⟨⟨[], ⟨⟨[], rfl, rfl⟩, by simp, List.Pairwise.nil⟩, rfl⟩, rfl, by simp⟩, rfl⟩
  · rw [concat_eq_append] at h ⊢
    obtain ⟨rs, hfits, hbytes⟩ := h.clean last (by simp)
    have hlayout := layout_openOrRecover h.sorted
    have hopen := openOrRecover_snd h.sorted
    rw [hbytes] at hlayout
    refine ⟨front.map (fun seg => records seg.bytes), rs, ⟨⟨front, hlayout, rfl⟩, ?_, hfits⟩, ?_⟩
    · rw [hopen, hbytes]
    grind [dirRecords, records_encode]

namespace Store

variable {ι : Type*}

/-! ## Enqueueing in order -/

def Before : Option Record → Option Record → Prop
  | some r, some r' => r.offset < r'.offset
  | _, _ => True

instance (x y : Option Record) : Decidable (Before x y) :=
  match x, y with
  | some r, some r' => inferInstanceAs (Decidable (r.offset < r'.offset))
  | some _, none => isTrue trivial
  | none, _ => isTrue trivial

/-- A record is enqueued only when no other caller holds a smaller offset, and the
offset counter does not wrap. -/
def EnqueuesInOrder (s : Store ι) : StoreAction ι → Prop
  | .takeOffset _ => s.nextOffset + 1 < offsetBound
  | .enqueue p => ∀ q, q ≠ p → Before (s.held p) (s.held q)
  | _ => True

instance [Fintype ι] [DecidableEq ι] (s : Store ι) (a : StoreAction ι) :
    Decidable (EnqueuesInOrder s a) := by
  delta EnqueuesInOrder
  cases a <;> infer_instance

/-- Every accepted record has gone to the files. -/
structure Flushed (s : Store ι) : Prop where
  drained : s.pending = []
  buffer : s.disk.activeBuf.buf = []

/-- With a large enough limit `Read` returns every stored record from `start` on,
once and in the order of the offsets. -/
def ReadsAll (s : Store ι) : Prop :=
  ∀ start limit, 0 < limit → s.stored.length ≤ limit →
    ∃ recs, read s.disk.dir start limit = .ok recs ∧ Increasing recs ∧
      ∀ r, r ∈ recs ↔ r ∈ s.stored ∧ start ≤ r.offset

/-- Offsets increase from the stored records through the pending ones to those that callers hold. -/
structure InOrder (s : Store ι) : Prop where
  logs : s.disk.Logs s.stored
  increasing : Increasing (s.stored ++ s.pending)
  positive : ∀ r ∈ s.stored ++ s.pending, 1 ≤ r.offset
  below : ∀ r ∈ s.stored ++ s.pending, r.offset < s.nextOffset
  held : ∀ p r, s.held p = some r → 1 ≤ r.offset ∧
    r.offset < s.nextOffset ∧ ∀ r' ∈ s.stored ++ s.pending, r'.offset < r.offset
  next_pos : 1 ≤ s.nextOffset
  next_lt : s.nextOffset < offsetBound

theorem inOrder_newFSStore (cfg : FSStoreConfig) {dir : Dir} (h : Intact dir) :
    InOrder (newFSStore cfg dir : Store ι) := by
  have hnext : (openOrRecover dir).1 = maxOffset (dirRecords dir) + 1 := by
    rw [openOrRecover_fst h.sorted, Nat.mod_eq_of_lt h.room]
  have hlog : (newFSStore cfg dir : Store ι).stored ++
      (newFSStore cfg dir : Store ι).pending = dirRecords dir :=
    append_nil _
  refine ⟨h.logs, ?_, ?_, ?_, ?_, ?_, ?_⟩
  · rw [hlog]
    exact h.increasing
  · rw [hlog]
    exact h.positive
  · rw [hlog]
    intro r hr
    change r.offset < (openOrRecover dir).1
    rw [hnext]
    exact Nat.lt_succ_of_le (le_maxOffset hr)
  · intro p r hp
    cases hp
  · change 1 ≤ (openOrRecover dir).1
    omega
  · change (openOrRecover dir).1 < offsetBound
    rw [hnext]
    exact h.room

variable {s t : Store ι}

theorem InOrder.of_sublist (hs : InOrder s) (hlogs : t.disk.Logs t.stored)
    (hsub : List.Sublist (t.stored ++ t.pending) (s.stored ++ s.pending))
    (hnext : t.nextOffset = s.nextOffset) (hheld : ∀ p, t.held p = s.held p ∨ t.held p = none) :
    InOrder t := by
  refine ⟨hlogs, hs.increasing.sublist hsub, ?_, ?_, ?_, ?_, ?_⟩
  · intro r hr
    exact hs.positive r (hsub.subset hr)
  · intro r hr
    rw [hnext]
    exact hs.below r (hsub.subset hr)
  · grind [held]
  · rw [hnext]
    exact hs.next_pos
  · rw [hnext]
    exact hs.next_lt

variable [DecidableEq ι]

theorem InOrder.take (hs : InOrder s) {p : ι} {data : Bytes}
    (hroom : s.nextOffset + 1 < offsetBound) (hdisk : t.disk = s.disk)
    (hpending : t.pending = s.pending) (hstored : t.stored = s.stored)
    (hnext : t.nextOffset = s.nextOffset + 1)
    (hheld : t.held = update s.held p (some ⟨s.nextOffset, data⟩)) : InOrder t := by
  refine ⟨?_, ?_, ?_, ?_, ?_, ?_, ?_⟩
  · rw [hstored, hdisk]
    exact hs.logs
  · rw [hstored, hpending]
    exact hs.increasing
  · rw [hstored, hpending]
    exact hs.positive
  · rw [hstored, hpending, hnext]
    intro r hr
    exact Nat.lt_succ_of_lt (hs.below r hr)
  · intro q r hq
    rw [hstored, hpending, hnext]
    rw [hheld] at hq
    grind [next_pos, below, held]
  · rw [hnext]
    exact Nat.succ_pos _
  · rwa [hnext]

theorem InOrder.push (hs : InOrder s) {p : ι} {r : Record} (hp : s.held p = some r)
    (hfirst : ∀ q, q ≠ p → Before (s.held p) (s.held q)) (hdisk : t.disk = s.disk)
    (hpending : t.pending = s.pending ++ [r]) (hstored : t.stored = s.stored)
    (hnext : t.nextOffset = s.nextOffset) (hheld : t.held = update s.held p none) :
    InOrder t := by
  obtain ⟨hpos, hlt, habove⟩ := hs.held p r hp
  have hlog : t.stored ++ t.pending = (s.stored ++ s.pending) ++ [r] := by
    rw [hstored, hpending, append_assoc]
  refine ⟨?_, ?_, ?_, ?_, ?_, ?_, ?_⟩
  · rw [hstored, hdisk]
    exact hs.logs
  · grind [Increasing, increasing]
  · grind [positive]
  · grind [below]
  · intro q r' hq
    rw [hheld] at hq
    by_cases hqp : q = p
    · rw [hqp, update_self] at hq
      cases hq
    · rw [update_of_ne hqp] at hq
      obtain ⟨hpos', hlt', habove'⟩ := hs.held q r' hq
      have hbefore := hfirst q hqp
      rw [hp, hq] at hbefore
      rw [hlog, hnext, forall_mem_append, forall_mem_singleton]
      exact ⟨hpos', hlt', habove', hbefore⟩
  · rw [hnext]
    exact hs.next_pos
  · rw [hnext]
    exact hs.next_lt

theorem inOrder_step {a : StoreAction ι} (hs : InOrder s) (hguard : EnqueuesInOrder s a)
    (h : s.step a = some t) : InOrder t := by
  cases logStep_of_step h with
  | quiet hdisk hpending hstored hnext hheld =>
    refine hs.of_sublist ?_ ?_ hnext hheld
    · rw [hstored]
      rcases hdisk with hdisk | hdisk | hdisk
      · rw [hdisk]
        exact hs.logs
      · rw [hdisk]
        exact hs.logs.flush
      · rw [hdisk]
        exact hs.logs.rotateLocked
    · rw [hstored, hpending]
  | take p data ha hstate hdisk hpending hstored hnext hheld =>
    subst ha
    have hroom : s.nextOffset + 1 < offsetBound := hguard
    rw [Nat.mod_eq_of_lt hroom] at hnext
    exact hs.take hroom hdisk hpending hstored hnext hheld
  | push p r ha hstate hdisk hpending hstored hnext hheld =>
    subst ha
    have hp : s.held p = some r := by simp only [Store.held, hstate]
    exact hs.push hp hguard hdisk hpending hstored hnext hheld
  | write r rest hpending hpending' hdisk hstored hnext hheld =>
    have hr : r ∈ s.stored ++ s.pending := by
      rw [hpending]
      simp
    refine hs.of_sublist ?_ ?_ hnext (fun p => Or.inl (by rw [hheld]))
    · rw [hstored, hdisk]
      exact hs.logs.appendToDisk s.cfg s.closed ((hs.below r hr).trans hs.next_lt)
    · rw [hstored, hpending', hpending]
      split
      · rw [append_assoc, singleton_append]
      · exact List.Sublist.append_left (sublist_cons_self r rest) _

omit [DecidableEq ι] in
theorem InOrder.read_eq (hs : InOrder s) (hbuf : s.disk.activeBuf.buf = []) (start : ℕ)
    {limit : ℕ} (hpos : 0 < limit) (hlimit : s.stored.length ≤ limit) :
    read s.disk.dir start limit = .ok (s.stored.filter (start ≤ Record.offset ·)) := by
  apply hs.logs.read_eq hbuf _ _ start hpos hlimit
  · exact (pairwise_append.mp hs.increasing).1
  · intro r hr
    exact (hs.below r (mem_append_left _ hr)).trans hs.next_lt

/-- If records are enqueued in the order of their offsets, then in every flushed
state `Read` returns all stored records from the requested offset on, once and in
order. -/
theorem read_of_enqueuesInOrder (cfg : FSStoreConfig) {dir : Dir} (hdir : Intact dir)
    {acts : List (StoreAction ι)} {s : Store ι}
    (hrun : Run step EnqueuesInOrder (newFSStore cfg dir) acts s) (hflushed : s.Flushed) :
    s.ReadsAll := by
  have hs := Run.invariant inOrder_step hrun (inOrder_newFSStore cfg hdir)
  intro start limit hpos hlimit
  refine ⟨_, hs.read_eq hflushed.buffer start hpos hlimit, ?_, ?_⟩
  · exact (pairwise_append.mp hs.increasing).1.filter _
  · intro r
    rw [mem_filter, decide_eq_true_eq]

def twoOffsets : List (StoreAction (Fin 2)) :=
  [.append 0 [7], .load 0, .swap 0, .append 1 [8], .load 1, .swap 1, .takeOffset 0, .takeOffset 1]

def writeOne : List (StoreAction (Fin 2)) := [.receive, .persist, .release]

theorem intact_nil : Intact [] :=
  ⟨List.Pairwise.nil, by simp, List.Pairwise.nil, by simp [dirRecords], by decide⟩

theorem read_of_enqueuesInOrder_twoCallers :
    ∃ s : Store (Fin 2), s.stored = [⟨1, [7]⟩, ⟨2, [8]⟩] ∧ s.ReadsAll := by
  obtain ⟨s, hrun, hpending, hbuf, hstored⟩ :=
    exists_run step EnqueuesInOrder (newFSStore ⟨0, 0, .memory⟩ [] : Store (Fin 2))
      (flatten [twoOffsets, [.enqueue 0, .enqueue 1], writeOne, [.rotate], writeOne, [.sync]])
      (fun s => s.pending = [] ∧ s.disk.activeBuf.buf = [] ∧ s.stored = [⟨1, [7]⟩, ⟨2, [8]⟩])
      (by decide +kernel)
  exact ⟨s, hstored, read_of_enqueuesInOrder _ intact_nil hrun ⟨hpending, hbuf⟩⟩

/-- Offset 2 is enqueued first, and a rotation falls between the two records: `Read`
misses offset 1. -/
theorem read_misses_record : ∃ s, Run step anyStep (newFSStore ⟨0, 0, .memory⟩ [] : Store (Fin 2))
      (twoOffsets ++ [StoreAction.enqueue 1, StoreAction.enqueue 0] ++
        writeOne ++ [StoreAction.rotate] ++ writeOne ++ [StoreAction.sync]) s ∧
      s.Flushed ∧ read s.disk.dir 1 2 = .ok [⟨2, [8]⟩] ∧ ¬s.ReadsAll := by
  refine exists_run_of _
      (fun s => s.pending = [] ∧ s.disk.activeBuf.buf = [] ∧ s.stored = [⟨2, [8]⟩, ⟨1, [7]⟩] ∧
        read s.disk.dir 1 2 = .ok [⟨2, [8]⟩]) (by decide +kernel) ?_
  rintro s - ⟨hpending, hbuf, hstored, hread⟩
  refine ⟨⟨hpending, hbuf⟩, hread, ?_⟩
  intro h
  obtain ⟨recs, hrecs, -, hmem⟩ := h 1 2 (by decide) (by rw [hstored]; decide)
  rw [hread] at hrecs
  have hone := (hmem ⟨1, [7]⟩).mpr ⟨by rw [hstored]; decide, by decide⟩
  grind

end Store
end Fluxor.AppendLog
