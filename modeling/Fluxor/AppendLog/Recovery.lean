import Fluxor.AppendLog.Disk

/-!
# Recovery after a torn tail

A crash in the middle of a write leaves the beginning of a record at the end of the
last segment. `openOrRecover` does not cut this torn tail off, so the next record
that goes into the file is written behind it and is not read back.
-/

namespace Fluxor.AppendLog

open Fluxor.Support List Record Nat Disk

/-! ## What a reader can see -/

/-- Every segment starts at or after the offset at which `Read` arrives
there. -/
def Chained (start : ℕ) : List (List Record) → Prop
  | [] => True
  | recs :: rest => (∀ r ∈ recs, start ≤ r.offset) ∧ Chained (nextStart start recs) rest

section

variable (start : ℕ) (recss : List (List Record))

include start recss

theorem collect_sublist : List.Sublist (collect start recss) recss.flatten := by
  induction recss generalizing start with
  | nil => exact List.Sublist.refl _
  | cons recs rest ih =>
    rw [collect, flatten_cons]
    exact filter_sublist.append (ih _)

/-- `Read` returns everything exactly when the segments are chained. -/
theorem collect_eq_flatten_iff : collect start recss = recss.flatten ↔ Chained start recss := by
  induction recss generalizing start with
  | nil => simp [collect, Chained]
  | cons recs rest ih =>
    simp only [collect, flatten_cons, Chained]
    constructor
    · intro h
      have hle := length_filter_le (start ≤ offset ·) recs
      have hrest := (collect_sublist (nextStart start
        (recs.filter (start ≤ offset ·))) rest).length_le
      have hlen := congrArg length h
      simp only [length_append] at hlen
      have hfilter : recs.filter (start ≤ offset ·) = recs := by
        apply filter_eq_self.mpr
        apply length_filter_eq_length_iff.mp
        omega
      rw [hfilter] at h
      refine ⟨?_, (ih _).mp (append_cancel_left h)⟩
      grind
    · rintro ⟨hall, hchained⟩
      have hfilter : recs.filter (start ≤ offset ·) = recs :=
        filter_eq_self.mpr fun r hr => by simpa using hall r hr
      rw [hfilter, (ih _).mpr hchained]

theorem chained_concat (recs : List Record) :
    Chained start (recss ++ [recs]) ↔ Chained start recss ∧
      ∀ r ∈ recs, recss.foldl nextStart start ≤ r.offset := by
  induction recss generalizing start with
  | nil => simp [Chained]
  | cons => grind [Chained]

end

variable {start : ℕ}

theorem nextStart_le {bound : ℕ} {recs : List Record} (hstart : start ≤ bound)
    (h : ∀ r ∈ recs, r.offset < bound) : nextStart start recs ≤ bound := by
  rw [nextStart]
  split
  next r hlast =>
    have hr := h r (mem_of_getLast? hlast)
    exact (mod_le _ _).trans hr
  · exact hstart

variable {recss : List (List Record)}

theorem foldl_nextStart_le {bound : ℕ} (hstart : start ≤ bound)
    (h : ∀ r ∈ recss.flatten, r.offset < bound) : recss.foldl nextStart start ≤ bound := by
  induction recss generalizing start with
  | nil => exact hstart
  | cons => grind [nextStart_le]

variable {old : List (List Record)} {r : Record}

theorem Chained.snoc {cur : List Record} (h : Chained start (old ++ [cur]))
    (hstart : start ≤ r.offset) (hbelow : ∀ r' ∈ (old ++ [cur]).flatten, r'.offset < r.offset) :
    Chained start (old ++ [cur ++ [r]]) := by
  grind [chained_concat, foldl_nextStart_le]

theorem Chained.snoc_new (h : Chained start recss) (hstart : start ≤ r.offset)
    (hbelow : ∀ r' ∈ recss.flatten, r'.offset < r.offset) : Chained start (recss ++ [[r]]) := by
  grind [chained_concat, foldl_nextStart_le]

/-! ## Appending in offset order -/

/-- The disk holds the records `log`, and a reader can see all of them. -/
def Disk.HoldsLog (d : Disk) (log : List Record) : Prop :=
  ∃ old cur, d.Stores old cur ∧ Chained 1 (old ++ [cur]) ∧ (old ++ [cur]).flatten = log

variable {d : Disk} {data : Bytes}

theorem Disk.Stores.holdsLog_put_new (cfg : FSStoreConfig) {offset : ℕ} (h : d.Stores old [])
    (hchained : Chained 1 old) (hpos : 1 ≤ offset) (hbelow : ∀ r ∈ old.flatten, r.offset < offset)
    (hfits : Record.Fits ⟨offset, data⟩) :
    (d.put cfg offset data).HoldsLog (old.flatten ++ [⟨offset, data⟩]) := by
  refine ⟨old, [⟨offset, data⟩], h.put cfg hfits, ?_, by simp⟩
  grind [Chained.snoc_new]

variable {log : List Record}

theorem Disk.HoldsLog.append (cfg : FSStoreConfig) {offset : ℕ} (h : d.HoldsLog log)
    (hpos : 1 ≤ offset) (hbelow : ∀ r ∈ log, r.offset < offset)
    (hfits : Record.Fits ⟨offset, data⟩) :
    (d.appendToDisk cfg false offset data).2.HoldsLog (log ++ [⟨offset, data⟩]) := by
  obtain ⟨old, cur, hstores, hchained, rfl⟩ := h
  rw [appendToDisk_eq cfg d offset hfits.size_lt]
  simp only
  split
  · grind [Stores.holdsLog_put_new, Stores.rotateLocked]
  · refine ⟨old, cur ++ [⟨offset, data⟩], hstores.put cfg hfits, ?_, by simp⟩
    grind [Chained.snoc]

/-- The requests `news` reach `appendToDisk` with the offsets from `next` on, in a store
that `NewFSStore` has made with `cfg`. -/
def persist (cfg : FSStoreConfig) : ℕ × Disk → List Bytes → ℕ × Disk
  | s, [] => s
  | s, data :: news =>
    persist cfg ((s.1 + 1) % offsetBound, (s.2.appendToDisk cfg.withDefaults false s.1 data).2) news

def assigned : ℕ → List Bytes → List Record
  | _, [] => []
  | next, data :: news => ⟨next, data⟩ :: assigned ((next + 1) % offsetBound) news

/-- The offsets from `next` on are free and enough for `news`. -/
def Room (next : ℕ) (log : List Record) (news : List Bytes) : Prop :=
  news ≠ [] → 1 ≤ next ∧ next + news.length ≤ offsetBound ∧ ∀ r ∈ log, r.offset < next

variable {next : ℕ} {news : List Bytes}

theorem Room.cons (h : Room next log (data :: news)) :
    Room ((next + 1) % offsetBound) (log ++ [⟨next, data⟩]) news := by
  intro hne
  obtain ⟨hpos, hroom, hbelow⟩ := h (cons_ne_nil _ _)
  have hlen : 0 < news.length := length_pos_of_ne_nil hne
  rw [length_cons] at hroom
  rw [mod_eq_of_lt (by omega)]
  grind

theorem Room.fits (h : Room next log (data :: news)) (hdata : data.length < sizeBound) :
    Record.Fits ⟨next, data⟩ := by
  obtain ⟨-, hroom, -⟩ := h (cons_ne_nil _ _)
  rw [length_cons] at hroom
  exact ⟨show next < offsetBound by omega, hdata⟩

/-- Records appended in offset order to a readable log can all be read. -/
theorem Disk.HoldsLog.persist (cfg : FSStoreConfig) {s : ℕ × Disk} (h : s.2.HoldsLog log)
    (hroom : Room s.1 log news) (hnews : ∀ data ∈ news, data.length < sizeBound) :
    (persist cfg s news).2.HoldsLog (log ++ assigned s.1 news) := by
  induction news generalizing s log with
  | nil => rwa [assigned, append_nil]
  | cons data news ih =>
    obtain ⟨hpos, -, hbelow⟩ := hroom (cons_ne_nil _ _)
    have hfits := hroom.fits (hnews data mem_cons_self)
    have hnext := ih
      (s := ((s.1 + 1) % offsetBound, (s.2.appendToDisk cfg.withDefaults false s.1 data).2))
      (h.append cfg.withDefaults hpos hbelow hfits) hroom.cons
      fun data' hdata' => hnews data' (mem_cons_of_mem _ hdata')
    rwa [append_assoc, singleton_append] at hnext

theorem nodup_append_assigned (hlog : (log.map offset).Nodup) (hroom : Room next log news) :
    ((log ++ assigned next news).map offset).Nodup := by
  induction news generalizing next log with
  | nil => rwa [assigned, append_nil]
  | cons data news ih =>
    obtain ⟨-, -, hbelow⟩ := hroom (cons_ne_nil _ _)
    have hsnoc : ((log ++ [(⟨next, data⟩ : Record)]).map offset).Nodup := by grind
    have hnext := ih hsnoc hroom.cons
    rwa [append_assoc, singleton_append] at hnext

/-! ## Torn tails -/

/-- A strict beginning of a record. -/
def Torn (t : Bytes) : Prop := ∃ r : Record, r.Fits ∧ t <+: r.encode ∧ t ≠ r.encode

variable {t : Bytes}

theorem Torn.readRecord_eq (ht : Torn t) : readRecord t = none := by
  obtain ⟨r, hr, hprefix, hne⟩ := ht
  exact readRecord_torn hr hprefix hne

theorem Torn.records_append (ht : Torn t) {rs : List Record} (hrs : ∀ r ∈ rs, r.Fits) :
    records (rs.flatMap encode ++ t) = rs := by
  grind [records_encode_append, records, parse_of_none, readRecord_eq]

theorem Torn.not_encode_prefix (ht : Torn t) (hr : r.Fits) : ¬r.encode <+: t := by
  rintro ⟨more, hmore⟩
  grind [readRecord_encode, readRecord_eq]

theorem exists_byte_not_mem (bs : Bytes) (h : bs.length ≤ 12) : ∃ x, x ∉ bs := by
  by_contra hall
  have hmem : ∀ x, x ∈ bs := fun x => by
    by_contra hx
    exact hall ⟨x, hx⟩
  have hnodup : ((range 13).map UInt8.ofNat).Nodup := by decide
  have hle := (hnodup.subperm fun x _ => hmem x).length_le
  rw [length_map, length_range] at hle
  omega

/-- A record of one byte behind a torn tail is not read back, if the byte does not
occur in its header. -/
theorem Torn.not_mem_records (ht : Torn t) (hne : t ≠ []) {x : UInt8} (hdata : r.data = [x])
    (hx : x ∉ r.header) : r ∉ records (t ++ r.encode) := by
  intro hmem
  have hfits := fits_of_mem_records hmem
  obtain ⟨pre, post, tail, hrecords, heq⟩ := exists_of_mem_records hmem
  have hprefix : t <+: pre.flatMap encode ++ (r.encode ++ tail) := by
    rw [← heq]
    exact prefix_append _ _
  have hlen := congrArg length heq
  simp only [length_append] at hlen
  cases pre with
  | cons p =>
    have hp : p.Fits := fits_of_mem_records (by rw [hrecords]; simp)
    apply ht.not_encode_prefix hp
    refine prefix_of_prefix_length_le ?_ hprefix ?_
    · grind
    grind
  | nil =>
    rw [flatMap_nil, nil_append] at heq hprefix
    by_cases hlong : r.encode.length ≤ t.length
    · exact ht.not_encode_prefix hfits
        (prefix_of_prefix_length_le (prefix_append _ _) hprefix hlong)
    · have hencode : r.encode.length = 13 := by
        rw [length_encode, hdata]
        rfl
      have hpos : 0 < t.length := length_pos_of_ne_nil hne
      have hright : (r.encode ++ tail)[12]? = some x := by
        rw [getElem?_append_left (by omega), encode, hdata, getElem?_append_right (by simp)]
        simp
      have hleft : (t ++ r.encode)[12]? = r.header[12 - t.length]? := by
        rw [getElem?_append_right (by omega), encode,
          getElem?_append_left (by rw [length_header]; omega)]
      rw [heq, hright] at hleft
      exact hx (mem_of_getElem? hleft.symm)

/-! ## Recovery -/

/-- After the directory was opened and `news` was persisted, `Read` returns the
complete old records followed by the new ones with their offsets, and all
offsets are different. -/
structure Recovered (cfg : FSStoreConfig) (dir : Dir) (old : List Record)
    (news : List Bytes) : Prop where
  reads : ∀ limit, 0 < limit → (old ++ assigned (openOrRecover dir).1 news).length ≤ limit →
    read (persist cfg (openOrRecover dir) news).2.flush.dir 1 limit =
      .ok (old ++ assigned (openOrRecover dir).1 news)
  distinct : ((old ++ assigned (openOrRecover dir).1 news).map offset).Nodup

theorem Disk.Layout.read_eq {front : List Segment} {total : Bytes} (h : d.Layout front total)
    (start : ℕ) {limit : ℕ} (hpos : 0 < limit)
    (hlimit : (front.map (fun seg => records seg.bytes) ++
      [records total]).flatten.length ≤ limit) :
    read d.flush.dir start limit = .ok (collect start
      (front.map (fun seg => records seg.bytes) ++ [records total])) := by
  have hdir : (listSegments d.flush.dir).map (fun seg => records seg.bytes) =
      front.map (fun seg => records seg.bytes) ++ [records total] := by
    rw [listSegments_of_sorted h.flush.sorted_dir, h.flush.dir_eq rfl, map_append, map_singleton]
  grind [AppendLog.read_eq]

theorem Disk.HoldsLog.read_eq (h : d.HoldsLog log) {limit : ℕ} (hpos : 0 < limit)
    (hlimit : log.length ≤ limit) : read d.flush.dir 1 limit = .ok log := by
  obtain ⟨old, cur, hstores, hchained, rfl⟩ := h
  obtain ⟨front, hlayout, hold⟩ := hstores.layout
  have hread := hlayout.read_eq 1 hpos (by rw [hold, records_encode hstores.fits]; exact hlimit)
  rwa [hold, records_encode hstores.fits, (collect_eq_flatten_iff 1 _).mpr hchained] at hread

section

variable {cfg : FSStoreConfig} {front : List Segment} {id : ℕ} {olds : List Record} {t : Bytes}

def tornDir (front : List Segment) (id : ℕ) (olds : List Record) (t : Bytes) : Dir :=
  front ++ [⟨id, olds.flatMap encode ++ t⟩]

theorem flatten_records (front : List Segment) (olds : List Record) :
    (front.map (fun seg => records seg.bytes) ++ [olds]).flatten = dirRecords front ++ olds := by
  grind [dirRecords]

section

variable (hsorted : (tornDir front id olds t).Pairwise (·.id < ·.id))

include hsorted

theorem layout_tornDir :
    (openOrRecover (tornDir front id olds t)).2.Layout front (olds.flatMap encode ++ t) :=
  layout_openOrRecover hsorted

theorem activeSize_tornDir :
    (openOrRecover (tornDir front id olds t)).2.activeSize = (olds.flatMap encode ++ t).length := by
  rw [tornDir, openOrRecover_snd hsorted]

omit hsorted in
theorem dirRecords_tornDir (ht : Torn t) (holds : ∀ r ∈ olds, r.Fits) :
    dirRecords (tornDir front id olds t) = dirRecords front ++ olds := by
  grind [tornDir, dirRecords, Torn.records_append]

omit hsorted in
theorem fits_of_mem_old (front : List Segment) (holds : ∀ r ∈ olds, r.Fits) :
    ∀ r ∈ dirRecords front ++ olds, r.Fits := by
  intro r hr
  rcases mem_append.mp hr with hr | hr
  · obtain ⟨seg, -, hseg⟩ := mem_flatMap.mp hr
    exact fits_of_mem_records hseg
  · exact holds r hr

theorem recovered_nil_iff (ht : Torn t) (holds : ∀ r ∈ olds, r.Fits) :
    Recovered cfg (tornDir front id olds t) (dirRecords front ++ olds) [] ↔
      Chained 1 (front.map (fun seg => records seg.bytes) ++ [olds]) ∧
      ((dirRecords front ++ olds).map offset).Nodup := by
  have hlayout := layout_tornDir hsorted
  have hread : ∀ limit, 0 < limit → (dirRecords front ++ olds).length ≤ limit →
      read (openOrRecover (tornDir front id olds t)).2.flush.dir 1 limit = .ok (collect 1
          (front.map (fun seg => records seg.bytes) ++ [olds])) := by
    grind [Layout.read_eq, Torn.records_append, flatten_records]
  rw [← collect_eq_flatten_iff, flatten_records]
  constructor
  · intro h
    have hreads := h.reads ((dirRecords front ++ olds).length + 1)
      (succ_pos _) (by rw [assigned, append_nil]; omega)
    grind [Recovered.distinct, assigned, persist]
  · rintro ⟨hcollect, hdistinct⟩
    refine ⟨?_, by rwa [assigned, append_nil]⟩
    grind [assigned, persist]

end

variable {news : List Bytes}

theorem holdsLog_persist_full {data : Bytes} {s : ℕ × Disk} {total : Bytes}
    (hlayout : s.2.Layout front total)
    (hchained : Chained 1 (front.map (fun seg => records seg.bytes) ++ [records total]))
    (hfull : s.2.full cfg.withDefaults data)
    (hroom : Room s.1 (dirRecords front ++ records total) (data :: news))
    (hnews : ∀ data' ∈ data :: news, data'.length < sizeBound) :
    (persist cfg s (data :: news)).2.HoldsLog
      (dirRecords front ++ records total ++ assigned s.1 (data :: news)) := by
  obtain ⟨hpos, -, hbelow⟩ := hroom (cons_ne_nil _ _)
  have hdata := hnews data mem_cons_self
  have hrotated : s.2.rotateLocked.Stores
      (front.map (fun seg => records seg.bytes) ++ [records total]) [] := by
    refine ⟨⟨_, hlayout.rotateLocked, ?_⟩, rfl, by simp⟩
    rw [map_append, map_singleton]
  have hfirst := hrotated.holdsLog_put_new cfg.withDefaults hchained hpos
    (by rwa [flatten_records]) (hroom.fits hdata)
  rw [flatten_records] at hfirst
  have hall := HoldsLog.persist cfg
    (s := ((s.1 + 1) % offsetBound, s.2.rotateLocked.put cfg.withDefaults s.1 data))
    hfirst hroom.cons
    fun data' hdata' => hnews data' (mem_cons_of_mem _ hdata')
  grind [persist, appendToDisk_eq, assigned]

theorem room_openOrRecover (hsorted : (tornDir front id olds t).Pairwise (·.id < ·.id))
    (ht : Torn t) (holds : ∀ r ∈ olds, r.Fits)
    (hlen : maxOffset (dirRecords front ++ olds) + news.length < offsetBound) :
    Room (openOrRecover (tornDir front id olds t)).1 (dirRecords front ++ olds) news := by
  intro hne
  have hpos : 0 < news.length := length_pos_of_ne_nil hne
  rw [openOrRecover_fst hsorted, dirRecords_tornDir ht holds, mod_eq_of_lt (by omega)]
  grind [le_maxOffset]

theorem recovered_of_holdsLog {dir : Dir} {old : List Record}
    (hroom : Room (openOrRecover dir).1 old news) (hold : (old.map offset).Nodup)
    (h : (persist cfg (openOrRecover dir) news).2.HoldsLog
      (old ++ assigned (openOrRecover dir).1 news)) : Recovered cfg dir old news :=
  ⟨fun _ hpos hlimit => h.read_eq hpos hlimit, nodup_append_assigned hold hroom⟩

theorem layout_persist_torn (cfg : FSStoreConfig) {data : Bytes}
    (hsorted : (tornDir front id olds t).Pairwise (·.id < ·.id)) (hdata : data.length < sizeBound)
    (hsize : ((olds.flatMap encode ++ t).length + 12 + data.length : ℤ) ≤
      cfg.withDefaults.maxSegmentBytes) :
    (persist cfg (openOrRecover (tornDir front id olds t))
      [data]).2.Layout front (olds.flatMap encode ++ t ++
        encode ⟨(openOrRecover (tornDir front id olds t)).1, data⟩) := by
  have hnotFull : ¬(openOrRecover (tornDir front id olds t)).2.full cfg.withDefaults data := by
    rw [full, activeSize_tornDir hsorted]
    omega
  grind [persist, appendToDisk_eq, Layout.put, layout_tornDir]

theorem not_recovered_of_torn (hsorted : (tornDir front id olds t).Pairwise (·.id < ·.id))
    (ht : Torn t) (holds : ∀ r ∈ olds, r.Fits) (hne : t ≠ [])
    (hsize : ((olds.flatMap encode ++ t).length + 13 : ℤ) ≤ cfg.withDefaults.maxSegmentBytes)
    (hlen : maxOffset (dirRecords front ++ olds) + 1 < offsetBound) :
    ∃ x, ¬Recovered cfg (tornDir front id olds t) (dirRecords front ++ olds) [[x]] := by
  have hnext : (openOrRecover (tornDir front id olds t)).1 =
      maxOffset (dirRecords front ++ olds) + 1 := by
    rw [openOrRecover_fst hsorted, dirRecords_tornDir ht holds, mod_eq_of_lt hlen]
  obtain ⟨x, hx⟩ := exists_byte_not_mem
    (putUint 8 (openOrRecover (tornDir front id olds t)).1 ++ putUint 4 1)
    (by simp)
  refine ⟨x, ?_⟩
  intro h
  have hdata : [x].length < sizeBound := Nat.one_lt_two_pow (by omega)
  have hlayout := layout_persist_torn cfg hsorted hdata (by rw [length_singleton]; omega)
  have hreads := h.reads
  rw [assigned, assigned] at hreads
  generalize hr : (⟨(openOrRecover (tornDir front id olds t)).1, [x]⟩ :
    Record) = r at hlayout hreads
  have hmem : r ∈ (front.map (fun seg => records seg.bytes) ++
      [records (olds.flatMap encode ++ t ++ r.encode)]).flatten := by
    have hlimit := hlayout.read_eq 1 (succ_pos _) (le_succ_of_le
      (le_add_right _ (dirRecords front ++ olds ++ [r]).length))
    rw [hreads _ (succ_pos _) (le_succ_of_le (le_add_left _ _))] at hlimit
    have hcollect := Except.ok.inj hlimit
    apply (collect_sublist 1 _).subset
    rw [← hcollect]
    simp
  rw [flatten_records, append_assoc, records_encode_append holds, ← append_assoc] at hmem
  rcases mem_append.mp hmem with hmem | hmem
  · have hle := le_maxOffset hmem
    rw [← hr] at hle
    simp only at hle
    omega
  grind [header, Torn.not_mem_records]

/-- A directory with the torn tail `t` is recovered, whatever is persisted
afterwards, exactly when the complete old records can be read and have different
offsets, and there is no torn tail, or the next record goes to a new segment, or no
offset is left. -/
theorem recovered_iff (cfg : FSStoreConfig)
    (hsorted : (tornDir front id olds t).Pairwise (·.id < ·.id)) (ht : Torn t)
    (holds : ∀ r ∈ olds, r.Fits) :
    (∀ news : List Bytes, (∀ data ∈ news, data ≠ [] ∧ data.length < sizeBound) →
      maxOffset (dirRecords front ++ olds) + news.length < offsetBound →
      Recovered cfg (tornDir front id olds t) (dirRecords front ++ olds) news) ↔
    Chained 1 (front.map (fun seg => records seg.bytes) ++ [olds]) ∧
    ((dirRecords front ++ olds).map offset).Nodup ∧
    (t = [] ∨ cfg.withDefaults.maxSegmentBytes < (olds.flatMap encode ++ t).length + 13 ∨
      maxOffset (dirRecords front ++ olds) + 1 = offsetBound) := by
  have hmax := maxOffset_lt (fits_of_mem_old front holds)
  constructor
  · intro h
    have hnil := h [] (by simp) (by simpa using hmax)
    obtain ⟨hchained, hdistinct⟩ := (recovered_nil_iff hsorted ht holds).mp hnil
    refine ⟨hchained, hdistinct, ?_⟩
    by_contra hcontra
    simp only [not_or, not_lt] at hcontra
    obtain ⟨hne, hsize, hlast⟩ := hcontra
    obtain ⟨x, hx⟩ := not_recovered_of_torn hsorted ht holds hne hsize (by omega)
    refine hx (h [[x]] ?_ ?_)
    · intro data hdata
      rw [mem_singleton.mp hdata]
      exact ⟨cons_ne_nil _ _, Nat.one_lt_two_pow (by omega)⟩
    · rw [length_singleton]
      omega
  · rintro ⟨hchained, hdistinct, hcase⟩ news hnews hlen
    cases news with
    | nil => exact (recovered_nil_iff hsorted ht holds).mpr ⟨hchained, hdistinct⟩
    | cons data =>
      have hroom := room_openOrRecover hsorted ht holds hlen
      refine recovered_of_holdsLog hroom hdistinct ?_
      have hlayout := layout_tornDir hsorted
      have hsize := activeSize_tornDir hsorted
      rw [length_cons] at hlen
      rcases hcase with rfl | hfull | hlast
      · refine HoldsLog.persist cfg ?_ hroom fun data' hdata' => (hnews data' hdata').2
        refine ⟨_, olds, ⟨⟨front, ?_, rfl⟩, ?_, holds⟩, hchained, flatten_records front olds⟩
        · rwa [append_nil] at hlayout
        · rwa [append_nil] at hsize
      · have hrecords : records (olds.flatMap encode ++ t) = olds := ht.records_append holds
        have hdata : (openOrRecover (tornDir front id olds t)).2.full
            cfg.withDefaults data := by
          have hpos := length_pos_of_ne_nil (hnews data mem_cons_self).1
          rw [full, hsize]
          omega
        grind [holdsLog_persist_full]
      · omega

end

def defaultFSStoreConfig : FSStoreConfig where
  maxSegmentBytes := 64 * 2 ^ 20
  maxBufferedBytes := 8 * 2 ^ 20
  durability := .memory

theorem torn_oneByte : Torn [2] :=
  ⟨⟨2, [8]⟩, ⟨by decide, by decide⟩, by decide, by decide⟩

/-- With segments of 26 bytes the torn byte stays behind in the old segment. -/
theorem recovered_iff_torn :
    Recovered ⟨26, 0, .memory⟩ (tornDir [] 1 [⟨1, [7]⟩] [2]) [⟨1, [7]⟩] [[9]] := by
  have hfits : ∀ r ∈ [(⟨1, [7]⟩ : Record)], r.Fits := by
    intro r hr
    rw [mem_singleton.mp hr]
    exact ⟨by decide, by decide⟩
  have hsorted : (tornDir [] 1 [⟨1, [7]⟩] [2]).Pairwise (·.id < ·.id) := pairwise_singleton _ _
  have hall := (recovered_iff ⟨26, 0, .memory⟩ hsorted torn_oneByte hfits).mpr
    ⟨⟨by decide, trivial⟩, by decide, .inr (.inl (by decide))⟩
  exact hall [[9]] (by decide) (by decide)

theorem not_recovered_oneByte :
    ¬Recovered defaultFSStoreConfig (tornDir [] 1 [⟨1, [7]⟩] [2]) [⟨1, [7]⟩] [[9]] ∧ Torn [2] := by
  constructor
  · intro h
    have hread := h.reads 5 (by decide) (by decide)
    revert hread
    decide +kernel
  · exact torn_oneByte

end Fluxor.AppendLog
