import Fluxor.AppendLog.ReadOrder

/-!
# Acknowledged records and `Close`

One caller appends to a store that acknowledges from memory and then closes it.
`Close` sets the closed flag before `flushLoop` has drained the channel, and
`appendToDisk` refuses to write then. So every acknowledged record is on disk if the
channel was drained before.
-/

namespace Fluxor.AppendLog

open Fluxor.Support Fluxor.Transition List Store

namespace Store

/-- `Close` is called outside `Append` with nothing pending, every record fits its
length field, and the offset counter does not wrap. -/
def ClosesDrained (s : Store Unit) : StoreAction Unit → Prop
  | .takeOffset _ => s.nextOffset + 1 < offsetBound
  | .enqueue p => ∀ r ∈ s.held p, r.data.length < sizeBound
  | .close => s.closed = true ∨ (s.appender () = .idle ∧ s.pending = [])
  | _ => True

instance (s : Store Unit) (a : StoreAction Unit) : Decidable (ClosesDrained s a) := by
  delta ClosesDrained
  cases a <;> infer_instance

/-- Once `Close` is over, every record whose `Append` returned nil is read after reopening. -/
def AckedStored (s : Store Unit) : Prop :=
  s.closer = .done → ∀ cfg limit, 0 < limit → s.stored.length ≤ limit → ∃ recs,
      read (newFSStore cfg s.disk.dir : Store Unit).disk.dir 1 limit =
        .ok recs ∧ ∀ r ∈ s.acked, r ∈ recs

/-- Acknowledged records are stored or pending, and nothing is pending in a closed store. -/
structure Durable (s : Store Unit) : Prop where
  order : InOrder s
  memory : s.cfg.durability = .memory
  acked : ∀ r ∈ s.acked, r ∈ s.stored ++ s.pending
  sizes : ∀ r ∈ s.pending, r.data.length < sizeBound
  closed : s.closed = true → s.pending = [] ∧ s.appender () = .idle
  done : s.closer = .done → s.disk.activeBuf.buf = []

theorem durable_newFSStore {cfg : FSStoreConfig} (hcfg : cfg.durability = .memory) {dir : Dir}
    (hdir : Intact dir) : Durable (newFSStore cfg dir) := by
  refine ⟨inOrder_newFSStore cfg hdir, hcfg, ?_, ?_, ?_, ?_⟩
  · intro r hr
    cases hr
  · intro r hr
    cases hr
  · intro hclosed
    cases hclosed
  · intro hdone
    cases hdone

variable {s : Store Unit} {a : StoreAction Unit}

theorem enqueuesInOrder_of_closesDrained (h : ClosesDrained s a) : EnqueuesInOrder s a := by
  cases a with
  | takeOffset => exact h
  | enqueue => exact fun q hq => absurd rfl hq
  | _ => trivial

variable {t : Store Unit}

theorem Durable.acked_step (hs : Durable s) (hguard : ClosesDrained s a) (h : s.step a = some t) :
    (∀ r ∈ t.acked, r ∈ t.stored ++ t.pending) ∧ ∀ r ∈ t.pending, r.data.length < sizeBound := by
  cases logStep_of_step h with
  | quiet hdisk hpending hstored hnext hheld hacked =>
    rw [hstored, hpending]
    rcases hacked with hacked | hfsync
    · rw [hacked]
      exact ⟨hs.acked, hs.sizes⟩
    · rw [hs.memory] at hfsync
      cases hfsync
  | take p data ha hstate hdisk hpending hstored hnext hheld hacked =>
    rw [hstored, hpending, hacked]
    exact ⟨hs.acked, hs.sizes⟩
  | push p r ha hstate hdisk hpending hstored hnext hheld hacked =>
    subst ha
    rw [hstored, hpending, ← append_assoc]
    constructor
    · intro r' hr'
      rcases hacked with hacked | hacked
      · rw [hacked] at hr'
        rcases mem_append.mp hr' with hr' | hr'
        · exact mem_append_left _ (hs.acked r' hr')
        · exact mem_append_right _ hr'
      · rw [hacked] at hr'
        exact mem_append_left _ (hs.acked r' hr')
    · intro r' hr'
      rcases mem_append.mp hr' with hr' | hr'
      · exact hs.sizes r' hr'
      · rw [mem_singleton.mp hr']
        apply hguard
        simp only [held, hstate, Option.mem_def]
  | write r rest hpending hpending' hdisk hstored hnext hheld hacked =>
    have hopen : s.closed ≠ true := by
      intro hclosed
      rw [(hs.closed hclosed).1] at hpending
      cases hpending
    have hsize : r.data.length < sizeBound := hs.sizes r (by rw [hpending]; exact mem_cons_self)
    have hwritten : (s.disk.appendToDisk s.cfg s.closed r.offset r.data).1 = none := by
      rcases appendToDisk_cases s.cfg s.closed s.disk r.offset r.data with
        ⟨-, -, hlarge | hclosed⟩ | ⟨hnone, -, -⟩
      · omega
      · exact absurd hclosed hopen
      · exact hnone
    rw [if_pos hwritten] at hstored
    rw [hstored, hpending', hacked, append_assoc, singleton_append, ← hpending]
    refine ⟨hs.acked, ?_⟩
    intro r' hr'
    exact hs.sizes r' (by rw [hpending]; exact mem_cons_of_mem r hr')

theorem Durable.pending_step (hs : Durable s) (hclosed : s.closed = true) (h : s.step a = some t) :
    t.pending = [] ∧ (s.disk.activeBuf.buf = [] → t.disk.activeBuf.buf = []) := by
  obtain ⟨hnil, hidle⟩ := hs.closed hclosed
  cases logStep_of_step h with
  | quiet hdisk hpending =>
    refine ⟨hpending.trans hnil, ?_⟩
    intro hbuf
    rcases hdisk with hdisk | hdisk | hdisk
    · rwa [hdisk]
    all_goals
      rw [hdisk]
      rfl
  | take p data ha hstate | push p r ha hstate =>
    rw [hidle] at hstate
    cases hstate
  | write r rest hpending =>
    rw [hnil] at hpending
    cases hpending

theorem durable_step (hs : Durable s) (hguard : ClosesDrained s a) (h : s.step a = some t) :
    Durable t := by
  have horder := inOrder_step hs.order (enqueuesInOrder_of_closesDrained hguard) h
  obtain ⟨hacked, hsizes⟩ := hs.acked_step hguard h
  cases closeStep_of_step h with
  | same hcloser hcfg hidle =>
    have hclosed : t.closed = s.closed := by simp only [closed, hcloser]
    refine ⟨horder, by rw [hcfg]; exact hs.memory, hacked, hsizes, ?_, ?_⟩
    · intro ht
      rw [hclosed] at ht
      exact ⟨(hs.pending_step ht h).1, hidle ht () (hs.closed ht).2⟩
    · intro hdone
      rw [hcloser] at hdone
      have hs' : s.closed = true := by simp [closed, hdone]
      exact (hs.pending_step hs' h).2 (hs.done hdone)
  | begin ha hcloser ht =>
    subst ha ht
    refine ⟨horder, hs.memory, hacked, hsizes, ?_, by simp⟩
    intro _
    rcases hguard with hclosed | ⟨hidle, hnil⟩
    · simp [closed, hcloser] at hclosed
    · exact ⟨hnil, hidle⟩
  | channel hcloser ht =>
    subst ht
    refine ⟨horder, hs.memory, hacked, hsizes, ?_, by simp⟩
    intro _
    exact hs.closed (by simp [closed, hcloser])
  | finish hcloser ht =>
    subst ht
    refine ⟨horder, hs.memory, hacked, hsizes, ?_, fun _ => rfl⟩
    intro _
    exact hs.closed (by simp [closed, hcloser])

theorem dir_newFSStore {d : Disk} {log : List Record} (h : d.Logs log) (cfg : FSStoreConfig) :
    (newFSStore cfg d.dir : Store Unit).disk.dir = d.dir := by
  obtain ⟨old, cur, hstores, -⟩ := h
  obtain ⟨front, hlayout, -⟩ := hstores.layout
  have hsorted := hlayout.sorted_dir
  obtain ⟨file, hdir, -⟩ := hlayout.dir
  rw [hdir] at hsorted ⊢
  change (openOrRecover _).2.dir = _
  rw [openOrRecover_snd hsorted]

theorem Durable.ackedStored (hs : Durable s) : AckedStored s := by
  intro hdone cfg limit hpos hlimit
  have hclosed : s.closed = true := by simp [Store.closed, hdone]
  have hread := hs.order.read_eq (hs.done hdone) 1 hpos hlimit
  rw [← dir_newFSStore hs.order.logs cfg] at hread
  refine ⟨_, hread, ?_⟩
  intro r hr
  have hmem := hs.acked r hr
  have hone := hs.order.positive r hmem
  rw [(hs.closed hclosed).1, append_nil] at hmem
  exact mem_filter.mpr ⟨hmem, by simpa using hone⟩

/-- If `Close` is called on a drained store, acknowledged records are read back
after reopening. -/
theorem acked_stored_of_closesDrained {cfg : FSStoreConfig} (hcfg : cfg.durability = .memory)
    {dir : Dir} (hdir : Intact dir) {acts : List (StoreAction Unit)} {s : Store Unit}
    (hrun : Run step ClosesDrained (newFSStore cfg dir) acts s) : AckedStored s :=
  (Run.invariant durable_step hrun (durable_newFSStore hcfg hdir)).ackedStored

def appendOne (data : Bytes) : List (StoreAction Unit) :=
  [.append () data, .load (), .swap (), .takeOffset (), .enqueue ()]

def flushOne : List (StoreAction Unit) := [.receive, .persist, .release]

def closeAll : List (StoreAction Unit) := [.close, .closeChannel, .receive, .finishClose]

theorem acked_stored_twoAppends :
    ∃ s : Store Unit, s.closer = .done ∧ s.acked = [⟨1, [7]⟩, ⟨2, [8]⟩] ∧ AckedStored s := by
  obtain ⟨s, hrun, hdone, hacked⟩ :=
    exists_run step ClosesDrained (newFSStore ⟨0, 0, .memory⟩ [])
      (appendOne [7] ++ appendOne [8] ++ flushOne ++ flushOne ++ closeAll)
      (fun s => s.closer = .done ∧ s.acked = [⟨1, [7]⟩, ⟨2, [8]⟩])
      (by decide +kernel)
  exact ⟨s, hdone, hacked, acked_stored_of_closesDrained rfl intact_nil hrun⟩

/-- `Close` is called while an acknowledged record is in the channel: it is dropped. -/
theorem close_drops_acked : ∃ s, Run step anyStep (newFSStore ⟨0, 0, .memory⟩ [] : Store Unit)
      (appendOne [7] ++ [StoreAction.close, StoreAction.closeChannel] ++
        flushOne ++ [StoreAction.receive, StoreAction.finishClose]) s ∧
      s.acked = [⟨1, [7]⟩] ∧ ¬AckedStored s := by
  refine exists_run_of _
      (fun s => s.closer = .done ∧ s.acked = [⟨1, [7]⟩] ∧ s.stored = [] ∧
        read (newFSStore ⟨0, 0, .memory⟩ s.disk.dir : Store Unit).disk.dir 1 1 = .ok [])
      (by decide +kernel) ?_
  rintro s - ⟨hdone, hacked, hstored, hread⟩
  refine ⟨hacked, ?_⟩
  intro h
  obtain ⟨recs, hrecs, hmem⟩ := h hdone ⟨0, 0, .memory⟩ 1 (by decide) (by rw [hstored]; decide)
  rw [hread] at hrecs
  have hone := hmem ⟨1, [7]⟩ (by rw [hacked]; exact mem_cons_self)
  rw [← Except.ok.inj hrecs] at hone
  cases hone

end Store
end Fluxor.AppendLog
