import Fluxor.AppendLog.Disk
import Fluxor.Support.Transition

/-!
# The append-only store

`fsStore` with any number of concurrent callers of `Append`, the goroutine
`flushLoop`, and calls of `Rotate`, `Sync` and `Close`. A step is one atomic
operation, one channel operation, or one critical section of the mutex.
-/

namespace Fluxor.AppendLog

open Fluxor.Support Fluxor.Transition Function

/-- `appendReq`. Its acknowledgement channel belongs to the caller, which waits for it. -/
structure AppendReq (ι : Type*) where
  caller : ι
  record : Record

/-- A caller of `Append` is about to load `bufferedBytes`, to swap it, to take an
offset, to enqueue, or waits for the acknowledgement. -/
inductive AppendState
  | idle
  | load (data : Bytes)
  | swap (data : Bytes) (cur : ℤ)
  | takeOffset (data : Bytes)
  | enqueue (record : Record)
  | wait (record : Record)
  deriving DecidableEq

/-- `flushLoop` is at its channel, about to call `appendToDisk`, or about to
subtract from `bufferedBytes` and acknowledge. -/
inductive Flusher (ι : Type*)
  | receive
  | persist (req : AppendReq ι)
  | release (req : AppendReq ι) (err : Option StoreError)
  | exited

/-- `Close` is not called, about to close the channel, waiting for `flushLoop`, or over. -/
inductive Closer
  | notCalled | closeChannel | wait | done
  deriving DecidableEq

/-- `fsStore`. The last fields are history: the records whose `Append` returned nil
and those accepted by `appendToDisk`. -/
structure Store (ι : Type*) where
  cfg : FSStoreConfig
  nextOffset : ℕ
  bufferedBytes : ℤ
  disk : Disk
  appendCh : List (AppendReq ι)
  appender : ι → AppendState
  acks : ι → Option (Option StoreError)
  flusher : Flusher ι
  closer : Closer
  (acked stored : List Record)
  panicked : Bool

inductive StoreAction (ι : Type*)
  | append (p : ι) (data : Bytes)
  | load (p : ι)
  | swap (p : ι)
  | takeOffset (p : ι)
  | enqueue (p : ι)
  | ack (p : ι)
  | receive | persist | release | rotate | sync | close | closeChannel | finishClose

def queueCapacity : ℕ := 1024

namespace Store

variable {ι : Type*}

def closed (s : Store ι) : Bool := s.closer ≠ .notCalled

def channelClosed (s : Store ι) : Bool :=
  s.closer = .wait ∨ s.closer = .done

def newFSStore (cfg : FSStoreConfig) (dir : Dir) : Store ι where
  cfg := cfg.withDefaults
  nextOffset := (openOrRecover dir).1
  bufferedBytes := 0
  disk := (openOrRecover dir).2
  appendCh := []
  appender := fun _ => .idle
  acks := fun _ => none
  flusher := .receive
  closer := .notCalled
  acked := []
  stored := dirRecords dir
  panicked := false

variable [DecidableEq ι] (s : Store ι) (p : ι)

def setAppender (x : AppendState) : Store ι :=
  { s with appender := update s.appender p x }

/-- `Append` up to its loop: it refuses empty data and a closed store. -/
def append (data : Bytes) : Option (Store ι) :=
  match s.appender p with
  | .idle =>
    if data.length = 0 then some s
    else if s.closed then some s
    else some (s.setAppender p (.load data))
  | _ => none

def load : Option (Store ι) :=
  match s.appender p with
  | .load data =>
    if s.bufferedBytes + data.length > s.cfg.maxBufferedBytes then
      some (s.setAppender p .idle)
    else some (s.setAppender p (.swap data s.bufferedBytes))
  | _ => none

def swap : Option (Store ι) :=
  match s.appender p with
  | .swap data cur =>
    if s.bufferedBytes = cur then
      some { s.setAppender p (.takeOffset data) with
        bufferedBytes := cur + data.length }
    else some (s.setAppender p (.load data))
  | _ => none

def takeOffset : Option (Store ι) :=
  match s.appender p with
  | .takeOffset data =>
    some { s.setAppender p (.enqueue ⟨s.nextOffset, data⟩) with
      nextOffset := (s.nextOffset + 1) % offsetBound }
  | _ => none

/-- The select of `Append`. A send on the closed channel panics. -/
def enqueue : Option (Store ι) :=
  match s.appender p with
  | .enqueue r =>
    if s.channelClosed then some { s with panicked := true }
    else if s.appendCh.length < queueCapacity then
      let queue := s.appendCh ++ [⟨p, r⟩]
      match s.cfg.durability with
      | .memory =>
        some { s.setAppender p .idle with
          appendCh := queue
          acked := s.acked ++ [r] }
      | .fsync => some { s.setAppender p (.wait r) with appendCh := queue }
    else
      some { s.setAppender p .idle with
        bufferedBytes := s.bufferedBytes - r.data.length }
  | _ => none

/-- `Append` receives the acknowledgement and returns it. -/
def ack : Option (Store ι) :=
  match s.cfg.durability, s.appender p, s.acks p with
  | .fsync, .wait r, some err =>
    some { s.setAppender p .idle with
      acks := update s.acks p none
      acked := if err = none then s.acked ++ [r] else s.acked }
  | _, _, _ => none

/-- `flushLoop` takes the next request, or ends when the channel is closed and
drained. -/
def receive : Option (Store ι) :=
  match s.flusher, s.appendCh with
  | .receive, req :: rest => some { s with appendCh := rest, flusher := .persist req }
  | .receive, [] => if s.channelClosed then some { s with flusher := .exited } else none
  | _, _ => none

def persist : Option (Store ι) :=
  match s.flusher with
  | .persist req =>
    let (err, disk) := s.disk.appendToDisk s.cfg s.closed req.record.offset req.record.data
    some { s with
      disk := disk
      flusher := .release req err
      stored := if err = none then s.stored ++ [req.record] else s.stored }
  | _ => none

/-- The rest of the body of `flushLoop`. -/
def release : Option (Store ι) :=
  match s.flusher with
  | .release req err =>
    let s := { s with
      bufferedBytes := s.bufferedBytes - req.record.data.length
      flusher := .receive }
    match s.cfg.durability with
    | .memory => some s
    | .fsync => some { s with acks := update s.acks req.caller (some err) }
  | _ => none

def step (a : StoreAction ι) : Option (Store ι) :=
  if s.panicked then none
  else
    match a with
    | .append p data => s.append p data
    | .load p => s.load p
    | .swap p => s.swap p
    | .takeOffset p => s.takeOffset p
    | .enqueue p => s.enqueue p
    | .ack p => s.ack p
    | .receive => s.receive
    | .persist => s.persist
    | .release => s.release
    | .rotate =>
      if s.closed then some s
      else some { s with disk := s.disk.rotateLocked }
    | .sync => if s.closed then some s else some { s with disk := s.disk.flush }
    | .close =>
      match s.closer with
      | .notCalled => some { s with closer := .closeChannel }
      | _ => some s
    | .closeChannel =>
      match s.closer with
      | .closeChannel => some { s with closer := .wait }
      | _ => none
    | .finishClose =>
      match s.closer, s.flusher with
      | .wait, .exited => some { s with disk := s.disk.flush, closer := .done }
      | _, _ => none

def held : Option Record :=
  match s.appender p with
  | .enqueue r => some r
  | _ => none

def pending : List Record :=
  match s.flusher with
  | .persist req => req.record :: s.appendCh.map AppendReq.record
  | _ => s.appendCh.map AppendReq.record

/-- A step leaves the log alone, or a caller takes an offset, enqueues its record,
or the flusher writes the first pending record. -/
inductive LogStep (s : Store ι) (a : StoreAction ι) (t : Store ι) : Prop
  | quiet (hdisk : t.disk = s.disk ∨ t.disk = s.disk.flush ∨ t.disk = s.disk.rotateLocked)
      (hpending : t.pending = s.pending) (hstored : t.stored = s.stored)
      (hnext : t.nextOffset = s.nextOffset)
      (hheld : ∀ p, t.held p = s.held p ∨ t.held p = none)
      (hacked : t.acked = s.acked ∨ s.cfg.durability = .fsync)
  | take (p : ι) (data : Bytes) (ha : a = .takeOffset p) (hstate : s.appender p = .takeOffset data)
      (hdisk : t.disk = s.disk) (hpending : t.pending = s.pending)
      (hstored : t.stored = s.stored)
      (hnext : t.nextOffset = (s.nextOffset + 1) % offsetBound)
      (hheld : t.held = update s.held p (some ⟨s.nextOffset, data⟩))
      (hacked : t.acked = s.acked)
  | push (p : ι) (r : Record) (ha : a = .enqueue p) (hstate : s.appender p = .enqueue r)
      (hdisk : t.disk = s.disk) (hpending : t.pending = s.pending ++ [r])
      (hstored : t.stored = s.stored) (hnext : t.nextOffset = s.nextOffset)
      (hheld : t.held = update s.held p none)
      (hacked : t.acked = s.acked ++ [r] ∨ t.acked = s.acked)
  | write (r : Record) (rest : List Record)
      (hpending : s.pending = r :: rest) (hpending' : t.pending = rest)
      (hdisk : t.disk = (s.disk.appendToDisk s.cfg s.closed r.offset r.data).2)
      (hstored : t.stored = if (s.disk.appendToDisk s.cfg s.closed r.offset r.data).1 = none then
          s.stored ++ [r] else s.stored)
      (hnext : t.nextOffset = s.nextOffset) (hheld : t.held = s.held)
      (hacked : t.acked = s.acked)

variable {s t : Store ι} {a : StoreAction ι}

theorem running_of_step (h : s.step a = some t) : s.panicked = false := by
  cases hpan : s.panicked with
  | false => rfl
  | true => simp [step, hpan] at h

variable {p : ι}

theorem held_setAppender {x : AppendState} (hx : ∀ r, x ≠ .enqueue r) (q : ι) :
    (s.setAppender p x).held q = s.held q ∨ (s.setAppender p x).held q = none := by
  by_cases hq : q = p
  · subst hq
    right
    simp only [held, setAppender, update_self]
  · left
    simp only [held, setAppender, update_of_ne hq]

theorem held_setAppender_eq (s : Store ι) (p : ι) (x : AppendState) :
    (s.setAppender p x).held = update s.held p (match x with
        | .enqueue r => some r
        | _ => none) := by
  funext q
  by_cases hq : q = p
  · subst hq
    simp only [held, setAppender, update_self]
  · simp only [held, setAppender, update_of_ne hq]

theorem logStep_append {data : Bytes} (h : s.append p data = some t) : LogStep s a t := by
  rw [append] at h
  split at h
  · split at h
    · cases h
      exact .quiet (.inl rfl) rfl rfl rfl (fun _ => .inl rfl) (.inl rfl)
    · split at h
      · cases h
        exact .quiet (.inl rfl) rfl rfl rfl (fun _ => .inl rfl) (.inl rfl)
      · cases h
        exact .quiet (.inl rfl) rfl rfl rfl (held_setAppender (by simp)) (.inl rfl)
  · cases h

theorem logStep_takeOffset (h : s.takeOffset p = some t) : LogStep s (.takeOffset p) t := by
  rw [takeOffset] at h
  split at h
  next data hstate =>
    cases h
    exact .take p data rfl hstate rfl rfl rfl rfl (held_setAppender_eq s p _) rfl
  · cases h

theorem logStep_enqueue (h : s.enqueue p = some t) : LogStep s (.enqueue p) t := by
  simp only [enqueue] at h
  split at h
  next r hstate =>
    have hpending : ∀ u : Store ι, u.flusher = s.flusher → u.appendCh = s.appendCh ++ [⟨p, r⟩] →
        u.pending = s.pending ++ [r] := by
      grind [pending]
    split at h
    · cases h
      exact .quiet (.inl rfl) rfl rfl rfl (fun _ => .inl rfl) (.inl rfl)
    · split at h
      · split at h
        · cases h
          exact .push p r rfl hstate rfl (hpending _ rfl rfl) rfl rfl
            (held_setAppender_eq s p .idle) (.inl rfl)
        · cases h
          exact .push p r rfl hstate rfl (hpending _ rfl rfl) rfl rfl
            (held_setAppender_eq s p (.wait r)) (.inr rfl)
      · cases h
        exact .quiet (.inl rfl) rfl rfl rfl (held_setAppender (by simp)) (.inl rfl)
  · cases h

theorem logStep_ack (h : s.ack p = some t) : LogStep s a t := by
  rw [ack] at h
  split at h
  next hdurability hstate hack =>
    cases h
    exact .quiet (.inl rfl) rfl rfl rfl (held_setAppender (by simp)) (.inr hdurability)
  · cases h

theorem logStep_receive (h : s.receive = some t) : LogStep s a t := by
  rw [receive] at h
  split at h
  next hflusher hqueue =>
    cases h
    refine .quiet (.inl rfl) ?_ rfl rfl (fun _ => .inl rfl) (.inl rfl)
    simp only [pending, hflusher, hqueue, List.map_cons]
  next hflusher hqueue =>
    split at h
    · cases h
      refine .quiet (.inl rfl) ?_ rfl rfl (fun _ => .inl rfl) (.inl rfl)
      simp only [pending, hflusher]
    · cases h
  · cases h

theorem logStep_persist (h : s.persist = some t) : LogStep s a t := by
  simp only [persist] at h
  split at h
  next req hflusher =>
    cases h
    refine .write req.record (s.appendCh.map AppendReq.record) ?_ rfl rfl rfl rfl rfl rfl
    simp only [pending, hflusher]
  · cases h

theorem logStep_release (h : s.release = some t) : LogStep s a t := by
  simp only [release] at h
  split at h
  next hflusher =>
    have hpending : ∀ u : Store ι, u.flusher = .receive →
        u.appendCh = s.appendCh → u.pending = s.pending := by
      grind [pending]
    split at h <;> cases h <;>
      exact .quiet (.inl rfl) (hpending _ rfl rfl) rfl rfl (fun _ => .inl rfl) (.inl rfl)
  · cases h

theorem logStep_of_step (h : s.step a = some t) : LogStep s a t := by
  rw [step.eq_def, if_neg (by simp [running_of_step h])] at h
  cases a with
  | append => exact logStep_append h
  | load | swap =>
    simp only [load, swap] at h
    split at h
    · split at h <;> cases h <;>
        exact .quiet (.inl rfl) rfl rfl rfl (held_setAppender (by simp)) (.inl rfl)
    · cases h
  | takeOffset => exact logStep_takeOffset h
  | enqueue => exact logStep_enqueue h
  | ack => exact logStep_ack h
  | receive => exact logStep_receive h
  | persist => exact logStep_persist h
  | release => exact logStep_release h
  | rotate =>
    dsimp only at h
    split at h <;> cases h
    · exact .quiet (.inl rfl) rfl rfl rfl (fun _ => .inl rfl) (.inl rfl)
    · exact .quiet (.inr (.inr rfl)) rfl rfl rfl (fun _ => .inl rfl) (.inl rfl)
  | sync =>
    dsimp only at h
    split at h <;> cases h
    · exact .quiet (.inl rfl) rfl rfl rfl (fun _ => .inl rfl) (.inl rfl)
    · exact .quiet (.inr (.inl rfl)) rfl rfl rfl (fun _ => .inl rfl) (.inl rfl)
  | close | closeChannel =>
    dsimp only at h
    split at h <;> cases h <;>
      exact .quiet (.inl rfl) rfl rfl rfl (fun _ => .inl rfl) (.inl rfl)
  | finishClose =>
    dsimp only at h
    split at h <;> cases h
    exact .quiet (.inr (.inl rfl)) rfl rfl rfl (fun _ => .inl rfl) (.inl rfl)

/-- `Close` stays where it is, and no call of `Append` begins once the store is
closed; or `Close` goes on. -/
inductive CloseStep (s : Store ι) (a : StoreAction ι) (t : Store ι) : Prop
  | same (hcloser : t.closer = s.closer) (hcfg : t.cfg = s.cfg) (hidle : s.closed = true →
        ∀ p, s.appender p = .idle → t.appender p = .idle)
  | begin (ha : a = .close) (hcloser : s.closer = .notCalled)
      (ht : t = { s with closer := .closeChannel })
  | channel (hcloser : s.closer = .closeChannel) (ht : t = { s with closer := .wait })
  | finish (hcloser : s.closer = .wait) (ht : t = { s with disk := s.disk.flush, closer := .done })

theorem idle_setAppender {q : ι} {x : AppendState} (hp : s.appender p ≠ .idle)
    (hq : s.appender q = .idle) : (s.setAppender p x).appender q = .idle := by
  have hne : q ≠ p := by
    rintro rfl
    exact hp hq
  simpa only [setAppender, update_of_ne hne] using hq

theorem closeStep_append {data : Bytes} (h : s.append p data = some t) : CloseStep s a t := by
  rw [append] at h
  split at h
  · split at h
    · cases h
      exact .same rfl rfl fun _ _ hq => hq
    · split at h
      · cases h
        exact .same rfl rfl fun _ _ hq => hq
      next hopen =>
        cases h
        exact .same rfl rfl fun hclosed => absurd hclosed hopen
  · cases h

theorem closeStep_enqueue (h : s.enqueue p = some t) : CloseStep s a t := by
  simp only [enqueue] at h
  split at h
  next hstate =>
    have hp : s.appender p ≠ .idle := by simp [hstate]
    split at h
    · cases h
      exact .same rfl rfl fun _ _ hq => hq
    · split at h
      · split at h <;> cases h <;>
          exact .same rfl rfl fun _ _ hq => idle_setAppender hp hq
      · cases h
        exact .same rfl rfl fun _ _ hq => idle_setAppender hp hq
  · cases h

theorem closeStep_of_step (h : s.step a = some t) : CloseStep s a t := by
  rw [step.eq_def, if_neg (by simp [running_of_step h])] at h
  cases a with
  | append => exact closeStep_append h
  | load p | swap p =>
    simp only [load, swap] at h
    split at h
    next hstate =>
      have hp : s.appender p ≠ .idle := by simp [hstate]
      split at h <;> cases h <;>
        exact .same rfl rfl fun _ _ hq => idle_setAppender hp hq
    · cases h
  | takeOffset p | ack p =>
    simp only [takeOffset, ack] at h
    split at h
    · have hp : s.appender p ≠ .idle := by simp [*]
      cases h
      exact .same rfl rfl fun _ _ hq => idle_setAppender hp hq
    · cases h
  | enqueue => exact closeStep_enqueue h
  | receive =>
    simp only [receive] at h
    split at h
    · cases h
      exact .same rfl rfl fun _ _ hq => hq
    · split at h <;> cases h
      exact .same rfl rfl fun _ _ hq => hq
    · cases h
  | persist =>
    simp only [persist] at h
    split at h <;> cases h
    exact .same rfl rfl fun _ _ hq => hq
  | release =>
    simp only [release] at h
    split at h
    · split at h <;> cases h <;> exact .same rfl rfl fun _ _ hq => hq
    · cases h
  | rotate | sync =>
    dsimp only at h
    split at h <;> cases h <;> exact .same rfl rfl fun _ _ hq => hq
  | close =>
    dsimp only at h
    split at h
    next hcloser =>
      cases h
      exact .begin rfl hcloser rfl
    · cases h
      exact .same rfl rfl fun _ _ hq => hq
  | closeChannel =>
    dsimp only at h
    split at h
    next hcloser =>
      cases h
      exact .channel hcloser rfl
    · cases h
  | finishClose =>
    dsimp only at h
    split at h
    next hcloser hflusher =>
      cases h
      exact .finish hcloser rfl
    · cases h

end Store
end Fluxor.AppendLog
