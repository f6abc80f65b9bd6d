import Fluxor.Concurrency.Executor

/-!
# The shutdown lock of the executor

The lock does what it is for: when `Shutdown` cancels the context and closes the
channel, no `Submit` or `SubmitWithTimeout` is between its test of the flag and
its return.
-/

namespace Fluxor.Concurrency.Executor

open Goroutines Transition List Config TaskQueue

variable {τ : Type*} {c : Config Executor (Thread τ)} {i : ℕ} {b : Branch}
  {t : Thread τ} {o : Outcome Executor (Thread τ)}

def reading : Thread τ → ℕ
  | .submit _ _ .checking | .submit _ _ .selecting | .submit _ _ .sent
  | .submit _ _ (.rejected _) | .submit _ _ (.unlocking _) => 1
  | _ => 0

def preparing : Thread τ → ℕ
  | .shutdown .locking => 1
  | _ => 0

def writing : Thread τ → ℕ
  | .shutdown .draining | .shutdown .locked | .shutdown .closing
  | .shutdown .unlocking => 1
  | _ => 0

/-- A `Submit` that found the executor open and has not failed. -/
def Submit.pending : Submit → Bool
  | .selecting | .sent | .unlocking (.ok _) => true
  | _ => false

/-- What a goroutine relies on: `Submit` sends only before the context is
cancelled, and `Shutdown` cancels it while no reader is left. -/
def Guarded (e : Executor) : Thread τ → Prop
  | .submit _ _ st => Submit.pending st = true → e.queue.cancelled = false
  | .shutdown .locked => e.readers = 0
  | .shutdown .closing | .shutdown .unlocking | .shutdown .waiting => e.queue.cancelled = true
  | _ => True

variable {e' : Executor}

theorem Guarded.of_eq {e : Executor} (h : Guarded e t) (hreaders : e.readers = 0 → e'.readers = 0)
    (hcancelled : e'.queue.cancelled = e.queue.cancelled) : Guarded e' t := by
  cases t with
  | worker | submitBatch => trivial
  | submit => simpa only [Guarded, hcancelled] using h
  | shutdown st =>
    cases st with
    | locked => exact hreaders h
    | closing | unlocking | waiting => exact hcancelled.trans h
    | _ => trivial

/-- The state of the lock and of the flags, in terms of the goroutines. -/
structure Discipline (c : Config Executor (Thread τ)) : Prop where
  readers : c.shared.readers = c.total reading
  writer : c.shared.writer.toNat = c.total writing
  active : c.total preparing + c.total writing ≤ c.shared.closed.toNat
  guarded : c.All fun e _ t => Guarded e t
  closed_of_cancelled : c.shared.queue.cancelled = true → c.shared.closed = true
  cancelled_of_chanClosed : c.shared.queue.chanClosed = true → c.shared.queue.cancelled = true

section

variable (h : Discipline c)

include h

section

variable (ht : c.threads[i]? = some t)

include ht

theorem Discipline.advance (hstarted : o.started = [])
    (hreaders : o.shared.readers + reading t = c.shared.readers + reading o.thread)
    (hwriter : o.shared.writer.toNat + writing t = c.shared.writer.toNat + writing o.thread)
    (hactive : preparing o.thread + writing o.thread +
      c.shared.closed.toNat ≤ preparing t + writing t + o.shared.closed.toNat)
    (hown : Guarded o.shared o.thread) (hothers : ∀ (j : ℕ) (u : Thread τ), c.threads[j]? = some u →
      Guarded c.shared u → Guarded o.shared u)
    (hcancelled : o.shared.queue.cancelled = true → o.shared.closed = true)
    (hchan : o.shared.queue.chanClosed = true → o.shared.queue.cancelled = true) :
    Discipline (c.advance i o) := by
  have hr := total_advance (w := reading) (o := o) ht
  have hw := total_advance (w := writing) (o := o) ht
  have hp := total_advance (w := preparing) (o := o) ht
  rw [hstarted, map_nil, sum_nil] at hr hw hp
  refine ⟨?_, ?_, ?_, ?_, hcancelled, hchan⟩
  · have := h.readers
    simp only [Config.advance] at hr ⊢
    omega
  · have := h.writer
    simp only [Config.advance] at hw ⊢
    omega
  · have := h.active
    simp only [Config.advance] at hw hp ⊢
    omega
  · refine h.guarded.advance hown (fun j u _ hu => hothers j u hu) ?_
    intro j u _ hu
    rw [hstarted] at hu
    cases hu

theorem Discipline.advance_of_eq (hstarted : o.started = [])
    (hlock : o.shared.readers = c.shared.readers ∧
      o.shared.writer = c.shared.writer ∧ o.shared.closed = c.shared.closed)
    (hqueue : o.shared.queue.cancelled = c.shared.queue.cancelled ∧
      o.shared.queue.chanClosed = c.shared.queue.chanClosed)
    (hreading : reading o.thread = reading t)
    (hwriting : writing o.thread = writing t ∧ preparing o.thread = preparing t)
    (hown : Guarded o.shared o.thread) : Discipline (c.advance i o) := by
  refine h.advance ht hstarted ?_ ?_ ?_ hown ?_ ?_ ?_
  · rw [hlock.1, hreading]
  · rw [hlock.2.1, hwriting.1]
  · rw [hlock.2.2, hwriting.1, hwriting.2]
  · intro j u _ hu
    exact hu.of_eq (fun hzero => hlock.1.trans hzero) hqueue.1
  · rw [hqueue.1, hlock.2.2]
    exact h.closed_of_cancelled
  · rw [hqueue.1, hqueue.2]
    exact h.cancelled_of_chanClosed

theorem Discipline.writer_of_writing (hwriting : writing t = 1) : c.shared.writer = true := by
  have hle : writing t ≤ c.total writing := le_total ht
  have heq := h.writer
  cases hw : c.shared.writer with
  | true => rfl
  | false =>
    rw [hw, Bool.toNat_false] at heq
    omega

theorem Discipline.closed_of_active
    (hactive : preparing t + writing t = 1) : c.shared.closed = true := by
  have hw : writing t ≤ c.total writing := le_total ht
  have hp : preparing t ≤ c.total preparing := le_total ht
  have hle := h.active
  cases hc : c.shared.closed with
  | true => rfl
  | false =>
    rw [hc, Bool.toNat_false] at hle
    omega

end

theorem Discipline.not_reading (hzero : c.shared.readers = 0)
    (ht : c.threads[i]? = some t) : reading t = 0 := by
  have hle : reading t ≤ c.total reading := le_total ht
  have heq := h.readers
  omega

theorem Discipline.submit {task : Option τ} {timeout : Option ℤ} {st st' : Submit}
    (ht : c.threads[i]? = some (.submit task timeout st))
    (hstep : c.shared.SubmitStep i st e' st') :
    Discipline (c.advance i ⟨e', .submit task timeout st', []⟩) := by
  have hguarded := h.guarded i _ ht
  cases hstep with
  | rlock hwriter =>
    apply h.advance ht rfl rfl rfl le_rfl
    · simp [Guarded, Submit.pending]
    · -- Nobody is past an announced `Lock`.
      intro j u hu hold
      cases u with
      | shutdown st =>
        cases st with
        | locked =>
          have := h.writer_of_writing hu rfl
          rw [hwriter] at this
          cases this
        | _ => exact hold
      | _ => exact hold
    · exact h.closed_of_cancelled
    · exact h.cancelled_of_chanClosed
  | @runlock r =>
    have hread : reading (.submit task timeout (.unlocking r)) ≤
      c.total reading := le_total ht
    apply h.advance ht rfl
    · have := h.readers
      simp only [reading] at hread ⊢
      omega
    · rfl
    · exact le_rfl
    · simp [Guarded, Submit.pending]
    · intro j u _ hold
      exact hold.of_eq (fun hzero => by simp [hzero]) rfl
    · exact h.closed_of_cancelled
    · exact h.cancelled_of_chanClosed
  | send hsend =>
    apply h.advance_of_eq ht rfl ⟨rfl, rfl, rfl⟩
    · exact send_flags hsend
    · rfl
    · exact ⟨rfl, rfl⟩
    · intro _
      rw [(send_flags hsend).1]
      exact hguarded rfl
  | pass hopen =>
    apply h.advance_of_eq ht rfl ⟨rfl, rfl, rfl⟩ ⟨rfl, rfl⟩ rfl ⟨rfl, rfl⟩
    intro _
    by_contra hcancelled
    rw [h.closed_of_cancelled (by simpa using hcancelled)] at hopen
    cases hopen
  | count =>
    apply h.advance_of_eq ht rfl ⟨rfl, rfl, rfl⟩
    · exact ⟨rfl, rfl⟩
    · rfl
    · exact ⟨rfl, rfl⟩
    · intro _
      exact hguarded rfl
  | _ =>
    apply h.advance_of_eq ht rfl ⟨rfl, rfl, rfl⟩ ⟨rfl, rfl⟩ rfl ⟨rfl, rfl⟩
    simp [Guarded, Submit.pending]

theorem Discipline.shutdown {st st' : Shutdown}
    (ht : c.threads[i]? = some (.shutdown st)) (hstep : c.shared.ShutdownStep st e' st') :
    Discipline (c.advance i ⟨e', .shutdown st', []⟩) := by
  have hguarded := h.guarded i _ ht
  cases hstep with
  | shut hopen =>
    apply h.advance ht rfl rfl rfl
    · simp [preparing, writing, hopen]
    · trivial
    · intro j u _ hold
      exact hold.of_eq id rfl
    · intro _
      rfl
    · exact h.cancelled_of_chanClosed
  | announce =>
    -- This goroutine is the one that may write, so no other one does.
    have hzero : c.shared.writer = false := by
      have hle : @preparing τ (.shutdown .locking) ≤ c.total preparing := le_total ht
      have hactive := h.active
      have heq := h.writer
      have hbound := Bool.toNat_le c.shared.closed
      simp only [preparing] at hle
      cases hw : c.shared.writer with
      | false => rfl
      | true =>
        rw [hw, Bool.toNat_true] at heq
        omega
    apply h.advance ht rfl rfl
    · simp [writing, hzero]
    · simp [preparing, writing]
    · trivial
    · intro j u _ hold
      exact hold.of_eq id rfl
    · exact h.closed_of_cancelled
    · exact h.cancelled_of_chanClosed
  | cancel =>
    apply h.advance ht rfl rfl rfl le_rfl
    · rfl
    · -- No reader is left, so no `Submit` is about to send.
      intro j u hu hold
      cases u with
      | submit task timeout st =>
        intro hpending
        have hreading := h.not_reading hguarded hu
        cases st <;> simp_all [reading, Submit.pending]
      | shutdown st =>
        cases st with
        | locked => exact hold
        | _ => trivial
      | _ => trivial
    · intro _
      exact h.closed_of_active ht rfl
    · intro _
      rfl
  | close =>
    apply h.advance ht rfl rfl rfl le_rfl
    · exact (close_cancelled _).trans hguarded
    · intro j u _ hold
      exact hold.of_eq id (close_cancelled _)
    · rw [close_cancelled]
      exact h.closed_of_cancelled
    · intro _
      exact (close_cancelled _).trans hguarded
  | unlock =>
    have hset := h.writer_of_writing ht rfl
    apply h.advance ht rfl rfl
    · simp [writing, hset]
    · simp [preparing, writing]
    · exact hguarded
    · intro j u _ hold
      exact hold.of_eq id rfl
    · exact h.closed_of_cancelled
    · exact h.cancelled_of_chanClosed
  | _ =>
    apply h.advance_of_eq ht rfl ⟨rfl, rfl, rfl⟩ ⟨rfl, rfl⟩ rfl ⟨rfl, rfl⟩
    trivial

theorem Discipline.step (ht : c.threads[i]? = some t)
    (hnext : c.shared.next i t b = some o) : Discipline (c.advance i o) := by
  obtain ⟨-, hstarted, hstep⟩ := step_of_next hnext
  obtain ⟨e', t', started⟩ := o
  obtain rfl : started = [] := hstarted
  cases hstep with
  | submit hst => exact h.submit ht hst
  | worker hst | submitBatch hst =>
    apply h.advance_of_eq ht rfl ⟨rfl, rfl, rfl⟩
    · exact hst.flags
    · rfl
    · exact ⟨rfl, rfl⟩
    · trivial
  | shutdown hst => exact h.shutdown ht hst

theorem Discipline.spawn (hentry : entry t = true) : Discipline (c.spawn t) := by
  have hzero : reading t = 0 ∧ writing t = 0 ∧ preparing t = 0 ∧ Guarded c.shared t := by
    cases t with
    | worker => cases hentry
    | submit task timeout st | shutdown st =>
      obtain rfl : st = .called := by simpa [entry] using hentry
      exact ⟨rfl, rfl, rfl, by simp [Guarded, Submit.pending]⟩
    | submitBatch => exact ⟨rfl, rfl, rfl, trivial⟩
  obtain ⟨hreading, hwriting, hpreparing, hguarded⟩ := hzero
  constructor
  · rw [total_spawn, hreading]
    exact h.readers
  · rw [total_spawn, hwriting]
    exact h.writer
  · rw [total_spawn, total_spawn, hwriting, hpreparing]
    exact h.active
  · exact h.guarded.spawn hguarded
  · exact h.closed_of_cancelled
  · exact h.cancelled_of_chanClosed

end

theorem total_newExecutor {w : Thread τ → ℕ} (hw : w (.worker .idle) = 0) (workers queueSize : ℤ) :
    (newExecutor τ workers queueSize).total w = 0 := by
  simp [total, newExecutor, hw]

theorem discipline_newExecutor (workers queueSize : ℤ) :
    Discipline (newExecutor τ workers queueSize) := by
  constructor
  · rw [total_newExecutor rfl]
    rfl
  · rw [total_newExecutor rfl]
    rfl
  · rw [total_newExecutor rfl, total_newExecutor rfl]
    exact le_rfl
  · intro i t ht
    obtain rfl := eq_of_mem_replicate (mem_of_getElem? ht)
    trivial
  · intro h
    cases h
  · intro h
    cases h

end Fluxor.Concurrency.Executor
