import Fluxor.Concurrency.Shutdown
import Fluxor.Concurrency.WorkerPool
import Fluxor.Concurrency.MailboxChannel

/-!
# Sends on closed channels

The executor, the worker pool and the mailbox each close a channel that other
goroutines send on. `Submit` of the executor is protected by the lock. `SubmitBatch`
of the executor, `Submit` and `SubmitBatch` of the worker pool, and `Send` of the
mailbox test a flag and then send: a close between the two makes the send panic. A
worker pool that is started again even accepts calls while its channel is closed.

No send panics if a channel is closed only while no such call is between its test
and its last send, and the pool is not started again (`Quiet`).
-/

namespace Fluxor.Concurrency

open Goroutines Config Transition List Executor Bool

def Batch.inWindow : Batch → ℕ
  | .sending _ _ | .counting _ _ => 1
  | _ => 0

/-- No send has met the closed channel, and none of the `window` calls before their
sends is about to. -/
structure Unbroken (q : TaskQueue) (window : ℕ) : Prop where
  panic : q.panic ≠ some .sendOnClosed
  window : q.chanClosed = true → window = 0

section Unbroken

variable {q q' : TaskQueue} {n m : ℕ}

section

variable (h : Unbroken q n)

include h

theorem Unbroken.of_eq (hclosed : q'.chanClosed = q.chanClosed)
    (hpanic : q'.panic = q.panic) (hwindow : q.chanClosed = true → m ≤ n) : Unbroken q' m := by
  constructor
  · rw [hpanic]
    exact h.panic
  · intro hq'
    have hq : q.chanClosed = true := hclosed.symm.trans hq'
    have hn := h.window hq
    have hm := hwindow hq
    omega

theorem Unbroken.send {k : Ticket} (hsend : q.send k = some q')
    (hopen : q.chanClosed = false) : Unbroken q' m := by
  rcases TaskQueue.send_cases hsend with ⟨hclosed, -⟩ | ⟨-, rfl⟩
  · rw [hopen] at hclosed
    cases hclosed
  · refine ⟨h.panic, fun hclosed => ?_⟩
    rw [hopen] at hclosed
    cases hclosed

theorem Unbroken.close (hm : m = 0) : Unbroken q.close m := by
  refine ⟨?_, fun _ => hm⟩
  rcases q.close_cases with hq | hq <;> rw [hq]
  · simp
  · exact h.panic

theorem Unbroken.batch {i : ℕ} {running : Bool} {st st' : Batch}
    (hstep : Batch.Step i running q st q' st') (hrunning : q.chanClosed = true → running = false)
    (hle : st.inWindow ≤ n) (htotal : st.inWindow + m = n + st'.inWindow) : Unbroken q' m := by
  cases hstep with
  | send hsend =>
    apply h.send hsend
    by_contra hclosed
    have hzero := h.window (by simpa using hclosed)
    simp only [Batch.inWindow] at hle
    omega
  | enter hopen =>
    apply h.of_eq rfl rfl
    intro hclosed
    rw [hrunning hclosed] at hopen
    cases hopen
  | _ =>
    apply h.of_eq
    · rfl
    · rfl
    · intro _
      simp only [Batch.inWindow] at htotal
      omega

end

end Unbroken

namespace Executor

variable {τ : Type*} {c : Config Executor (Thread τ)} {i : ℕ} {b : Branch}
  {t : Thread τ} {o : Outcome Executor (Thread τ)}

def unlocked : Thread τ → ℕ
  | .submitBatch _ st => st.inWindow
  | _ => 0

def isClosing : Thread τ → Bool
  | .shutdown .closing => true
  | _ => false

/-- The channel is closed only while no call is about to send without the
lock. -/
def Quiet (c : Config Executor (Thread τ)) : Move (Thread τ) Branch → Prop
  | .run i _ => (c.threads[i]?).any isClosing = true → c.total unlocked = 0
  | .spawn _ => True

instance (c : Config Executor (Thread τ)) (m : Move (Thread τ) Branch) : Decidable (Quiet c m) :=
  match m with
  | .spawn _ | .run _ _ => by delta Quiet; infer_instance

theorem unbroken_step (h : Unbroken c.shared.queue (c.total unlocked)) (hd : Discipline c)
    (hquiet : Quiet c (.run i b)) (ht : c.threads[i]? = some t)
    (hnext : c.shared.next i t b = some o) :
    Unbroken o.shared.queue ((c.advance i o).total unlocked) := by
  have htotal := total_advance (w := unlocked) (o := o) ht
  have hle := Config.le_total (w := unlocked) ht
  obtain ⟨-, hstarted, hstep⟩ := step_of_next hnext
  rw [hstarted, map_nil, sum_nil] at htotal
  generalize (c.advance i o).total unlocked = n at htotal ⊢
  obtain ⟨e', t', started⟩ := o
  cases hstep with
  | worker hw =>
    apply h.of_eq hw.flags.2 (by cases hw <;> rfl)
    simp only [unlocked] at htotal
    omega
  | submit hst =>
    simp only [unlocked] at htotal
    cases hst with
    | send hsend =>
      apply h.send hsend
      -- The channel is open while a `Submit` is selecting.
      have hopen := hd.guarded i _ ht rfl
      by_contra hclosed
      have := hd.cancelled_of_chanClosed (by simpa using hclosed)
      rw [hopen] at this
      cases this
    | _ => exact h.of_eq rfl rfl (by omega)
  | submitBatch hst =>
    apply h.batch hst
    · intro hclosed
      simp [hd.closed_of_cancelled (hd.cancelled_of_chanClosed hclosed)]
    · exact hle
    · exact htotal
  | shutdown hst =>
    simp only [unlocked] at htotal
    cases hst with
    | close =>
      apply h.close
      have := hquiet (by rw [ht]; rfl)
      omega
    | _ => exact h.of_eq rfl rfl (by omega)

def Safe (c : Config Executor (Thread τ)) : Prop :=
  Discipline c ∧ Unbroken c.shared.queue (c.total unlocked)

theorem safe_newExecutor (workers queueSize : ℤ) : Safe (newExecutor τ workers queueSize) := by
  refine ⟨discipline_newExecutor workers queueSize, ?_, ?_⟩
  · simp [newExecutor]
  · intro _
    exact total_newExecutor rfl workers queueSize

theorem Safe.of_step {c' : Config Executor (Thread τ)} {m : Move (Thread τ) Branch} (h : Safe c)
    (hquiet : Quiet c m) (hstep : (code τ).step c m = some c') : Safe c' := by
  rcases Code.step_cases hstep with
    ⟨t, rfl, hentry, rfl⟩ | ⟨i, b, t, o, rfl, ht, hnext, rfl⟩
  · refine ⟨h.1.spawn hentry, ?_⟩
    have hzero : unlocked t = 0 := by
      cases t with
      | submitBatch tasks st =>
        obtain rfl : st = .called := by simpa [code, entry] using hentry
        rfl
      | _ => rfl
    rw [total_spawn, hzero]
    exact h.2
  · exact ⟨h.1.step ht hnext, unbroken_step h.2 h.1 hquiet ht hnext⟩

end Executor

namespace WorkerPool

variable {τ : Type*} {c : Config WorkerPool (Thread τ)} {i : ℕ} {b : Branch}
  {t : Thread τ} {o : Outcome WorkerPool (Thread τ)}

def inWindow : Thread τ → ℕ
  | .submit _ .selecting => 1
  | .submitBatch _ st => st.inWindow
  | _ => 0

def stopping : Thread τ → ℕ
  | .stop .cancelling | .stop .closing => 1
  | _ => 0

def isClosing : Thread τ → Bool
  | .stop .closing => true
  | _ => false

def isStarting : Thread τ → Bool
  | .start .called => true
  | _ => false

/-- The channel is closed only while no call is about to send, and the pool is not
started again. -/
def Quiet (c : Config WorkerPool (Thread τ)) : Move (Thread τ) Branch → Prop
  | .run i _ =>
    ((c.threads[i]?).any isClosing = true → c.total inWindow = 0) ∧
      ((c.threads[i]?).any isStarting = true →
        c.shared.queue.chanClosed = false ∧ c.total stopping = 0)
  | .spawn _ => True

instance (c : Config WorkerPool (Thread τ)) (m : Move (Thread τ) Branch) :
    Decidable (Quiet c m) := by
  delta Quiet
  cases m <;> infer_instance

/-- In quiet runs the pool is running, or being stopped, or closed. -/
structure Safe (c : Config WorkerPool (Thread τ)) : Prop where
  phase : c.shared.running.toNat + c.total stopping + c.shared.queue.chanClosed.toNat ≤ 1
  unbroken : Unbroken c.shared.queue (c.total inWindow)

theorem Safe.running (h : Safe c) (hclosed : c.shared.queue.chanClosed = true) :
    c.shared.running = false := by
  have := h.phase
  rw [hclosed, toNat_true] at this
  cases hrunning : c.shared.running with
  | false => rfl
  | true =>
    rw [hrunning, toNat_true] at this
    omega

variable {started : List (Thread τ)}

theorem Step.started_eq_zero {p p' : WorkerPool} {t' : Thread τ} (h : Step i b p t p' t' started)
    {w : Thread τ → ℕ} (hw : w (.worker .idle) = 0) : (started.map w).sum = 0 := by
  cases h <;> simp [hw]

theorem Step.phase {p p' : WorkerPool} {t' : Thread τ} (h : Step i b p t p' t' started) :
    p'.running.toNat + stopping t' + p'.queue.chanClosed.toNat ≤
        p.running.toNat + stopping t + p.queue.chanClosed.toNat ∨
      t = .start .called ∧ stopping t' = 0 ∧ p'.queue.chanClosed = p.queue.chanClosed := by
  cases h with
  | worker hw =>
    rw [hw.flags.2]
    exact .inl le_rfl
  | send hsend =>
    rw [(TaskQueue.send_flags hsend).2]
    exact .inl le_rfl
  | submitBatch hst =>
    rw [hst.flags.2]
    exact .inl le_rfl
  | start => exact .inr ⟨rfl, rfl, rfl⟩
  | stop hrunning =>
    left
    simp only [stopping, hrunning, toNat_true, toNat_false]
    omega
  | close =>
    left
    have := toNat_le p.queue.close.chanClosed
    simp only [stopping]
    omega
  | _ => exact .inl le_rfl

section

variable (h : Safe c) (hquiet : Quiet c (.run i b)) (ht : c.threads[i]? = some t)
    (hnext : c.shared.next i t b = some o)

include h hquiet ht hnext

theorem phase_step : o.shared.running.toNat + (c.advance i o).total stopping +
      o.shared.queue.chanClosed.toNat ≤ 1 := by
  have htotal := total_advance (w := stopping) (o := o) ht
  have hphase := h.phase
  obtain ⟨-, hstep⟩ := step_of_next hnext
  rw [hstep.started_eq_zero rfl] at htotal
  rcases hstep.phase with hle | ⟨rfl, hzero, hclosed⟩
  · omega
  · obtain ⟨hopen, hnone⟩ := hquiet.2 (by rw [ht]; rfl)
    have := toNat_le o.shared.running
    rw [hclosed, hopen, toNat_false]
    omega

theorem unbroken_step : Unbroken o.shared.queue ((c.advance i o).total inWindow) := by
  have htotal := total_advance (w := inWindow) (o := o) ht
  have hle := Config.le_total (w := inWindow) ht
  obtain ⟨-, hstep⟩ := step_of_next hnext
  rw [hstep.started_eq_zero rfl] at htotal
  generalize (c.advance i o).total inWindow = n at htotal ⊢
  obtain ⟨p', t', started⟩ := o
  cases hstep with
  | worker hw =>
    apply h.unbroken.of_eq hw.flags.2 (by cases hw <;> rfl)
    simp only [inWindow] at htotal
    omega
  | pass hrunning =>
    apply h.unbroken.of_eq rfl rfl
    intro hclosed
    rw [h.running hclosed] at hrunning
    cases hrunning
  | send hsend =>
    apply h.unbroken.send hsend
    by_contra hclosed
    have hzero := h.unbroken.window (by simpa using hclosed)
    simp only [inWindow] at hle
    omega
  | submitBatch hst => exact h.unbroken.batch hst h.running hle htotal
  | close =>
    apply h.unbroken.close
    have hzero := hquiet.1 (by rw [ht]; rfl)
    simp only [inWindow] at htotal
    omega
  | _ =>
    apply h.unbroken.of_eq
    · rfl
    · rfl
    · intro _
      simp only [inWindow] at htotal
      omega

end

theorem Safe.of_step {c' : Config WorkerPool (Thread τ)} {m : Move (Thread τ) Branch} (h : Safe c)
    (hquiet : Quiet c m) (hstep : (code τ).step c m = some c') : Safe c' := by
  rcases Code.step_cases hstep with
    ⟨t, rfl, hentry, rfl⟩ | ⟨i, b, t, o, rfl, ht, hnext, rfl⟩
  · have hzero : inWindow t = 0 ∧ stopping t = 0 := by
      cases t with
      | worker => exact ⟨rfl, rfl⟩
      | submit task st | submitBatch tasks st | start st | stop st =>
        obtain rfl : st = .called := by simpa [code, entry] using hentry
        exact ⟨rfl, rfl⟩
    constructor
    · rw [total_spawn, hzero.2]
      exact h.phase
    · rw [total_spawn, hzero.1]
      exact h.unbroken
  · exact ⟨phase_step h hquiet ht hnext, unbroken_step h hquiet ht hnext⟩

theorem safe_newWorkerPool (workers queueSize : ℤ) : Safe (newWorkerPool τ workers queueSize) := by
  refine ⟨Nat.zero_le 1, ?_, ?_⟩
  · simp [newWorkerPool]
  · intro hclosed
    cases hclosed

end WorkerPool

namespace MailboxChannel

variable {μ : Type*} {c : Config (MailboxChannel μ) (Thread μ)} {i : ℕ}
  {b : Branch} {t : Thread μ} {o : Outcome (MailboxChannel μ) (Thread μ)}

def inWindow : Thread μ → ℕ
  | .send _ .selecting => 1
  | _ => 0

def isClosing : Thread μ → Bool
  | .close .closing => true
  | _ => false

def Quiet (c : Config (MailboxChannel μ) (Thread μ)) : Move (Thread μ) Branch → Prop
  | .run i _ => (c.threads[i]?).any isClosing = true → c.total inWindow = 0
  | .spawn _ => True

instance (c : Config (MailboxChannel μ) (Thread μ))
    (m : Move (Thread μ) Branch) : Decidable (Quiet c m) := by
  delta Quiet
  cases m <;> infer_instance

def closing : Thread μ → ℕ
  | .close .closing => 1
  | _ => 0

structure Safe (c : Config (MailboxChannel μ) (Thread μ)) : Prop where
  panic : c.shared.panic ≠ some .sendOnClosed
  window : c.shared.chanClosed = true → c.total inWindow = 0
  shut : c.shared.chanClosed = true → c.shared.closed = true
  closing : c.total closing ≤ c.shared.closed.toNat

theorem Safe.step (h : Safe c) (hquiet : Quiet c (.run i b)) (ht : c.threads[i]? = some t)
    (hnext : c.shared.next i t b = some o) : Safe (c.advance i o) := by
  have hwindow := total_advance (w := inWindow) (o := o) ht
  have hclosing := total_advance (w := MailboxChannel.closing) (o := o) ht
  have hle := Config.le_total (w := inWindow) ht
  have hle' := Config.le_total (w := MailboxChannel.closing) ht
  obtain ⟨-, hstarted, hstep⟩ := step_of_next hnext
  rw [hstarted, map_nil, sum_nil] at hwindow hclosing
  suffices hsuffices : o.shared.panic ≠ some .sendOnClosed ∧
      (o.shared.chanClosed = true → (c.advance i o).total inWindow = 0) ∧
      (o.shared.chanClosed = true → o.shared.closed = true) ∧
      (c.advance i o).total MailboxChannel.closing ≤ o.shared.closed.toNat from
    ⟨hsuffices.1, hsuffices.2.1, hsuffices.2.2.1, hsuffices.2.2.2⟩
  generalize (c.advance i o).total inWindow = n at hwindow ⊢
  generalize (c.advance i o).total MailboxChannel.closing = m at hclosing ⊢
  obtain ⟨mb', t', started⟩ := o
  have hold := h.closing
  have hkeep : MailboxChannel.closing t' ≤ MailboxChannel.closing t →
      m ≤ c.shared.closed.toNat := by
    intro hless
    simp only at hclosing
    omega
  cases hstep with
  | pass hopen =>
    refine ⟨h.panic, ?_, h.shut, hkeep le_rfl⟩
    intro hclosed
    rw [h.shut hclosed] at hopen
    cases hopen
  | panic hclosed =>
    have hzero := h.window hclosed
    simp only [inWindow] at hle
    omega
  | shut hopen =>
    refine ⟨h.panic, ?_, fun _ => rfl, ?_⟩
    · intro hclosed
      rw [h.shut hclosed] at hopen
      cases hopen
    · simp only [MailboxChannel.closing, hopen, toNat_true,
        toNat_false] at hclosing hold ⊢
      omega
  | closeTwice hclosed =>
    refine ⟨by simp, ?_, h.shut, hkeep (Nat.zero_le _)⟩
    intro _
    have hzero := h.window hclosed
    simp only [inWindow] at hwindow
    omega
  | close =>
    have hzero := hquiet (by rw [ht]; rfl)
    refine ⟨h.panic, ?_, ?_, hkeep (Nat.zero_le _)⟩
    · intro _
      simp only [inWindow] at hwindow
      omega
    · intro _
      simp only [MailboxChannel.closing] at hle'
      cases hshut : c.shared.closed with
      | true => rfl
      | false =>
        rw [hshut, toNat_false] at hold
        omega
  | _ =>
    refine ⟨h.panic, ?_, h.shut, hkeep le_rfl⟩
    intro hclosed
    have hzero := h.window hclosed
    simp only [inWindow] at hwindow
    omega

theorem Safe.of_step {c' : Config (MailboxChannel μ) (Thread μ)} {m : Move (Thread μ) Branch}
    (h : Safe c) (hquiet : Quiet c m) (hstep : (code μ).step c m = some c') : Safe c' := by
  rcases Code.step_cases hstep with
    ⟨t, rfl, hentry, rfl⟩ | ⟨i, b, t, o, rfl, ht, hnext, rfl⟩
  · have hzero : inWindow t = 0 ∧ MailboxChannel.closing t = 0 := by
      cases t with
      | send msg st | close st =>
        cases st with
        | called => exact ⟨rfl, rfl⟩
        | _ => cases hentry
      | _ => exact ⟨rfl, rfl⟩
    refine ⟨h.panic, ?_, h.shut, ?_⟩
    · rw [total_spawn, hzero.1]
      exact h.window
    · rw [total_spawn, hzero.2]
      exact h.closing
  · exact h.step hquiet ht hnext

theorem safe_newBoundedMailbox {capacity : ℕ} (h : newBoundedMailbox μ capacity = some c) :
    Safe c := by
  unfold newBoundedMailbox at h
  split at h
  · cases h
  · cases h
    refine ⟨by simp, ?_, ?_, Nat.zero_le _⟩
    all_goals
      intro hclosed
      cases hclosed

end MailboxChannel

structure Channels (τ μ : Type*) where
  executor : Config Executor (Executor.Thread τ)
  pool : Config WorkerPool (WorkerPool.Thread τ)
  mailbox : Config (MailboxChannel μ) (MailboxChannel.Thread μ)

namespace Channels

variable {τ μ : Type*}

inductive Action (τ μ : Type*)
  | executor (m : Move (Executor.Thread τ) Branch)
  | pool (m : Move (WorkerPool.Thread τ) Branch)
  | mailbox (m : Move (MailboxChannel.Thread μ) Branch)

variable (s : Channels τ μ)

def step : Action τ μ → Option (Channels τ μ)
  | .executor m => ((Executor.code τ).step s.executor m).map fun c => { s with executor := c }
  | .pool m => ((WorkerPool.code τ).step s.pool m).map fun c => { s with pool := c }
  | .mailbox m => ((MailboxChannel.code μ).step s.mailbox m).map fun c => { s with mailbox := c }

/-- A channel is closed only while no call is between its test of the flag and its
last send, and the pool is not started again. -/
def Quiet : Action τ μ → Prop
  | .executor m => Executor.Quiet s.executor m
  | .pool m => WorkerPool.Quiet s.pool m
  | .mailbox m => MailboxChannel.Quiet s.mailbox m

instance (a : Action τ μ) : Decidable (s.Quiet a) := by
  delta Quiet
  cases a <;> infer_instance

def NoSendOnClosed : Prop :=
  s.executor.shared.queue.panic ≠ some .sendOnClosed ∧
    s.pool.shared.queue.panic ≠ some .sendOnClosed ∧
    s.mailbox.shared.panic ≠ some .sendOnClosed

def Safe : Prop := Executor.Safe s.executor ∧ WorkerPool.Safe s.pool ∧ MailboxChannel.Safe s.mailbox

theorem Safe.step {s s' : Channels τ μ} {a : Action τ μ} (h : s.Safe) (hquiet : s.Quiet a)
    (hstep : s.step a = some s') : s'.Safe := by
  obtain ⟨hexecutor, hpool, hmailbox⟩ := h
  cases a <;> obtain ⟨c, hc, rfl⟩ := Option.map_eq_some_iff.mp hstep
  case executor => exact ⟨hexecutor.of_step hquiet hc, hpool, hmailbox⟩
  case pool => exact ⟨hexecutor, hpool.of_step hquiet hc, hmailbox⟩
  case mailbox => exact ⟨hexecutor, hpool, hmailbox.of_step hquiet hc⟩

theorem noSendOnClosed_of_quiet {workers queueSize workers' queueSize' : ℤ} {capacity : ℕ}
    {mailbox} {acts : List (Action τ μ)} {s : Channels τ μ}
    (hmailbox : MailboxChannel.newBoundedMailbox μ capacity = some mailbox)
    (h : Run step Quiet ⟨Executor.newExecutor τ workers queueSize,
      WorkerPool.newWorkerPool τ workers' queueSize', mailbox⟩ acts s) : s.NoSendOnClosed := by
  have hinit : Safe ⟨newExecutor τ workers queueSize,
      WorkerPool.newWorkerPool τ workers' queueSize', mailbox⟩ :=
    ⟨safe_newExecutor workers queueSize, WorkerPool.safe_newWorkerPool workers' queueSize',
      MailboxChannel.safe_newBoundedMailbox hmailbox⟩
  obtain ⟨hexecutor, hpool, hbox⟩ := h.invariant
    (fun hsafe hquiet hstep => hsafe.step hquiet hstep) hinit
  exact ⟨hexecutor.2.panic, hpool.unbroken.panic, hbox.panic⟩

/-- A batch, a task and a message are sent, and then all three are closed. -/
theorem noSendOnClosed_of_quiet_closed : ∃ acts, ∃ s : Channels Unit Unit,
    Run step Quiet ⟨Executor.newExecutor Unit 1 1,
      WorkerPool.newWorkerPool Unit 1 1, ⟨{ capacity := 1 }, []⟩⟩ acts s ∧
      (s.executor.shared.queue.chanClosed = true ∧ s.pool.shared.queue.chanClosed = true ∧
        s.mailbox.shared.chanClosed = true) ∧ s.NoSendOnClosed := by
  have hmailbox : MailboxChannel.newBoundedMailbox Unit 1 = some ⟨{ capacity := 1 }, []⟩ := rfl
  refine ⟨_, exists_run_of [.executor (.spawn (submitBatch [some ()])),
      .executor (.run 1 .next), .executor (.run 1 .channel),
      .executor (.run 1 .next), .executor (.run 1 .next),
      .executor (.spawn shutdown), .executor (.run 2 .next),
      .executor (.run 2 .next), .executor (.run 2 .next),
      .executor (.run 2 .next), .executor (.run 2 .next),
      .pool (.spawn (.start .called)), .pool (.run 0 .next),
      .pool (.run 0 .next), .pool (.spawn (.submit (some ()) .called)),
      .pool (.run 2 .next), .pool (.run 2 .channel),
      .pool (.spawn (.stop .called)), .pool (.run 3 .next),
      .pool (.run 3 .next), .pool (.run 3 .next),
      .mailbox (.spawn (.send () .called)), .mailbox (.run 0 .next),
      .mailbox (.run 0 .channel), .mailbox (.spawn (.close .called)),
      .mailbox (.run 1 .next), .mailbox (.run 1 .next)]
      (fun s => s.executor.shared.queue.chanClosed = true ∧ s.pool.shared.queue.chanClosed = true ∧
      s.mailbox.shared.chanClosed = true)
      (by decide +kernel) ?_⟩
  intro s hrun hs
  exact ⟨hs, noSendOnClosed_of_quiet hmailbox hrun⟩

/-- A close that falls between a test and a send: `SubmitBatch` of the executor,
`Submit` of the pool and `Send` of the mailbox each panic. -/
theorem send_on_closed :
    (∃ acts c, Run (Executor.code Unit).step anyStep (Executor.newExecutor Unit 1 1) acts c ∧
        c.shared.queue.panic = some .sendOnClosed) ∧
      (∃ acts c, Run (WorkerPool.code Unit).step anyStep
        (WorkerPool.newWorkerPool Unit 1 1) acts c ∧ c.shared.queue.panic = some .sendOnClosed) ∧
      ∃ acts c, Run (MailboxChannel.code Unit).step anyStep ⟨{ capacity := 1 }, []⟩ acts c ∧
          c.shared.panic = some .sendOnClosed := by
  refine ⟨⟨_, exists_run _ _ _
      [.spawn (submitBatch [some ()]), .run 1 .next,
        .spawn shutdown, .run 2 .next, .run 2 .next, .run 2 .next,
        .run 2 .next, .run 2 .next, .run 1 .channel] _ (by decide +kernel)⟩, ?_, ?_⟩
  · exact ⟨_, exists_run _ _ _
      [.spawn (.start .called), .run 0 .next, .run 0 .next,
        .spawn (.submit (some ()) .called), .run 2 .next,
        .spawn (.stop .called), .run 3 .next, .run 3 .next, .run 3 .next,
        .run 2 .channel] _ (by decide +kernel)⟩
  · exact ⟨_, exists_run _ _ _
      [.spawn (.send () .called), .run 0 .next, .spawn (.close .called),
        .run 1 .next, .run 1 .next, .run 0 .channel] _ (by decide +kernel)⟩

end Channels

end Fluxor.Concurrency
