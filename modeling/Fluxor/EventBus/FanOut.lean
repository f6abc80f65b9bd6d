import Fluxor.Concurrency.Mailbox
import Fluxor.Support.Slice
import Fluxor.Support.Transition

/-!
# Publishing while consumers unregister

`eventBus.Publish` copies the slice header of an address under the read lock and
then sends to the consumers without it. `consumer.Unregister` closes its gap in
place, in the same backing array, and closes the mailbox. A step is one locked
section of `Unregister`, its `Close`, or one `Send` of the publishing loop.
-/

namespace Fluxor.EventBus

open Fluxor.Concurrency Fluxor.Support Fluxor.Transition List Slice

/-- What one `mailbox.Send` of the publishing loop returned. -/
inductive SendResult
  | ok | full | closed
  deriving DecidableEq

/-- The publishing goroutine: not started, in the loop with the captured length `n`
at index `i`, or returned. -/
inductive PublishState (μ : Type*)
  | idle
  | sending (msg : μ) (n i : ℕ)
  | returned (err : Option ContextError)

/-- The bus for one address. `captured` and `sends` are history: the consumers when
the header was copied, and the outcome of every `Send` of the loop. -/
structure FanOut (κ μ : Type*) where
  consumers : Slice κ
  mailbox : κ → Mailbox μ
  holder : Option κ
  ctxErr : Option ContextError
  publish : PublishState μ
  captured : List κ
  sends : List (κ × SendResult)

/-- The steps of the publishing loop and of `Unregister`, and what other goroutines
do to the mailboxes. -/
inductive FanOutAction (κ μ : Type*)
  | publishStart (msg : μ)
  | publishStep
  | unregister (c : κ)
  | unregisterClose
  | receive (c : κ)
  | otherSend (c : κ) (msg : μ)

namespace FanOut

variable {κ μ : Type*} [DecidableEq κ] (s : FanOut κ μ) (c : κ)

def setMailbox (mb : Mailbox μ) : FanOut κ μ :=
  { s with mailbox := Function.update s.mailbox c mb }

def record (r : SendResult) : FanOut κ μ :=
  { s with sends := s.sends ++ [(c, r)] }

/-- One iteration of `for _, c := range consumers`: the length was fixed at the
start, the element is read from the array now. -/
def publishStep (msg : μ) (n i : ℕ) : FanOut κ μ :=
  if i < n then
    match s.consumers.backing[i]? with
    | none => s
    | some c =>
      match (s.mailbox c).send msg with
      | .ok mb =>
        { (s.setMailbox c mb).record c .ok with
          publish := .sending msg n (i + 1) }
      | .error .full => { s.record c .full with publish := .sending msg n (i + 1) }
      | .error .closed => { s.record c .closed with publish := .returned s.ctxErr }
  else { s with publish := .returned none }

/-- The steps of the system. `holder` is the consumer whose `Unregister` is between
its slice update and its `Close`; it holds `eb.mu`. -/
def step : FanOutAction κ μ → Option (FanOut κ μ)
  | .publishStart msg =>
    match s.publish, s.holder with
    | .idle, none =>
      some { s with
        publish := .sending msg s.consumers.len 0
        captured := s.consumers.toList }
    | _, _ => none
  | .publishStep =>
    match s.publish with
    | .sending msg n i => some (s.publishStep msg n i)
    | _ => none
  | .unregister c =>
    match s.holder with
    | none => some { s with
        consumers := s.consumers.remove c
        holder := some c }
    | some _ => none
  | .unregisterClose =>
    match s.holder with
    | none => none
    | some c => some { s.setMailbox c (s.mailbox c).close with holder := none }
  | .receive c =>
    match (s.mailbox c).tryReceive with
    | .ok (some (_, mb)) => some (s.setMailbox c mb)
    | _ => none
  | .otherSend c msg =>
    match (s.mailbox c).send msg with
    | .ok mb => some (s.setMailbox c mb)
    | .error _ => none

/-- The bus before the `Publish`: `consumers` are registered, the array has unused
cells, and no mailbox is closed. -/
def init (consumers spare : List κ) (mailbox : κ → Mailbox μ)
    (ctxErr : Option ContextError) : FanOut κ μ where
  consumers := Slice.ofList consumers spare
  mailbox := mailbox
  holder := none
  ctxErr := ctxErr
  publish := .idle
  captured := []
  sends := []

def Registered : Prop := c ∈ s.consumers.toList

instance : Decidable (s.Registered c) := inferInstanceAs (Decidable (c ∈ s.consumers.toList))

def NeverFull : Prop := (c, SendResult.full) ∉ s.sends

instance : Decidable (s.NeverFull c) := inferInstanceAs (Decidable ((c, SendResult.full) ∉ s.sends))

def copies : ℕ := s.sends.count (c, SendResult.ok)

/-- A consumer that was registered when the header was copied and still is has at
most one copy, and once the `Publish` has returned exactly one unless its mailbox
was full. -/
def ExactlyOnce : Prop :=
  ∀ c ∈ s.captured, s.Registered c → s.copies c ≤ 1 ∧
      ∀ err, s.publish = .returned err → s.NeverFull c → s.copies c = 1

/-- While the loop runs, an `Unregister` writes to no unread cell: the consumer is
the last registered one, or not registered, or the loop has reached the last
registered position. -/
def NoShiftAhead : FanOutAction κ μ → Prop
  | .unregister c =>
    match s.publish with
    | .sending _ _ i =>
      s.consumers.toList.idxOf c + 1 = s.consumers.len ∨ ¬s.Registered c ∨ s.consumers.len ≤ i + 1
    | _ => True
  | _ => True

instance (a : FanOutAction κ μ) : Decidable (s.NoShiftAhead a) := by
  cases a with
  | unregister =>
    unfold NoShiftAhead
    cases s.publish <;> infer_instance
  | _ => exact .isTrue trivial

/-! ## The invariant of the loop -/

/-- The loop at index `i` of `n` captured cells: the unread cells are as captured,
the sends so far went to the consumers before `i`, and every registered consumer is
among these or still ahead. A registered consumer beyond the current header can only
be in cell `i` itself. -/
structure Sending (s : FanOut κ μ) (n i : ℕ) : Prop where
  nodup : s.captured.Nodup
  length_eq : s.captured.length = n
  index_le : i ≤ n
  len_le : s.consumers.len ≤ n
  unread : ∀ j, i ≤ j → j < n → s.consumers.backing[j]? = s.captured[j]?
  sent : s.sends.map Prod.fst = s.captured.take i
  live : ∀ c, s.Registered c → c ∈ s.captured.take i ∨
    ∃ j, i ≤ j ∧ j < max s.consumers.len (i + 1) ∧ s.captured[j]? = some c

/-- After the loop, every registered consumer was sent to exactly once. -/
def Covered : Prop := ∀ c, s.Registered c → (s.sends.map Prod.fst).count c = 1

structure Inv (s : FanOut κ μ) : Prop where
  nodup : s.consumers.toList.Nodup
  live_open : ∀ c, s.Registered c → (s.mailbox c).closed = false
  holder_gone : ∀ c, s.holder = some c → ¬s.Registered c
  closed_gone : ∀ c, (c, SendResult.closed) ∈ s.sends → ¬s.Registered c
  idle : s.publish = .idle → s.captured = [] ∧ s.sends = []
  sending : ∀ msg n i, s.publish = .sending msg n i → s.Sending n i
  returned : ∀ err, s.publish = .returned err → s.Covered

theorem inv_init {consumers : List κ} (spare : List κ) {mailbox : κ → Mailbox μ}
    (ctxErr : Option ContextError) (hnodup : consumers.Nodup)
    (hopen : ∀ c ∈ consumers, (mailbox c).closed = false) :
    Inv (init consumers spare mailbox ctxErr) where
  nodup := by simpa [init] using hnodup
  live_open := by
    intro c hc
    exact hopen c (by simpa [Registered, init] using hc)
  holder_gone := by simp [init]
  closed_gone := by simp [init]
  idle := by simp [init]
  sending := by simp [init]
  returned := by simp [init]

variable {s : FanOut κ μ} {c : κ}

theorem inv_setMailbox (hs : Inv s) {mb : Mailbox μ} (hmb : mb.closed = (s.mailbox c).closed) :
    Inv (s.setMailbox c mb) where
  nodup := hs.nodup
  live_open := by
    intro d hd
    by_cases hdc : d = c
    · subst hdc
      simpa [setMailbox, hmb] using hs.live_open d hd
    · simpa [setMailbox, hdc] using hs.live_open d hd
  holder_gone := hs.holder_gone
  closed_gone := hs.closed_gone
  idle := hs.idle
  sending := by
    intro msg n i h
    obtain ⟨h1, h2, h3, h4, h5, h6, h7⟩ := hs.sending msg n i h
    exact ⟨h1, h2, h3, h4, h5, h6, h7⟩
  returned := hs.returned

variable {n i : ℕ}

omit [DecidableEq κ] in
theorem Sending.advance {r : SendResult} (h : s.Sending n i) (hi : i < n)
    (hc : s.consumers.backing[i]? = some c) (p : PublishState μ) :
    Sending { s.record c r with publish := p } n (i + 1) := by
  have hcap : s.captured[i]? = some c := by rwa [← h.unread i (Nat.le_refl i) hi]
  have htake : s.captured.take (i + 1) = s.captured.take i ++ [c] := by
    rw [take_add_one, hcap]
    rfl
  refine ⟨h.nodup, h.length_eq, hi, h.len_le, ?_, ?_, ?_⟩
  · intro j hj hjn
    exact h.unread j (Nat.le_of_succ_le hj) hjn
  · have hsent := h.sent
    change (s.sends ++ [(c, r)]).map Prod.fst = s.captured.take (i + 1)
    rw [map_append, hsent, htake]
    rfl
  · intro d hd
    change d ∈ s.captured.take (i + 1) ∨ _
    rw [htake]
    rcases h.live d hd with hd | ⟨j, hij, hj, hjd⟩
    · exact Or.inl (mem_append_left _ hd)
    · rcases Nat.eq_or_lt_of_le hij with rfl | hlt
      · grind
      · refine Or.inr ⟨j, hlt, ?_, hjd⟩
        change j < max s.consumers.len (i + 1 + 1)
        omega

theorem Sending.count_eq_one (h : s.Sending n i) (hc : c ∈ s.captured.take i) :
    (s.sends.map Prod.fst).count c = 1 := by
  rw [h.sent]
  exact count_eq_one_of_mem (h.nodup.sublist (take_sublist i s.captured)) hc

theorem Sending.count_le_one (h : s.Sending n i) (c : κ) : (s.sends.map Prod.fst).count c ≤ 1 := by
  rw [h.sent]
  exact nodup_iff_count_le_one.mp (h.nodup.sublist (take_sublist i s.captured)) c

/-! ## Preservation -/

theorem Inv.not_registered_of_closed (hs : Inv s) (hclosed : (s.mailbox c).closed = true) :
    ¬s.Registered c := by
  grind [live_open]

theorem Sending.passed_of_closed (hs : Inv s) (h : s.Sending n i)
    (hc : s.consumers.backing[i]? = some c) (hclosed : (s.mailbox c).closed = true) :
    ∀ d, s.Registered d → d ∈ s.captured.take i := by
  intro d hd
  rcases h.live d hd with hd' | ⟨j, hij, hj, hjd⟩
  · exact hd'
  · exfalso
    apply hs.not_registered_of_closed hclosed
    by_cases hlen : i < s.consumers.len
    · have hget : s.consumers.toList[i]? = some c := by rwa [s.consumers.getElem?_toList hlen]
      exact mem_of_getElem? hget
    grind [length_eq, unread]

theorem inv_record (hs : Inv s) {msg : μ} {r : SendResult} (hp : s.publish = .sending msg n i)
    (hi : i < n) (hc : s.consumers.backing[i]? = some c) (hr : r ≠ .closed) :
    Inv { s.record c r with publish := .sending msg n (i + 1) } := by
  refine ⟨hs.nodup, hs.live_open, hs.holder_gone, ?_, by simp, ?_, by simp⟩
  · intro d hd
    simp only [record, mem_append, mem_singleton, Prod.mk.injEq] at hd
    rcases hd with hd | ⟨-, hrc⟩
    · exact hs.closed_gone d hd
    · exact absurd hrc.symm hr
  grind [Sending.advance, Inv.sending]

theorem inv_record_closed (hs : Inv s) (h : s.Sending n i) (hc : s.consumers.backing[i]? = some c)
    (hclosed : (s.mailbox c).closed = true) (err : Option ContextError) :
    Inv { s.record c .closed with publish := .returned err } := by
  have hgone := hs.not_registered_of_closed hclosed
  have hpassed := h.passed_of_closed hs hc hclosed
  refine ⟨hs.nodup, hs.live_open, hs.holder_gone, ?_, by simp, by simp, ?_⟩
  · intro d hd
    simp only [record, mem_append, mem_singleton, Prod.mk.injEq, and_true] at hd
    rcases hd with hd | rfl
    · exact hs.closed_gone d hd
    · exact hgone
  · intro _ _ d hd
    have hone := h.count_eq_one (hpassed d hd)
    have hne : c ≠ d := by
      rintro rfl
      exact hgone hd
    grind [record]

theorem inv_publishEnd (hs : Inv s) (h : s.Sending n i) (hi : ¬i < n) :
    Inv { s with publish := .returned none } := by
  refine ⟨hs.nodup, hs.live_open, hs.holder_gone, hs.closed_gone, by simp, by simp, ?_⟩
  intro err _ d hd
  rcases h.live d hd with hd | ⟨j, hij, -, hjd⟩ <;> grind [Sending.count_eq_one, Sending.length_eq]

theorem inv_publishStep (hs : Inv s) {msg : μ} (hp : s.publish = .sending msg n i) :
    Inv (s.publishStep msg n i) := by
  have h := hs.sending msg n i hp
  rw [publishStep]
  split
  · rename_i hi
    split
    · exact hs
    · rename_i c hc
      rcases (s.mailbox c).send_cases msg with
        ⟨hclosed, he⟩ | ⟨-, -, he⟩ | ⟨hopen, -, mb, he, hmb, -⟩
      · simp only [he]
        exact inv_record_closed hs h hc hclosed _
      · simp only [he]
        exact inv_record hs hp hi hc (by decide)
      · simp only [he]
        have hset : Inv (s.setMailbox c mb) := inv_setMailbox hs (by rw [hmb, hopen])
        exact inv_record hset hp hi hc (by decide)
  · rename_i hi
    exact inv_publishEnd hs h hi

theorem inv_publishStart (hs : Inv s) (hidle : s.publish = .idle) (msg : μ) : Inv { s with
      publish := .sending msg s.consumers.len 0
      captured := s.consumers.toList } := by
  obtain ⟨-, hsends⟩ := hs.idle hidle
  refine ⟨hs.nodup, hs.live_open, hs.holder_gone, hs.closed_gone, by simp, ?_, by simp⟩
  intro msg' n i heq
  cases heq
  refine ⟨hs.nodup, length_toList _, Nat.zero_le _, Nat.le_refl _, ?_, ?_, ?_⟩
  · grind [getElem?_toList]
  · simp [hsends]
  · intro c hc
    obtain ⟨j, hj, hjc⟩ := mem_iff_getElem.mp hc
    refine Or.inr ⟨j, Nat.zero_le j, ?_, ?_⟩
    · grind [length_toList]
    · exact List.getElem?_eq_some_iff.mpr ⟨hj, hjc⟩

theorem Sending.unregister (hs : Inv s) (h : s.Sending n i)
    (hguard : s.consumers.toList.idxOf c + 1 = s.consumers.len ∨
      ¬s.Registered c ∨ s.consumers.len ≤ i + 1) (p : Option κ) :
    Sending { s with consumers := s.consumers.remove c, holder := p } n i := by
  have hlen := len_remove_le s.consumers c
  refine ⟨h.nodup, h.length_eq, h.index_le, Nat.le_trans hlen h.len_le, ?_, h.sent, ?_⟩
  · intro j hij hjn
    rw [← h.unread j hij hjn]
    change (s.consumers.remove c).backing[j]? = _
    rw [remove]
    split
    next hidx =>
      rcases hguard with hlast | hgone | hpast
      · rw [backing_removeAt_last _ _ hidx hlast]
      · rw [← s.consumers.length_toList, idxOf_lt_length_iff] at hidx
        exact absurd hidx hgone
      grind [getElem?_removeAt_of_le]
    · rfl
  · intro d hd
    rcases h.live d (mem_of_mem_remove hd) with hd' | ⟨j, hij, hj, hjd⟩
    · exact Or.inl hd'
    · refine Or.inr ⟨j, hij, ?_, hjd⟩
      change j < max (s.consumers.remove c).len (i + 1)
      rcases Nat.eq_or_lt_of_le hij with rfl | hlt
      · omega
      · have hjlen : j < s.consumers.len := by omega
        have hjn : j < n := Nat.lt_of_lt_of_le hjlen h.len_le
        have hget : s.consumers.toList[j]? = some d := by grind [getElem?_toList, unread]
        rw [remove]
        split
        next hidx =>
          have hmem : s.Registered c := by
            rw [← s.consumers.length_toList] at hidx
            exact idxOf_lt_length_iff.mp hidx
          have hne : j ≠ s.consumers.toList.idxOf c := by
            rintro rfl
            rw [getElem?_idxOf hmem] at hget
            cases hget
            exact not_mem_remove hs.nodup c hd
          rcases hguard with hlast | hgone | hpast
          · rw [len_removeAt]
            omega
          · exact absurd hmem hgone
          · omega
        · omega

theorem inv_unregister (hs : Inv s) (hguard : s.NoShiftAhead (.unregister c)) :
    Inv { s with consumers := s.consumers.remove c, holder := some c } := by
  refine ⟨?_, ?_, ?_, ?_, hs.idle, ?_, ?_⟩
  · grind [toList_remove, Inv.nodup]
  · intro d hd
    exact hs.live_open d (mem_of_mem_remove hd)
  · intro d hd hreg
    cases hd
    exact not_mem_remove hs.nodup c hreg
  · intro d hd hreg
    exact hs.closed_gone d hd (mem_of_mem_remove hreg)
  · grind [NoShiftAhead, Sending.unregister, Inv.sending]
  · intro err hp d hd
    exact hs.returned err hp d (mem_of_mem_remove hd)

theorem inv_unregisterClose (hs : Inv s) (hc : s.holder = some c) :
    Inv { s.setMailbox c (s.mailbox c).close with holder := none } := by
  have hgone := hs.holder_gone c hc
  refine ⟨hs.nodup, ?_, by simp, hs.closed_gone, hs.idle, ?_, hs.returned⟩
  · intro d hd
    have hdc : d ≠ c := by
      rintro rfl
      exact hgone hd
    simpa [setMailbox, hdc] using hs.live_open d hd
  · intro msg n i hp
    obtain ⟨h1, h2, h3, h4, h5, h6, h7⟩ := hs.sending msg n i hp
    exact ⟨h1, h2, h3, h4, h5, h6, h7⟩

theorem inv_step {t : FanOut κ μ} {a : FanOutAction κ μ} (hs : Inv s) (hguard : s.NoShiftAhead a)
    (hstep : s.step a = some t) : Inv t := by
  cases a with
  | publishStart => grind [step, inv_publishStart]
  | publishStep => grind [step, inv_publishStep]
  | unregister => grind [step, inv_unregister]
  | unregisterClose => grind [step, inv_unregisterClose]
  | receive => grind [step, inv_setMailbox, Mailbox.tryReceive_closed_of_ok]
  | otherSend => grind [step, inv_setMailbox, Mailbox.send_closed_of_ok]

/-! ## Delivery -/

theorem copies_le_count (s : FanOut κ μ) (c : κ) : s.copies c ≤ (s.sends.map Prod.fst).count c := by
  rw [copies, count, count, countP_map]
  apply countP_mono_left
  grind

theorem copies_eq_one (hcount : (s.sends.map Prod.fst).count c = 1) (hfull : s.NeverFull c)
    (hclosed : (c, SendResult.closed) ∉ s.sends) : s.copies c = 1 := by
  rw [← hcount, copies, count, count, countP_map]
  apply countP_congr
  rintro ⟨d, r⟩ hmem
  simp only [beq_iff_eq, Prod.mk.injEq, Function.comp_apply]
  constructor
  · rintro ⟨rfl, -⟩
    rfl
  · rintro rfl
    refine ⟨rfl, ?_⟩
    cases r with
    | ok => rfl
    | full => exact absurd hmem hfull
    | closed => exact absurd hmem hclosed

theorem exactlyOnce_of_inv (hs : Inv s) : s.ExactlyOnce := by
  intro c hcap hreg
  have hclosed : (c, SendResult.closed) ∉ s.sends := by
    intro h
    exact hs.closed_gone c h hreg
  cases hp : s.publish with
  | idle =>
    rw [(hs.idle hp).1] at hcap
    cases hcap
  | sending msg n i =>
    refine ⟨?_, by simp⟩
    exact Nat.le_trans (copies_le_count s c) ((hs.sending msg n i hp).count_le_one c)
  | returned err =>
    have hone := hs.returned err hp c hreg
    grind [copies_le_count, copies_eq_one]

/-- If each `Unregister` during the loop removes the last registered consumer, or an
unknown one, or comes when the loop has reached the last registered position, every
consumer that stays registered gets exactly one copy. -/
theorem publish_exactlyOnce {consumers : List κ} (spare : List κ) {mailbox : κ → Mailbox μ}
    (ctxErr : Option ContextError) (hnodup : consumers.Nodup)
    (hopen : ∀ c ∈ consumers, (mailbox c).closed = false) {acts : List (FanOutAction κ μ)}
    {s : FanOut κ μ} (hrun : Run step NoShiftAhead (init consumers spare mailbox ctxErr) acts s) :
    s.ExactlyOnce :=
  exactlyOnce_of_inv (hrun.invariant inv_step (inv_init spare ctxErr hnodup hopen))

def fresh (consumers : List ℕ) : FanOut ℕ Unit :=
  init consumers [] (fun _ => ⟨[], 100, false, Nat.zero_le 100⟩) none

/-- The last of three consumers unregisters while the loop is at the second: the
loop stops at the closed mailbox and the other two have one copy each. -/
theorem publish_exactlyOnce_last : ((exec step NoShiftAhead (fresh [0, 1, 2])
      [.publishStart (), .publishStep, .unregister 2, .unregisterClose,
        .publishStep, .publishStep]).get (by decide)).copies 1 = 1 := by
  have hrun := run_exec step NoShiftAhead (fresh [0, 1, 2])
    [.publishStart (), .publishStep, .unregister 2, .unregisterClose,
      .publishStep, .publishStep] (by decide)
  have hone := publish_exactlyOnce [] none (by decide) (by simp) hrun
  exact (hone 1 (by decide) (by decide)).2 none rfl (by decide)

/-- Of two consumers the first unregisters before the loop starts: the second is in
both captured cells and gets the message twice. -/
theorem publish_duplicates_after_shift : ¬∀ (acts : List (FanOutAction ℕ Unit)) (s : FanOut ℕ Unit),
      Run step anyStep (fresh [0, 1]) acts s → s.ExactlyOnce := by
  intro h
  have hrun := run_exec step anyStep (fresh [0, 1])
    [.publishStart (), .unregister 0, .unregisterClose,
      .publishStep, .publishStep, .publishStep] (by decide)
  have htwice := (h _ _ hrun 1 (by decide) (by decide)).1
  revert htwice
  decide

example : (exec step anyStep (fresh [0, 1, 2])
      [.publishStart (), .publishStep, .unregister 0, .unregisterClose,
        .publishStep, .publishStep]).map (fun s => s.sends) =
      some [(0, .ok), (2, .ok), (2, .ok)] := by decide

end FanOut
end Fluxor.EventBus
