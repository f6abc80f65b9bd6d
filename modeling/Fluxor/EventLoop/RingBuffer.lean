import Fluxor.Support.Transition
import Mathlib.Data.Nat.Bitwise

/-!
# The disruptor ring buffer

`RingBuffer` of `pkg/core/eventloop/ringbuffer.go`, which
`pkg/hft/protocol/disruptor.go` repeats word for word, with its two consumers,
`EventLoop.run` and `EventProcessor.run`. A step is one atomic operation: the two
loads and the compare-and-swap of `Next`, the two stores of `Publish`, and the test,
load, handler call and store of the consumer.

Sequences are integers here. The source keeps them in `int64`, where those of a run with
less than `2 ^ 63` claims are (`InInt64`).
-/

namespace Fluxor.EventLoop

open Fluxor.Transition

/-- The shared memory of a ring. Every index is masked, so no slot outside is addressed. -/
structure RingBuffer (ε : Type*) where
  buffer : ℕ → Option ε
  available : ℕ → ℤ
  bufferSize : ℕ
  (cursor gating : ℤ)

namespace RingBuffer

variable {ε : Type*}

/-- `NewRingBuffer`, which panics unless the size is a positive power of
two. -/
def newRingBuffer (size : ℕ) : Option (RingBuffer ε) :=
  if size ≤ 0 ∨ size &&& (size - 1) ≠ 0 then none
  else some
    { buffer := fun _ => none
      available := fun _ => -1
      bufferSize := size
      cursor := -1
      gating := -1 }

variable (rb : RingBuffer ε)

def slot (sequence : ℤ) : ℕ := sequence.toNat &&& (rb.bufferSize - 1)

def get (sequence : ℤ) : Option ε := rb.buffer (rb.slot sequence)

def storePointer (sequence : ℤ) (event : ε) : RingBuffer ε :=
  { rb with buffer := Function.update rb.buffer (rb.slot sequence) event }

def storeAvailable (sequence : ℤ) : RingBuffer ε :=
  { rb with
    available := Function.update rb.available (rb.slot sequence) sequence }

def consume (sequence : ℤ) : RingBuffer ε :=
  { rb with gating := sequence }

end RingBuffer

/-- Where a producer is: the atomic operation it performs next; `storePointer` and
`storeAvailable` own their sequence. -/
inductive Producer (ε : Type*)
  | idle
  | loadCursor (event : ε)
  | loadGating (event : ε) (current : ℤ)
  | compareAndSwap (event : ε) (current : ℤ)
  | storePointer (event : ε) (sequence : ℤ)
  | storeAvailable (event : ε) (sequence : ℤ)

/-- The largest sequence that a producer has computed. -/
def Producer.sequence {ε : Type*} : Producer ε → ℤ
  | .idle | .loadCursor _ => -1
  | .loadGating _ current | .compareAndSwap _ current => current + 1
  | .storePointer _ sequence | .storeAvailable _ sequence => sequence

/-- The consumer is in `WaitFor`, or in the loop over the sequences from `seq` to `avail`. -/
inductive Consumer (ε : Type*)
  | waitFor (next : ℤ)
  | get (seq avail : ℤ)
  | handle (event : Option ε) (seq avail : ℤ)
  | consume (seq avail : ℤ)
  | stopped

/-- The largest sequence that the consumer computes in the loop. -/
def Consumer.sequence {ε : Type*} : Consumer ε → ℤ
  | .waitFor next => next
  | .get _ avail | .handle _ _ avail | .consume _ avail => avail + 1
  | .stopped => -1

/-- `EventLoop.run` consumes after every event, `EventProcessor.run` after the
batch. -/
inductive ConsumeMode
  | perEvent | perBatch

/-- A ring with its producers and its consumer. The last three fields are history:
who claimed each sequence for which event, the completed `Publish` calls, and the
handler calls. -/
structure Disruptor (ι ε : Type*) where
  rb : RingBuffer ε
  mode : ConsumeMode
  producer : ι → Producer ε
  consumer : Consumer ε
  claims : List (ι × ε)
  published : List ℤ
  handled : List (ℤ × Option ε)

/-- `call p ev` starts a `Next` followed by a `Publish` of `ev`; `stop` is a
`WaitFor` that finds its context ended. -/
inductive DisruptorAction (ι ε : Type*)
  | call (p : ι) (event : ε)
  | produce (p : ι)
  | consume | stop

namespace Disruptor

variable {ι ε : Type*} [DecidableEq ι] (s : Disruptor ι ε) (p : ι)

def setProducer (x : Producer ε) : Disruptor ι ε :=
  { s with producer := Function.update s.producer p x }

@[simp] theorem producer_setProducer_self (x : Producer ε) :
    (s.setProducer p x).producer p = x := by
  simp [setProducer]

theorem producer_setProducer_of_ne {p q : ι} (hq : q ≠ p) (x : Producer ε) :
    (s.setProducer p x).producer q = s.producer q := by
  simp [setProducer, hq]

/-- A successful compare-and-swap: the cursor moves on and `p` owns the new sequence. -/
def claim (ev : ε) (current : ℤ) : Disruptor ι ε :=
  { s.setProducer p (.storePointer ev (current + 1)) with
    rb := { s.rb with cursor := current + 1 }
    claims := s.claims ++ [(p, ev)] }

def writePointer (ev : ε) (sequence : ℤ) : Disruptor ι ε :=
  { s.setProducer p (.storeAvailable ev sequence) with
    rb := s.rb.storePointer sequence ev }

def markAvailable (sequence : ℤ) : Disruptor ι ε :=
  { s.setProducer p .idle with
    rb := s.rb.storeAvailable sequence
    published := s.published ++ [sequence] }

/-- The next atomic operation of producer `p`. `Next` gives up with `-1` when the
sequence one lap earlier has not been consumed, and starts over when another
producer moved the cursor first. -/
def produce : Option (Disruptor ι ε) :=
  match s.producer p with
  | .idle => none
  | .loadCursor ev => some (s.setProducer p (.loadGating ev s.rb.cursor))
  | .loadGating ev current =>
    if current + 1 - s.rb.bufferSize > s.rb.gating then
      some (s.setProducer p .idle)
    else some (s.setProducer p (.compareAndSwap ev current))
  | .compareAndSwap ev current =>
    if s.rb.cursor = current then some (s.claim p ev current)
    else some (s.setProducer p (.loadCursor ev))
  | .storePointer ev sequence => some (s.writePointer p ev sequence)
  | .storeAvailable _ sequence => some (s.markAvailable p sequence)

/-- The head of `for seq := next; seq <= avail; seq++`, after which `next` is
`avail + 1`. -/
def loopFrom (seq avail : ℤ) : Consumer ε :=
  if seq ≤ avail then .get seq avail else .waitFor (avail + 1)

/-- The next operation of the consumer. `WaitFor(next)` returns `next` itself, both
ends of the inner loop. -/
def consume : Option (Disruptor ι ε) :=
  match s.consumer with
  | .waitFor next =>
    if s.rb.available (s.rb.slot next) = next then
      some { s with consumer := loopFrom next next }
    else some s
  | .get seq avail => some { s with consumer := .handle (s.rb.get seq) seq avail }
  | .handle event seq avail =>
    let s' := { s with handled := s.handled ++ [(seq, event)] }
    match s.mode with
    | .perEvent => some { s' with consumer := .consume seq avail }
    | .perBatch =>
      if seq + 1 ≤ avail then
        some { s' with consumer := .get (seq + 1) avail }
      else some { s' with consumer := .consume avail avail }
  | .consume seq avail =>
    some { s with
      rb := s.rb.consume seq
      consumer := loopFrom (seq + 1) avail }
  | .stopped => none

def step : DisruptorAction ι ε → Option (Disruptor ι ε)
  | .call p ev =>
    match s.producer p with
    | .idle => some (s.setProducer p (.loadCursor ev))
    | _ => none
  | .produce p => s.produce p
  | .consume => s.consume
  | .stop =>
    match s.consumer with
    | .waitFor _ => some { s with consumer := .stopped }
    | _ => none

def init (rb : RingBuffer ε) (mode : ConsumeMode) : Disruptor ι ε where
  rb := rb
  mode := mode
  producer := fun _ => .idle
  consumer := .waitFor 0
  claims := []
  published := []
  handled := []

def Owns (sequence : ℤ) (event : ε) : Prop :=
  s.producer p = .storePointer event sequence ∨ s.producer p = .storeAvailable event sequence

/-- No sequence that is computed leaves `int64`. -/
structure InInt64 : Prop where
  ring : -1 ≤ s.rb.gating ∧ s.rb.gating ≤ s.rb.cursor ∧ s.rb.cursor < 2 ^ 63
  producers : ∀ p, -1 ≤ (s.producer p).sequence ∧ (s.producer p).sequence < 2 ^ 63
  consumer : -1 ≤ s.consumer.sequence ∧ s.consumer.sequence < 2 ^ 63

end Disruptor
end Fluxor.EventLoop
