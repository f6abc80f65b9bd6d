import Mathlib.Data.List.Basic

/-!
# Buffered writing

The writer of Go's `bufio` over a destination that takes every write. An
operation returns what it hands to the destination.
-/

namespace Fluxor.Support

structure BufWriter (β : Type*) where
  size : ℕ
  buf : List β

namespace BufWriter

variable {β : Type*}

def new (size : ℕ) : BufWriter β := ⟨size, []⟩

variable (w : BufWriter β) (p : List β)

def flush : List β × BufWriter β :=
  (w.buf, { w with buf := [] })

/-- `Write` to an empty buffer: what does not fit goes to the destination
directly. -/
def writeEmpty : List β × BufWriter β :=
  if p.length ≤ w.size then ([], { w with buf := p })
  else (p, { w with buf := [] })

/-- `Write`. When the data does not fit, the buffer is filled up and flushed first:
at most two rounds. -/
def write : List β × BufWriter β :=
  let available := w.size - w.buf.length
  if p.length ≤ available then ([], { w with buf := w.buf ++ p })
  else if w.buf = [] then w.writeEmpty p
  else
    let (out, w') := w.writeEmpty (p.drop available)
    (w.buf ++ p.take available ++ out, w')

theorem writeEmpty_append : (w.writeEmpty p).1 ++ (w.writeEmpty p).2.buf = p := by
  rw [writeEmpty]
  split <;> simp

theorem write_append : (w.write p).1 ++ (w.write p).2.buf = w.buf ++ p := by
  simp only [write]
  split
  · rfl
  · split
    next hempty => rw [writeEmpty_append, hempty, List.nil_append]
    · simp only [List.append_assoc, writeEmpty_append, List.take_append_drop]

end BufWriter
end Fluxor.Support
