import Mathlib.Data.List.Basic

/-!
# One-way streams

A conduit carries items in order from a writer to a reader. It is given by what
has been read and what is still in flight; what has been written is the two
together, so that nothing is lost, doubled or reordered by construction.
-/

universe u

/-- A one-way stream: what the reader has taken and what is in flight. -/
structure Conduit (α : Type u) where
  received : List α := []
  buffer : List α := []
  deriving DecidableEq

namespace Conduit

variable {α : Type u}

/-- All that has been written. -/
def sent (c : Conduit α) : List α := c.received ++ c.buffer

def write (c : Conduit α) (chunk : List α) : Conduit α :=
  { c with buffer := c.buffer ++ chunk }

/-- Take the first `n` items in flight. -/
def read (c : Conduit α) (n : Nat) : Conduit α where
  received := c.received ++ c.buffer.take n
  buffer := c.buffer.drop n

@[simp] theorem sent_write (c : Conduit α) (chunk : List α) :
    (c.write chunk).sent = c.sent ++ chunk := by
  simp [sent, write]

@[simp] theorem received_write (c : Conduit α) (chunk : List α) :
    (c.write chunk).received = c.received := rfl

@[simp] theorem length_buffer_write (c : Conduit α) (chunk : List α) :
    (c.write chunk).buffer.length = c.buffer.length + chunk.length :=
  List.length_append

@[simp] theorem sent_read (c : Conduit α) (n : Nat) : (c.read n).sent = c.sent := by
  simp [sent, read]

theorem received_read (c : Conduit α) (n : Nat) :
    (c.read n).received = c.received ++ c.buffer.take n := rfl

@[simp] theorem length_buffer_read (c : Conduit α) (n : Nat) :
    (c.read n).buffer.length = c.buffer.length - n :=
  List.length_drop

theorem received_prefix_sent (c : Conduit α) : c.received <+: c.sent :=
  List.prefix_append _ _

/-- A drained conduit has delivered everything. -/
theorem received_eq_sent {c : Conduit α} (h : c.buffer = []) : c.received = c.sent := by
  rw [sent, h, List.append_nil]

/-- A chunk at the front is what a read of its length takes. -/
theorem take_of_prefix {c : Conduit α} {chunk : List α} (h : chunk <+: c.buffer) :
    c.buffer.take chunk.length = chunk :=
  (List.prefix_iff_eq_take.mp h).symm

end Conduit
