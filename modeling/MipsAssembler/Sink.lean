import MipsAssembler.Text.Bytes

/-!
# Sinks

A sink takes bytes until its capacity is used up. A write that does not fit stores what does and
fails; a smaller one may still succeed afterwards.
-/

namespace MipsAssembler

/-- Where output goes. -/
structure Sink where
  /-- The bytes it takes in all; without a capacity it takes any number. -/
  capacity : Option Nat := none
  /-- The bytes it holds. -/
  contents : Array UInt8 := #[]
  deriving DecidableEq, Repr

namespace Sink

/-- Whether a write of `n` bytes fits. -/
def fits (s : Sink) (n : Nat) : Bool :=
  match s.capacity with
  | none => true
  | some capacity => s.contents.size + n ≤ capacity

/-- The part of a write that is stored. -/
def stored (s : Sink) (bytes : Bytes) : Bytes :=
  match s.capacity with
  | none => bytes
  | some capacity => bytes.take (capacity - s.contents.size)

/-- The sink after a write, whether it fits or not. -/
def push (s : Sink) (bytes : Bytes) : Sink :=
  let stored := s.stored bytes
  { s with contents := s.contents ++ stored }

/-- Writes bytes: the sink afterwards, and whether all of them were stored. -/
def write (s : Sink) (bytes : Bytes) : Sink × Bool :=
  let fits := s.fits bytes.length
  (s.push bytes, fits)

@[simp] theorem capacity_push (s : Sink) (bytes : Bytes) : (s.push bytes).capacity = s.capacity :=
  rfl

/-- A write that fits is stored whole. -/
theorem contents_push_of_fits {s : Sink} {bytes : Bytes} (h : s.fits bytes.length) :
    (s.push bytes).contents = s.contents ++ bytes := by
  unfold fits at h
  unfold push stored
  split at h
  · simp [*]
  · next c hc =>
    have : bytes.take (c - s.contents.size) = bytes :=
      List.take_of_length_le (by simp at h; omega)
    simp [this]

end Sink

end MipsAssembler
