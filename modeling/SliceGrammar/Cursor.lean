import SliceGrammar.Position
/-! A place in a byte buffer. A cursor is a plain value: moving it gives another cursor and the first
one stays good as a point to return to. The type does not say that the offset lies inside the buffer;
`advance` never leaves it, and every cursor in use is the start of a buffer advanced by some size. -/
namespace SliceGrammar

structure Cursor where
  source : Bytes
  position : Position
  deriving DecidableEq, Repr

namespace Cursor

def start (source : Bytes) (label : Option String) : Cursor := ⟨source,.start label⟩

abbrev offset (c : Cursor) : Nat := c.position.offset

def remaining (c : Cursor) : Bytes := c.source.drop c.offset

def length (c : Cursor) : Nat := c.source.length - c.offset

def isEmpty (c : Cursor) : Bool := c.length == 0

def peek (c : Cursor) (limit : Option Nat) : Bytes :=
  match limit with
  | some n => c.remaining.take n
  | none => c.remaining

def advance (c : Cursor) (n : Nat) : Cursor := { c with position := c.position.steps (c.peek (some n)) }

/- The bytes of this cursor's buffer from here to the offset of the other cursor; none of them when
that range is not inside the buffer. -/
def sliceTo (c other : Cursor) : Bytes :=
  if c.offset ≤ other.offset ∧ other.offset ≤ c.source.length then
    (c.source.drop c.offset).take (other.offset - c.offset)
  else []

def Reachable (c : Cursor) : Prop := ∃ source label n, c = (start source label).advance n

@[simp] theorem advanceSource (c : Cursor) (n : Nat) : (c.advance n).source = c.source := rfl

@[simp] theorem advanceOffset (c : Cursor) (n : Nat) : (c.advance n).offset = c.offset + min n c.length := by
  simp [advance,offset,peek,remaining,length]

@[simp] theorem advanceLabel (c : Cursor) (n : Nat) : (c.advance n).position.label = c.position.label := by
  simp [advance]

@[simp] theorem advanceZero (c : Cursor) : c.advance 0 = c := by
  simp [advance,peek,Position.steps]

@[simp] theorem advanceRemaining (c : Cursor) (n : Nat) : (c.advance n).remaining = c.remaining.drop n := by
  have moved := advanceOffset c n
  simp only [remaining,advanceSource,moved,List.drop_drop,length]
  by_cases inside : n ≤ c.source.length - c.offset
  · rw [Nat.min_eq_left inside]
  · rw [Nat.min_eq_right (by omega)]
    rw [List.drop_eq_nil_of_le (by omega),List.drop_eq_nil_of_le (by omega)]

@[simp] theorem advanceAdvance (c : Cursor) (m n : Nat) : (c.advance m).advance n = c.advance (m + n) := by
  have rest : (c.advance m).remaining = c.remaining.drop m := advanceRemaining c m
  simp only [advance,peek] at rest ⊢
  rw [rest,← Position.stepsAppend,← List.take_add]

@[simp] theorem lengthRemaining (c : Cursor) : c.remaining.length = c.length := by
  simp [remaining,length]

theorem lengthAgrees {c d : Cursor} (same : c.remaining = d.remaining) : c.length = d.length := by
  rw [← lengthRemaining,same,lengthRemaining]

@[simp] theorem advanceLength (c : Cursor) (n : Nat) : (c.advance n).length = c.length - min n c.length := by
  rw [← lengthRemaining,advanceRemaining,List.length_drop,lengthRemaining]
  omega

theorem reachableStart (source : Bytes) (label : Option String) : Reachable (start source label) :=
  ⟨source,label,0,(advanceZero _).symm⟩

theorem reachableAdvance {c : Cursor} (reachable : Reachable c) (n : Nat) : Reachable (c.advance n) := by
  obtain ⟨source,label,m,rfl⟩ := reachable
  exact ⟨source,label,m + n,advanceAdvance _ m n⟩

theorem reachableInside {c : Cursor} (reachable : Reachable c) : c.offset ≤ c.source.length := by
  obtain ⟨source,label,n,rfl⟩ := reachable
  rw [advanceOffset,advanceSource]
  simp only [start,offset,Position.start,length]
  omega

end Cursor

end SliceGrammar
