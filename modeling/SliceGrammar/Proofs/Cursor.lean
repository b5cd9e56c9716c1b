import SliceGrammar.Cursor
/-! Cursors further on in the same input. A cursor reaches another when it comes there by advancing; the
slice between the two is then what was advanced over, and slices of one stretch after another join up.
Between any other two cursors the offsets alone decide what the slice is. -/
namespace SliceGrammar.Cursor

def Reaches (c tail : Cursor) : Prop := ∃ k, k ≤ c.length ∧ tail = c.advance k

theorem advanceClamp (c : Cursor) (n : Nat) : c.advance n = c.advance (min n c.length) := by
  simp only [advance,peek,← lengthRemaining]
  by_cases inside : n ≤ c.remaining.length
  · rw [Nat.min_eq_left inside]
  · rw [Nat.min_eq_right (by omega),List.take_of_length_le (by omega),List.take_length]

theorem reachesAdvance (c : Cursor) (n : Nat) : c.Reaches (c.advance n) :=
  ⟨min n c.length,Nat.min_le_right n c.length,advanceClamp c n⟩

theorem reachesRefl (c : Cursor) : c.Reaches c := ⟨0,Nat.zero_le _,(advanceZero c).symm⟩

theorem reachesTrans {c middle tail : Cursor} (first : c.Reaches middle) (second : middle.Reaches tail) :
    c.Reaches tail := by
  obtain ⟨m,_,rfl⟩ := first
  obtain ⟨n,_,rfl⟩ := second
  simpa using reachesAdvance c (m + n)

theorem reachesLength {c tail : Cursor} (reached : c.Reaches tail) : tail.length ≤ c.length := by
  obtain ⟨k,_,rfl⟩ := reached
  rw [advanceLength]
  omega

theorem reachesSame {c tail : Cursor} (reached : c.Reaches tail) (still : tail.length = c.length) : tail = c := by
  obtain ⟨k,inside,rfl⟩ := reached
  rw [advanceLength] at still
  have none : k = 0 := by omega
  simp [none]

theorem reachesFrame {c tail : Cursor} (reached : c.Reaches tail) :
    tail.source = c.source ∧ tail.position.label = c.position.label ∧ c.offset ≤ tail.offset := by
  obtain ⟨k,_,rfl⟩ := reached
  refine ⟨advanceSource c k,advanceLabel c k,?_⟩
  simp

theorem advanceUnique {c : Cursor} {m n : Nat} (left : m ≤ c.length) (right : n ≤ c.length)
    (same : c.advance m = c.advance n) : m = n := by
  have offsets := congrArg offset same
  rw [advanceOffset,advanceOffset,Nat.min_eq_left left,Nat.min_eq_left right] at offsets
  exact Nat.add_left_cancel offsets

@[simp] theorem sliceAdvance (c : Cursor) (n : Nat) : c.sliceTo (c.advance n) = c.remaining.take n := by
  have moved := advanceOffset c n
  unfold sliceTo
  split
  · rw [moved,Nat.add_sub_cancel_left,← lengthRemaining]
    change c.remaining.take (min n c.remaining.length) = c.remaining.take n
    rw [← List.take_take,List.take_length]
  · rename_i outside
    have empty : c.remaining = [] := by
      rw [remaining,List.drop_eq_nil_iff]
      simp only [moved,length] at outside
      omega
    rw [empty,List.take_nil]

@[simp] theorem sliceSelf (c : Cursor) : c.sliceTo c = [] := by
  have none := sliceAdvance c 0
  simpa using none

theorem reachesRemaining {c tail : Cursor} (reached : c.Reaches tail) : c.remaining = c.sliceTo tail ++ tail.remaining := by
  obtain ⟨k,_,rfl⟩ := reached
  simp

theorem sliceAppend {c middle tail : Cursor} (first : c.Reaches middle) (second : middle.Reaches tail) :
    c.sliceTo tail = c.sliceTo middle ++ middle.sliceTo tail := by
  obtain ⟨m,_,rfl⟩ := first
  obtain ⟨n,_,rfl⟩ := second
  rw [advanceAdvance,sliceAdvance,sliceAdvance]
  rw [← advanceAdvance,sliceAdvance,advanceRemaining,List.take_add]

theorem remainingPast {c : Cursor} {bytes rest : Bytes} (ahead : c.remaining = bytes ++ rest) :
    (c.advance bytes.length).remaining = rest := by
  simp [ahead]

theorem slicePast {c : Cursor} {bytes rest : Bytes} (ahead : c.remaining = bytes ++ rest) :
    c.sliceTo (c.advance bytes.length) = bytes := by
  simp [ahead]

theorem advanceAppend (c : Cursor) (left right : Bytes) :
    c.advance (left ++ right).length = (c.advance left.length).advance right.length := by
  simp

section Offsets

variable {x y z : Cursor}

theorem sliceOutside (outside : ¬(x.offset ≤ y.offset ∧ y.offset ≤ x.source.length)) : x.sliceTo y = [] :=
  if_neg outside

theorem sliceInside (ordered : x.offset ≤ y.offset) (inside : y.offset ≤ x.source.length) :
    x.sliceTo y = x.remaining.take (y.offset - x.offset) :=
  if_pos ⟨ordered,inside⟩

theorem sliceLength (ordered : x.offset ≤ y.offset) (inside : y.offset ≤ x.source.length) :
    (x.sliceTo y).length = y.offset - x.offset := by
  have enough : y.offset - x.offset ≤ x.length := Nat.sub_le_sub_right inside x.offset
  simp [sliceInside ordered inside,Nat.min_eq_left enough]

theorem sourceFrom (ordered : x.offset ≤ y.offset) :
    x.source.drop y.offset = x.remaining.drop (y.offset - x.offset) := by
  rw [remaining,List.drop_drop,Nat.add_sub_cancel' ordered]

theorem sliceParts (ordered : x.offset ≤ y.offset) (inside : y.offset ≤ x.source.length) :
    x.source = x.source.take x.offset ++ x.sliceTo y ++ x.source.drop y.offset := by
  have ahead : x.sliceTo y ++ x.source.drop y.offset = x.remaining := by
    rw [sliceInside ordered inside,sourceFrom ordered,List.take_append_drop]
  rw [List.append_assoc,ahead,remaining,List.take_append_drop]

theorem sliceJoined (same : y.source = x.source) (first : x.offset ≤ y.offset) (second : y.offset ≤ z.offset)
    (inside : z.offset ≤ x.source.length) : x.sliceTo y ++ y.sliceTo z = x.sliceTo z := by
  have ahead : y.remaining = x.remaining.drop (y.offset - x.offset) := by
    rw [← sourceFrom first,remaining,same]
  have widths : z.offset - x.offset = (y.offset - x.offset) + (z.offset - y.offset) := by omega
  rw [sliceInside first (Nat.le_trans second inside),sliceInside second (same ▸ inside),
    sliceInside (Nat.le_trans first second) inside,ahead,widths,List.take_add]

end Offsets

theorem movesAndSlicesFit :
    (∀ (c : Cursor) (m n : Nat),
      (c.advance m).advance n = c.advance (m + n) ∧ c.sliceTo (c.advance n) = c.peek (some n) ∧
      c.peek (some n) ++ (c.advance n).peek none = c.peek none ∧
      (c.advance n).length = c.length - min n c.length) ∧
    (∀ x y z : Cursor, y.source = x.source → z.source = x.source → z.Reachable →
      x.offset ≤ y.offset → y.offset ≤ z.offset → x.sliceTo y ++ y.sliceTo z = x.sliceTo z) ∧
    ∀ x y : Cursor,
      (¬(x.offset ≤ y.offset ∧ y.offset ≤ x.source.length) → x.sliceTo y = []) ∧
      (x.offset ≤ y.offset ∧ y.offset ≤ x.source.length →
        (x.sliceTo y).length = y.offset - x.offset ∧
        x.source = x.source.take x.offset ++ x.sliceTo y ++ x.source.drop y.offset) := by
  refine ⟨?_,?_,?_⟩
  · intro c m n
    refine ⟨advanceAdvance c m n,sliceAdvance c n,?_,advanceLength c n⟩
    simp [peek]
  · intro x y z left right reachable first second
    have inside : z.offset ≤ x.source.length := right ▸ reachableInside reachable
    exact sliceJoined left first second inside
  · intro x y
    refine ⟨sliceOutside,?_⟩
    intro within
    exact ⟨sliceLength within.1 within.2,sliceParts within.1 within.2⟩

theorem labelsApartFit :
    let line : Bytes := [0x61,0x0D,0x0A,0xC3,0xA9]
    let x := (start line (some "left")).advance 1
    let y := (start line none).advance 3
    let z := (start line (some "right")).advance 0xFFFFFFFFFFFFFFFF
    let foreign := start (List.replicate 7 0x78) none
    z.Reachable ∧ x.offset ≤ y.offset ∧ y.offset ≤ z.offset ∧ x.sliceTo y ++ y.sliceTo z = x.sliceTo z ∧
    x.source.length < (foreign.advance 7).offset ∧ x.sliceTo (foreign.advance 7) = [] ∧
    x.offset ≤ (foreign.advance 3).offset ∧ (foreign.advance 3).offset ≤ x.source.length ∧
    line = [0x61] ++ x.sliceTo (foreign.advance 3) ++ [0xC3,0xA9] := by
  intro line x y z foreign
  obtain ⟨_,joined,exactly⟩ := movesAndSlicesFit
  have reachable : z.Reachable := ⟨line,some "right",0xFFFFFFFFFFFFFFFF,rfl⟩
  have within : x.offset ≤ (foreign.advance 3).offset ∧ (foreign.advance 3).offset ≤ x.source.length := by decide
  obtain ⟨_,parts⟩ := (exactly x (foreign.advance 3)).2 within
  exact ⟨reachable,by decide,by decide,joined x y z rfl rfl reachable (by decide) (by decide),
    by decide,(exactly x (foreign.advance 7)).1 (by decide),within.1,within.2,parts⟩

end SliceGrammar.Cursor
