import SliceGrammar.Utf8.Encoding
/-! Where a cursor stands: a byte offset with a line and a column, both counted from 1, and the name
of the input if it has one. Columns count bytes. A line feed opens the next line and a carriage
return leaves the column alone, so the two together end a line once. -/
namespace SliceGrammar

structure Position where
  offset : Nat
  line : Nat
  column : Nat
  label : Option String
  deriving DecidableEq, Repr

namespace Position

def start (label : Option String) : Position := ⟨0,1,1,label⟩

def step (p : Position) (byte : UInt8) : Position :=
  if byte = 10 then { p with offset := p.offset + 1, line := p.line + 1, column := 1 }
  else if byte = 13 then { p with offset := p.offset + 1 }
  else { p with offset := p.offset + 1, column := p.column + 1 }

def steps (p : Position) (bytes : Bytes) : Position := bytes.foldl step p

def display (p : Position) : String :=
  match p.label with
  | some label => label ++ ":" ++ toString p.line ++ ":" ++ toString p.column
  | none => toString p.line ++ ":" ++ toString p.column

@[simp] theorem stepOffset (p : Position) (byte : UInt8) : (p.step byte).offset = p.offset + 1 := by
  unfold step
  split
  · rfl
  · split <;> rfl

@[simp] theorem stepLabel (p : Position) (byte : UInt8) : (p.step byte).label = p.label := by
  unfold step
  split
  · rfl
  · split <;> rfl

theorem stepsAppend (p : Position) (left right : Bytes) :
    p.steps (left ++ right) = (p.steps left).steps right := by
  simp [steps]

@[simp] theorem stepsOffset (p : Position) (bytes : Bytes) : (p.steps bytes).offset = p.offset + bytes.length := by
  induction bytes generalizing p with
  | nil => rfl
  | cons byte bytes ih =>
      have next := ih (p.step byte)
      simp only [steps,List.foldl_cons,List.length_cons] at next ⊢
      rw [next,stepOffset]; omega

@[simp] theorem stepsLabel (p : Position) (bytes : Bytes) : (p.steps bytes).label = p.label := by
  induction bytes generalizing p with
  | nil => rfl
  | cons byte bytes ih =>
      have next := ih (p.step byte)
      simp only [steps,List.foldl_cons] at next ⊢
      simp [next]

end Position

end SliceGrammar
