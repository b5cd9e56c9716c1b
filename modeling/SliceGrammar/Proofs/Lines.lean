import SliceGrammar.Cursor
/-! Lines and columns as counts. A position is moved byte by byte; where it comes to is told here by the bytes before
it as a whole: the line by the line feeds among them, the column by what stands after the last of these.
Moving on never goes back in that order, and stands still only over carriage returns. -/
namespace SliceGrammar

namespace Position

def lastLine : Bytes → Bytes
  | [] => []
  | b :: rest => if 10 ∈ rest then lastLine rest else if b = 10 then rest else b :: rest

theorem lastLineWhole {bytes : Bytes} (unbroken : 10 ∉ bytes) : lastLine bytes = bytes := by
  cases bytes with
  | nil => rfl
  | cons b rest =>
    obtain ⟨other,later⟩ := not_or.mp (mt List.mem_cons.mpr unbroken)
    rw [lastLine,if_neg later,if_neg (Ne.symm other)]

theorem lastLineFollows {bytes : Bytes} (broken : 10 ∈ bytes) :
    10 ∉ lastLine bytes ∧ ∃ before, bytes = before ++ 10 :: lastLine bytes := by
  induction bytes with
  | nil => contradiction
  | cons b rest ih =>
    by_cases later : 10 ∈ rest
    · obtain ⟨unbroken,before,split⟩ := ih later
      rw [lastLine,if_pos later]
      exact ⟨unbroken,b :: before,congrArg (b :: ·) split⟩
    · have last : b = 10 := ((List.mem_cons.mp broken).resolve_right later).symm
      rw [lastLine,if_neg later,if_pos last,last]
      exact ⟨later,[],rfl⟩

theorem lastLineExact (bytes : Bytes) :
    10 ∉ lastLine bytes ∧ (lastLine bytes = bytes ∨ ∃ before, bytes = before ++ 10 :: lastLine bytes) := by
  by_cases broken : 10 ∈ bytes
  · obtain ⟨unbroken,split⟩ := lastLineFollows broken
    exact ⟨unbroken,.inr split⟩
  · rw [lastLineWhole broken]
    exact ⟨broken,.inl rfl⟩

theorem stepLine (p : Position) (byte : UInt8) : (p.step byte).line = p.line + if byte = 10 then 1 else 0 := by
  unfold step
  split
  · rfl
  · split <;> rfl

theorem stepColumn (p : Position) (byte : UInt8) :
    (p.step byte).column = (if byte = 10 then 1 else p.column) + if byte = 10 ∨ byte = 13 then 0 else 1 := by
  unfold step
  by_cases feed : byte = 10
  · simp [feed]
  · by_cases back : byte = 13
    · simp [back]
    · simp [feed,back]

@[simp] theorem stepsCons (p : Position) (byte : UInt8) (bytes : Bytes) : p.steps (byte :: bytes) = (p.step byte).steps bytes := rfl

theorem stepsLine (p : Position) (bytes : Bytes) : (p.steps bytes).line = p.line + bytes.count 10 := by
  induction bytes generalizing p with
  | nil => rfl
  | cons byte bytes ih =>
    rw [stepsCons,ih,stepLine,List.count_cons]
    simp only [beq_iff_eq]
    omega

theorem stepsColumn (p : Position) (bytes : Bytes) :
    (p.steps bytes).column = (if 10 ∈ bytes then 1 else p.column) + (lastLine bytes).countP (· ≠ 13) := by
  induction bytes generalizing p with
  | nil => rfl
  | cons byte bytes ih =>
    rw [stepsCons,ih]
    by_cases later : 10 ∈ bytes
    · rw [if_pos later,if_pos (List.mem_cons_of_mem byte later),lastLine,if_pos later]
    · rw [if_neg later,lastLineWhole later,lastLine,if_neg later,stepColumn]
      by_cases feed : byte = 10
      · simp [feed]
      · have other : 10 ∉ byte :: bytes := by
          intro member
          exact (List.mem_cons.mp member).elim (fun same => feed same.symm) later
        rw [if_neg feed,if_neg feed,if_neg other,List.countP_cons]
        simp [feed]
        omega

section Order

variable {bytes : Bytes}

theorem lineBroken (p : Position) (broken : 10 ∈ bytes) : p.line < (p.steps bytes).line := by
  rw [stepsLine]
  exact Nat.lt_add_of_pos_right (List.count_pos_iff.mpr broken)

theorem lineUnbroken (p : Position) (unbroken : 10 ∉ bytes) :
    (p.steps bytes).line = p.line ∧ (p.steps bytes).column = p.column + bytes.countP (· ≠ 13) := by
  rw [stepsLine,stepsColumn,List.count_eq_zero.mpr unbroken,if_neg unbroken,lastLineWhole unbroken]
  exact ⟨rfl,rfl⟩

theorem stepsForward (p : Position) (bytes : Bytes) :
    p.line < (p.steps bytes).line ∨ p.line = (p.steps bytes).line ∧ p.column ≤ (p.steps bytes).column := by
  by_cases broken : 10 ∈ bytes
  · exact .inl (lineBroken p broken)
  · obtain ⟨line,column⟩ := lineUnbroken p broken
    rw [line,column]
    exact .inr ⟨rfl,Nat.le_add_right _ _⟩

theorem stepsStill (p : Position) (bytes : Bytes) :
    (p.steps bytes).line = p.line ∧ (p.steps bytes).column = p.column ↔ ∀ b ∈ bytes, b = 13 := by
  by_cases broken : 10 ∈ bytes
  · constructor
    · intro still
      exact absurd still.1 (Nat.ne_of_gt (lineBroken p broken))
    · intro returns
      have other := returns 10 broken
      contradiction
  · obtain ⟨line,column⟩ := lineUnbroken p broken
    rw [line,column,Nat.add_eq_left,List.countP_eq_zero]
    simp

end Order

end Position

theorem placesCountLines :
    (∀ (source : Bytes) (label : Option String) (n : Nat),
      let passed := source.take (min n source.length)
      let p := ((Cursor.start source label).advance n).position
      p.offset = passed.length ∧ p.line = 1 + passed.count 10 ∧
      p.column = 1 + (Position.lastLine passed).countP (· ≠ 13) ∧ p.label = label ∧
      10 ∉ Position.lastLine passed ∧
      (Position.lastLine passed = passed ∨ ∃ before, passed = before ++ 10 :: Position.lastLine passed)) ∧
    ∀ (c : Cursor) (n : Nat),
      let p := c.position
      let q := (c.advance n).position
      (p.line < q.line ∨ p.line = q.line ∧ p.column ≤ q.column) ∧
      (q.line = p.line ∧ q.column = p.column ↔ ∀ b ∈ c.peek (some n), b = 13) := by
  constructor
  · intro source label n passed p
    have place : p = (Position.start label).steps passed := congrArg _ List.take_eq_take_min
    rw [place,Position.stepsOffset,Position.stepsLine,Position.stepsColumn,Position.stepsLabel]
    refine ⟨Nat.zero_add _,rfl,?_,rfl,Position.lastLineExact passed⟩
    rw [Position.start,ite_self]
  · intro c n
    exact ⟨Position.stepsForward c.position _,Position.stepsStill c.position _⟩

example : ((Cursor.start [0x61,0x0D,0x0A,0x0D,0xC3,0xA9] none).advance 9).position = ⟨6,2,3,none⟩ := by decide

end SliceGrammar
