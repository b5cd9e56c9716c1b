import SliceGrammar.Position
/-! Positions read back from their texts. A label stands before the two numbers as it is and may itself hold colons and
digits, so a text is read from the right. No number has a colon in it: after the last colon stands the column, after
the last one before that the line, and all in front of it is the label. A missing label leaves no colon in front
of the line and an empty one does, so not even these two are confused. -/
namespace SliceGrammar.Position

def cutLast : List Char → Option (List Char × List Char)
  | [] => none
  | ch :: rest =>
      match cutLast rest with
      | some (before,after) => some (ch :: before,after)
      | none => if ch = ':' then some ([],rest) else none

theorem cutNowhere {text : List Char} (unbroken : ':' ∉ text) : cutLast text = none := by
  induction text with
  | nil => rfl
  | cons ch rest ih =>
    obtain ⟨other,later⟩ := not_or.mp (mt List.mem_cons.mpr unbroken)
    simp only [cutLast,ih later]
    exact if_neg (Ne.symm other)

theorem cutBetween (before : List Char) {after : List Char} (unbroken : ':' ∉ after) :
    cutLast (before ++ ':' :: after) = some (before,after) := by
  induction before with
  | nil => simp only [List.nil_append,cutLast,cutNowhere unbroken,if_true]
  | cons ch before ih => simp only [List.cons_append,cutLast,ih]

def fields (text : String) : Option (Option String × Nat × Nat) := do
  let (front,column) ← cutLast text.toList
  let (label,line) := match cutLast front with
    | some (label,line) => (some (String.ofList label),line)
    | none => (none,front)
  some (label,Nat.ofDigitChars 10 line 0,Nat.ofDigitChars 10 column 0)

def heading : Option String → List Char
  | some label => label.toList ++ [':']
  | none => []

theorem displayParts (p : Position) :
    p.display.toList = (heading p.label ++ Nat.toDigits 10 p.line) ++ ':' :: Nat.toDigits 10 p.column := by
  obtain ⟨offset,line,column,label⟩ := p
  cases label with
  | none => simp [display,heading]
  | some label => simp [display,heading]

theorem digitsUnbroken (n : Nat) : ':' ∉ Nat.toDigits 10 n := by
  intro colon
  have digit := Nat.isDigit_of_mem_toDigits (by decide) (by decide) colon
  contradiction

theorem headingCut (label : Option String) (line : Nat) :
    cutLast (heading label ++ Nat.toDigits 10 line) = label.map (fun text => (text.toList,Nat.toDigits 10 line)) := by
  cases label with
  | none => exact cutNowhere (digitsUnbroken line)
  | some label =>
    rw [heading,List.append_assoc]
    exact cutBetween label.toList (digitsUnbroken line)

@[simp] theorem displayFields (p : Position) : fields p.display = some (p.label,p.line,p.column) := by
  have last := cutBetween (heading p.label ++ Nat.toDigits 10 p.line) (digitsUnbroken p.column)
  have front := headingCut p.label p.line
  simp only [fields,displayParts,last,bind,Option.bind,front]
  cases p.label with
  | none => simp only [Option.map_none,heading,List.nil_append,Nat.ofDigitChars_ten_toDigits]
  | some label => simp only [Option.map_some,String.ofList_toList,Nat.ofDigitChars_ten_toDigits]

theorem displayTellsApart (p q : Position) :
    p.display = q.display ↔ p.label = q.label ∧ p.line = q.line ∧ p.column = q.column := by
  constructor
  · intro shown
    have same : some (p.label,p.line,p.column) = some (q.label,q.line,q.column) := by
      rw [← displayFields p,shown,displayFields q]
    simpa only [Option.some.injEq,Prod.mk.injEq] using same
  · intro ⟨label,line,column⟩
    simp only [display,label,line,column]

example : fields "1:2:3:4" = some (some "1:2",3,4) ∧ fields ":3:4" = some (some "",3,4) ∧ fields "3:4" = some (none,3,4) := by
  decide +kernel

end SliceGrammar.Position
