import SliceGrammar.Proofs.Numeral
/-! Sums with parentheses, written out and read back. A sum is an atom that a plus and another sum may follow, an
atom is a whole number or a sum in parentheses; so the grammar refers to itself in two places. It undoes the
rendering of every tree of numbers, of any size, as long as what follows can be no part of it. -/
namespace SliceGrammar

inductive SumRule where
  | sum
  | atom
  deriving DecidableEq, Repr

def nextSum : Expr SumRule := .keepRight (.codePoint '+') (.rule .sum)

def enclosedSum : Expr SumRule := .keepLeft (.keepRight (.codePoint '(') (.rule .sum)) (.codePoint ')')

def sumRules : Rules SumRule
  | .sum => .map Action.sum (.pair (.rule .atom) (.optional nextSum))
  | .atom => .choice Expr.signedInteger enclosedSum

def SumRule.Ends : SumRule → Bytes → Prop
  | .sum, rest => Decimal.Clear rest ∧ rest.head? ≠ some 43
  | .atom, rest => Decimal.Clear rest

inductive SumTree where
  | leaf (n : Int) (fits : Decimal.InRange n)
  | plus (left right : SumTree)
  | parens (inner : SumTree)
  deriving DecidableEq, Repr

namespace SumTree

def total : SumTree → Int
  | .leaf n _ => n
  | .plus left right => left.total + right.total
  | .parens inner => inner.total

def isPlus : SumTree → Bool
  | .plus _ _ => true
  | _ => false

def enclosed (text : String) : String := "(" ++ text ++ ")"

/- A plus groups to the right, so only on its left does another one need parentheses. -/
def render : SumTree → String
  | .leaf n _ => toString n
  | .plus left right => (if left.isPlus then enclosed left.render else left.render) ++ "+" ++ right.render
  | .parens inner => enclosed inner.render

theorem bytesEnclosed (text : String) : Utf8.bytes (enclosed text) = [40] ++ (Utf8.bytes text ++ [41]) := by
  have opening : Utf8.bytes "(" = [40] := by decide +kernel
  have closing : Utf8.bytes ")" = [41] := by decide +kernel
  simp [enclosed,opening,closing]

theorem bytesPlus (left right : String) :
    Utf8.bytes (left ++ "+" ++ right) = Utf8.bytes left ++ ([43] ++ Utf8.bytes right) := by
  have plus : Utf8.bytes "+" = [43] := by decide +kernel
  simp [plus]

end SumTree

namespace Expr

open Decimal SumTree

variable {ρ : Type} {rules : Rules ρ} {c : Cursor}

theorem ruleUnfolded (name : ρ) : Gives rules (.rule name) c = Gives rules (rules name) c := by
  rw [givesSettle (.rule _)]
  exact afterSelf (fun _ _ _ => rfl)

theorem plusSpells : Spells sumRules (.codePoint '+') [43] := asciiSpells (by decide +kernel)

def Sums (name : SumRule) (text : String) (n : Int) : Prop :=
  ∀ c rest, c.remaining = Utf8.bytes text ++ rest → name.Ends rest →
    Gives sumRules (.rule name) c (.success (.int n) (c.advance (Utf8.bytes text).length))

theorem atomInteger {n : Int} (fits : InRange n) : Sums .atom (toString n) n := by
  intro c rest ahead clear
  rw [ruleUnfolded]
  exact givesPlan.mpr (.inl ⟨_,_,integerText sumRules fits clear ahead,rfl⟩)

theorem atomEnclosed {text : String} {n : Int} (inner : Sums .sum text n) : Sums .atom (enclosed text) n := by
  intro c rest ahead _
  have opening : Spells sumRules (.codePoint '(') [40] := asciiSpells (by decide +kernel)
  have closing : Spells sumRules (.codePoint ')') [41] := asciiSpells (by decide +kernel)
  rw [bytesEnclosed,List.append_assoc,List.append_assoc] at ahead
  have missing : Gives sumRules signedInteger c (.failure none) := by
    refine integerMissing sumRules ?_ ?_ <;> rw [ahead]
    · exact clearCons (by decide) _
    · simp
  have inside := Cursor.remainingPast ahead
  have first := spelledPassed opening ahead
  have sum := inner _ _ inside ⟨clearCons (by decide) _,by simp⟩
  have last := spelledPassed closing (Cursor.remainingPast inside)
  rw [bytesEnclosed,Cursor.advanceAppend,Cursor.advanceAppend,ruleUnfolded]
  have opened : Gives sumRules (.keepRight (.codePoint '(') (.rule .sum)) c (.success (.int n) _) :=
    givesPlan.mpr (.inl ⟨_,_,first,.inl ⟨_,_,sum,rfl⟩⟩)
  have closed : Gives sumRules enclosedSum c (.success (.int n) _) :=
    givesPlan.mpr (.inl ⟨_,_,opened,.inl ⟨_,_,last,rfl⟩⟩)
  exact givesPlan.mpr (.inr ⟨_,missing,closed⟩)

theorem sumGives {c middle tail : Cursor} {value more : Value}
    (first : Gives sumRules (.rule .atom) c (.success value middle))
    (second : Gives sumRules (.optional nextSum) middle (.success more tail)) :
    Gives sumRules (.rule .sum) c (.success (Action.sum (.pair value more)) tail) := by
  have pair : Gives sumRules (.pair (.rule .atom) (.optional nextSum)) c (.success (.pair value more) tail) :=
    givesPlan.mpr (.inl ⟨_,_,first,.inl ⟨_,_,second,rfl⟩⟩)
  rw [ruleUnfolded]
  exact givesPlan.mpr (.inl ⟨_,_,pair,rfl⟩)

theorem sumAtom {text : String} {n : Int} (atom : Sums .atom text n) : Sums .sum text n := by
  intro c rest ahead follows
  have first := atom c rest ahead follows.1
  have unlike : (c.advance (Utf8.bytes text).length).remaining.head? ≠ some 43 := by
    rw [Cursor.remainingPast ahead]
    exact follows.2
  have refused : Gives sumRules nextSum _ (.failure none) :=
    givesPlan.mpr (.inr ⟨_,spelledRefused plusSpells unlike,rfl⟩)
  have nothing : Gives sumRules (.optional nextSum) _ (.success .nothing _) := givesPlan.mpr (.inr ⟨_,refused,rfl⟩)
  have alone : Action.sum (.pair (.int n) .nothing) = .int n := congrArg Value.int (Int.add_zero n)
  exact alone ▸ sumGives first nothing

theorem sumPlus {left right : String} {m n : Int} (atom : Sums .atom left m) (sum : Sums .sum right n) :
    Sums .sum (left ++ "+" ++ right) (m + n) := by
  intro c rest ahead follows
  rw [bytesPlus,List.append_assoc,List.append_assoc] at ahead
  have middle := Cursor.remainingPast ahead
  have first := atom c _ ahead (clearCons (by decide) _)
  have sign := spelledPassed plusSpells middle
  have later := sum _ rest (Cursor.remainingPast middle) follows
  have passed : Gives sumRules nextSum _ (.success (.int n) _) := givesPlan.mpr (.inl ⟨_,_,sign,.inl ⟨_,_,later,rfl⟩⟩)
  have more : Gives sumRules (.optional nextSum) _ (.success (.just (.int n)) _) := givesPlan.mpr (.inl ⟨_,_,passed,rfl⟩)
  rw [bytesPlus,Cursor.advanceAppend,Cursor.advanceAppend]
  exact sumGives first more

/- Anything but a plus is an atom as well, which is what a plus asks of its left operand. -/
theorem treeSums (t : SumTree) :
    Sums .sum t.render t.total ∧ (t.isPlus = false → Sums .atom t.render t.total) := by
  induction t with
  | leaf n fits =>
    have atom := atomInteger fits
    exact ⟨sumAtom atom,fun _ => atom⟩
  | parens inner ih =>
    have atom := atomEnclosed ih.1
    exact ⟨sumAtom atom,fun _ => atom⟩
  | plus left right first second =>
    refine ⟨?_,fun other => by contradiction⟩
    rw [render,total]
    refine sumPlus ?_ second.1
    cases nested : left.isPlus with
    | true => exact atomEnclosed first.1
    | false => exact first.2 nested

theorem sumReadsRendering (t : SumTree) (rest : Bytes) (c : Cursor)
    (ends : ∀ b ∈ rest.head?, isDigit b = false ∧ b ≠ 43) (ahead : c.remaining = Utf8.bytes t.render ++ rest) :
    Gives sumRules (.rule .sum) c (.success (.int t.total) (c.advance (Utf8.bytes t.render).length)) ∧
    (c.advance (Utf8.bytes t.render).length).remaining = rest := by
  have follows : SumRule.sum.Ends rest := ⟨fun b next => (ends b next).1,fun next => (ends 43 next).2 rfl⟩
  exact ⟨(treeSums t).1 c rest ahead follows,Cursor.remainingPast ahead⟩

def mixedSum : SumTree :=
  .plus (.plus (.leaf 1 (by decide)) (.leaf (-9223372036854775808) (by decide)))
    (.plus (.parens (.parens (.leaf 3 (by decide)))) (.leaf (-4) (by decide)))

theorem mixedSumRead :
    let rest : Bytes := [41,255]
    let c := Cursor.start (Utf8.bytes "(1+-9223372036854775808)+((3))+-4" ++ rest) none
    mixedSum.render = "(1+-9223372036854775808)+((3))+-4" ∧ (∀ b ∈ rest.head?, isDigit b = false ∧ b ≠ 43) ∧
    Gives sumRules (.rule .sum) c (.success (.int (-9223372036854775808)) (c.advance 33)) ∧ (c.advance 33).remaining = rest := by
  intro rest c
  have text : mixedSum.render = "(1+-9223372036854775808)+((3))+-4" := by decide +kernel
  have ends : ∀ b ∈ rest.head?, isDigit b = false ∧ b ≠ 43 := by
    intro b next
    cases Option.some.inj next
    decide
  have size : (Utf8.bytes mixedSum.render).length = 33 := by decide +kernel
  have ahead : c.remaining = Utf8.bytes mixedSum.render ++ rest := by rw [text]; rfl
  have total : mixedSum.total = -9223372036854775808 := by decide +kernel
  have read := sumReadsRendering mixedSum rest c ends ahead
  rw [total,size] at read
  exact ⟨text,ends,read⟩

end Expr

end SliceGrammar
