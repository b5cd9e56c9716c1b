import SliceGrammar.Proofs.Plan
/-! Expressions that may match without passing a byte, as far as their form tells. The analysis errs on one
side only: an expression it leaves out passes at least one byte whenever it matches. For rules it is the
least relation closed under the cases. -/
namespace SliceGrammar.Expr

variable {ρ : Type}

inductive Nullable (rules : Rules ρ) : Expr ρ → Prop where
  | literal {content} (empty : content = "") : Nullable rules (.literal content)
  | advance (n) : Nullable rules (.advance n)
  | atEnd : Nullable rules .atEnd
  | optional (body) : Nullable rules (.optional body)
  | absent (body) : Nullable rules (.absent body)
  | present (body) : Nullable rules (.present body)
  | repeatedNone {body min max} (none : min = 0) : Nullable rules (.repeated body min max)
  | repeated {body min max} (inner : Nullable rules body) : Nullable rules (.repeated body min max)
  | choiceFirst {first second} (left : Nullable rules first) : Nullable rules (.choice first second)
  | choiceSecond {first second} (right : Nullable rules second) : Nullable rules (.choice first second)
  | concat {first second} (left : Nullable rules first) (right : Nullable rules second) :
      Nullable rules (.concat first second)
  | pair {first second} (left : Nullable rules first) (right : Nullable rules second) :
      Nullable rules (.pair first second)
  | keepLeft {first second} (left : Nullable rules first) (right : Nullable rules second) :
      Nullable rules (.keepLeft first second)
  | keepRight {first second} (left : Nullable rules first) (right : Nullable rules second) :
      Nullable rules (.keepRight first second)
  | andThen {next body value} (left : Nullable rules body) (right : Nullable rules (next value)) :
      Nullable rules (.andThen next body)
  | text {body} (inner : Nullable rules body) : Nullable rules (.text body)
  | recognize {body} (inner : Nullable rules body) : Nullable rules (.recognize body)
  | spanned {body} (inner : Nullable rules body) : Nullable rules (.spanned body)
  | held {holding body} (inner : Nullable rules body) : Nullable rules (.held holding body)
  | map {f body} (inner : Nullable rules body) : Nullable rules (.map f body)
  | bind {f body} (inner : Nullable rules body) : Nullable rules (.bind f body)
  | rule {name} (inner : Nullable rules (rules name)) : Nullable rules (.rule name)

variable {rules : Rules ρ} {e : Expr ρ}

theorem nullableWithin {body hit miss} (shape : plan rules e = .within body hit miss) (inner : Nullable rules body) :
    Nullable rules e := by
  cases e <;> simp only [plan,Plan.within.injEq,reduceCtorEq] at shape <;> obtain ⟨rfl,rfl,rfl⟩ := shape
  case text body => exact .text inner
  case recognize body => exact .recognize inner
  case optional body => exact .optional body
  case absent body => exact .absent body
  case present body => exact .present body
  case spanned body => exact .spanned inner
  case held holding body => exact .held inner
  case rule name => exact .rule inner
  case map f body => exact .map inner
  case bind f body => exact .bind inner

theorem nullableSequence {first next join value} (shape : plan rules e = .sequence first next join)
    (left : Nullable rules first) (right : Nullable rules (next value)) : Nullable rules e := by
  cases e <;> simp only [plan,Plan.sequence.injEq,reduceCtorEq] at shape <;> obtain ⟨rfl,rfl,rfl⟩ := shape
  case concat first second => exact .concat left right
  case pair first second => exact .pair left right
  case keepLeft first second => exact .keepLeft left right
  case keepRight first second => exact .keepRight left right
  case andThen next body => exact .andThen left right

end SliceGrammar.Expr
