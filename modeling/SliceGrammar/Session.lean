import SliceGrammar.Expr.Parse
/-! Work with several cursors at once. Cursors are kept in numbered registers; a step reads some of them and
may make one more, which takes the next number. Registers are never overwritten, so every earlier
cursor can be used again. -/
namespace SliceGrammar.Session

variable {ρ : Type}

inductive Step (ρ : Type) where
  | fresh (source : Bytes) (label : Option String)
  | advance (register size : Nat)
  | peek (register : Nat) (limit : Option Nat)
  | slice (first second : Nat)
  | source (register : Nat)
  | equal (first second : Nat)
  | samePosition (first second : Nat)
  | inspect (register : Nat)
  | parse (register : Nat) (e : Expr ρ)

inductive Answer where
  | cursor (cursor : Cursor)
  | bytes (bytes : Bytes)
  | truth (truth : Bool)
  | outcome (outcome : Outcome Value)
  deriving DecidableEq, Repr

structure Effect where
  answer : Answer
  log : Log
  made : Option Cursor
  deriving DecidableEq, Repr

def made (cursor : Cursor) : Effect := ⟨.cursor cursor,[],some cursor⟩

def told (answer : Answer) : Effect := ⟨answer,[],none⟩

def ofReply (r : Reply Value) : Effect := ⟨.outcome r.outcome,r.log,r.outcome.tail?⟩

/-- One step. It has no effect when a register is missing or a parse spends its budget. -/
def perform (rules : Rules ρ) (budget : Nat) (registers : List Cursor) : Step ρ → Option Effect
  | .fresh source label => some (made (.start source label))
  | .advance i n => (registers[i]?).map (fun c => made (c.advance n))
  | .peek i limit => (registers[i]?).map (fun c => told (.bytes (c.peek limit)))
  | .slice i j => do
      let first ← registers[i]?
      let second ← registers[j]?
      some (told (.bytes (first.sliceTo second)))
  | .source i => (registers[i]?).map (fun c => told (.bytes c.source))
  | .equal i j => do
      let first ← registers[i]?
      let second ← registers[j]?
      some (told (.truth (decide (first = second))))
  | .samePosition i j => do
      let first ← registers[i]?
      let second ← registers[j]?
      some (told (.truth (decide (first.position = second.position))))
  | .inspect i => (registers[i]?).map (fun c => told (.cursor c))
  | .parse i e => do
      let c ← registers[i]?
      let r ← e.parse rules budget c
      some (ofReply r)

def performAll (rules : Rules ρ) (budget : Nat) (registers : List Cursor) : List (Step ρ) → Option (List Effect)
  | [] => some []
  | step :: steps => do
      let effect ← perform rules budget registers step
      let rest ← performAll rules budget (registers ++ effect.made.toList) steps
      some (effect :: rest)

def logOf (effects : List Effect) : Log := effects.flatMap Effect.log

end SliceGrammar.Session
