import SliceGrammar.Parser.Combinator
/-! Matching one parser again and again. The chain of matches is greedy: it ends at the first failure or
when the upper bound is met, whatever the lower bound is. A body that matches without passing a byte
may go on for ever, so the number of matches has a budget; a chain that spends it has no answer. -/
namespace SliceGrammar.Parser

variable {α : Type}

structure Chain where
  log : Log
  count : Nat
  tail : Cursor
  deriving DecidableEq, Repr

/- The chain of at most `max` matches from a cursor. The failure that ends it is part of its log. -/
def chain (p : Parser α) : Nat → Option Nat → Cursor → Option Chain
  | 0, _, _ => none
  | budget + 1, max, c =>
      if max = some 0 then some ⟨[],0,c⟩
      else match p c with
        | none => none
        | some ⟨log,.failure _⟩ => some ⟨log,0,c⟩
        | some ⟨log,.success _ tail⟩ =>
            (chain p budget (max.map (· - 1)) tail).map
              (fun rest => ⟨log ++ rest.log,rest.count + 1,rest.tail⟩)

def Chain.outcome (start : Cursor) (min : Nat) (made : Chain) : Outcome Bytes :=
  if made.count < min then .failure none else .success (start.sliceTo made.tail) made.tail

def repeated (budget : Nat) (p : Parser α) (min : Nat) (max : Option Nat) : Parser Bytes := fun c =>
  (chain p budget max c).map
    (fun made => ⟨made.log ++ [.event (.stopped made.count min max)],made.outcome c min⟩)

theorem chainExtends {p q : Parser α} (more : Extends p q) {budget larger : Nat} (enough : budget ≤ larger)
    {max : Option Nat} {c : Cursor} {made : Chain} (answered : chain p budget max c = some made) :
    chain q larger max c = some made := by
  induction budget generalizing larger max c made with
  | zero => simp [chain] at answered
  | succ budget ih =>
      obtain ⟨larger,rfl⟩ : ∃ n, larger = n + 1 := ⟨larger - 1,by omega⟩
      unfold chain at answered ⊢
      by_cases full : max = some 0
      · simpa [full] using answered
      · simp only [full,if_false] at answered ⊢
        split at answered
        · contradiction
        · rename_i log reason found
          rw [more _ _ found]; exact answered
        · rename_i log value tail found
          obtain ⟨rest,made,rfl⟩ := Option.map_eq_some_iff.mp answered
          have next := ih (Nat.le_of_succ_le_succ enough) made
          rw [more _ _ found]
          simp only [next,Option.map_some]

theorem repeatedExtends {p q : Parser α} (more : Extends p q) {budget larger : Nat} (enough : budget ≤ larger)
    (min : Nat) (max : Option Nat) : Extends (repeated budget p min max) (repeated larger q min max) := by
  intro c r h
  obtain ⟨made,found,rfl⟩ := Option.map_eq_some_iff.mp h
  exact Option.map_eq_some_iff.mpr ⟨made,chainExtends more enough found,rfl⟩

end SliceGrammar.Parser
