import Mathlib.Data.Fintype.Card
import Mathlib.Logic.Relation
import SliceGrammar.Proofs.Forward
/-! Grammars whose parses always come to an end. Two things may keep a parse going: an unbounded repetition of
a body that passes nothing, and a rule entered again before a byte was passed. Where the form of the rules
excludes both, every expression over them answers at every cursor. -/
namespace SliceGrammar.Expr

variable {ρ : Type}

def Leads (rules : Rules ρ) : Expr ρ → ρ → Prop
  | .repeated body _ _, name => Leads rules body name
  | .concat first second, name => Leads rules first name ∨ Nullable rules first ∧ Leads rules second name
  | .text body, name => Leads rules body name
  | .recognize body, name => Leads rules body name
  | .choice first second, name => Leads rules first name ∨ Leads rules second name
  | .pair first second, name => Leads rules first name ∨ Nullable rules first ∧ Leads rules second name
  | .keepLeft first second, name => Leads rules first name ∨ Nullable rules first ∧ Leads rules second name
  | .keepRight first second, name => Leads rules first name ∨ Nullable rules first ∧ Leads rules second name
  | .optional body, name => Leads rules body name
  | .absent body, name => Leads rules body name
  | .present body, name => Leads rules body name
  | .spanned body, name => Leads rules body name
  | .held _ body, name => Leads rules body name
  | .rule entered, name => name = entered
  | .map _ body, name => Leads rules body name
  | .bind _ body, name => Leads rules body name
  | .andThen next body, name => Leads rules body name ∨ Nullable rules body ∧ ∃ value, Leads rules (next value) name
  | _, _ => False

def Guarded (rules : Rules ρ) : Expr ρ → Prop
  | .repeated body _ none => ¬ Nullable rules body
  | _ => True

def Proper (rules : Rules ρ) (e : Expr ρ) : Prop := Advancing e ∧ Guarded rules e

structure WellFormed (rules : Rules ρ) : Prop where
  proper : ∀ name, (rules name).Everywhere (Proper rules)
  acyclic : ∀ name, ¬ Relation.TransGen (fun outer inner => Leads rules (rules outer) inner) name name

def Answers (rules : Rules ρ) (e : Expr ρ) (c : Cursor) : Prop := ∃ r, Yields rules e c r

variable {rules : Rules ρ} {e : Expr ρ} {c : Cursor}

theorem leadsWithin {body hit miss name} (other : ∀ name, e ≠ .rule name) (shape : plan rules e = .within body hit miss)
    (inner : Leads rules body name) : Leads rules e name := by
  cases e <;> simp only [plan,Plan.within.injEq,reduceCtorEq] at shape <;> obtain ⟨rfl,rfl,rfl⟩ := shape
  case rule name => exact absurd rfl (other name)
  all_goals exact inner

theorem leadsFirst {first next join name} (shape : plan rules e = .sequence first next join)
    (left : Leads rules first name) : Leads rules e name := by
  cases e <;> simp only [plan,Plan.sequence.injEq,reduceCtorEq] at shape <;> obtain ⟨rfl,rfl,rfl⟩ := shape
  all_goals exact .inl left

theorem leadsNext {first next join value name} (shape : plan rules e = .sequence first next join)
    (null : Nullable rules first) (right : Leads rules (next value) name) : Leads rules e name := by
  cases e <;> simp only [plan,Plan.sequence.injEq,reduceCtorEq] at shape <;> obtain ⟨rfl,rfl,rfl⟩ := shape
  case andThen next body => exact .inr ⟨null,value,right⟩
  all_goals exact .inr ⟨null,right⟩

theorem directAnswers {p : Parser Value} (shape : plan rules e = .direct p) (c : Cursor) : ∃ r, p c = some r := by
  cases e <;> simp only [plan,Plan.direct.injEq,reduceCtorEq] at shape <;> subst shape
  case literal content =>
    by_cases found : Utf8.bytes content <+: c.remaining
    · exact ⟨_,Parser.literalAnswer.mpr (.inl ⟨found,rfl⟩)⟩
    · exact ⟨_,Parser.literalAnswer.mpr (.inr ⟨found,rfl⟩)⟩
  case range low high =>
    rcases Parser.decodeCases c.remaining with ⟨ch,found,_⟩ | ⟨error,refused⟩
    · by_cases inside : low ≤ ch ∧ ch ≤ high
      · exact ⟨_,Parser.rangeAnswer.mpr (.inl ⟨ch,inside,found,rfl⟩)⟩
      · exact ⟨_,Parser.rangeAnswer.mpr (.inr (.inl ⟨ch,inside,found,rfl⟩))⟩
    · exact ⟨_,Parser.rangeAnswer.mpr (.inr (.inr ⟨error,refused,rfl⟩))⟩
  case anyChar =>
    rcases Parser.decodeCases c.remaining with ⟨ch,found,_⟩ | ⟨error,refused⟩
    · exact ⟨_,Parser.anyCharAnswer.mpr (.inl ⟨ch,found,rfl⟩)⟩
    · exact ⟨_,Parser.anyCharAnswer.mpr (.inr ⟨error,refused,rfl⟩)⟩
  case atEnd =>
    by_cases ended : c.remaining = []
    · exact ⟨_,Parser.atEndAnswer.mpr (.inl ⟨ended,rfl⟩)⟩
    · exact ⟨_,Parser.atEndAnswer.mpr (.inr ⟨ended,rfl⟩)⟩
  case advance n => exact ⟨_,Parser.advanceAnswer.mpr rfl⟩
  case fail reason => exact ⟨_,Parser.failAnswer.mpr rfl⟩

theorem answersWithin {body hit miss} (shape : plan rules e = .within body hit miss) (inner : Answers rules body c) :
    Answers rules e c := by
  obtain ⟨⟨log,value | reason⟩,found⟩ := inner
  · exact ⟨_,yieldsWithinHit shape found⟩
  · exact ⟨_,yieldsWithinMiss shape found⟩

theorem answersSequence {first next join} (shape : plan rules e = .sequence first next join)
    (left : Answers rules first c)
    (right : ∀ log value middle, Yields rules first c ⟨log,.success value middle⟩ → Answers rules (next value) middle) :
    Answers rules e c := by
  obtain ⟨⟨log,value | reason⟩,found⟩ := left
  · obtain ⟨⟨own,result | reason⟩,later⟩ := right _ _ _ found
    · exact ⟨_,yieldsSequenceHit shape found later⟩
    · exact ⟨_,yieldsSequenceMiss shape found later⟩
  · exact ⟨_,yieldsSequenceStop shape found⟩

theorem answersChoice {first second : Expr ρ} (left : Answers rules first c) (right : Answers rules second c) :
    Answers rules (.choice first second) c := by
  obtain ⟨⟨log,value | reason⟩,found⟩ := left
  · exact ⟨_,yieldsEitherFirst rfl found⟩
  · obtain ⟨r,later⟩ := right
    exact ⟨_,yieldsEitherSecond rfl found later⟩

theorem linksStep {body : Expr ρ} {max : Option Nat} (more : max ≠ some 0) (here : Answers rules body c)
    (next : ∀ log value tail, Yields rules body c ⟨log,.success value tail⟩ →
      ∃ made, Parser.Links (Yields rules body) (max.map (· - 1)) tail made) :
    ∃ made, Parser.Links (Yields rules body) max c made := by
  obtain ⟨⟨log,value | reason⟩,found⟩ := here
  · obtain ⟨rest,links⟩ := next _ _ _ found
    exact ⟨_,.linked more found links⟩
  · exact ⟨_,.stopped more found⟩

theorem linksBounded {body : Expr ρ} (spends : ∀ c r, Yields rules body c r → Spends rules body c r) (m : Nat)
    (answers : ∀ d, c.Reaches d → Answers rules body d) :
    ∃ made, Parser.Links (Yields rules body) (some m) c made := by
  induction m generalizing c with
  | zero => exact ⟨_,.full c⟩
  | succ m ih =>
    refine linksStep (by simp) (answers c (Cursor.reachesRefl c)) ?_
    intro log value tail found
    have reached := (spends _ _ found value tail rfl).onward
    exact ih (fun d later => answers d (Cursor.reachesTrans reached later))

theorem linksUnbounded {body : Expr ρ} (spends : ∀ c r, Yields rules body c r → Spends rules body c r)
    (guarded : ¬ Nullable rules body) (answers : ∀ d, c.Reaches d → Answers rules body d) :
    ∃ made, Parser.Links (Yields rules body) none c made := by
  induction size : c.length using Nat.strong_induction_on generalizing c with
  | _ size ih =>
    refine linksStep (by simp) (answers c (Cursor.reachesRefl c)) ?_
    intro log value tail found
    obtain ⟨reached,strict⟩ := spends _ _ found value tail rfl
    have less := strict.resolve_left guarded
    exact ih tail.length (by omega) (fun d later => answers d (Cursor.reachesTrans reached later)) rfl

theorem properAdvancing (allowed : e.Everywhere (Proper rules)) : e.Everywhere Advancing :=
  everywhereMono (fun _ proper => proper.1) allowed

theorem properSpends (formed : WellFormed rules) (allowed : e.Everywhere (Proper rules)) (c : Cursor) (r : Reply Value)
    (found : Yields rules e c r) : Spends rules e c r :=
  yieldsSpends (fun name => properAdvancing (formed.proper name)) (properAdvancing allowed) found

theorem answersHere (formed : WellFormed rules)
    (shorter : ∀ d e, d.length < c.length → e.Everywhere (Proper rules) → Answers rules e d)
    (allowed : e.Everywhere (Proper rules))
    (entered : ∀ name, Leads rules e name → Answers rules (rules name) c) : Answers rules e c := by
  -- Anything at a cursor reached from here is settled: by the bytes passed or by the cursor being this one.
  have reached {part : Expr ρ} (proper : part.Everywhere (Proper rules)) {d : Cursor} (onward : c.Reaches d)
      (still : d = c → Answers rules part c) : Answers rules part d := by
    rcases Nat.lt_or_ge d.length c.length with less | long
    · exact shorter d part less proper
    · have same := Cursor.reachesSame onward (Nat.le_antisymm (Cursor.reachesLength onward) long)
      rw [same]
      exact still same
  induction e using planInduction rules with
  | rule name => exact answersWithin (e := .rule name) rfl (entered name rfl)
  | direct e p shape =>
    obtain ⟨r,answer⟩ := directAnswers shape c
    exact ⟨r,yieldsDirect shape answer⟩
  | within e body hit miss other shape ih =>
    have inner := ih (everywhereWithin formed.proper allowed shape)
      (fun name leads => entered name (leadsWithin other shape leads))
    exact answersWithin shape inner
  | sequence e first next join shape left right =>
    obtain ⟨firstAllowed,nextAllowed⟩ := everywhereSequence allowed shape
    refine answersSequence shape (left firstAllowed (fun name leads => entered name (leadsFirst shape leads))) ?_
    intro log value middle found
    obtain ⟨onward,strict⟩ := properSpends formed firstAllowed c _ found value middle rfl
    refine reached (nextAllowed value) onward ?_
    intro same
    rw [same] at strict
    have null := strict.resolve_right (Nat.lt_irrefl _)
    exact right value (nextAllowed value) (fun name leads => entered name (leadsNext shape null leads))
  | either first second left right =>
    have here := left allowed.2.1 (fun name leads => entered name (.inl leads))
    have there := right allowed.2.2 (fun name leads => entered name (.inr leads))
    exact answersChoice here there
  | chained body min max ih =>
    have answers : ∀ d, c.Reaches d → Answers rules body d :=
      fun d onward => reached allowed.2 onward (fun _ => ih allowed.2 entered)
    have spends := properSpends formed allowed.2
    have made : ∃ made, Parser.Links (Yields rules body) max c made := by
      cases max with
      | none => exact linksUnbounded spends allowed.1.2 answers
      | some m => exact linksBounded spends m answers
    obtain ⟨made,links⟩ := made
    exact ⟨_,yieldsChained (e := .repeated body min max) rfl links⟩

theorem leadsDescend [Finite ρ] (formed : WellFormed rules) :
    WellFounded (fun inner outer => Leads rules (rules outer) inner) := by
  let below : ρ → ρ → Prop := Relation.TransGen (fun inner outer => Leads rules (rules outer) inner)
  have transitive : IsTrans ρ below := ⟨fun _ _ _ => Relation.TransGen.trans⟩
  have irreflexive : Std.Irrefl below := ⟨fun name loop => formed.acyclic name (Relation.transGen_swap.mp loop)⟩
  have founded : WellFounded below := Finite.wellFounded_of_trans_of_irrefl below
  exact Subrelation.wf (fun leads => Relation.TransGen.single leads) founded

theorem rulesAnswer [Finite ρ] (formed : WellFormed rules)
    (shorter : ∀ d e, d.length < c.length → e.Everywhere (Proper rules) → Answers rules e d) (name : ρ) :
    Answers rules (rules name) c := by
  induction name using (leadsDescend formed).induction with
  | h name ih => exact answersHere formed shorter (formed.proper name) ih

/- The measure has three parts. Bytes left come first: whatever follows a byte passed is settled. While the
input stands still, the rules entered go down the order that the lack of cycles gives, and within one rule
the expression gets smaller. -/
theorem answersEverywhere [Finite ρ] (formed : WellFormed rules) (allowed : e.Everywhere (Proper rules)) (c : Cursor) :
    Answers rules e c := by
  induction size : c.length using Nat.strong_induction_on generalizing e c with
  | _ size ih =>
    have shorter : ∀ d e, d.length < c.length → e.Everywhere (Proper rules) → Answers rules e d :=
      fun d e less proper => ih d.length (by omega) proper d rfl
    exact answersHere formed shorter allowed (fun name _ => rulesAnswer formed shorter name)

theorem wellFormedTerminates [Finite ρ] (formed : WellFormed rules) (allowed : e.Everywhere (Proper rules)) (c : Cursor) :
    ∃ budget r, ∀ larger, budget ≤ larger → parse rules larger e c = some r := by
  obtain ⟨r,budget,found⟩ := answersEverywhere formed allowed c
  exact ⟨budget,r,fun larger enough => parseExtends rules enough e c r found⟩

def listing : Rules Bool
  | true => .pair (.rule false) (.optional (.keepRight (.codePoint ',') (.rule true)))
  | false =>
      .choice (.keepLeft (.keepRight (.codePoint '(') (.rule true)) (.codePoint ')'))
        (.andThen (Action.count .anyChar) (.range '0' '9'))

def listings : Expr Bool := .many (.keepLeft (.rule true) (.codePoint ';'))

@[simp] theorem rangeConsumes (low high : Char) : ¬ Nullable rules (.range low high) := by
  intro null
  cases null

theorem countProper {body : Expr ρ} (allowed : body.Everywhere (Proper rules)) (value : Value) :
    (Action.count body value).Everywhere (Proper rules) := by
  unfold Action.count
  split
  · split
    · exact ⟨⟨trivial,trivial⟩,allowed⟩
    · exact ⟨trivial,trivial⟩
  · exact ⟨trivial,trivial⟩

theorem listingProper (name : Bool) : (listing name).Everywhere (Proper listing) := by
  have counted : ∀ value, (Action.count .anyChar value).Everywhere (Proper listing) := countProper ⟨trivial,trivial⟩
  cases name <;> simp [listing,Everywhere,Proper,Advancing,Guarded,codePoint,counted]

theorem listingLeads {outer inner : Bool} (leads : Leads listing (listing outer) inner) : outer = true ∧ inner = false := by
  cases outer with
  | true => simpa [listing,Leads,codePoint] using leads
  | false => simp [listing,Leads,codePoint] at leads

theorem listingFormed : WellFormed listing := by
  refine ⟨listingProper,?_⟩
  intro name loop
  have downward {outer inner : Bool}
      (reached : Relation.TransGen (fun outer inner => Leads listing (listing outer) inner) outer inner) :
      outer = true ∧ inner = false := by
    induction reached with
    | single leads => exact listingLeads leads
    | tail _ leads ih => exact ⟨ih.1,(listingLeads leads).2⟩
  obtain ⟨up,down⟩ := downward loop
  rw [up] at down
  contradiction

theorem listingsProper : listings.Everywhere (Proper listing) := by
  refine ⟨⟨trivial,?_⟩,⟨trivial,trivial⟩,⟨trivial,trivial⟩,⟨trivial,trivial⟩⟩
  intro null
  cases null with
  | keepLeft left right => exact rangeConsumes ';' ';' right

theorem listingsTerminate :
    WellFormed listing ∧ listings.Everywhere (Proper listing) ∧
    ∃ budget r, ∀ larger, budget ≤ larger →
      parse listing larger listings (.start [0x28,0x32,0x61,0x62,0x29,0x3B,0x31,0xFF] none) = some r :=
  ⟨listingFormed,listingsProper,wellFormedTerminates listingFormed listingsProper _⟩

end SliceGrammar.Expr
