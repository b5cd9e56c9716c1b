import Mathlib.Algebra.GroupWithZero.Nat
import SliceGrammar.Proofs.Primitive
/-! Parsing expression grammars. The relation here says on byte strings alone which beginning an expression
matches, or that it matches none: no cursor, no value, no budget and no order of evaluation. It covers
the expressions that decide by the input only; a parse of such an expression and a derivation are the same. -/
namespace SliceGrammar.Peg

variable {ρ : Type}

def inTurn : Expr ρ → Option (Expr ρ × Expr ρ)
  | .concat first second => some (first,second)
  | .pair first second => some (first,second)
  | .keepLeft first second => some (first,second)
  | .keepRight first second => some (first,second)
  | _ => none

def standsFor (rules : Rules ρ) : Expr ρ → Option (Expr ρ)
  | .recognize body => some body
  | .spanned body => some body
  | .held _ body => some body
  | .map _ body => some body
  | .rule name => some (rules name)
  | _ => none

def counted (min : Nat) (widths : List Nat) : Option Nat :=
  if widths.length < min then none else some widths.sum

inductive Matches (rules : Rules ρ) : Expr ρ → Bytes → Option Nat → Prop where
  | literalHit {content input} (found : Utf8.bytes content <+: input) :
      Matches rules (.literal content) input (some (Utf8.bytes content).length)
  | literalMiss {content input} (other : ¬ Utf8.bytes content <+: input) : Matches rules (.literal content) input none
  | rangeHit {low high ch input} (inside : low ≤ ch ∧ ch ≤ high) (found : String.utf8EncodeChar ch <+: input) :
      Matches rules (.range low high) input (some (String.utf8EncodeChar ch).length)
  | rangeMiss {low high input} (other : ∀ ch, low ≤ ch ∧ ch ≤ high → ¬ String.utf8EncodeChar ch <+: input) :
      Matches rules (.range low high) input none
  | anyHit {ch input} (found : String.utf8EncodeChar ch <+: input) :
      Matches rules .anyChar input (some (String.utf8EncodeChar ch).length)
  | anyMiss {input} (other : ∀ ch, ¬ String.utf8EncodeChar ch <+: input) : Matches rules .anyChar input none
  | endHit : Matches rules .atEnd [] (some 0)
  | endMiss {input} (more : input ≠ []) : Matches rules .atEnd input none
  | sequenceHit {e first second input m n} (parts : inTurn e = some (first,second))
      (left : Matches rules first input (some m)) (right : Matches rules second (input.drop m) (some n)) :
      Matches rules e input (some (m + n))
  | sequenceMiss {e first second input m} (parts : inTurn e = some (first,second))
      (left : Matches rules first input (some m)) (right : Matches rules second (input.drop m) none) :
      Matches rules e input none
  | sequenceStop {e first second input} (parts : inTurn e = some (first,second))
      (left : Matches rules first input none) : Matches rules e input none
  | choiceFirst {first second input k} (left : Matches rules first input (some k)) :
      Matches rules (.choice first second) input (some k)
  | choiceSecond {first second input result} (left : Matches rules first input none)
      (right : Matches rules second input result) : Matches rules (.choice first second) input result
  | optionalHit {body input k} (inner : Matches rules body input (some k)) :
      Matches rules (.optional body) input (some k)
  | optionalMiss {body input} (inner : Matches rules body input none) : Matches rules (.optional body) input (some 0)
  | absentHit {body input} (inner : Matches rules body input none) : Matches rules (.absent body) input (some 0)
  | absentMiss {body input k} (inner : Matches rules body input (some k)) : Matches rules (.absent body) input none
  | presentHit {body input k} (inner : Matches rules body input (some k)) :
      Matches rules (.present body) input (some 0)
  | presentMiss {body input} (inner : Matches rules body input none) : Matches rules (.present body) input none
  | standing {e body input result} (stands : standsFor rules e = some body)
      (inner : Matches rules body input result) : Matches rules e input result
  /- A chain of matches, one after the other, given by their widths. It is the longest there is: as many as
  the bound allows, or the body fails where the chain ends. -/
  | repeatedFull {body min input} {widths : List Nat}
      (matched : ∀ i k, widths[i]? = some k → Matches rules body (input.drop (widths.take i).sum) (some k)) :
      Matches rules (.repeated body min (some widths.length)) input (counted min widths)
  | repeatedStopped {body min max input} {widths : List Nat} (below : ∀ m, max = some m → widths.length < m)
      (matched : ∀ i k, widths[i]? = some k → Matches rules body (input.drop (widths.take i).sum) (some k))
      (stopped : Matches rules body (input.drop widths.sum) none) :
      Matches rules (.repeated body min max) input (counted min widths)

def InGrammar : Expr ρ → Prop
  | .advance _ => False
  | .fail _ => False
  | .text _ => False
  | .bind _ _ => False
  | .andThen _ _ => False
  | _ => True

def Parsed (rules : Rules ρ) (e : Expr ρ) (c : Cursor) : Option Nat → Prop
  | some k => k ≤ c.length ∧ ∃ log value, e.Yields rules c ⟨log,.success value (c.advance k)⟩
  | none => ∃ log reason, e.Yields rules c ⟨log,.failure reason⟩

variable {rules : Rules ρ} {e : Expr ρ} {c : Cursor}

theorem prefixFits {bytes : Bytes} (found : bytes <+: c.remaining) : bytes.length ≤ c.length := by
  simpa using found.length_le

theorem sequencePlan {first second : Expr ρ} (parts : inTurn e = some (first,second)) :
    ∃ join, e.plan rules = .sequence first (fun _ => second) join := by
  cases e <;> simp only [inTurn,Option.some.injEq,Prod.mk.injEq,reduceCtorEq] at parts <;>
    obtain ⟨rfl,rfl⟩ := parts <;> exact ⟨_,rfl⟩

theorem parsedSequence {first second : Expr ρ} {m : Nat} (parts : inTurn e = some (first,second))
    (left : Parsed rules first c (some m)) {result : Option Nat} (right : Parsed rules second (c.advance m) result) :
    Parsed rules e c (result.map (m + ·)) := by
  obtain ⟨join,shape⟩ := sequencePlan parts
  obtain ⟨inside,log,value,found⟩ := left
  cases result with
  | none =>
    obtain ⟨own,reason,next⟩ := right
    exact ⟨log ++ own,reason,Expr.yieldsSequenceMiss shape found next⟩
  | some n =>
    obtain ⟨within,own,last,next⟩ := right
    rw [Cursor.advanceLength,Nat.min_eq_left inside] at within
    rw [Cursor.advanceAdvance] at next
    have fits : m + n ≤ c.length := by omega
    exact ⟨fits,_,_,Expr.yieldsSequenceHit shape found next⟩

theorem parsedStop {first second : Expr ρ} (parts : inTurn e = some (first,second))
    (left : Parsed rules first c none) : Parsed rules e c none := by
  obtain ⟨join,shape⟩ := sequencePlan parts
  obtain ⟨log,reason,found⟩ := left
  exact ⟨log,reason,Expr.yieldsSequenceStop shape found⟩

theorem parsedStanding {body : Expr ρ} (stands : standsFor rules e = some body) {result : Option Nat}
    (inner : Parsed rules body c result) : Parsed rules e c result := by
  have shape : ∃ f : Cursor → Value → Cursor → Value,
      e.plan rules = .within body (Expr.quiet fun c v tail => .success (f c v tail) tail) Expr.passOn := by
    cases e <;> simp only [standsFor,Option.some.injEq,reduceCtorEq] at stands <;>
      subst stands <;> exact ⟨_,rfl⟩
  obtain ⟨f,shape⟩ := shape
  cases result with
  | none =>
    obtain ⟨log,reason,found⟩ := inner
    exact ⟨log,reason,Expr.yieldsWithinMiss shape found⟩
  | some k =>
    obtain ⟨inside,log,value,found⟩ := inner
    have next := Expr.yieldsWithinHit shape found
    rw [Expr.quietAfter] at next
    exact ⟨inside,_,_,next⟩

def Longest (max : Option Nat) (count : Nat) (stopped : Prop) : Prop :=
  max = some count ∨ (∀ m, max = some m → count < m) ∧ stopped

theorem longestMore {max : Option Nat} {count : Nat} {stopped : Prop} (ends : Longest max (count + 1) stopped) :
    max ≠ some 0 := by
  intro zero
  rcases ends with same | ⟨below,_⟩
  · rw [zero] at same
    simp at same
  · exact absurd (below 0 zero) (Nat.not_lt_zero _)

theorem longestStep {max : Option Nat} {count : Nat} {stopped : Prop} (more : max ≠ some 0) :
    Longest (max.map (· - 1)) count stopped ↔ Longest max (count + 1) stopped := by
  cases max with
  | none => simp [Longest]
  | some m =>
    cases m with
    | zero => exact absurd rfl more
    | succ m => simp [Longest]

theorem parsedLinks {body : Expr ρ} {max : Option Nat} {widths : List Nat}
    (matched : ∀ i k, widths[i]? = some k → ∀ d : Cursor, d.remaining = c.remaining.drop (widths.take i).sum →
      Parsed rules body d (some k))
    (ends : Longest max widths.length
      (∀ d : Cursor, d.remaining = c.remaining.drop widths.sum → Parsed rules body d none)) :
    ∃ made : Parser.Chain, Parser.Links (body.Yields rules) max c made ∧ made.count = widths.length ∧
      made.tail = c.advance widths.sum ∧ widths.sum ≤ c.length := by
  induction widths generalizing c max with
  | nil =>
    rcases ends with rfl | ⟨below,stopped⟩
    · exact ⟨_,.full c,rfl,(Cursor.advanceZero c).symm,Nat.zero_le _⟩
    · have more : max ≠ some 0 := fun h => Nat.lt_irrefl 0 (below 0 h)
      obtain ⟨log,reason,found⟩ := stopped c rfl
      exact ⟨_,.stopped more found,rfl,(Cursor.advanceZero c).symm,Nat.zero_le _⟩
  | cons k widths ih =>
    obtain ⟨inside,log,value,found⟩ := matched 0 k rfl c rfl
    have later (n : Nat) : (c.advance k).remaining.drop n = c.remaining.drop (k + n) := by
      simp
    have more := longestMore ends
    have rest := (longestStep more).mpr ends
    rw [List.sum_cons,← later] at rest
    have next : ∀ i n, widths[i]? = some n → ∀ d : Cursor,
        d.remaining = (c.advance k).remaining.drop (widths.take i).sum → Parsed rules body d (some n) := by
      intro i n placed d same
      refine matched (i + 1) n placed d ?_
      rw [same,later,List.take_succ_cons,List.sum_cons]
    obtain ⟨made,links,count,tail,fits⟩ := ih next rest
    rw [Cursor.advanceLength,Nat.min_eq_left inside] at fits
    refine ⟨_,.linked more found links,?_,?_,?_⟩
    · rw [count,List.length_cons]
    · simp [tail]
    · rw [List.sum_cons]
      omega

theorem parsedRepeated {body : Expr ρ} {min : Nat} {max : Option Nat} {widths : List Nat} {made : Parser.Chain}
    (links : Parser.Links (body.Yields rules) max c made) (count : made.count = widths.length)
    (tail : made.tail = c.advance widths.sum) (fits : widths.sum ≤ c.length) :
    Parsed rules (.repeated body min max) c (counted min widths) := by
  have found := Expr.yieldsChained (e := .repeated body min max) rfl links
  unfold Expr.chainReply at found
  unfold counted
  rw [← count]
  split
  · rename_i few
    rw [if_pos few] at found
    exact ⟨_,_,found⟩
  · rename_i enough
    rw [if_neg enough,tail] at found
    exact ⟨fits,_,_,found⟩

theorem matchesParsed {input : Bytes} {result : Option Nat} (derived : Matches rules e input result)
    (c : Cursor) (same : c.remaining = input) : Parsed rules e c result := by
  induction derived generalizing c with
  | literalHit found =>
    subst same
    exact ⟨prefixFits found,[],_,Expr.yieldsDirect rfl (Parser.literalAnswer.mpr (.inl ⟨found,rfl⟩))⟩
  | literalMiss other =>
    subst same
    exact ⟨[],none,Expr.yieldsDirect rfl (Parser.literalAnswer.mpr (.inr ⟨other,rfl⟩))⟩
  | rangeHit inside found =>
    subst same
    exact ⟨prefixFits found,[],_,Expr.yieldsDirect rfl (Parser.rangeAnswer.mpr (.inl ⟨_,inside,found,rfl⟩))⟩
  | rangeMiss other =>
    subst same
    rcases Parser.decodeCases c.remaining with ⟨ch,found,_⟩ | ⟨error,refused⟩
    · have outside := fun inside => other ch inside found
      exact ⟨_,_,Expr.yieldsDirect rfl (Parser.rangeAnswer.mpr (.inr (.inl ⟨ch,outside,found,rfl⟩)))⟩
    · exact ⟨_,_,Expr.yieldsDirect rfl (Parser.rangeAnswer.mpr (.inr (.inr ⟨error,refused,rfl⟩)))⟩
  | anyHit found =>
    subst same
    exact ⟨prefixFits found,[],_,Expr.yieldsDirect rfl (Parser.anyCharAnswer.mpr (.inl ⟨_,found,rfl⟩))⟩
  | anyMiss other =>
    subst same
    rcases Parser.decodeCases c.remaining with ⟨ch,found,_⟩ | ⟨error,refused⟩
    · exact absurd found (other ch)
    · exact ⟨_,_,Expr.yieldsDirect rfl (Parser.anyCharAnswer.mpr (.inr ⟨error,refused,rfl⟩))⟩
  | endHit =>
    refine ⟨Nat.zero_le _,[],.unit,?_⟩
    simpa using Expr.yieldsDirect rfl (Parser.atEndAnswer.mpr (.inl ⟨same,rfl⟩))
  | endMiss more =>
    subst same
    exact ⟨[],none,Expr.yieldsDirect rfl (Parser.atEndAnswer.mpr (.inr ⟨more,rfl⟩))⟩
  | sequenceHit parts left right leftParsed rightParsed =>
    subst same
    exact parsedSequence parts (leftParsed c rfl) (rightParsed _ (Cursor.advanceRemaining c _))
  | sequenceMiss parts left right leftParsed rightParsed =>
    subst same
    exact parsedSequence parts (leftParsed c rfl) (rightParsed _ (Cursor.advanceRemaining c _))
  | sequenceStop parts left leftParsed => exact parsedStop parts (leftParsed c same)
  | choiceFirst left leftParsed =>
    obtain ⟨inside,log,value,found⟩ := leftParsed c same
    exact ⟨inside,log,value,Expr.yieldsEitherFirst rfl found⟩
  | @choiceSecond first second input result left right leftParsed rightParsed =>
    obtain ⟨log,reason,failed⟩ := leftParsed c same
    have next := rightParsed c same
    cases result with
    | none =>
      obtain ⟨own,why,found⟩ := next
      exact ⟨_,why,Expr.yieldsEitherSecond rfl failed found⟩
    | some k =>
      obtain ⟨inside,own,value,found⟩ := next
      exact ⟨inside,_,value,Expr.yieldsEitherSecond rfl failed found⟩
  | optionalHit inner innerParsed =>
    obtain ⟨inside,log,value,found⟩ := innerParsed c same
    have next := Expr.yieldsWithinHit (e := .optional _) rfl found
    exact ⟨inside,_,_,next⟩
  | optionalMiss inner innerParsed =>
    obtain ⟨log,reason,found⟩ := innerParsed c same
    have next := Expr.yieldsWithinMiss (e := .optional _) rfl found
    exact ⟨Nat.zero_le _,log,.nothing,by simpa using next⟩
  | absentHit inner innerParsed =>
    obtain ⟨log,reason,found⟩ := innerParsed c same
    have next := Expr.yieldsWithinMiss (e := .absent _) rfl found
    exact ⟨Nat.zero_le _,log,.unit,by simpa using next⟩
  | absentMiss inner innerParsed =>
    obtain ⟨_,log,value,found⟩ := innerParsed c same
    have next := Expr.yieldsWithinHit (e := .absent _) rfl found
    exact ⟨_,none,next⟩
  | presentHit inner innerParsed =>
    obtain ⟨_,log,value,found⟩ := innerParsed c same
    have next := Expr.yieldsWithinHit (e := .present _) rfl found
    exact ⟨Nat.zero_le _,_,.unit,by simpa using next⟩
  | presentMiss inner innerParsed =>
    obtain ⟨log,reason,found⟩ := innerParsed c same
    have next := Expr.yieldsWithinMiss (e := .present _) rfl found
    exact ⟨log,reason,next⟩
  | standing stands inner innerParsed => exact parsedStanding stands (innerParsed c same)
  | repeatedFull matched matchedParsed =>
    subst same
    obtain ⟨made,links,count,tail,fits⟩ := parsedLinks matchedParsed (.inl rfl)
    exact parsedRepeated links count tail fits
  | repeatedStopped below matched stopped matchedParsed stoppedParsed =>
    subst same
    obtain ⟨made,links,count,tail,fits⟩ := parsedLinks matchedParsed (.inr ⟨below,stoppedParsed⟩)
    exact parsedRepeated links count tail fits

def Derived (rules : Rules ρ) (e : Expr ρ) (c : Cursor) (r : Reply Value) : Prop :=
  match r.outcome with
  | .success _ tail => ∃ k, k ≤ c.length ∧ tail = c.advance k ∧ Matches rules e c.remaining (some k)
  | .failure _ => Matches rules e c.remaining none

theorem derivedPrefix {bytes : Bytes} {log : Log} {value : Value} (found : bytes <+: c.remaining)
    (derivation : Matches rules e c.remaining (some bytes.length)) :
    Derived rules e c ⟨log,.success value (c.advance bytes.length)⟩ :=
  ⟨bytes.length,prefixFits found,rfl,derivation⟩

theorem derivedHere {log : Log} {value : Value} (derivation : Matches rules e c.remaining (some 0)) :
    Derived rules e c ⟨log,.success value c⟩ :=
  ⟨0,Nat.zero_le _,(Cursor.advanceZero c).symm,derivation⟩

theorem directDerived {p : Parser Value} {r : Reply Value} (allowed : InGrammar e) (shape : e.plan rules = .direct p)
    (answer : p c = some r) : Derived rules e c r := by
  cases e <;> simp only [Expr.plan,Expr.Plan.direct.injEq,reduceCtorEq] at shape <;> subst shape
  case literal content =>
    rcases Parser.literalAnswer.mp answer with ⟨found,rfl⟩ | ⟨other,rfl⟩
    · exact derivedPrefix found (.literalHit found)
    · exact Matches.literalMiss other
  case range low high =>
    rcases Parser.rangeAnswer.mp answer with ⟨ch,inside,found,rfl⟩ | ⟨ch,outside,found,rfl⟩ | ⟨error,refused,rfl⟩
    · exact derivedPrefix found (.rangeHit inside found)
    · refine Matches.rangeMiss ?_
      intro other inside second
      rw [Utf8.prefixUnique second found] at inside
      exact outside inside
    · exact Matches.rangeMiss (fun ch _ => Utf8.refusedNowhere refused ch)
  case anyChar =>
    rcases Parser.anyCharAnswer.mp answer with ⟨ch,found,rfl⟩ | ⟨error,refused,rfl⟩
    · exact derivedPrefix found (.anyHit found)
    · exact Matches.anyMiss (Utf8.refusedNowhere refused)
  case atEnd =>
    rcases Parser.atEndAnswer.mp answer with ⟨ended,rfl⟩ | ⟨more,rfl⟩
    · exact derivedHere (by rw [ended]; exact .endHit)
    · exact Matches.endMiss more
  case advance n => contradiction
  case fail reason => contradiction

theorem hitDerived {body hit miss log value tail} (allowed : InGrammar e) (shape : e.plan rules = .within body hit miss)
    (inner : Derived rules body c ⟨log,.success value tail⟩) : Derived rules e c ((hit c value tail).after log) := by
  obtain ⟨k,inside,rfl,derivation⟩ := inner
  cases e <;> simp only [Expr.plan,Expr.Plan.within.injEq,reduceCtorEq] at shape <;> obtain ⟨rfl,rfl,rfl⟩ := shape
  case text body => contradiction
  case bind f body => contradiction
  case optional body => exact ⟨k,inside,rfl,.optionalHit derivation⟩
  case absent body => exact Matches.absentMiss derivation
  case present body => exact derivedHere (.presentHit derivation)
  all_goals exact ⟨k,inside,rfl,.standing rfl derivation⟩

theorem missDerived {body hit miss log reason} (allowed : InGrammar e) (shape : e.plan rules = .within body hit miss)
    (inner : Derived rules body c ⟨log,.failure reason⟩) : Derived rules e c ⟨log,miss c reason⟩ := by
  cases e <;> simp only [Expr.plan,Expr.Plan.within.injEq,reduceCtorEq] at shape <;> obtain ⟨rfl,rfl,rfl⟩ := shape
  case text body => contradiction
  case bind f body => contradiction
  case optional body => exact derivedHere (.optionalMiss inner)
  case absent body => exact derivedHere (.absentHit inner)
  case present body => exact Matches.presentMiss inner
  all_goals exact Matches.standing rfl inner

theorem planSequence {first next join} (allowed : InGrammar e) (shape : e.plan rules = .sequence first next join) :
    ∃ second, inTurn e = some (first,second) ∧ next = fun _ => second := by
  cases e <;> simp only [Expr.plan,Expr.Plan.sequence.injEq,reduceCtorEq] at shape <;> obtain ⟨rfl,rfl,rfl⟩ := shape
  case andThen next body => contradiction
  all_goals exact ⟨_,rfl,rfl⟩

theorem linksDerived {body : Expr ρ} {max : Option Nat} {made : Parser.Chain}
    (links : Parser.Links (Derived rules body) max c made) :
    ∃ widths : List Nat, widths.length = made.count ∧ made.tail = c.advance widths.sum ∧ widths.sum ≤ c.length ∧
      (∀ i k, widths[i]? = some k → Matches rules body (c.remaining.drop (widths.take i).sum) (some k)) ∧
      Longest max widths.length (Matches rules body (c.remaining.drop widths.sum) none) := by
  induction links with
  | full c => exact ⟨[],rfl,(Cursor.advanceZero c).symm,Nat.zero_le _,by simp,.inl rfl⟩
  | @stopped max c log reason more failed =>
    refine ⟨[],rfl,(Cursor.advanceZero c).symm,Nat.zero_le _,by simp,.inr ⟨?_,failed⟩⟩
    intro m bound
    exact Nat.pos_of_ne_zero (fun zero => more (by rw [bound,zero]))
  | @linked max c log value tail rest more matched next ih =>
    obtain ⟨k,inside,rfl,derivation⟩ := matched
    obtain ⟨widths,count,ended,fits,chain,ends⟩ := ih
    rw [Cursor.advanceRemaining] at chain ends
    rw [Cursor.advanceLength,Nat.min_eq_left inside] at fits
    refine ⟨k :: widths,by simp [count],?_,?_,?_,?_⟩
    · simp [ended]
    · rw [List.sum_cons]
      omega
    · intro i n placed
      cases i with
      | zero =>
        cases Option.some.inj placed
        exact derivation
      | succ i =>
        have later := chain i n placed
        rwa [List.drop_drop,← List.sum_cons,← List.take_succ_cons] at later
    · rw [List.drop_drop,← List.sum_cons] at ends
      exact (longestStep more).mp ends

theorem chainDerived {body : Expr ρ} {min : Nat} {max : Option Nat} {made : Parser.Chain}
    (links : Parser.Links (Derived rules body) max c made) :
    Derived rules (.repeated body min max) c (Expr.chainReply c min max made) := by
  obtain ⟨widths,count,ended,fits,chain,ends⟩ := linksDerived links
  have derivation : Matches rules (.repeated body min max) c.remaining (counted min widths) := by
    rcases ends with rfl | ⟨below,failed⟩
    · exact .repeatedFull chain
    · exact .repeatedStopped below chain failed
  unfold counted at derivation
  unfold Expr.chainReply
  rw [count] at derivation
  split
  · rename_i few
    rwa [if_pos few] at derivation
  · rename_i enough
    rw [if_neg enough] at derivation
    exact ⟨widths.sum,fits,ended,derivation⟩

theorem yieldsDerived (given : ∀ name, (rules name).Everywhere InGrammar) (allowed : e.Everywhere InGrammar)
    {r : Reply Value} (found : e.Yields rules c r) : Derived rules e c r := by
  refine Expr.yieldsInduction (motive := Derived rules) given ?direct ?withinHit ?withinMiss ?sequenceStop
    ?sequenceMiss ?sequenceHit ?eitherFirst ?eitherSecond ?chained allowed found
  case direct => exact fun e p c r here shape answer => directDerived here shape answer
  case withinHit => exact fun e body hit miss c log value tail here shape inner => hitDerived here shape inner
  case withinMiss => exact fun e body hit miss c log reason here shape inner => missDerived here shape inner
  case sequenceStop =>
    intro e first next join c log reason here shape left
    obtain ⟨second,parts,rfl⟩ := planSequence here shape
    exact Matches.sequenceStop parts left
  case sequenceMiss =>
    intro e first next join c log value middle own reason here shape left right
    obtain ⟨second,parts,rfl⟩ := planSequence here shape
    obtain ⟨m,_,rfl,derivation⟩ := left
    exact Matches.sequenceMiss parts derivation (by rw [← Cursor.advanceRemaining]; exact right)
  case sequenceHit =>
    intro e first next join c log value middle own result tail here shape left right
    obtain ⟨second,parts,rfl⟩ := planSequence here shape
    obtain ⟨m,inside,rfl,derivation⟩ := left
    obtain ⟨n,fits,rfl,later⟩ := right
    rw [Cursor.advanceRemaining] at later
    rw [Cursor.advanceLength,Nat.min_eq_left inside] at fits
    exact ⟨m + n,by omega,Cursor.advanceAdvance c m n,.sequenceHit parts derivation later⟩
  case eitherFirst =>
    intro e first second c log value tail _ shape left
    cases Expr.eitherChoice shape
    obtain ⟨k,inside,rfl,derivation⟩ := left
    exact ⟨k,inside,rfl,.choiceFirst derivation⟩
  case eitherSecond =>
    intro e first second c log reason r _ shape left right
    cases Expr.eitherChoice shape
    obtain ⟨own,value | why⟩ := r
    · obtain ⟨k,inside,rfl,derivation⟩ := right
      exact ⟨k,inside,rfl,.choiceSecond left derivation⟩
    · exact Matches.choiceSecond left right
  case chained =>
    intro e body min max c made _ shape links
    cases Expr.chainedRepeated shape
    exact chainDerived links

theorem parsesAreDerivations (given : ∀ name, (rules name).Everywhere InGrammar) (allowed : e.Everywhere InGrammar)
    (c : Cursor) :
    (∀ k, Matches rules e c.remaining (some k) ↔
      k ≤ c.length ∧ ∃ log value, e.Yields rules c ⟨log,.success value (c.advance k)⟩) ∧
    (Matches rules e c.remaining none ↔ ∃ log reason, e.Yields rules c ⟨log,.failure reason⟩) ∧
    ∀ log value tail, e.Yields rules c ⟨log,.success value tail⟩ → ∃ k, k ≤ c.length ∧ tail = c.advance k := by
  refine ⟨?_,?_,?_⟩
  · intro k
    constructor
    · intro derivation
      exact matchesParsed derivation c rfl
    · intro parsed
      obtain ⟨inside,log,value,found⟩ := parsed
      obtain ⟨n,fits,same,derivation⟩ := yieldsDerived given allowed found
      rw [Cursor.advanceUnique inside fits same]
      exact derivation
  · constructor
    · intro derivation
      exact matchesParsed derivation c rfl
    · intro parsed
      obtain ⟨log,reason,found⟩ := parsed
      exact yieldsDerived given allowed found
  · intro log value tail found
    obtain ⟨k,inside,same,_⟩ := yieldsDerived given allowed found
    exact ⟨k,inside,same⟩

/- As many `a` as `b` as `c` and nothing after, which no context-free grammar can say. -/
def evenRuns : Rules Bool
  | true => .keepRight (.codePoint 'a') (.keepRight (.optional (.rule true)) (.codePoint 'b'))
  | false => .keepRight (.codePoint 'b') (.keepRight (.optional (.rule false)) (.codePoint 'c'))

def threeRuns : Expr Bool :=
  .keepRight (.present (.keepRight (.rule true) (.codePoint 'c')))
    (.keepRight (.many1 (.codePoint 'a')) (.keepLeft (.rule false) (.absent .anyChar)))

theorem evenRunsInGrammar (name : Bool) : (evenRuns name).Everywhere InGrammar := by
  cases name <;> simp [evenRuns,Expr.Everywhere,InGrammar,Expr.codePoint]

theorem threeRunsInGrammar : threeRuns.Everywhere InGrammar := by
  simp [threeRuns,Expr.Everywhere,InGrammar,Expr.codePoint,Expr.many1]

theorem threeRunsDerived :
    Matches evenRuns threeRuns (Utf8.bytes "aabbcc") (some 6) ∧
    Matches evenRuns threeRuns (Utf8.bytes "aabbccc") none := by
  have even := parsesAreDerivations evenRunsInGrammar threeRunsInGrammar (.start (Utf8.bytes "aabbcc") none)
  have odd := parsesAreDerivations evenRunsInGrammar threeRunsInGrammar (.start (Utf8.bytes "aabbccc") none)
  refine ⟨(even.1 6).mpr ⟨by decide +kernel,?_⟩,odd.2.1.mpr ?_⟩
  · exact ⟨[.event (.stopped 2 1 none),.event (.noCodePoint ⟨6,1,7,none⟩ .endOfInput)],.bytes [99],16,by decide +kernel⟩
  · exact ⟨[.event (.stopped 2 1 none)],none,16,by decide +kernel⟩

end SliceGrammar.Peg
