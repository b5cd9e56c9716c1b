import SliceGrammar.Expr.Parse
/-! How a parse goes from an expression to its parts. Whatever an expression makes of values, it works in
one of five ways: it looks at the input itself, finishes what its body gave, runs two parts in turn, tries
a second part where the first failed, or repeats its body. A fact about all parses is settled once for each
way; what a single combinator adds is in the functions its plan carries. -/
namespace SliceGrammar

def Reply.map {α β : Type} (f : α → β) (r : Reply α) : Reply β :=
  match r with
  | ⟨log,.success value tail⟩ => ⟨log,.success (f value) tail⟩
  | ⟨log,.failure reason⟩ => ⟨log,.failure reason⟩

@[simp] theorem Reply.mapAfter {α β : Type} (f : α → β) (log : Log) (r : Reply α) :
    (r.after log).map f = (r.map f).after log := by
  obtain ⟨own,value | reason⟩ := r <;> rfl

namespace Parser

variable {α β γ : Type}

@[simp] theorem mapAnswer (f : α → β) (p : Parser α) (c : Cursor) : map f p c = (p c).map (Reply.map f) := by
  unfold map follow
  cases p c with
  | none => rfl
  | some r =>
    obtain ⟨log,value | reason⟩ := r
    · simp [succeed,done,Reply.map,Reply.after]
    · simp [refuse,done,Reply.map,Reply.after]

theorem followMap (f : β → γ) (p : Parser α) (hit : α → Cursor → Option (Reply β)) (miss) (c : Cursor) :
    (p.follow hit miss c).map (Reply.map f) =
      p.follow (fun value tail => (hit value tail).map (Reply.map f)) (fun reason => (miss reason).map (Reply.map f)) c := by
  unfold follow
  split
  · rfl
  · simp [Function.comp_def]
  · simp [Function.comp_def]

@[simp] theorem followSelf (p : Parser α) (c : Cursor) : p.follow succeed refuse c = p c := by
  unfold follow
  split
  · rename_i found; exact found.symm
  · rename_i found; simp [found,succeed,done,Reply.after]
  · rename_i found; simp [found,refuse,done,Reply.after]

theorem followBind (p : Parser α) (f : α → Cursor → Outcome β) (hit : β → Cursor → Option (Reply γ)) (miss) (c : Cursor) :
    (p.bind f).follow hit miss c =
      p.follow
        (fun value tail =>
          match f value tail with
          | .success result rest => hit result rest
          | .failure reason => miss reason)
        miss c := by
  unfold bind follow
  cases p c with
  | none => rfl
  | some r =>
    obtain ⟨log,value | reason⟩ := r
    · rename_i tail
      cases found : f value tail <;> simp [done,found,Reply.after]
    · simp [refuse,done,Reply.after]

inductive Links (answer : Cursor → Reply α → Prop) : Option Nat → Cursor → Chain → Prop where
  | full (c : Cursor) : Links answer (some 0) c ⟨[],0,c⟩
  | stopped {max c log reason} (more : max ≠ some 0) (failed : answer c ⟨log,.failure reason⟩) :
      Links answer max c ⟨log,0,c⟩
  | linked {max c log value tail rest} (more : max ≠ some 0) (matched : answer c ⟨log,.success value tail⟩)
      (next : Links answer (max.map (· - 1)) tail rest) :
      Links answer max c ⟨log ++ rest.log,rest.count + 1,rest.tail⟩

theorem linksMono {answer known : Cursor → Reply α → Prop} (more : ∀ c r, answer c r → known c r)
    {max : Option Nat} {c : Cursor} {made : Chain} (links : Links answer max c made) :
    Links known max c made := by
  induction links with
  | full c => exact .full c
  | stopped open' failed => exact .stopped open' (more _ _ failed)
  | linked open' matched _ ih => exact .linked open' (more _ _ matched) ih

theorem chainLinks {p : Parser α} {budget : Nat} {max : Option Nat} {c : Cursor} {made : Chain}
    (answered : chain p budget max c = some made) : Links (fun c r => p c = some r) max c made := by
  induction budget generalizing max c made with
  | zero => simp [chain] at answered
  | succ budget ih =>
    unfold chain at answered
    by_cases full : max = some 0
    · subst full
      simp only [if_true] at answered
      cases Option.some.inj answered
      exact .full c
    · simp only [full,if_false] at answered
      split at answered
      · contradiction
      · rename_i log reason found
        cases Option.some.inj answered
        exact .stopped full found
      · rename_i log value tail found
        obtain ⟨rest,hr,rfl⟩ := Option.map_eq_some_iff.mp answered
        exact .linked full found (ih hr)

end Parser

namespace Expr

variable {ρ : Type}

inductive Plan (ρ : Type) where
  | direct (p : Parser Value)
  | within (body : Expr ρ) (hit : Cursor → Value → Cursor → Reply Value)
      (miss : Cursor → Option Reason → Outcome Value)
  | sequence (first : Expr ρ) (next : Value → Expr ρ) (join : Cursor → Value → Value → Cursor → Value)
  | either (first second : Expr ρ)
  | chained (body : Expr ρ) (min : Nat) (max : Option Nat)

def quiet (f : Cursor → Value → Cursor → Outcome Value) (c : Cursor) (value : Value) (tail : Cursor) : Reply Value :=
  ⟨[],f c value tail⟩

@[simp] theorem quietAfter (f : Cursor → Value → Cursor → Outcome Value) (c : Cursor) (value : Value) (tail : Cursor) (log : Log) :
    (quiet f c value tail).after log = ⟨log,f c value tail⟩ := by
  simp [quiet,Reply.after]

def passOn (_ : Cursor) (reason : Option Reason) : Outcome Value := .failure reason

def readText (c : Cursor) (value : Value) (tail : Cursor) : Reply Value :=
  match value with
  | .bytes slice =>
      match Utf8.text slice with
      | .ok content => ⟨[],.success (.text content) tail⟩
      | .error fault => ⟨[.event (.notText c.position fault)],.failure none⟩
  | _ => ⟨[],.failure none⟩

def plan (rules : Rules ρ) : Expr ρ → Plan ρ
  | .literal content => .direct ((Parser.literal content).map .bytes)
  | .range low high => .direct ((Parser.range low high).map .bytes)
  | .anyChar => .direct (Parser.anyChar.map .char)
  | .atEnd => .direct (Parser.atEnd.map (fun _ => .unit))
  | .advance n => .direct ((Parser.advance n).map .bytes)
  | .fail reason => .direct (Parser.fail reason)
  | .repeated body min max => .chained body min max
  | .concat first second => .sequence first (fun _ => second) (fun c _ _ tail => .bytes (c.sliceTo tail))
  | .text body => .within body readText passOn
  | .recognize body => .within body (quiet fun c _ tail => .success (.bytes (c.sliceTo tail)) tail) passOn
  | .choice first second => .either first second
  | .pair first second => .sequence first (fun _ => second) (fun _ v w _ => .pair v w)
  | .keepLeft first second => .sequence first (fun _ => second) (fun _ v _ _ => v)
  | .keepRight first second => .sequence first (fun _ => second) (fun _ _ w _ => w)
  | .optional body => .within body (quiet fun _ v tail => .success (.just v) tail) (fun c _ => .success .nothing c)
  | .absent body => .within body (quiet fun _ _ _ => .failure none) (fun c _ => .success .unit c)
  | .present body => .within body (quiet fun c _ _ => .success .unit c) passOn
  | .spanned body =>
      .within body (quiet fun c v tail => .success (.spanned v ⟨c.position,tail.position,c.sliceTo tail⟩) tail) passOn
  | .held _ body => .within body (quiet fun _ v tail => .success v tail) passOn
  | .rule name => .within (rules name) (quiet fun _ v tail => .success v tail) passOn
  | .map f body => .within body (quiet fun _ v tail => .success (f v) tail) passOn
  | .bind f body => .within body (quiet fun _ v tail => f v tail) passOn
  | .andThen next body => .sequence body next (fun _ _ w _ => w)

theorem eitherChoice {rules : Rules ρ} {e first second : Expr ρ} (shape : plan rules e = .either first second) :
    e = .choice first second := by
  cases e <;> simp only [plan,Plan.either.injEq,reduceCtorEq] at shape
  obtain ⟨rfl,rfl⟩ := shape
  rfl

theorem chainedRepeated {rules : Rules ρ} {e body : Expr ρ} {min : Nat} {max : Option Nat}
    (shape : plan rules e = .chained body min max) : e = .repeated body min max := by
  cases e <;> simp only [plan,Plan.chained.injEq,reduceCtorEq] at shape
  obtain ⟨rfl,rfl,rfl⟩ := shape
  rfl

/- Induction over the parts of an expression. What a rule stands for is no part of the rule. -/
theorem planInduction (rules : Rules ρ) {motive : Expr ρ → Prop} (rule : ∀ name, motive (.rule name))
    (direct : ∀ e p, plan rules e = .direct p → motive e)
    (within : ∀ e body hit miss, (∀ name, e ≠ .rule name) → plan rules e = .within body hit miss →
      motive body → motive e)
    (sequence : ∀ e first next join, plan rules e = .sequence first next join → motive first →
      (∀ value, motive (next value)) → motive e)
    (either : ∀ first second, motive first → motive second → motive (.choice first second))
    (chained : ∀ body min max, motive body → motive (.repeated body min max)) (e : Expr ρ) : motive e := by
  induction e with
  | literal content => exact direct _ _ rfl
  | range low high => exact direct _ _ rfl
  | anyChar => exact direct _ _ rfl
  | atEnd => exact direct _ _ rfl
  | advance n => exact direct _ _ rfl
  | fail reason => exact direct _ _ rfl
  | repeated body min max inner => exact chained body min max inner
  | concat first second left right => exact sequence _ _ _ _ rfl left (fun _ => right)
  | text body inner => exact within _ _ _ _ (by simp) rfl inner
  | recognize body inner => exact within _ _ _ _ (by simp) rfl inner
  | choice first second left right => exact either first second left right
  | pair first second left right => exact sequence _ _ _ _ rfl left (fun _ => right)
  | keepLeft first second left right => exact sequence _ _ _ _ rfl left (fun _ => right)
  | keepRight first second left right => exact sequence _ _ _ _ rfl left (fun _ => right)
  | optional body inner => exact within _ _ _ _ (by simp) rfl inner
  | absent body inner => exact within _ _ _ _ (by simp) rfl inner
  | present body inner => exact within _ _ _ _ (by simp) rfl inner
  | spanned body inner => exact within _ _ _ _ (by simp) rfl inner
  | held holding body inner => exact within _ _ _ _ (by simp) rfl inner
  | rule name => exact rule name
  | map f body inner => exact within _ _ _ _ (by simp) rfl inner
  | bind f body inner => exact within _ _ _ _ (by simp) rfl inner
  | andThen next body right left => exact sequence _ _ _ _ rfl left right

def Plan.run (budget : Nat) (sub : Expr ρ → Parser Value) : Plan ρ → Cursor → Option (Reply Value)
  | .direct p, c => p c
  | .within body hit miss, c =>
      (sub body).follow (fun value tail => some (hit c value tail)) (fun reason => Parser.done (miss c reason)) c
  | .sequence first next join, c =>
      (sub first).follow
        (fun v middle => (sub (next v)).follow (fun w tail => Parser.succeed (join c v w tail) tail) Parser.refuse middle)
        Parser.refuse c
  | .either first second, c => Parser.orElse (sub first) (sub second) c
  | .chained body min max, c => (Parser.repeated budget (sub body) min max).map .bytes c

theorem parsePlan (rules : Rules ρ) (budget : Nat) (e : Expr ρ) (c : Cursor) :
    parse rules (budget + 1) e c = (plan rules e).run budget (parse rules budget) c := by
  cases e with
  | literal content => rfl
  | range low high => rfl
  | anyChar => rfl
  | atEnd => rfl
  | advance n => rfl
  | fail reason => rfl
  | repeated body min max => rfl
  | choice first second => rfl
  | concat first second => simp only [parse,Parser.mapAnswer,Parser.concat,Parser.followMap]; rfl
  | text body =>
    simp only [parse,Parser.mapAnswer,Parser.text,Parser.followMap,slices,Parser.followBind]
    change Parser.follow _ _ Parser.refuse c = Parser.follow _ _ Parser.refuse c
    refine congrFun (congrArg (fun hit => Parser.follow _ hit Parser.refuse) ?_) c
    funext value tail
    cases value with
    | bytes slice => cases found : Utf8.text slice <;> simp only [readText,found] <;> rfl
    | _ => rfl
  | recognize body => simp only [parse,Parser.mapAnswer,Parser.recognize,Parser.followMap]; rfl
  | pair first second =>
    simp only [parse]
    rw [Parser.mapAnswer]
    simp only [Parser.pair,Parser.map,Parser.followMap]
    rfl
  | keepLeft first second => rfl
  | keepRight first second =>
    simp only [parse,plan,Plan.run,Parser.followSelf]
    rfl
  | optional body => simp only [parse,Parser.mapAnswer,Parser.optional,Parser.followMap]; rfl
  | absent body => simp only [parse,Parser.mapAnswer,Parser.absent,Parser.followMap]; rfl
  | present body => simp only [parse,Parser.mapAnswer,Parser.present,Parser.followMap]; rfl
  | spanned body => simp only [parse,Parser.mapAnswer,Parser.spanned,Parser.followMap]; rfl
  | held holding body => exact (Parser.followSelf _ c).symm
  | rule name => exact (Parser.followSelf _ c).symm
  | map f body => rfl
  | bind f body => rfl
  | andThen next body =>
    simp only [parse,plan,Plan.run,Parser.followSelf]
    rfl

section Replies

variable {rules : Rules ρ} {e : Expr ρ} {c : Cursor}

theorem yieldsPlan {r : Reply Value} :
    Yields rules e c r ↔ ∃ budget, (plan rules e).run budget (parse rules budget) c = some r := by
  constructor
  · intro found
    obtain ⟨budget,found⟩ := found
    cases budget with
    | zero => simp [parse] at found
    | succ budget => exact ⟨budget,by rw [← parsePlan]; exact found⟩
  · intro found
    obtain ⟨budget,found⟩ := found
    exact ⟨budget + 1,by rw [parsePlan]; exact found⟩

theorem yieldsTogether {first second : Expr ρ} {c d : Cursor} {r s : Reply Value}
    (left : Yields rules first c r) (right : Yields rules second d s) :
    ∃ budget, parse rules budget first c = some r ∧ parse rules budget second d = some s := by
  obtain ⟨m,hm⟩ := left
  obtain ⟨n,hn⟩ := right
  exact ⟨max m n,parseExtends rules (Nat.le_max_left m n) first c r hm,
    parseExtends rules (Nat.le_max_right m n) second d s hn⟩

theorem yieldsDirect {p : Parser Value} {r : Reply Value} (shape : plan rules e = .direct p) (answer : p c = some r) :
    Yields rules e c r :=
  yieldsPlan.mpr ⟨0,by rw [shape]; exact answer⟩

theorem yieldsWithinHit {body hit miss log value tail} (shape : plan rules e = .within body hit miss)
    (inner : Yields rules body c ⟨log,.success value tail⟩) : Yields rules e c ((hit c value tail).after log) := by
  obtain ⟨budget,found⟩ := inner
  refine yieldsPlan.mpr ⟨budget,?_⟩
  rw [shape,Plan.run,Parser.followHit _ _ found]
  rfl

theorem yieldsWithinMiss {body hit miss log reason} (shape : plan rules e = .within body hit miss)
    (inner : Yields rules body c ⟨log,.failure reason⟩) : Yields rules e c ⟨log,miss c reason⟩ := by
  obtain ⟨budget,found⟩ := inner
  refine yieldsPlan.mpr ⟨budget,?_⟩
  rw [shape,Plan.run,Parser.followMiss _ _ found]
  simp [Parser.done,Reply.after]

theorem yieldsWithinCases {body hit miss r} (shape : plan rules e = .within body hit miss) (found : Yields rules e c r) :
    (∃ log value tail, Yields rules body c ⟨log,.success value tail⟩ ∧ r = (hit c value tail).after log) ∨
    ∃ log reason, Yields rules body c ⟨log,.failure reason⟩ ∧ r = ⟨log,miss c reason⟩ := by
  obtain ⟨budget,found⟩ := yieldsPlan.mp found
  rw [shape,Plan.run,Parser.followAnswer] at found
  rcases found with ⟨log,value,tail,s,hb,hs,rfl⟩ | ⟨log,reason,s,hb,hs,rfl⟩
  · cases Option.some.inj hs
    exact .inl ⟨log,value,tail,⟨budget,hb⟩,rfl⟩
  · cases Option.some.inj hs
    exact .inr ⟨log,reason,⟨budget,hb⟩,by simp [Reply.after]⟩

theorem yieldsSequenceStop {first next join log reason} (shape : plan rules e = .sequence first next join)
    (left : Yields rules first c ⟨log,.failure reason⟩) : Yields rules e c ⟨log,.failure reason⟩ := by
  obtain ⟨budget,found⟩ := left
  refine yieldsPlan.mpr ⟨budget,?_⟩
  rw [shape,Plan.run,Parser.followMiss _ _ found]
  simp [Parser.refuse,Parser.done,Reply.after]

theorem yieldsSequenceMiss {first next join log own value middle reason}
    (shape : plan rules e = .sequence first next join) (left : Yields rules first c ⟨log,.success value middle⟩)
    (right : Yields rules (next value) middle ⟨own,.failure reason⟩) :
    Yields rules e c ⟨log ++ own,.failure reason⟩ := by
  obtain ⟨budget,hl,hr⟩ := yieldsTogether left right
  refine yieldsPlan.mpr ⟨budget,?_⟩
  rw [shape,Plan.run,Parser.followHit _ _ hl,Parser.followMiss _ _ hr]
  simp [Parser.refuse,Parser.done,Reply.after]

theorem yieldsSequenceHit {first next join log own value middle result tail}
    (shape : plan rules e = .sequence first next join) (left : Yields rules first c ⟨log,.success value middle⟩)
    (right : Yields rules (next value) middle ⟨own,.success result tail⟩) :
    Yields rules e c ⟨log ++ own,.success (join c value result tail) tail⟩ := by
  obtain ⟨budget,hl,hr⟩ := yieldsTogether left right
  refine yieldsPlan.mpr ⟨budget,?_⟩
  rw [shape,Plan.run,Parser.followHit _ _ hl,Parser.followHit _ _ hr]
  simp [Parser.succeed,Parser.done,Reply.after]

theorem yieldsEitherFirst {first second log value tail} (shape : plan rules e = .either first second)
    (left : Yields rules first c ⟨log,.success value tail⟩) : Yields rules e c ⟨log,.success value tail⟩ := by
  obtain ⟨budget,found⟩ := left
  refine yieldsPlan.mpr ⟨budget,?_⟩
  rw [shape,Plan.run,Parser.orElse,Parser.followHit _ _ found]
  simp [Parser.succeed,Parser.done,Reply.after]

theorem yieldsEitherSecond {first second log reason r} (shape : plan rules e = .either first second)
    (left : Yields rules first c ⟨log,.failure reason⟩) (right : Yields rules second c r) :
    Yields rules e c (r.after log) := by
  obtain ⟨budget,hl,hr⟩ := yieldsTogether left right
  refine yieldsPlan.mpr ⟨budget,?_⟩
  rw [shape,Plan.run,Parser.orElse,Parser.followMiss _ _ hl,hr]
  rfl

theorem linksChain {body : Expr ρ} {max : Option Nat} {made : Parser.Chain}
    (links : Parser.Links (Yields rules body) max c made) :
    ∃ budget, Parser.chain (parse rules budget body) budget max c = some made := by
  induction links with
  | full c => exact ⟨1,by simp [Parser.chain]⟩
  | @stopped max c log reason more failed =>
    obtain ⟨budget,found⟩ := failed
    have found := parseExtends rules (Nat.le_succ budget) body c _ found
    exact ⟨budget + 1,by simp [Parser.chain,more,found]⟩
  | @linked max c log value tail rest more matched next ih =>
    obtain ⟨m,found⟩ := matched
    obtain ⟨n,made⟩ := ih
    have enough : m ≤ Nat.max m n + 1 := Nat.le_succ_of_le (Nat.le_max_left m n)
    have found := parseExtends rules enough body c _ found
    have longer : n ≤ Nat.max m n + 1 := Nat.le_succ_of_le (Nat.le_max_right m n)
    have made := Parser.chainExtends (parseExtends rules longer body) (Nat.le_max_right m n) made
    exact ⟨Nat.max m n + 1,by simp only [Parser.chain,more,if_false,found,made,Option.map_some]⟩

def chainReply (c : Cursor) (min : Nat) (max : Option Nat) (made : Parser.Chain) : Reply Value :=
  ⟨made.log ++ [.event (.stopped made.count min max)],
    if made.count < min then .failure none else .success (.bytes (c.sliceTo made.tail)) made.tail⟩

theorem repeatedAnswer (budget : Nat) (p : Parser Value) (min : Nat) (max : Option Nat) :
    (Parser.repeated budget p min max).map Value.bytes c =
      (Parser.chain p budget max c).map (chainReply c min max) := by
  rw [Parser.mapAnswer,Parser.repeated,Option.map_map]
  congr 1
  funext made
  simp only [Function.comp_apply,Parser.Chain.outcome,chainReply]
  split <;> rfl

theorem yieldsChained {body min max made} (shape : plan rules e = .chained body min max)
    (links : Parser.Links (Yields rules body) max c made) : Yields rules e c (chainReply c min max made) := by
  obtain ⟨budget,found⟩ := linksChain links
  refine yieldsPlan.mpr ⟨budget,?_⟩
  rw [shape,Plan.run,repeatedAnswer,found]
  rfl

theorem yieldsChainedCases {body min max r} (shape : plan rules e = .chained body min max) (found : Yields rules e c r) :
    ∃ made, Parser.Links (Yields rules body) max c made ∧ r = chainReply c min max made := by
  obtain ⟨budget,found⟩ := yieldsPlan.mp found
  rw [shape,Plan.run,repeatedAnswer] at found
  obtain ⟨made,answer,rfl⟩ := Option.map_eq_some_iff.mp found
  exact ⟨made,Parser.linksMono (fun _ _ h => ⟨budget,h⟩) (Parser.chainLinks answer),rfl⟩

end Replies

/- Conditions that hold at an expression and at all its parts. What a function may choose counts as a part;
what a rule stands for does not, and is asked for beside it. -/
def Everywhere (P : Expr ρ → Prop) : Expr ρ → Prop
  | .repeated body min max => P (.repeated body min max) ∧ body.Everywhere P
  | .concat first second => P (.concat first second) ∧ first.Everywhere P ∧ second.Everywhere P
  | .text body => P (.text body) ∧ body.Everywhere P
  | .recognize body => P (.recognize body) ∧ body.Everywhere P
  | .choice first second => P (.choice first second) ∧ first.Everywhere P ∧ second.Everywhere P
  | .pair first second => P (.pair first second) ∧ first.Everywhere P ∧ second.Everywhere P
  | .keepLeft first second => P (.keepLeft first second) ∧ first.Everywhere P ∧ second.Everywhere P
  | .keepRight first second => P (.keepRight first second) ∧ first.Everywhere P ∧ second.Everywhere P
  | .optional body => P (.optional body) ∧ body.Everywhere P
  | .absent body => P (.absent body) ∧ body.Everywhere P
  | .present body => P (.present body) ∧ body.Everywhere P
  | .spanned body => P (.spanned body) ∧ body.Everywhere P
  | .held holding body => P (.held holding body) ∧ body.Everywhere P
  | .map f body => P (.map f body) ∧ body.Everywhere P
  | .bind f body => P (.bind f body) ∧ body.Everywhere P
  | .andThen next body => P (.andThen next body) ∧ body.Everywhere P ∧ ∀ value, (next value).Everywhere P
  | e => P e

section Everywhere

variable {P : Expr ρ → Prop} {rules : Rules ρ} {e : Expr ρ}

theorem everywhereHere (allowed : e.Everywhere P) : P e := by
  cases e <;> first | exact allowed | exact allowed.1

theorem everywhereMono {Q : Expr ρ → Prop} (weaker : ∀ e, P e → Q e) (allowed : e.Everywhere P) : e.Everywhere Q := by
  induction e with
  | repeated body min max inner => exact ⟨weaker _ allowed.1,inner allowed.2⟩
  | concat first second left right => exact ⟨weaker _ allowed.1,left allowed.2.1,right allowed.2.2⟩
  | text body inner => exact ⟨weaker _ allowed.1,inner allowed.2⟩
  | recognize body inner => exact ⟨weaker _ allowed.1,inner allowed.2⟩
  | choice first second left right => exact ⟨weaker _ allowed.1,left allowed.2.1,right allowed.2.2⟩
  | pair first second left right => exact ⟨weaker _ allowed.1,left allowed.2.1,right allowed.2.2⟩
  | keepLeft first second left right => exact ⟨weaker _ allowed.1,left allowed.2.1,right allowed.2.2⟩
  | keepRight first second left right => exact ⟨weaker _ allowed.1,left allowed.2.1,right allowed.2.2⟩
  | optional body inner => exact ⟨weaker _ allowed.1,inner allowed.2⟩
  | absent body inner => exact ⟨weaker _ allowed.1,inner allowed.2⟩
  | present body inner => exact ⟨weaker _ allowed.1,inner allowed.2⟩
  | spanned body inner => exact ⟨weaker _ allowed.1,inner allowed.2⟩
  | held holding body inner => exact ⟨weaker _ allowed.1,inner allowed.2⟩
  | map f body inner => exact ⟨weaker _ allowed.1,inner allowed.2⟩
  | bind f body inner => exact ⟨weaker _ allowed.1,inner allowed.2⟩
  | andThen next body right left =>
    exact ⟨weaker _ allowed.1,left allowed.2.1,fun value => right value (allowed.2.2 value)⟩
  | _ => exact weaker _ allowed

theorem everywhereAll (all : ∀ e, P e) (e : Expr ρ) : e.Everywhere P := by
  induction e with
  | andThen next body right left => exact ⟨all _,left,right⟩
  | concat _ _ left right | choice _ _ left right | pair _ _ left right => exact ⟨all _,left,right⟩
  | keepLeft _ _ left right | keepRight _ _ left right => exact ⟨all _,left,right⟩
  | literal | range | anyChar | atEnd | advance | fail | rule => exact all _
  | _ => exact ⟨all _,by assumption⟩

theorem everywhereWithin (given : ∀ name, (rules name).Everywhere P) (allowed : e.Everywhere P)
    {body hit miss} (shape : plan rules e = .within body hit miss) : body.Everywhere P := by
  cases e <;> simp only [plan,Plan.within.injEq,reduceCtorEq] at shape <;> rcases shape with ⟨rfl,-,-⟩
  case rule name => exact given name
  all_goals exact allowed.2

theorem everywhereSequence (allowed : e.Everywhere P) {first next join}
    (shape : plan rules e = .sequence first next join) :
    first.Everywhere P ∧ ∀ value, (next value).Everywhere P := by
  cases e <;> simp only [plan,Plan.sequence.injEq,reduceCtorEq] at shape <;> rcases shape with ⟨rfl,rfl,-⟩
  case andThen => exact allowed.2
  all_goals exact ⟨allowed.2.1,fun _ => allowed.2.2⟩

theorem everywhereEither (allowed : e.Everywhere P) {first second}
    (shape : plan rules e = .either first second) : first.Everywhere P ∧ second.Everywhere P := by
  cases eitherChoice shape
  exact allowed.2

theorem everywhereChained (allowed : e.Everywhere P) {body min max}
    (shape : plan rules e = .chained body min max) : body.Everywhere P := by
  cases chainedRepeated shape
  exact allowed.2

/- The induction is on the budget, which no case mentions: a case has the condition at its own
expression and the motive at the parts that answered. -/
theorem yieldsInduction {motive : Expr ρ → Cursor → Reply Value → Prop}
    (given : ∀ name, (rules name).Everywhere P)
    (direct : ∀ e p c r, P e → plan rules e = .direct p → p c = some r → motive e c r)
    (withinHit : ∀ e body hit miss c log value tail, P e → plan rules e = .within body hit miss →
      motive body c ⟨log,.success value tail⟩ → motive e c ((hit c value tail).after log))
    (withinMiss : ∀ e body hit miss c log reason, P e → plan rules e = .within body hit miss →
      motive body c ⟨log,.failure reason⟩ → motive e c ⟨log,miss c reason⟩)
    (sequenceStop : ∀ e first next join c log reason, P e → plan rules e = .sequence first next join →
      motive first c ⟨log,.failure reason⟩ → motive e c ⟨log,.failure reason⟩)
    (sequenceMiss : ∀ e first next join c log value middle own reason, P e →
      plan rules e = .sequence first next join → motive first c ⟨log,.success value middle⟩ →
      motive (next value) middle ⟨own,.failure reason⟩ → motive e c ⟨log ++ own,.failure reason⟩)
    (sequenceHit : ∀ e first next join c log value middle own result tail, P e →
      plan rules e = .sequence first next join → motive first c ⟨log,.success value middle⟩ →
      motive (next value) middle ⟨own,.success result tail⟩ →
      motive e c ⟨log ++ own,.success (join c value result tail) tail⟩)
    (eitherFirst : ∀ e first second c log value tail, P e → plan rules e = .either first second →
      motive first c ⟨log,.success value tail⟩ → motive e c ⟨log,.success value tail⟩)
    (eitherSecond : ∀ e first second c log reason r, P e → plan rules e = .either first second →
      motive first c ⟨log,.failure reason⟩ → motive second c r → motive e c (r.after log))
    (chained : ∀ e body min max c made, P e → plan rules e = .chained body min max →
      Parser.Links (motive body) max c made → motive e c (chainReply c min max made))
    (allowed : e.Everywhere P) {c : Cursor} {r : Reply Value} (found : Yields rules e c r) : motive e c r := by
  obtain ⟨budget,found⟩ := found
  induction budget generalizing e c r with
  | zero => simp [parse] at found
  | succ budget ih =>
    rw [parsePlan] at found
    have here := everywhereHere allowed
    cases shape : plan rules e with
    | direct p =>
      rw [shape] at found
      exact direct e p c r here shape found
    | within body hit miss =>
      rw [shape,Plan.run,Parser.followAnswer] at found
      have inner := everywhereWithin given allowed shape
      rcases found with ⟨log,value,tail,s,hb,hs,rfl⟩ | ⟨log,reason,s,hb,hs,rfl⟩
      · cases Option.some.inj hs
        exact withinHit e body hit miss c log value tail here shape (ih inner hb)
      · cases Option.some.inj hs
        simpa [Reply.after] using withinMiss e body hit miss c log reason here shape (ih inner hb)
    | sequence first next join =>
      rw [shape,Plan.run,Parser.followAnswer] at found
      have inner := everywhereSequence allowed shape
      rcases found with ⟨log,value,middle,s,hb,hs,rfl⟩ | ⟨log,reason,s,hb,hs,rfl⟩
      · have left := ih inner.1 hb
        rcases Parser.followAnswer.mp hs with ⟨own,result,tail,t,hn,ht,rfl⟩ | ⟨own,reason,t,hn,ht,rfl⟩
        · cases Option.some.inj ht
          simpa [Reply.after] using
            sequenceHit e first next join c log value middle own result tail here shape left (ih (inner.2 value) hn)
        · cases Option.some.inj ht
          simpa [Reply.after] using
            sequenceMiss e first next join c log value middle own reason here shape left (ih (inner.2 value) hn)
      · cases Option.some.inj hs
        simpa [Reply.after] using sequenceStop e first next join c log reason here shape (ih inner.1 hb)
    | either first second =>
      rw [shape,Plan.run,Parser.orElse,Parser.followAnswer] at found
      have inner := everywhereEither allowed shape
      rcases found with ⟨log,value,tail,s,hb,hs,rfl⟩ | ⟨log,reason,s,hb,hs,rfl⟩
      · cases Option.some.inj hs
        simpa [Reply.after] using eitherFirst e first second c log value tail here shape (ih inner.1 hb)
      · exact eitherSecond e first second c log reason s here shape (ih inner.1 hb) (ih inner.2 hs)
    | chained body min max =>
      rw [shape,Plan.run,repeatedAnswer] at found
      have inner := everywhereChained allowed shape
      obtain ⟨made,hm,rfl⟩ := Option.map_eq_some_iff.mp found
      have links := Parser.chainLinks hm
      exact chained e body min max c made here shape (Parser.linksMono (fun _ _ h => ih inner h) links)

end Everywhere

end Expr

end SliceGrammar
