import SliceGrammar.Action
import SliceGrammar.Proofs.Calls
import SliceGrammar.Proofs.Outcome
import SliceGrammar.Proofs.Primitive
/-! Reasons of failures are handed on or dropped and never looked at. An expression without its reasons goes the
same way as the expression itself: it enters the same parts at the same cursors, reports the same and comes to
the same outcome but for the reason. And no combinator makes up a reason: where a parse fails with one, a part
that was entered is a failure with that reason, or its function answered with it. -/
namespace SliceGrammar

def Reply.forgetReason {α : Type} (r : Reply α) : Reply α := ⟨r.log,r.outcome.forgetReason⟩

theorem Outcome.forgetSuccess {α : Type} {o : Outcome α} {value : α} {tail : Cursor}
    (same : o.forgetReason = .success value tail) : o = .success value tail := by
  cases o with
  | success => exact same
  | failure => contradiction

theorem Outcome.forgetFailure {α : Type} {o : Outcome α} {reason : Option Reason}
    (same : o.forgetReason = .failure reason) : reason = none ∧ ∃ own, o = .failure own := by
  cases o with
  | success => contradiction
  | failure own =>
    cases same
    exact ⟨rfl,own,rfl⟩

namespace Parser

variable {p q : Parser Value} {c : Cursor}

theorem followReasonless {hit hit' : Value → Cursor → Option (Reply Value)}
    {miss miss' : Option Reason → Option (Reply Value)} (first : q c = (p c).map Reply.forgetReason)
    (hits : ∀ value tail, hit' value tail = (hit value tail).map Reply.forgetReason)
    (misses : ∀ reason, miss' none = (miss reason).map Reply.forgetReason) :
    q.follow hit' miss' c = (p.follow hit miss c).map Reply.forgetReason := by
  unfold follow
  rw [first]
  cases p c with
  | none => rfl
  | some r =>
    obtain ⟨log,value | reason⟩ := r
    · simp only [Option.map_some,Reply.forgetReason,Outcome.forgetReason,hits,Option.map_map]
      rfl
    · simp only [Option.map_some,Reply.forgetReason,Outcome.forgetReason,misses reason,Option.map_map]
      rfl

/- A chain drops the reason of the failure that ends it, so it is the very same chain. -/
theorem chainReasonless (each : ∀ c, q c = (p c).map Reply.forgetReason) (fuel : Nat) (max : Option Nat) (c : Cursor) :
    chain q fuel max c = chain p fuel max c := by
  induction fuel generalizing max c with
  | zero => rfl
  | succ fuel ih =>
    simp only [chain,each c]
    split
    · rfl
    · cases p c with
      | none => rfl
      | some r =>
        obtain ⟨log,value | reason⟩ := r
        · simp only [Option.map_some,Reply.forgetReason,Outcome.forgetReason,ih]
        · rfl

end Parser

def Expr.reasonless {ρ : Type} : Expr ρ → Expr ρ
  | .literal content => .literal content
  | .range low high => .range low high
  | .anyChar => .anyChar
  | .atEnd => .atEnd
  | .advance n => .advance n
  | .fail _ => .fail none
  | .repeated body min max => .repeated body.reasonless min max
  | .concat first second => .concat first.reasonless second.reasonless
  | .text body => .text body.reasonless
  | .recognize body => .recognize body.reasonless
  | .choice first second => .choice first.reasonless second.reasonless
  | .pair first second => .pair first.reasonless second.reasonless
  | .keepLeft first second => .keepLeft first.reasonless second.reasonless
  | .keepRight first second => .keepRight first.reasonless second.reasonless
  | .optional body => .optional body.reasonless
  | .absent body => .absent body.reasonless
  | .present body => .present body.reasonless
  | .spanned body => .spanned body.reasonless
  | .held holding body => .held holding body.reasonless
  | .rule name => .rule name
  | .map f body => .map f body.reasonless
  | .bind f body => .bind (fun value tail => (f value tail).forgetReason) body.reasonless
  | .andThen next body => .andThen (fun value => (next value).reasonless) body.reasonless

def Rules.reasonless {ρ : Type} (rules : Rules ρ) : Rules ρ := fun name => (rules name).reasonless

namespace Expr

variable {ρ : Type} {rules : Rules ρ} {e : Expr ρ} {c : Cursor}

theorem directReason {p : Parser Value} {log : Log} {reason : Option Reason} (shape : plan rules e = .direct p)
    (answer : p c = some ⟨log,.failure reason⟩) : reason = none ∨ e = .fail reason := by
  cases e <;> simp only [plan,Plan.direct.injEq,reduceCtorEq] at shape <;> subst shape
  case literal content =>
    rcases Parser.literalAnswer.mp answer with ⟨_,same⟩ | ⟨_,same⟩ <;> cases same
    exact .inl rfl
  case range low high =>
    rcases Parser.rangeAnswer.mp answer with ⟨_,_,_,same⟩ | ⟨_,_,_,same⟩ | ⟨_,_,same⟩ <;> cases same
    · exact .inl rfl
    · exact .inl rfl
  case anyChar =>
    rcases Parser.anyCharAnswer.mp answer with ⟨_,_,same⟩ | ⟨_,_,same⟩ <;> cases same
    exact .inl rfl
  case atEnd =>
    rcases Parser.atEndAnswer.mp answer with ⟨_,same⟩ | ⟨_,same⟩ <;> cases same
    exact .inl rfl
  case advance n => cases Parser.advanceAnswer.mp answer
  case fail own =>
    cases Parser.failAnswer.mp answer
    exact .inr rfl

theorem hitReason {body hit miss value tail reason} (shape : plan rules e = .within body hit miss)
    (failed : (hit c value tail).outcome = .failure reason) :
    reason = none ∨ ∃ f, e = .bind f body ∧ f value tail = .failure reason := by
  cases e <;> simp only [plan,Plan.within.injEq,reduceCtorEq] at shape <;> obtain ⟨rfl,rfl,rfl⟩ := shape
  case bind f body => exact .inr ⟨f,rfl,failed⟩
  case text body =>
    unfold readText at failed
    split at failed
    · split at failed
      · contradiction
      · cases failed
        exact .inl rfl
    · cases failed
      exact .inl rfl
  all_goals cases failed
  exact .inl rfl

theorem missReason {body hit miss reason own} (shape : plan rules e = .within body hit miss)
    (failed : miss c reason = .failure own) : own = reason := by
  cases e <;> simp only [plan,Plan.within.injEq,reduceCtorEq] at shape <;> obtain ⟨rfl,rfl,rfl⟩ := shape
  all_goals cases failed
  all_goals rfl

inductive Plan.Hushed : Plan ρ → Plan ρ → Prop where
  | direct {p q} (same : ∀ c, q c = (p c).map Reply.forgetReason) : Hushed (.direct p) (.direct q)
  | within {hit hit' miss miss'} (body) (hits : ∀ c value tail, hit' c value tail = (hit c value tail).forgetReason)
      (misses : ∀ c reason, miss' c none = (miss c reason).forgetReason) :
      Hushed (.within body hit miss) (.within body.reasonless hit' miss')
  | sequence (first next join) :
      Hushed (.sequence first next join) (.sequence first.reasonless (fun value => (next value).reasonless) join)
  | either (first second) : Hushed (.either first second) (.either first.reasonless second.reasonless)
  | chained (body min max) : Hushed (.chained body min max) (.chained body.reasonless min max)

theorem directHushed (rules : Rules ρ) (e : Expr ρ) {p : Parser Value} (shape : plan rules e = .direct p)
    (other : ∀ reason, e ≠ .fail reason) : Plan.Hushed (.direct p) (.direct p : Plan ρ) := by
  refine .direct (fun c => ?_)
  cases answer : p c with
  | none => rfl
  | some r =>
    obtain ⟨log,value | reason⟩ := r
    · rfl
    · rcases directReason shape answer with rfl | same
      · rfl
      · exact absurd same (other reason)

theorem readTextReasonless (c : Cursor) (value : Value) (tail : Cursor) :
    readText c value tail = (readText c value tail).forgetReason := by
  unfold readText
  split
  · split <;> rfl
  · rfl

theorem planReasonless (rules : Rules ρ) (e : Expr ρ) : (plan rules e).Hushed (plan rules.reasonless e.reasonless) := by
  cases e with
  | literal content => exact directHushed rules (.literal content) rfl (by simp)
  | range low high => exact directHushed rules (.range low high) rfl (by simp)
  | anyChar => exact directHushed rules .anyChar rfl (by simp)
  | atEnd => exact directHushed rules .atEnd rfl (by simp)
  | advance n => exact directHushed rules (.advance n) rfl (by simp)
  | fail reason => exact .direct (fun _ => rfl)
  | repeated body min max => exact .chained body min max
  | choice first second => exact .either first second
  | concat | pair | keepLeft | keepRight | andThen => exact .sequence _ _ _
  | text body => exact .within body readTextReasonless (fun _ _ => rfl)
  | _ => exact .within _ (fun _ _ _ => rfl) (fun _ _ => rfl)

theorem runReasonless {sub sub' : Expr ρ → Parser Value} {p q : Plan ρ} (hushed : p.Hushed q) (budget : Nat)
    (each : ∀ e c, sub' e.reasonless c = (sub e c).map Reply.forgetReason) (c : Cursor) :
    q.run budget sub' c = (p.run budget sub c).map Reply.forgetReason := by
  cases hushed with
  | direct same => exact same c
  | within body hits misses =>
    refine Parser.followReasonless (each body c) (fun value tail => ?_) (fun reason => ?_)
    · rw [hits]
      rfl
    · rw [misses c reason]
      rfl
  | sequence first next join =>
    refine Parser.followReasonless (each first c) (fun value middle => ?_) (fun _ => rfl)
    exact Parser.followReasonless (each (next value) middle) (fun _ _ => rfl) (fun _ => rfl)
  | either first second => exact Parser.followReasonless (each first c) (fun _ _ => rfl) (fun _ => each second c)
  | chained body min max =>
    simp only [Plan.run,repeatedAnswer,Parser.chainReasonless (each body),Option.map_map]
    congr 1
    funext made
    simp only [Function.comp_apply,chainReply,Reply.forgetReason]
    split <;> rfl

theorem parseReasonless (rules : Rules ρ) (budget : Nat) (e : Expr ρ) (c : Cursor) :
    parse rules.reasonless budget e.reasonless c = (parse rules budget e c).map Reply.forgetReason := by
  induction budget generalizing e c with
  | zero => rfl
  | succ budget ih =>
    rw [parsePlan,parsePlan]
    exact runReasonless (planReasonless rules e) budget ih c

theorem matchedReasonless {log : Log} {value : Value} {tail : Cursor} :
    Yields rules.reasonless e.reasonless c ⟨log,.success value tail⟩ ↔ Yields rules e c ⟨log,.success value tail⟩ := by
  constructor
  · intro matched
    obtain ⟨budget,found⟩ := matched
    rw [parseReasonless] at found
    obtain ⟨⟨own,o⟩,answer,same⟩ := Option.map_eq_some_iff.mp found
    obtain ⟨rfl,success⟩ := Reply.mk.inj same
    cases Outcome.forgetSuccess success
    exact ⟨budget,answer⟩
  · intro matched
    obtain ⟨budget,found⟩ := matched
    exact ⟨budget,by rw [parseReasonless,found]; rfl⟩

theorem failedReasonless {log : Log} {reason : Option Reason} :
    Yields rules.reasonless e.reasonless c ⟨log,.failure reason⟩ ↔
      reason = none ∧ ∃ own, Yields rules e c ⟨log,.failure own⟩ := by
  constructor
  · intro failed
    obtain ⟨budget,found⟩ := failed
    rw [parseReasonless] at found
    obtain ⟨⟨own,o⟩,answer,same⟩ := Option.map_eq_some_iff.mp found
    obtain ⟨rfl,failure⟩ := Reply.mk.inj same
    obtain ⟨rfl,reason,rfl⟩ := Outcome.forgetFailure failure
    exact ⟨rfl,reason,budget,answer⟩
  · intro failed
    obtain ⟨rfl,own,budget,found⟩ := failed
    exact ⟨budget,by rw [parseReasonless,found]; rfl⟩

theorem repeatsReasonless {body : Expr ρ} {n : Nat} {d : Cursor} :
    Repeats rules.reasonless body.reasonless c n d ↔ Repeats rules body c n d := by
  constructor
  · intro repeats
    induction repeats with
    | none => exact .none
    | more _ matched ih => exact .more ih (matchedReasonless.mp matched)
  · intro repeats
    induction repeats with
    | none => exact .none
    | more _ matched ih => exact .more ih (matchedReasonless.mpr matched)

theorem callsReasonless {part : Expr ρ} {d : Cursor} (call : Calls rules e c part d) :
    Calls rules.reasonless e.reasonless c part.reasonless d := by
  have hushed := planReasonless rules e
  generalize shape' : plan rules.reasonless e.reasonless = q at hushed
  cases call with
  | body shape =>
    rw [shape] at hushed
    cases hushed
    exact .body shape'
  | first shape =>
    rw [shape] at hushed
    cases hushed
    exact .first shape'
  | next shape matched =>
    rw [shape] at hushed
    cases hushed
    exact .next shape' (matchedReasonless.mpr matched)
  | tried shape =>
    rw [shape] at hushed
    cases hushed
    exact .tried shape'
  | instead shape failed =>
    rw [shape] at hushed
    cases hushed
    exact .instead shape' (failedReasonless.mpr ⟨rfl,_,failed⟩)
  | again shape repeats below =>
    rw [shape] at hushed
    cases hushed
    exact .again shape' (repeatsReasonless.mpr repeats) below

theorem callsReasoned {part : Expr ρ} {d : Cursor} (call : Calls rules.reasonless e.reasonless c part d) :
    ∃ whole, Calls rules e c whole d ∧ whole.reasonless = part := by
  have hushed := planReasonless rules e
  generalize shape : plan rules e = p at hushed
  cases call with
  | body shape' =>
    rw [shape'] at hushed
    cases hushed
    exact ⟨_,.body shape,rfl⟩
  | first shape' =>
    rw [shape'] at hushed
    cases hushed
    exact ⟨_,.first shape,rfl⟩
  | next shape' matched =>
    rw [shape'] at hushed
    cases hushed
    exact ⟨_,.next shape (matchedReasonless.mp matched),rfl⟩
  | tried shape' =>
    rw [shape'] at hushed
    cases hushed
    exact ⟨_,.tried shape,rfl⟩
  | instead shape' failed =>
    rw [shape'] at hushed
    cases hushed
    obtain ⟨_,own,failed⟩ := failedReasonless.mp failed
    exact ⟨_,.instead shape failed,rfl⟩
  | again shape' repeats below =>
    rw [shape'] at hushed
    cases hushed
    exact ⟨_,.again shape (repeatsReasonless.mp repeats) below,rfl⟩

theorem visitsReasonless {part : Expr ρ} {d : Cursor} :
    Visits rules.reasonless e.reasonless c part d ↔ ∃ whole, Visits rules e c whole d ∧ whole.reasonless = part := by
  constructor
  · intro visits
    induction visits with
    | here => exact ⟨e,.here,rfl⟩
    | deeper outer call ih =>
      obtain ⟨whole,before,rfl⟩ := ih
      obtain ⟨inner,entered,rfl⟩ := callsReasoned call
      exact ⟨inner,.deeper before entered,rfl⟩
  · intro entered
    obtain ⟨whole,visits,rfl⟩ := entered
    induction visits with
    | here => exact .here
    | deeper outer call ih => exact .deeper ih (callsReasonless call)

inductive Supplies (rules : Rules ρ) (c : Cursor) (reason : Reason) : Expr ρ → Prop where
  | fail : Supplies rules c reason (.fail (some reason))
  | bind {f body log value tail} (matched : Yields rules body c ⟨log,.success value tail⟩)
      (answered : f value tail = .failure (some reason)) : Supplies rules c reason (.bind f body)

def Supplied (rules : Rules ρ) (e : Expr ρ) (c : Cursor) (o : Outcome Value) : Prop :=
  ∀ reason, o = .failure (some reason) → ∃ part d, Visits rules e c part d ∧ Supplies rules d reason part

theorem suppliedInside {inner : Expr ρ} {d : Cursor} {o : Outcome Value} (call : Calls rules e c inner d)
    (supplied : Supplied rules inner d o) : Supplied rules e c o := by
  intro reason failed
  obtain ⟨part,last,visits,supplies⟩ := supplied reason failed
  exact ⟨part,last,visitsInside call visits,supplies⟩

theorem settledSupplied {o : Outcome Value}
    (settled : (plan rules e).settle (fun e c o => Gives rules e c o ∧ Supplied rules e c o) c o) : Supplied rules e c o := by
  cases shape : plan rules e <;> rw [shape] at settled
  case direct p =>
    intro reason failed
    subst failed
    obtain ⟨log,answer⟩ := settled
    rcases directReason shape answer with none | rfl
    · contradiction
    · exact ⟨_,c,.here,.fail⟩
  case within body hit miss =>
    rcases settled with ⟨value,tail,⟨⟨log,matched⟩,_⟩,rfl⟩ | ⟨own,⟨_,inner⟩,rfl⟩
    · intro reason failed
      rcases hitReason shape failed with none | ⟨f,rfl,answered⟩
      · contradiction
      · exact ⟨_,c,.here,.bind matched answered⟩
    · intro reason failed
      cases missReason shape failed
      exact suppliedInside (.body shape) inner reason rfl
  case sequence first next join =>
    rcases settled with ⟨value,middle,⟨⟨log,matched⟩,_⟩,⟨result,tail,_,rfl⟩ | ⟨own,⟨_,right⟩,rfl⟩⟩ | ⟨own,⟨_,left⟩,rfl⟩
    · intro reason failed
      contradiction
    · exact suppliedInside (.next shape matched) right
    · exact suppliedInside (.first shape) left
  case either first second =>
    rcases settled with ⟨value,tail,_,rfl⟩ | ⟨own,⟨⟨log,failed⟩,_⟩,⟨_,right⟩⟩
    · intro reason failed
      contradiction
    · exact suppliedInside (.instead shape failed) right
  case chained body min max =>
    obtain ⟨values,tail,_,rfl⟩ := settled
    intro reason failed
    unfold collected at failed
    split at failed <;> cases failed

theorem reasonSupplied {log : Log} {reason : Reason} (found : Yields rules e c ⟨log,.failure (some reason)⟩) :
    ∃ part d, Visits rules e c part d ∧ Supplies rules d reason part :=
  givesInduction (motive := Supplied rules) (fun _ _ _ settled => settledSupplied settled) ⟨log,found⟩ reason rfl

theorem reasonsAreInert (rules : Rules ρ) (e : Expr ρ) (c : Cursor) :
    (∀ budget, parse rules.reasonless budget e.reasonless c = (parse rules budget e c).map Reply.forgetReason) ∧
    (∀ part d, Visits rules.reasonless e.reasonless c part d ↔ ∃ whole, Visits rules e c whole d ∧ whole.reasonless = part) ∧
    (∀ part d log reason, Visits rules.reasonless e.reasonless c part d →
      Yields rules.reasonless part d ⟨log,.failure reason⟩ → reason = none) ∧
    ∀ log reason, Yields rules e c ⟨log,.failure (some reason)⟩ →
      ∃ part d, Visits rules e c part d ∧ Supplies rules d reason part := by
  refine ⟨fun budget => parseReasonless rules budget e c,fun _ _ => visitsReasonless,?_,fun _ _ => reasonSupplied⟩
  intro part d log reason visits failed
  obtain ⟨whole,_,rfl⟩ := visitsReasonless.mp visits
  exact (failedReasonless.mp failed).1

def refusals : Rules Unit := fun _ =>
  .choice (.keepRight (.literal "a") (.fail (some default)))
    (.bind (Action.reject (some default)) (.many1 (.range 'a' 'z')))

def refusedWord : Expr Unit := .keepLeft (.optional (.literal "-")) (.rule ())

theorem refusedWithoutReasons :
    let c := Cursor.start (Utf8.bytes "-ab1") none
    let log := [Entry.event (.stopped 2 1 none)]
    Yields refusals refusedWord c ⟨log,.failure (some default)⟩ ∧
    parse refusals.reasonless 8 refusedWord.reasonless c = some ⟨log,.failure none⟩ ∧
    Visits refusals.reasonless refusedWord.reasonless c (.fail none) (c.advance 2) ∧
    (∃ reason, Yields refusals.reasonless (.fail none) (c.advance 2) ⟨[],.failure reason⟩ ∧ reason = none) ∧
    ∃ part d, Visits refusals refusedWord c part d ∧ Supplies refusals d default part := by
  intro c log
  have found : parse refusals 8 refusedWord c = some ⟨log,.failure (some default)⟩ := by decide +kernel
  have minus : Yields refusals (.optional (.literal "-")) c ⟨[],.success (.just (.bytes [45])) (c.advance 1)⟩ :=
    ⟨8,by decide +kernel⟩
  have letter : Yields refusals (.literal "a") (c.advance 1) ⟨[],.success (.bytes [97]) (c.advance 2)⟩ :=
    ⟨8,by decide +kernel⟩
  have sign : plan refusals refusedWord = .sequence _ (fun _ => .rule ()) _ := rfl
  have start : plan refusals (.keepRight (.literal "a") (.fail (some default))) =
      .sequence _ (fun _ => .fail (some default)) _ := rfl
  have word : Visits refusals refusedWord c (.rule ()) (c.advance 1) := .deeper .here (.next sign minus)
  have visits : Visits refusals refusedWord c (.fail (some default)) (c.advance 2) :=
    .deeper (.deeper (.deeper word (.body rfl)) (.tried rfl)) (.next start letter)
  obtain ⟨silent,entered,unreasoned,supplied⟩ := reasonsAreInert refusals refusedWord c
  have there := (entered (.fail none) (c.advance 2)).mpr ⟨_,visits,rfl⟩
  have failed : Yields refusals.reasonless (.fail none) (c.advance 2) ⟨[],.failure none⟩ := ⟨8,by decide +kernel⟩
  refine ⟨⟨8,found⟩,?_,there,⟨none,failed,unreasoned _ _ _ _ there failed⟩,supplied log default ⟨8,found⟩⟩
  rw [silent 8,found]
  rfl

end Expr

end SliceGrammar
