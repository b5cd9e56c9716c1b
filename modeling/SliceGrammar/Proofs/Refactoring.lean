import SliceGrammar.Action
import SliceGrammar.Proofs.Outcome
/-! Grammars rewritten by laws. A law is an equation between two expressions; a refactoring puts one side for the
other anywhere in the start expression and in the rules, any number of times. It is sound in two steps. Under
rules that stay as they are an expression may be exchanged part by part, because its outcome depends on its
parts only by theirs. The rules may then be exchanged as well, by induction over the parse: the new body of a
rule does under the new rules what the old body does under them. One law keeps everything but the reasons of
failures, so the steps are taken for outcomes that agree up to a given equivalence of reasons. -/
namespace SliceGrammar.Expr

variable {ρ : Type} {rules other : Rules ρ} {e e' : Expr ρ} {c : Cursor} {o : Outcome Value}
  {alike : Option Reason → Option Reason → Prop}

section Laws

variable (first second third body : Expr ρ)

theorem choiceAssociative :
    Gives rules (.choice (.choice first second) third) c = Gives rules (.choice first (.choice second third)) c := by
  simp [givesSettle (.choice _ _),plan,Plan.settle]

theorem concatAssociative :
    Gives rules (.concat (.concat first second) third) c = Gives rules (.concat first (.concat second third)) c := by
  simp [givesSettle (.concat _ _),plan,Plan.settle]

theorem concatDistributes :
    Gives rules (.choice (.concat first second) (.concat first third)) c =
      Gives rules (.concat first (.choice second third)) c := by
  simp only [givesSettle (.choice _ _),givesSettle (.concat _ _),plan,Plan.settle,afterAfter,afterSuccess,afterFailure]
  refine afterCongr (fun value middle found => ?_) (fun reason found => ?_)
  · simp [afterKnown (fun _ _ => givesUnique) found]
  · simp [afterKnown (fun _ _ => givesUnique) found]

theorem concatRecognize {join : Cursor → Value → Value → Cursor → Value}
    (shape : plan rules e = .sequence first (fun _ => second) join) :
    Gives rules (.concat first second) c = Gives rules (.recognize e) c := by
  rw [givesSettle (.concat _ _),givesSettle (.recognize _)]
  simp only [plan,Plan.settle,quiet,passOn]
  rw [givesSettle e,shape]
  simp [Plan.settle]

theorem collectsOnce {answer : Cursor → Outcome Value → Prop} {values : List Value} {tail : Cursor} :
    Collects answer (some 1) c values tail ↔
      (∃ value, answer c (.success value tail) ∧ values = [value]) ∨
      ∃ reason, answer c (.failure reason) ∧ values = [] ∧ tail = c := by
  constructor
  · intro collects
    cases collects with
    | stopped more failed => exact .inr ⟨_,failed,rfl,rfl⟩
    | next more matched later =>
      cases later with
      | full => exact .inl ⟨_,matched,rfl⟩
      | stopped more => exact absurd rfl more
      | next more => exact absurd rfl more
  · rintro (⟨value,matched,rfl⟩ | ⟨reason,failed,rfl,rfl⟩)
    · exact .next (by simp) matched (.full tail)
    · exact .stopped (by simp) failed

theorem atMostOneOptional : Gives rules (.atMostOne body) c = Gives rules (.recognize (.optional body)) c := by
  rw [givesSettle (.recognize _)]
  simp only [givesSettle (.optional _),plan,Plan.settle,afterAfter,afterSuccess,quiet]
  funext o
  apply propext
  rw [givesPlan]
  constructor
  · rintro ⟨values,tail,collects,rfl⟩
    rcases collectsOnce.mp collects with ⟨value,matched,rfl⟩ | ⟨reason,failed,rfl,rfl⟩
    · exact .inl ⟨value,tail,matched,rfl⟩
    · exact .inr ⟨reason,failed,rfl⟩
  · rintro (⟨value,tail,matched,rfl⟩ | ⟨reason,failed,rfl⟩)
    · exact ⟨[value],tail,collectsOnce.mpr (.inl ⟨value,matched,rfl⟩),rfl⟩
    · exact ⟨[],c,collectsOnce.mpr (.inr ⟨reason,failed,rfl,rfl⟩),rfl⟩

theorem absentThrice : Gives rules (.absent (.absent (.absent body))) c = Gives rules (.absent body) c := by
  simp [givesSettle (.absent _),plan,Plan.settle,quiet]

theorem recognizeRepeated (min : Nat) (max : Option Nat) :
    Gives rules (.recognize (.repeated body min max)) c = Gives rules (.repeated body min max) c := by
  rw [givesSettle (.recognize _)]
  refine afterSelf (fun value tail found => ?_)
  obtain ⟨values,last,_,same⟩ := givesPlan.mp found
  unfold collected at same
  split at same
  · contradiction
  · cases same
    rfl

theorem heldRemoved (holding : Holding) : Gives rules (.held holding body) c = Gives rules body c := by
  rw [givesSettle (.held _ _)]
  exact afterSelf (fun _ _ _ => rfl)

theorem absentTwice :
    Gives rules (.absent (.absent body)) c o ↔ ∃ p, Gives rules (.present body) c p ∧ p.forgetReason = o := by
  simp only [givesSettle (.absent _),givesSettle (.present _),plan,Plan.settle,afterAfter,afterSuccess,afterFailure,quiet,
    passOn]
  constructor
  · rintro (⟨value,tail,matched,rfl⟩ | ⟨reason,failed,rfl⟩)
    · exact ⟨_,.inl ⟨value,tail,matched,rfl⟩,rfl⟩
    · exact ⟨_,.inr ⟨reason,failed,rfl⟩,rfl⟩
  · rintro ⟨_,⟨value,tail,matched,rfl⟩ | ⟨reason,failed,rfl⟩,rfl⟩
    · exact .inl ⟨value,tail,matched,rfl⟩
    · exact .inr ⟨reason,failed,rfl⟩

theorem presentReason {reason : Option Reason} :
    Gives rules (.present body) c (.failure reason) ↔ Gives rules body c (.failure reason) := by
  rw [givesPlan]
  constructor
  · rintro (⟨_,_,_,same⟩ | ⟨_,failed,same⟩)
    · contradiction
    · cases same
      exact failed
  · exact fun failed => .inr ⟨reason,failed,rfl⟩

end Laws

inductive Law : Expr ρ → Expr ρ → Prop where
  | choiceAssociative (first second third) :
      Law (.choice (.choice first second) third) (.choice first (.choice second third))
  | concatAssociative (first second third) :
      Law (.concat (.concat first second) third) (.concat first (.concat second third))
  | concatDistributes (first second third) :
      Law (.choice (.concat first second) (.concat first third)) (.concat first (.choice second third))
  | concatPair (first second) : Law (.concat first second) (.recognize (.pair first second))
  | concatKeepLeft (first second) : Law (.concat first second) (.recognize (.keepLeft first second))
  | concatKeepRight (first second) : Law (.concat first second) (.recognize (.keepRight first second))
  | atMostOneOptional (body) : Law (.atMostOne body) (.recognize (.optional body))
  | absentThrice (body) : Law (.absent (.absent (.absent body))) (.absent body)
  | recognizeRepeated (body min max) : Law (.recognize (.repeated body min max)) (.repeated body min max)
  | heldRemoved (holding body) : Law (.held holding body) body

theorem lawHolds (law : Law e e') (rules : Rules ρ) (c : Cursor) : Gives rules e c = Gives rules e' c := by
  cases law with
  | choiceAssociative first second third => exact choiceAssociative first second third
  | concatAssociative first second third => exact concatAssociative first second third
  | concatDistributes first second third => exact concatDistributes first second third
  | concatPair first second => exact concatRecognize first second rfl
  | concatKeepLeft first second => exact concatRecognize first second rfl
  | concatKeepRight first second => exact concatRecognize first second rfl
  | atMostOneOptional body => exact atMostOneOptional body
  | absentThrice body => exact absentThrice body
  | recognizeRepeated body min max => exact recognizeRepeated body min max
  | heldRemoved holding => exact heldRemoved e' holding

inductive LawUpToReasons : Expr ρ → Expr ρ → Prop where
  | exact {e e' : Expr ρ} (law : Law e e') : LawUpToReasons e e'
  | absentTwice (body) : LawUpToReasons (.absent (.absent body)) (.present body)

/- What laws make of a grammar, anywhere in it. The function of `andThen` may give another expression for each
value, and each of them is a place of its own. -/
inductive Refactors (laws : Expr ρ → Expr ρ → Prop) : Expr ρ → Expr ρ → Prop where
  | law {e e' : Expr ρ} (applies : laws e e') : Refactors laws e e'
  | same (e : Expr ρ) : Refactors laws e e
  | back {e e' : Expr ρ} (forth : Refactors laws e e') : Refactors laws e' e
  | onward {e middle e' : Expr ρ} (left : Refactors laws e middle) (right : Refactors laws middle e') : Refactors laws e e'
  | repeated {body body'} (min max) (inner : Refactors laws body body') :
      Refactors laws (.repeated body min max) (.repeated body' min max)
  | concat {first first' second second'} (left : Refactors laws first first') (right : Refactors laws second second') :
      Refactors laws (.concat first second) (.concat first' second')
  | choice {first first' second second'} (left : Refactors laws first first') (right : Refactors laws second second') :
      Refactors laws (.choice first second) (.choice first' second')
  | pair {first first' second second'} (left : Refactors laws first first') (right : Refactors laws second second') :
      Refactors laws (.pair first second) (.pair first' second')
  | keepLeft {first first' second second'} (left : Refactors laws first first') (right : Refactors laws second second') :
      Refactors laws (.keepLeft first second) (.keepLeft first' second')
  | keepRight {first first' second second'} (left : Refactors laws first first') (right : Refactors laws second second') :
      Refactors laws (.keepRight first second) (.keepRight first' second')
  | text {body body'} (inner : Refactors laws body body') : Refactors laws (.text body) (.text body')
  | recognize {body body'} (inner : Refactors laws body body') : Refactors laws (.recognize body) (.recognize body')
  | optional {body body'} (inner : Refactors laws body body') : Refactors laws (.optional body) (.optional body')
  | absent {body body'} (inner : Refactors laws body body') : Refactors laws (.absent body) (.absent body')
  | present {body body'} (inner : Refactors laws body body') : Refactors laws (.present body) (.present body')
  | spanned {body body'} (inner : Refactors laws body body') : Refactors laws (.spanned body) (.spanned body')
  | held {body body'} (holding) (inner : Refactors laws body body') :
      Refactors laws (.held holding body) (.held holding body')
  | map {body body'} (f) (inner : Refactors laws body body') : Refactors laws (.map f body) (.map f body')
  | bind {body body'} (f) (inner : Refactors laws body body') : Refactors laws (.bind f body) (.bind f body')
  | andThen {next next' body body'} (chosen : ∀ value, Refactors laws (next value) (next' value))
      (inner : Refactors laws body body') : Refactors laws (.andThen next body) (.andThen next' body')

inductive Near (alike : Option Reason → Option Reason → Prop) : Outcome Value → Outcome Value → Prop where
  | success (value tail) : Near alike (.success value tail) (.success value tail)
  | failure {reason other} (close : alike reason other) : Near alike (.failure reason) (.failure other)

theorem nearRefl (fair : Equivalence alike) (o : Outcome Value) : Near alike o o := by
  cases o with
  | success value tail => exact .success value tail
  | failure reason => exact .failure (fair.refl reason)

theorem nearTrans (fair : Equivalence alike) {p q : Outcome Value} (left : Near alike o p) (right : Near alike p q) :
    Near alike o q := by
  cases left with
  | success value tail => exact right
  | failure close =>
    cases right with
    | failure further => exact .failure (fair.trans close further)

def Toward (alike : Option Reason → Option Reason → Prop) (answer known : Outcome Value → Prop) : Prop :=
  ∀ o, answer o → ∃ p, known p ∧ Near alike o p

section Toward

variable (fair : Equivalence alike) {answer known : Outcome Value → Prop}

include fair in
theorem towardRefl (answer : Outcome Value → Prop) : Toward alike answer answer :=
  fun o found => ⟨o,found,nearRefl fair o⟩

include fair in
theorem towardTrans {further : Outcome Value → Prop} (left : Toward alike answer known)
    (right : Toward alike known further) : Toward alike answer further := by
  intro o found
  obtain ⟨p,middle,near⟩ := left o found
  obtain ⟨q,last,close⟩ := right p middle
  exact ⟨q,last,nearTrans fair near close⟩

theorem towardEq {p : Outcome Value} (near : Near alike o p) : Toward alike (Eq o) (Eq p) := by
  rintro _ rfl
  exact ⟨p,rfl,near⟩

theorem towardSuccess (toward : Toward alike answer known) {value : Value} {tail : Cursor}
    (found : answer (.success value tail)) : known (.success value tail) := by
  obtain ⟨_,same,near⟩ := toward _ found
  cases near
  exact same

theorem towardFailure (toward : Toward alike answer known) {reason : Option Reason} (found : answer (.failure reason)) :
    ∃ other, known (.failure other) ∧ alike reason other := by
  obtain ⟨_,same,near⟩ := toward _ found
  cases near with
  | failure close => exact ⟨_,same,close⟩

theorem afterToward {hit hit' : Value → Cursor → Outcome Value → Prop} {miss miss' : Option Reason → Outcome Value → Prop}
    (inner : Toward alike answer known) (hits : ∀ value tail, Toward alike (hit value tail) (hit' value tail))
    (misses : ∀ reason other, alike reason other → Toward alike (miss reason) (miss' other)) :
    Toward alike (After answer hit miss) (After known hit' miss') := by
  rintro o (⟨value,tail,found,rest⟩ | ⟨reason,found,rest⟩)
  · obtain ⟨p,last,near⟩ := hits value tail o rest
    exact ⟨p,.inl ⟨value,tail,towardSuccess inner found,last⟩,near⟩
  · obtain ⟨other,failed,close⟩ := towardFailure inner found
    obtain ⟨p,last,near⟩ := misses reason other close o rest
    exact ⟨p,.inr ⟨other,failed,last⟩,near⟩

end Toward

inductive Plan.Matched (related : Expr ρ → Expr ρ → Prop) : Plan ρ → Plan ρ → Prop where
  | direct (p) : Matched related (.direct p) (.direct p)
  | within {body body'} (hit miss) (inner : related body body') :
      Matched related (.within body hit miss) (.within body' hit miss)
  | sequence {first first' next next'} (join) (left : related first first')
      (right : ∀ value, related (next value) (next' value)) :
      Matched related (.sequence first next join) (.sequence first' next' join)
  | either {first first' second second'} (left : related first first') (right : related second second') :
      Matched related (.either first second) (.either first' second')
  | chained {body body'} (min max) (inner : related body body') :
      Matched related (.chained body min max) (.chained body' min max)

section Matched

variable {related known : Expr ρ → Expr ρ → Prop} {p q : Plan ρ}

theorem matchedRefl (related : Expr ρ → Expr ρ → Prop) (refl : ∀ e, related e e) (p : Plan ρ) : p.Matched related p := by
  cases p with
  | direct p => exact .direct p
  | within body hit miss => exact .within hit miss (refl body)
  | sequence first next join => exact .sequence join (refl first) (fun value => refl (next value))
  | either first second => exact .either (refl first) (refl second)
  | chained body min max => exact .chained min max (refl body)

theorem matchedMono (weaker : ∀ e e', related e e' → known e e') (matched : p.Matched related q) : p.Matched known q := by
  cases matched with
  | direct p => exact .direct p
  | within hit miss inner => exact .within hit miss (weaker _ _ inner)
  | sequence join left right => exact .sequence join (weaker _ _ left) (fun value => weaker _ _ (right value))
  | either left right => exact .either (weaker _ _ left) (weaker _ _ right)
  | chained min max inner => exact .chained min max (weaker _ _ inner)

theorem matchedBack (matched : p.Matched related q) : q.Matched (fun e e' => related e' e) p := by
  cases matched with
  | direct p => exact .direct p
  | within hit miss inner => exact .within hit miss inner
  | sequence join left right => exact .sequence join left right
  | either left right => exact .either left right
  | chained min max inner => exact .chained min max inner

end Matched

def Plan.Lenient (alike : Option Reason → Option Reason → Prop) : Plan ρ → Prop
  | .within _ _ miss => ∀ c reason other, alike reason other → Near alike (miss c reason) (miss c other)
  | _ => True

theorem planLenient (alike : Option Reason → Option Reason → Prop) (rules : Rules ρ) (e : Expr ρ) :
    (plan rules e).Lenient alike := by
  cases e with
  | optional body | absent body => exact fun c _ _ _ => .success _ c
  | text | recognize | present | spanned | held | rule | map | bind => exact fun _ _ _ close => .failure close
  | _ => trivial

theorem settleToward (fair : Equivalence alike) {related : Expr ρ → Expr ρ → Prop}
    {answer known : Expr ρ → Cursor → Outcome Value → Prop}
    (each : ∀ e e', related e e' → ∀ c, Toward alike (answer e c) (known e' c)) {p q : Plan ρ}
    (lenient : p.Lenient alike) (matched : p.Matched related q) (c : Cursor) :
    Toward alike (p.settle answer c) (q.settle known c) := by
  cases matched with
  | direct p => exact towardRefl fair _
  | within hit miss inner =>
    exact afterToward (each _ _ inner c) (fun _ _ => towardRefl fair _)
      (fun reason other close => towardEq (lenient c reason other close))
  | sequence join left right =>
    refine afterToward (each _ _ left c) (fun value middle => ?_) (fun _ _ close => towardEq (.failure close))
    exact afterToward (each _ _ (right value) middle) (fun _ _ => towardRefl fair _)
      (fun _ _ close => towardEq (.failure close))
  | either left right => exact afterToward (each _ _ left c) (fun _ _ => towardRefl fair _) (fun _ _ _ => each _ _ right c)
  | chained min max inner =>
    rintro o ⟨values,tail,collects,rfl⟩
    refine ⟨_,⟨values,tail,collectsMono ?_ ?_ collects,rfl⟩,nearRefl fair _⟩
    · exact fun c _ _ matched => towardSuccess (each _ _ inner c) matched
    · intro c reason failed
      obtain ⟨other,failed,_⟩ := towardFailure (each _ _ inner c) failed
      exact ⟨other,failed⟩

def Follows (alike : Option Reason → Option Reason → Prop) (rules : Rules ρ) (e e' : Expr ρ) : Prop :=
  ∀ c, Toward alike (Gives rules e c) (Gives rules e' c)

def Agree (alike : Option Reason → Option Reason → Prop) (rules : Rules ρ) (e e' : Expr ρ) : Prop :=
  Follows alike rules e e' ∧ Follows alike rules e' e

section Exchange

variable (fair : Equivalence alike)

include fair in
theorem followsMatched (matched : (plan rules e).Matched (Follows alike rules) (plan rules e')) :
    Follows alike rules e e' := by
  intro c o found
  obtain ⟨p,settled,near⟩ :=
    settleToward fair (fun _ _ follows => follows) (planLenient alike rules e) matched c o (givesPlan.mp found)
  exact ⟨p,givesPlan.mpr settled,near⟩

include fair in
theorem agreeMatched (matched : (plan rules e).Matched (Agree alike rules) (plan rules e')) : Agree alike rules e e' :=
  ⟨followsMatched fair (matchedMono (fun _ _ agree => agree.1) matched),
    followsMatched fair (matchedMono (fun _ _ agree => agree.2) (matchedBack matched))⟩

include fair in
theorem refactorsAgree {laws : Expr ρ → Expr ρ → Prop} (sound : ∀ e e', laws e e' → Agree alike rules e e')
    (refactors : Refactors laws e e') : Agree alike rules e e' := by
  induction refactors with
  | law applies => exact sound _ _ applies
  | same e => exact ⟨fun _ => towardRefl fair _,fun _ => towardRefl fair _⟩
  | back _ forth => exact ⟨forth.2,forth.1⟩
  | onward _ _ left right =>
    exact ⟨fun c => towardTrans fair (left.1 c) (right.1 c),fun c => towardTrans fair (right.2 c) (left.2 c)⟩
  | repeated min max _ inner => exact agreeMatched fair (.chained min max inner)
  | choice _ _ left right => exact agreeMatched fair (.either left right)
  | concat _ _ left right | pair _ _ left right => exact agreeMatched fair (.sequence _ left (fun _ => right))
  | keepLeft _ _ left right | keepRight _ _ left right => exact agreeMatched fair (.sequence _ left (fun _ => right))
  | andThen _ _ right left => exact agreeMatched fair (.sequence _ left right)
  | text _ inner | recognize _ inner | optional _ inner | absent _ inner => exact agreeMatched fair (.within _ _ inner)
  | present _ inner | spanned _ inner | held _ _ inner => exact agreeMatched fair (.within _ _ inner)
  | map _ _ inner | bind _ _ inner => exact agreeMatched fair (.within _ _ inner)

include fair in
theorem planReplaced (each : ∀ name, Follows alike other (rules name) (other name)) (e : Expr ρ) :
    (plan rules e).Matched (Follows alike other) (plan other e) := by
  cases e with
  | rule name => exact .within _ _ (each name)
  | _ => exact matchedRefl _ (fun _ _ => towardRefl fair _) _

/- The parse under the old rules is followed by one under the new: where it enters a rule, the old body is
already followed under the new rules and gives way to the new one. -/
include fair in
theorem rulesToward (each : ∀ name, Follows alike other (rules name) (other name)) (e : Expr ρ) (c : Cursor) :
    Toward alike (Gives rules e c) (Gives other e c) := by
  intro o found
  refine givesInduction (motive := fun e c o => ∃ p, Gives other e c p ∧ Near alike o p) ?_ found
  intro e c o settled
  have parts (part part') (follows : Follows alike other part part') (c : Cursor) :
      Toward alike (fun o => Gives rules part c o ∧ ∃ p, Gives other part c p ∧ Near alike o p) (Gives other part' c) :=
    towardTrans fair (fun o known => known.2) (follows c)
  obtain ⟨p,last,near⟩ := settleToward fair parts (planLenient alike rules e) (planReplaced fair each e) c o settled
  exact ⟨p,givesPlan.mpr last,near⟩

include fair in
theorem refactoredToward {laws : Expr ρ → Expr ρ → Prop} (sound : ∀ rules e e', laws e e' → Agree alike rules e e')
    (each : ∀ name, Refactors laws (rules name) (other name)) (start : Refactors laws e e') (c : Cursor) :
    Toward alike (Gives rules e c) (Gives other e' c) :=
  towardTrans fair (rulesToward fair (fun name => (refactorsAgree fair (sound other) (each name)).1) e c)
    ((refactorsAgree fair (sound other) start).1 c)

end Exchange

theorem agreeEqual (fair : Equivalence alike) (same : ∀ c, Gives rules e c = Gives rules e' c) :
    Agree alike rules e e' := by
  constructor
  · intro c
    rw [same c]
    exact towardRefl fair _
  · intro c
    rw [same c]
    exact towardRefl fair _

theorem sameReasonFair : Equivalence (@Eq (Option Reason)) := ⟨Eq.refl,Eq.symm,Eq.trans⟩

def anyReason (_ _ : Option Reason) : Prop := True

theorem anyReasonFair : Equivalence anyReason := ⟨fun _ => trivial,fun _ => trivial,fun _ _ => trivial⟩

theorem nearForget {p : Outcome Value} : Near anyReason o p ↔ o.forgetReason = p.forgetReason := by
  constructor
  · rintro (⟨value,tail⟩ | ⟨_⟩)
    · rfl
    · rfl
  · intro same
    cases o <;> cases p <;> cases same
    · exact .success _ _
    · exact .failure trivial

theorem lawAgrees (rules : Rules ρ) (e e' : Expr ρ) (law : Law e e') : Agree Eq rules e e' :=
  agreeEqual sameReasonFair (lawHolds law rules)

theorem lawUpToReasonsAgrees (rules : Rules ρ) (e e' : Expr ρ) (law : LawUpToReasons e e') : Agree anyReason rules e e' := by
  cases law with
  | exact law => exact agreeEqual anyReasonFair (lawHolds law rules)
  | absentTwice body =>
    constructor
    · intro c o found
      obtain ⟨p,present,rfl⟩ := (absentTwice body).mp found
      exact ⟨p,present,nearForget.mpr (by cases p <;> rfl)⟩
    · intro c p present
      exact ⟨p.forgetReason,(absentTwice body).mpr ⟨p,present,rfl⟩,nearForget.mpr (by cases p <;> rfl)⟩

theorem refactoredGives (each : ∀ name, Refactors Law (rules name) (other name)) (start : Refactors Law e e')
    (found : Gives rules e c o) : Gives other e' c o := by
  obtain ⟨p,given,near⟩ := refactoredToward sameReasonFair lawAgrees each start c o found
  cases near with
  | success => exact given
  | failure same => exact same ▸ given

theorem refactoredForgets (each : ∀ name, Refactors LawUpToReasons (rules name) (other name))
    (start : Refactors LawUpToReasons e e') (found : ∃ p, Gives rules e c p ∧ p.forgetReason = o) :
    ∃ p, Gives other e' c p ∧ p.forgetReason = o := by
  obtain ⟨p,given,rfl⟩ := found
  obtain ⟨q,later,near⟩ := refactoredToward anyReasonFair lawUpToReasonsAgrees each start c p given
  exact ⟨q,later,(nearForget.mp near).symm⟩

theorem refactoringKeepsOutcomes (rules other : Rules ρ) (e e' : Expr ρ) :
    ((∀ name, Refactors Law (rules name) (other name)) → Refactors Law e e' →
      ∀ c o, Gives rules e c o ↔ Gives other e' c o) ∧
    ((∀ name, Refactors LawUpToReasons (rules name) (other name)) → Refactors LawUpToReasons e e' →
      ∀ c o, (∃ p, Gives rules e c p ∧ p.forgetReason = o) ↔ ∃ p, Gives other e' c p ∧ p.forgetReason = o) ∧
    ∀ body c,
      (∀ o, Gives rules (.absent (.absent body)) c o ↔ ∃ p, Gives rules (.present body) c p ∧ p.forgetReason = o) ∧
      ∀ reason, Gives rules (.present body) c (.failure reason) ↔ Gives rules body c (.failure reason) := by
  refine ⟨?_,?_,?_⟩
  · intro each start c o
    exact ⟨refactoredGives each start,refactoredGives (fun name => .back (each name)) (.back start)⟩
  · intro each start c o
    exact ⟨refactoredForgets each start,refactoredForgets (fun name => .back (each name)) (.back start)⟩
  · exact fun body c => ⟨fun o => absentTwice body,fun reason => presentReason body⟩

def brackets : Rules Unit := fun _ =>
  .choice
    (.choice (.concat (.concat (.literal "(") (.held .deferred (.rule ()))) (.literal ")")) (.literal "x"))
    (.fail (some default))

def bracketsFactored : Rules Unit := fun _ =>
  .choice
    (.recognize (.keepLeft (.literal "(") (.concat (.rule ()) (.literal ")"))))
    (.choice (.literal "x") (.fail (some default)))

def rewinding : Expr Unit := .concat (.rule ()) (.bind (Action.seek 1) (.atMostOne (.literal "!")))

def rewindingFactored : Expr Unit :=
  .recognize (.pair (.rule ()) (.bind (Action.seek 1) (.recognize (.optional (.literal "!")))))

theorem bracketsRefactor {laws : Expr Unit → Expr Unit → Prop} (known : ∀ e e', Law e e' → laws e e') (name : Unit) :
    Refactors laws (brackets name) (bracketsFactored name) := by
  have inner := Refactors.concat (.same (.literal "(")) (.law (known _ _ (.heldRemoved .deferred (.rule ()))))
  have first := Refactors.onward (.concat inner (.same (.literal ")"))) (.law (known _ _ (.concatAssociative _ _ _)))
  exact .onward (.law (known _ _ (.choiceAssociative _ _ _)))
    (.choice (.onward first (.law (known _ _ (.concatKeepLeft _ _)))) (.same _))

theorem rewindingRefactor {laws : Expr Unit → Expr Unit → Prop} (known : ∀ e e', Law e e' → laws e e') :
    Refactors laws rewinding rewindingFactored :=
  .onward (.concat (.same _) (.bind _ (.law (known _ _ (.atMostOneOptional _))))) (.law (known _ _ (.concatPair _ _)))

theorem bracketsRefactored :
    let c := Cursor.start (Utf8.bytes "((x))!") none
    let d := Cursor.start (Utf8.bytes "((x)") none
    Gives bracketsFactored rewindingFactored c (.success (.bytes (Utf8.bytes "(")) (c.advance 1)) ∧
    Gives brackets (.keepRight (.absent (.absent (.rule ()))) rewinding) d (.failure none) ∧
    ∃ p, Gives bracketsFactored (.keepRight (.present (.rule ())) rewindingFactored) d p ∧ p.forgetReason = .failure none := by
  intro c d
  have matched : Gives brackets rewinding c (.success (.bytes (Utf8.bytes "(")) (c.advance 1)) :=
    givesParse 32 (by decide +kernel)
  have refused : Gives brackets (.keepRight (.absent (.absent (.rule ()))) rewinding) d (.failure none) :=
    givesParse 32 (by decide +kernel)
  have guarded : Refactors LawUpToReasons (.keepRight (.absent (.absent (.rule ()))) rewinding)
      (.keepRight (.present (.rule ())) rewindingFactored) :=
    .keepRight (.law (.absentTwice _)) (rewindingRefactor fun _ _ => .exact)
  have exactly := (refactoringKeepsOutcomes brackets bracketsFactored rewinding rewindingFactored).1
    (bracketsRefactor fun _ _ law => law) (rewindingRefactor fun _ _ law => law) c
  have loosely := (refactoringKeepsOutcomes brackets bracketsFactored _ _).2.1
    (bracketsRefactor fun _ _ => .exact) guarded d
  exact ⟨(exactly _).mp matched,refused,(loosely _).mp ⟨_,refused,rfl⟩⟩

end SliceGrammar.Expr
