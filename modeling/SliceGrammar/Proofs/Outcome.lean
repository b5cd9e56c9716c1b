import SliceGrammar.Proofs.Plan
/-! What a parse comes to, without what it reports and what it spends. The outcome of an expression is settled by
the outcomes of its parts, in the way its plan says; a proof that compares expressions by their outcomes needs no
budget and no log. -/
namespace SliceGrammar.Expr

variable {ρ : Type} {rules : Rules ρ} {e body : Expr ρ} {c : Cursor} {o : Outcome Value}

def Gives (rules : Rules ρ) (e : Expr ρ) (c : Cursor) (o : Outcome Value) : Prop := ∃ log, Yields rules e c ⟨log,o⟩

theorem givesUnique {p : Outcome Value} (first : Gives rules e c o) (second : Gives rules e c p) : o = p := by
  obtain ⟨log,left⟩ := first
  obtain ⟨own,right⟩ := second
  cases yieldsUnique left right
  rfl

theorem givesParse (budget : Nat) (answered : (parse rules budget e c).map Reply.outcome = some o) : Gives rules e c o := by
  obtain ⟨r,found,rfl⟩ := Option.map_eq_some_iff.mp answered
  exact ⟨r.log,budget,found⟩

def After (answer : Outcome Value → Prop) (hit : Value → Cursor → Outcome Value → Prop)
    (miss : Option Reason → Outcome Value → Prop) (o : Outcome Value) : Prop :=
  (∃ value tail, answer (.success value tail) ∧ hit value tail o) ∨ ∃ reason, answer (.failure reason) ∧ miss reason o

section Succession

variable {answer : Outcome Value → Prop} {hit hit' : Value → Cursor → Outcome Value → Prop}
  {miss miss' : Option Reason → Outcome Value → Prop}

@[simp] theorem afterSuccess (value : Value) (tail : Cursor) :
    After (Eq (.success value tail)) hit miss = hit value tail := by
  funext o
  simp [After,and_assoc]

@[simp] theorem afterFailure (reason : Option Reason) : After (Eq (.failure reason)) hit miss = miss reason := by
  funext o
  simp [After]

@[simp] theorem afterAfter :
    After (After answer hit miss) hit' miss' =
      After answer (fun value tail => After (hit value tail) hit' miss') (fun reason => After (miss reason) hit' miss') := by
  funext o
  apply propext
  constructor
  · rintro (⟨value,tail,⟨v,middle,found,first⟩ | ⟨reason,found,first⟩,second⟩ |
      ⟨last,⟨v,middle,found,first⟩ | ⟨reason,found,first⟩,second⟩)
    · exact .inl ⟨v,middle,found,.inl ⟨value,tail,first,second⟩⟩
    · exact .inr ⟨reason,found,.inl ⟨value,tail,first,second⟩⟩
    · exact .inl ⟨v,middle,found,.inr ⟨last,first,second⟩⟩
    · exact .inr ⟨reason,found,.inr ⟨last,first,second⟩⟩
  · rintro (⟨v,middle,found,⟨value,tail,first,second⟩ | ⟨last,first,second⟩⟩ |
      ⟨reason,found,⟨value,tail,first,second⟩ | ⟨last,first,second⟩⟩)
    · exact .inl ⟨value,tail,.inl ⟨v,middle,found,first⟩,second⟩
    · exact .inr ⟨last,.inl ⟨v,middle,found,first⟩,second⟩
    · exact .inl ⟨value,tail,.inr ⟨reason,found,first⟩,second⟩
    · exact .inr ⟨last,.inr ⟨reason,found,first⟩,second⟩

theorem afterMono {known : Outcome Value → Prop} (more : ∀ o, answer o → known o)
    (hits : ∀ value tail, answer (.success value tail) → ∀ o, hit value tail o → hit' value tail o)
    (misses : ∀ reason, answer (.failure reason) → ∀ o, miss reason o → miss' reason o) (after : After answer hit miss o) :
    After known hit' miss' o := by
  rcases after with ⟨value,tail,found,rest⟩ | ⟨reason,found,rest⟩
  · exact .inl ⟨value,tail,more _ found,hits value tail found o rest⟩
  · exact .inr ⟨reason,more _ found,misses reason found o rest⟩

theorem afterCongr (hits : ∀ value tail, answer (.success value tail) → hit value tail = hit' value tail)
    (misses : ∀ reason, answer (.failure reason) → miss reason = miss' reason) :
    After answer hit miss = After answer hit' miss' := by
  funext o
  apply propext
  constructor
  · exact afterMono (fun _ found => found) (fun value tail found _ rest => hits value tail found ▸ rest)
      (fun reason found _ rest => misses reason found ▸ rest)
  · exact afterMono (fun _ found => found) (fun value tail found _ rest => hits value tail found ▸ rest)
      (fun reason found _ rest => misses reason found ▸ rest)

theorem afterSelf (hits : ∀ value tail, answer (.success value tail) → hit value tail = Eq (.success value tail)) :
    After answer hit (fun reason => Eq (.failure reason)) = answer := by
  rw [afterCongr hits (fun _ _ => rfl)]
  funext o
  cases o <;> simp [After]

theorem afterKnown (unique : ∀ o p, answer o → answer p → o = p) (found : answer o) :
    After answer hit miss = After (Eq o) hit miss := by
  have only : answer = Eq o := funext fun p => propext ⟨unique o p found,fun same => same ▸ found⟩
  rw [only]

end Succession

inductive Collects (answer : Cursor → Outcome Value → Prop) : Option Nat → Cursor → List Value → Cursor → Prop where
  | full (c : Cursor) : Collects answer (some 0) c [] c
  | stopped {max c reason} (more : max ≠ some 0) (failed : answer c (.failure reason)) : Collects answer max c [] c
  | next {max c value middle values tail} (more : max ≠ some 0) (matched : answer c (.success value middle))
      (later : Collects answer (max.map (· - 1)) middle values tail) : Collects answer max c (value :: values) tail

theorem collectsMono {answer known : Cursor → Outcome Value → Prop}
    (hits : ∀ c value tail, answer c (.success value tail) → known c (.success value tail))
    (misses : ∀ c reason, answer c (.failure reason) → ∃ other, known c (.failure other))
    {max : Option Nat} {values : List Value} {tail : Cursor} (collects : Collects answer max c values tail) :
    Collects known max c values tail := by
  induction collects with
  | full c => exact .full c
  | stopped more failed =>
    obtain ⟨other,failed⟩ := misses _ _ failed
    exact .stopped more failed
  | next more matched later ih => exact .next more (hits _ _ _ matched) ih

theorem linksCollect {answer : Cursor → Reply Value → Prop} (known : Cursor → Outcome Value → Prop)
    (each : ∀ c r, answer c r → known c r.outcome) {max : Option Nat} {made : Parser.Chain}
    (links : Parser.Links answer max c made) :
    ∃ values, Collects known max c values made.tail ∧ values.length = made.count := by
  induction links with
  | full c => exact ⟨[],.full c,rfl⟩
  | stopped more failed => exact ⟨[],.stopped more (each _ _ failed),rfl⟩
  | linked more matched next ih =>
    obtain ⟨values,later,count⟩ := ih
    exact ⟨_,.next more (each _ _ matched) later,congrArg Nat.succ count⟩

theorem collectsLinks {max : Option Nat} {values : List Value} {tail : Cursor}
    (collects : Collects (Gives rules body) max c values tail) :
    ∃ made, Parser.Links (Yields rules body) max c made ∧ made.tail = tail ∧ made.count = values.length := by
  induction collects with
  | full c => exact ⟨_,.full c,rfl,rfl⟩
  | stopped more failed =>
    obtain ⟨log,failed⟩ := failed
    exact ⟨_,.stopped more failed,rfl,rfl⟩
  | next more matched later ih =>
    obtain ⟨log,matched⟩ := matched
    obtain ⟨made,links,ended,count⟩ := ih
    exact ⟨_,.linked more matched links,ended,congrArg Nat.succ count⟩

def collected (c : Cursor) (min : Nat) (values : List Value) (tail : Cursor) : Outcome Value :=
  if values.length < min then .failure none else .success (.bytes (c.sliceTo tail)) tail

def Plan.settle (answer : Expr ρ → Cursor → Outcome Value → Prop) : Plan ρ → Cursor → Outcome Value → Prop
  | .direct p, c => fun o => ∃ log, p c = some ⟨log,o⟩
  | .within body hit miss, c =>
      After (answer body c) (fun value tail => Eq (hit c value tail).outcome) (fun reason => Eq (miss c reason))
  | .sequence first next join, c =>
      After (answer first c)
        (fun value middle => After (answer (next value) middle)
          (fun result tail => Eq (.success (join c value result tail) tail)) (fun reason => Eq (.failure reason)))
        (fun reason => Eq (.failure reason))
  | .either first second, c =>
      After (answer first c) (fun value tail => Eq (.success value tail)) (fun _ => answer second c)
  | .chained body min max, c => fun o =>
      ∃ values tail, Collects (answer body) max c values tail ∧ collected c min values tail = o

theorem settleMono {answer known : Expr ρ → Cursor → Outcome Value → Prop} (more : ∀ e c o, answer e c o → known e c o)
    (p : Plan ρ) (settled : p.settle answer c o) : p.settle known c o := by
  cases p with
  | direct p => exact settled
  | within body hit miss => exact afterMono (more body c) (fun _ _ _ _ same => same) (fun _ _ _ same => same) settled
  | sequence first next join =>
    refine afterMono (more first c) (fun value middle _ o rest => ?_) (fun _ _ _ same => same) settled
    exact afterMono (more (next value) middle) (fun _ _ _ _ same => same) (fun _ _ _ same => same) rest
  | either first second => exact afterMono (more first c) (fun _ _ _ _ same => same) (fun _ _ => more second c) settled
  | chained body min max =>
    obtain ⟨values,tail,collects,same⟩ := settled
    have known := collectsMono (fun _ _ _ => more _ _ _) (fun _ reason failed => ⟨reason,more _ _ _ failed⟩) collects
    exact ⟨values,tail,known,same⟩

theorem settleGives (settled : (plan rules e).settle (Gives rules) c o) : Gives rules e c o := by
  cases shape : plan rules e <;> rw [shape] at settled
  case direct p =>
    obtain ⟨log,answer⟩ := settled
    exact ⟨log,yieldsDirect shape answer⟩
  case within body hit miss =>
    rcases settled with ⟨value,tail,⟨log,inner⟩,rfl⟩ | ⟨reason,⟨log,inner⟩,rfl⟩
    · exact ⟨_,yieldsWithinHit shape inner⟩
    · exact ⟨_,yieldsWithinMiss shape inner⟩
  case sequence first next join =>
    rcases settled with ⟨value,middle,⟨log,left⟩,⟨result,tail,⟨own,right⟩,rfl⟩ | ⟨reason,⟨own,right⟩,rfl⟩⟩ |
      ⟨reason,⟨log,left⟩,rfl⟩
    · exact ⟨_,yieldsSequenceHit shape left right⟩
    · exact ⟨_,yieldsSequenceMiss shape left right⟩
    · exact ⟨_,yieldsSequenceStop shape left⟩
  case either first second =>
    rcases settled with ⟨value,tail,⟨log,left⟩,rfl⟩ | ⟨reason,⟨log,left⟩,⟨own,right⟩⟩
    · exact ⟨_,yieldsEitherFirst shape left⟩
    · exact ⟨_,yieldsEitherSecond shape left right⟩
  case chained body min max =>
    obtain ⟨values,tail,collects,rfl⟩ := settled
    obtain ⟨made,links,rfl,count⟩ := collectsLinks collects
    rw [collected,← count]
    exact ⟨_,yieldsChained shape links⟩

/- The induction of parses, for facts about outcomes: there is one step, which may use that the parts gave their
outcomes as well as what is to be shown of them. -/
theorem givesInduction {motive : Expr ρ → Cursor → Outcome Value → Prop}
    (step : ∀ e c o, (plan rules e).settle (fun e c o => Gives rules e c o ∧ motive e c o) c o → motive e c o)
    (found : Gives rules e c o) : motive e c o := by
  obtain ⟨log,found⟩ := found
  have anywhere (e : Expr ρ) : e.Everywhere (fun _ => True) := everywhereAll (fun _ => trivial) e
  have both {e c o p} (shape : plan rules e = p)
      (settled : p.settle (fun e c o => Gives rules e c o ∧ motive e c o) c o) : Gives rules e c o ∧ motive e c o := by
    subst shape
    exact ⟨settleGives (settleMono (fun _ _ _ known => known.1) _ settled),step e c o settled⟩
  refine (yieldsInduction (motive := fun e c r => Gives rules e c r.outcome ∧ motive e c r.outcome)
    (fun name => anywhere (rules name)) ?_ ?_ ?_ ?_ ?_ ?_ ?_ ?_ ?_ (anywhere e) found).2
  · exact fun e p c r _ shape answer => both shape ⟨r.log,answer⟩
  · exact fun e body hit miss c log value tail _ shape inner => both shape (.inl ⟨value,tail,inner,rfl⟩)
  · exact fun e body hit miss c log reason _ shape inner => both shape (.inr ⟨reason,inner,rfl⟩)
  · exact fun e first next join c log reason _ shape left => both shape (.inr ⟨reason,left,rfl⟩)
  · exact fun e first next join c log value middle own reason _ shape left right =>
      both shape (.inl ⟨value,middle,left,.inr ⟨reason,right,rfl⟩⟩)
  · exact fun e first next join c log value middle own result tail _ shape left right =>
      both shape (.inl ⟨value,middle,left,.inl ⟨result,tail,right,rfl⟩⟩)
  · exact fun e first second c log value tail _ shape left => both shape (.inl ⟨value,tail,left,rfl⟩)
  · exact fun e first second c log reason r _ shape left right => both shape (.inr ⟨reason,left,right⟩)
  · intro e body min max c made _ shape links
    obtain ⟨values,collects,count⟩ :=
      linksCollect (fun c o => Gives rules body c o ∧ motive body c o) (fun _ _ known => known) links
    exact both shape ⟨values,made.tail,collects,by rw [collected,count]; rfl⟩

theorem givesPlan : Gives rules e c o ↔ (plan rules e).settle (Gives rules) c o := by
  constructor
  · intro found
    refine givesInduction (motive := fun e c o => (plan rules e).settle (Gives rules) c o) ?_ found
    exact fun e c o settled => settleMono (fun _ _ _ known => known.1) _ settled
  · exact settleGives

theorem givesSettle (e : Expr ρ) : Gives rules e c = (plan rules e).settle (Gives rules) c :=
  funext fun _ => propext givesPlan

end SliceGrammar.Expr
