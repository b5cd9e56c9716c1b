import SliceGrammar.Action
import SliceGrammar.Proofs.Nullable
import SliceGrammar.Proofs.Primitive
/-! Tails only move forward in the same input, as long as binders do, and a match of an expression that is
not nullable passes a byte. A binder is free to answer with any cursor at all, so what it may do is a
condition on the expressions it occurs in. -/
namespace SliceGrammar.Expr

variable {ρ : Type} {rules : Rules ρ} {e : Expr ρ}

def Advancing : Expr ρ → Prop
  | .bind f _ => ∀ value tail result rest, f value tail = .success result rest → ∃ n, rest = tail.advance n
  | _ => True

structure Passing (rules : Rules ρ) (e : Expr ρ) (c tail : Cursor) : Prop where
  onward : c.Reaches tail
  strict : Nullable rules e ∨ tail.length < c.length

def Spends (rules : Rules ρ) (e : Expr ρ) (c : Cursor) (r : Reply Value) : Prop :=
  ∀ value tail, r.outcome = .success value tail → Passing rules e c tail

theorem spendsFailure (c : Cursor) (log : Log) (reason : Option Reason) : Spends rules e c ⟨log,.failure reason⟩ := by
  intro value tail matched
  contradiction

theorem passingHere (null : Nullable rules e) (c : Cursor) : Passing rules e c c := ⟨Cursor.reachesRefl c,.inl null⟩

theorem passingPrefix {c : Cursor} {bytes : Bytes} (found : bytes <+: c.remaining) (nonempty : bytes ≠ []) :
    Passing rules e c (c.advance bytes.length) := by
  refine ⟨Cursor.reachesAdvance c _,.inr ?_⟩
  have fits := found.length_le
  have positive := List.length_pos_iff.mpr nonempty
  rw [Cursor.lengthRemaining] at fits
  rw [Cursor.advanceLength]
  omega

theorem directSpends {p : Parser Value} {c : Cursor} {r : Reply Value} (shape : plan rules e = .direct p)
    (answer : p c = some r) : Spends rules e c r := by
  intro value tail matched
  cases e <;> simp only [plan,Plan.direct.injEq,reduceCtorEq] at shape <;> subst shape
  case literal content =>
    rcases Parser.literalAnswer.mp answer with ⟨found,rfl⟩ | ⟨_,rfl⟩
    · cases matched
      by_cases empty : content = ""
      · exact ⟨Cursor.reachesAdvance c _,.inl (.literal empty)⟩
      · exact passingPrefix found (fun none => empty (Utf8.bytesEmpty none))
    · contradiction
  case range low high =>
    rcases Parser.rangeAnswer.mp answer with ⟨ch,_,found,rfl⟩ | ⟨ch,_,_,rfl⟩ | ⟨error,_,rfl⟩
    · cases matched
      exact passingPrefix found String.utf8EncodeChar_ne_nil
    · contradiction
    · contradiction
  case anyChar =>
    rcases Parser.anyCharAnswer.mp answer with ⟨ch,found,rfl⟩ | ⟨error,_,rfl⟩
    · cases matched
      exact passingPrefix found String.utf8EncodeChar_ne_nil
    · contradiction
  case atEnd =>
    rcases Parser.atEndAnswer.mp answer with ⟨_,rfl⟩ | ⟨_,rfl⟩
    · cases matched
      exact passingHere .atEnd c
    · contradiction
  case advance n =>
    cases Parser.advanceAnswer.mp answer
    cases matched
    exact ⟨Cursor.reachesAdvance c n,.inl (.advance n)⟩
  case fail reason =>
    cases Parser.failAnswer.mp answer
    contradiction

theorem hitTail {body hit miss c value tail result rest} (shape : plan rules e = .within body hit miss)
    (matched : (hit c value tail).outcome = .success result rest) :
    rest = tail ∨ (e = .present body ∧ rest = c) ∨ ∃ f, e = .bind f body ∧ f value tail = .success result rest := by
  cases e <;> simp only [plan,Plan.within.injEq,reduceCtorEq] at shape <;> obtain ⟨rfl,rfl,rfl⟩ := shape
  case bind f body => exact .inr (.inr ⟨f,rfl,matched⟩)
  case present body => cases matched; exact .inr (.inl ⟨rfl,rfl⟩)
  case absent body => contradiction
  case text body =>
    unfold readText at matched
    split at matched
    · split at matched
      · cases matched; exact .inl rfl
      · contradiction
    · contradiction
  all_goals cases matched; exact .inl rfl

theorem missTail {body hit miss c reason result rest} (shape : plan rules e = .within body hit miss)
    (matched : miss c reason = .success result rest) : rest = c ∧ (e = .optional body ∨ e = .absent body) := by
  cases e <;> simp only [plan,Plan.within.injEq,reduceCtorEq] at shape <;> obtain ⟨rfl,rfl,rfl⟩ := shape
  case optional body => cases matched; exact ⟨rfl,.inl rfl⟩
  case absent body => cases matched; exact ⟨rfl,.inr rfl⟩
  all_goals contradiction

theorem linksSpends {body : Expr ρ} {max : Option Nat} {c : Cursor} {made : Parser.Chain}
    (links : Parser.Links (Spends rules body) max c made) :
    c.Reaches made.tail ∧ (made.count = 0 ∨ Nullable rules body ∨ made.tail.length < c.length) := by
  induction links with
  | full c => exact ⟨Cursor.reachesRefl c,.inl rfl⟩
  | stopped more failed => exact ⟨Cursor.reachesRefl _,.inl rfl⟩
  | linked more matched next ih =>
    obtain ⟨onward,strict⟩ := matched _ _ rfl
    have later := Cursor.reachesLength ih.1
    refine ⟨Cursor.reachesTrans onward ih.1,.inr ?_⟩
    rcases strict with null | less
    · exact .inl null
    · exact .inr (Nat.lt_of_le_of_lt later less)

theorem yieldsSpends (given : ∀ name, (rules name).Everywhere Advancing) (allowed : e.Everywhere Advancing)
    {c : Cursor} {r : Reply Value} (found : Yields rules e c r) : Spends rules e c r := by
  refine yieldsInduction (motive := Spends rules) given ?direct ?withinHit ?withinMiss ?sequenceStop
    ?sequenceMiss ?sequenceHit ?eitherFirst ?eitherSecond ?chained allowed found
  case direct => exact fun e p c r _ shape answer => directSpends shape answer
  case withinHit =>
    intro e body hit miss c log value tail advancing shape inner result rest matched
    obtain ⟨onward,strict⟩ := inner _ _ rfl
    have still := nullableWithin shape
    rcases hitTail shape matched with rfl | ⟨rfl,rfl⟩ | ⟨f,rfl,chosen⟩
    · exact ⟨onward,strict.imp_left still⟩
    · exact passingHere (.present body) _
    · obtain ⟨n,rfl⟩ := advancing value tail result rest chosen
      have later := Cursor.reachesAdvance tail n
      refine ⟨Cursor.reachesTrans onward later,strict.imp still ?_⟩
      exact Nat.lt_of_le_of_lt (Cursor.reachesLength later)
  case withinMiss =>
    intro e body hit miss c log reason _ shape _ result rest matched
    obtain ⟨rfl,rfl | rfl⟩ := missTail shape matched
    · exact passingHere (.optional body) _
    · exact passingHere (.absent body) _
  case sequenceStop => exact fun _ _ _ _ c log reason _ _ _ => spendsFailure c log reason
  case sequenceMiss => exact fun _ _ _ _ c log _ _ own reason _ _ _ _ => spendsFailure c (log ++ own) reason
  case sequenceHit =>
    intro e first next join c log value middle own result tail _ shape left right joined rest matched
    cases matched
    obtain ⟨here,leftStrict⟩ := left _ _ rfl
    obtain ⟨there,rightStrict⟩ := right _ _ rfl
    refine ⟨Cursor.reachesTrans here there,?_⟩
    rcases leftStrict with leftNull | less
    · rcases rightStrict with rightNull | less
      · exact .inl (nullableSequence shape leftNull rightNull)
      · exact .inr (Nat.lt_of_lt_of_le less (Cursor.reachesLength here))
    · exact .inr (Nat.lt_of_le_of_lt (Cursor.reachesLength there) less)
  case eitherFirst =>
    intro e first second c log value tail _ shape left result rest matched
    cases eitherChoice shape
    obtain ⟨onward,strict⟩ := left _ _ matched
    exact ⟨onward,strict.imp_left .choiceFirst⟩
  case eitherSecond =>
    intro e first second c log reason r _ shape _ right result rest matched
    cases eitherChoice shape
    obtain ⟨onward,strict⟩ := right _ _ matched
    exact ⟨onward,strict.imp_left .choiceSecond⟩
  case chained =>
    intro e body min max c made _ shape links value tail matched
    cases chainedRepeated shape
    obtain ⟨onward,strict⟩ := linksSpends links
    unfold chainReply at matched
    split at matched
    · contradiction
    · rename_i enough
      cases matched
      refine ⟨onward,?_⟩
      rcases strict with none | null | less
      · exact .inl (.repeatedNone (by omega))
      · exact .inl (.repeated null)
      · exact .inr less

theorem tailsMoveForward (given : ∀ name, (rules name).Everywhere Advancing) (allowed : e.Everywhere Advancing)
    {c tail : Cursor} {log : Log} {value : Value} (found : Yields rules e c ⟨log,.success value tail⟩) :
    ∃ k, k ≤ c.length ∧ tail = c.advance k ∧ tail.source = c.source ∧ tail.position.label = c.position.label ∧
      c.offset ≤ tail.offset ∧ tail.remaining = c.remaining.drop k := by
  obtain ⟨k,inside,rfl⟩ := (yieldsSpends given allowed found value tail rfl).onward
  refine ⟨k,inside,rfl,Cursor.advanceSource c k,Cursor.advanceLabel c k,?_,Cursor.advanceRemaining c k⟩
  simp

def nested : Rules Unit := fun _ =>
  .choice (.keepLeft (.keepRight (.codePoint '(') (.rule ())) (.codePoint ')')) (.literal "x")

theorem nestedAdvancing (name : Unit) : (nested name).Everywhere Advancing := by
  simp [nested,Everywhere,Advancing,codePoint]

theorem skippingAdvancing : (Expr.bind (Action.skip 1) (.rule ())).Everywhere Advancing := by
  refine ⟨?_,trivial⟩
  intro value tail result rest skipped
  cases skipped
  exact ⟨1,rfl⟩

theorem nestedMovesForward :
    let c := Cursor.start (Utf8.bytes "((x))yz") none
    Yields nested (.bind (Action.skip 1) (.rule ())) c ⟨[],.success (.bytes [120]) (c.advance 6)⟩ ∧
    ∃ k, k ≤ c.length ∧ c.advance 6 = c.advance k ∧ (c.advance 6).source = c.source ∧
      (c.advance 6).position.label = c.position.label ∧ c.offset ≤ (c.advance 6).offset ∧
      (c.advance 6).remaining = c.remaining.drop k := by
  have found : Yields nested (.bind (Action.skip 1) (.rule ())) (.start (Utf8.bytes "((x))yz") none)
      ⟨[],.success (.bytes [120]) ((Cursor.start (Utf8.bytes "((x))yz") none).advance 6)⟩ := ⟨16,by decide +kernel⟩
  exact ⟨found,tailsMoveForward nestedAdvancing skippingAdvancing found⟩

end SliceGrammar.Expr
