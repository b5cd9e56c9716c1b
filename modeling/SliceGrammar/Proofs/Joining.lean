import SliceGrammar.Proofs.Forward
import SliceGrammar.Proofs.Outcome
/-! Slices cut between two cursors against slices collected and joined. A repetition drops the values of its
matches and a concatenation those of its parts; the one slice they cut is the same as theirs joined, because
each match begins where the one before it ended and its value is what it passed. Only the expressions that
are taken for slices are asked for that: what stands under `recognize` may have any value, and so may the rules
it refers to, as long as its tail moves forward. -/
namespace SliceGrammar.Expr

variable {ρ : Type} {rules : Rules ρ} {names : ρ → Prop} {e : Expr ρ} {c : Cursor}

def Onward (rules : Rules ρ) (e : Expr ρ) : Prop :=
  ∀ c value tail, Gives rules e c (.success value tail) → c.Reaches tail

inductive Sliced (rules : Rules ρ) (names : ρ → Prop) : Expr ρ → Prop where
  | literal (content) : Sliced rules names (.literal content)
  | range (low high) : Sliced rules names (.range low high)
  | recognize {body} (onward : Onward rules body) : Sliced rules names (.recognize body)
  | choice {first second} (left : Sliced rules names first) (right : Sliced rules names second) :
      Sliced rules names (.choice first second)
  | concat {first second} (left : Sliced rules names first) (right : Sliced rules names second) :
      Sliced rules names (.concat first second)
  | repeated {body} (min max) (inner : Sliced rules names body) : Sliced rules names (.repeated body min max)
  | held {body} (holding) (inner : Sliced rules names body) : Sliced rules names (.held holding body)
  | rule {name} (listed : names name) : Sliced rules names (.rule name)

def Consumed (c : Cursor) (o : Outcome Value) : Prop :=
  ∀ value tail, o = .success value tail → c.Reaches tail ∧ value = .bytes (c.sliceTo tail)

theorem consumedFailure (c : Cursor) (reason : Option Reason) : Consumed c (.failure reason) := by
  intro value tail matched
  contradiction

theorem consumedSlice {tail : Cursor} (reached : c.Reaches tail) : Consumed c (.success (.bytes (c.sliceTo tail)) tail) := by
  intro value rest matched
  cases matched
  exact ⟨reached,rfl⟩

theorem consumedPrefix {bytes : Bytes} (found : bytes <+: c.remaining) :
    Consumed c (.success (.bytes bytes) (c.advance bytes.length)) := by
  have slice := consumedSlice (Cursor.reachesAdvance c bytes.length)
  rwa [Cursor.sliceAdvance,← List.prefix_iff_eq_take.mp found] at slice

theorem collectsReach {answer : Cursor → Outcome Value → Prop} {max : Option Nat} {values : List Value} {tail : Cursor}
    (onward : ∀ c value tail, answer c (.success value tail) → c.Reaches tail)
    (collects : Collects answer max c values tail) : c.Reaches tail := by
  induction collects with
  | full c => exact Cursor.reachesRefl c
  | stopped more failed => exact Cursor.reachesRefl _
  | next more matched later ih => exact Cursor.reachesTrans (onward _ _ _ matched) ih

theorem literalConsumed {content : String} {log : Log} {o : Outcome Value}
    (answer : ((Parser.literal content).map Value.bytes) c = some ⟨log,o⟩) : Consumed c o := by
  rcases Parser.literalAnswer.mp answer with ⟨found,same⟩ | ⟨_,same⟩ <;> cases same
  · exact consumedPrefix found
  · exact consumedFailure c none

theorem rangeConsumed {low high : Char} {log : Log} {o : Outcome Value}
    (answer : ((Parser.range low high).map Value.bytes) c = some ⟨log,o⟩) : Consumed c o := by
  rcases Parser.rangeAnswer.mp answer with ⟨ch,_,found,same⟩ | ⟨ch,_,_,same⟩ | ⟨error,_,same⟩ <;> cases same
  · exact consumedPrefix found
  · exact consumedFailure c none
  · exact consumedFailure c none

theorem slicedConsumed (given : ∀ name, names name → Sliced rules names (rules name)) (sliced : Sliced rules names e)
    {o : Outcome Value} (found : Gives rules e c o) : Consumed c o := by
  revert sliced
  refine givesInduction (motive := fun e c o => Sliced rules names e → Consumed c o) ?_ found
  intro e c o settled sliced
  cases sliced with
  | literal content =>
    obtain ⟨log,answer⟩ := settled
    exact literalConsumed answer
  | range low high =>
    obtain ⟨log,answer⟩ := settled
    exact rangeConsumed answer
  | recognize onward =>
    rcases settled with ⟨value,tail,inner,rfl⟩ | ⟨reason,_,rfl⟩
    · exact consumedSlice (onward c value tail inner.1)
    · exact consumedFailure c reason
  | choice left right =>
    rcases settled with ⟨value,tail,first,rfl⟩ | ⟨_,_,second⟩
    · exact first.2 left
    · exact second.2 right
  | concat left right =>
    rcases settled with ⟨value,middle,first,⟨result,tail,second,rfl⟩ | ⟨reason,_,rfl⟩⟩ | ⟨reason,_,rfl⟩
    · exact consumedSlice (Cursor.reachesTrans (first.2 left _ _ rfl).1 (second.2 right _ _ rfl).1)
    · exact consumedFailure c reason
    · exact consumedFailure c reason
  | repeated min max sliced =>
    obtain ⟨values,tail,collects,rfl⟩ := settled
    have reached := collectsReach (fun _ _ _ matched => (matched.2 sliced _ _ rfl).1) collects
    unfold collected
    split
    · exact consumedFailure c none
    · exact consumedSlice reached
  | held holding sliced =>
    rcases settled with ⟨value,tail,inner,rfl⟩ | ⟨reason,inner,rfl⟩
    · exact inner.2 sliced
    · exact inner.2 sliced
  | @rule name listed =>
    rcases settled with ⟨value,tail,inner,rfl⟩ | ⟨reason,inner,rfl⟩
    · exact inner.2 (given name listed)
    · exact inner.2 (given name listed)

theorem collectsJoin {answer : Cursor → Outcome Value → Prop} {max : Option Nat} {values : List Value} {tail : Cursor}
    (consumed : ∀ c o, answer c o → Consumed c o) (collects : Collects answer max c values tail) :
    ∃ slices : List Bytes, values = slices.map .bytes ∧ c.sliceTo tail = slices.flatten := by
  induction collects with
  | full c => exact ⟨[],rfl,Cursor.sliceSelf c⟩
  | stopped more failed => exact ⟨[],rfl,Cursor.sliceSelf _⟩
  | @next max c value middle values tail more matched later ih =>
    obtain ⟨slices,rfl,joined⟩ := ih
    obtain ⟨reached,rfl⟩ := consumed _ _ matched _ _ rfl
    have further := collectsReach (fun _ _ _ matched => (consumed _ _ matched _ _ rfl).1) later
    refine ⟨c.sliceTo middle :: slices,rfl,?_⟩
    rw [Cursor.sliceAppend reached further,joined,List.flatten_cons]

section Joined

variable (given : ∀ name, names name → Sliced rules names (rules name)) (sliced : Sliced rules names e)

include given sliced in
theorem repeatedJoins {min : Nat} {max : Option Nat} {value : Value} {tail : Cursor} :
    Gives rules (.repeated e min max) c (.success value tail) ↔
      ∃ slices : List Bytes, Collects (Gives rules e) max c (slices.map .bytes) tail ∧ min ≤ slices.length ∧
        value = .bytes slices.flatten := by
  have consumed : ∀ c o, Gives rules e c o → Consumed c o := fun c o found => slicedConsumed given sliced found
  rw [givesPlan]
  constructor
  · rintro ⟨values,last,collects,same⟩
    unfold collected at same
    split at same
    · contradiction
    · rename_i enough
      cases same
      obtain ⟨slices,rfl,joined⟩ := collectsJoin consumed collects
      rw [List.length_map] at enough
      exact ⟨slices,collects,Nat.le_of_not_lt enough,congrArg Value.bytes joined⟩
  · rintro ⟨slices,collects,enough,rfl⟩
    obtain ⟨others,same,joined⟩ := collectsJoin consumed collects
    have equal : slices = others := (List.map_inj_right (fun _ _ => Value.bytes.inj)).mp same
    have same : collected c min (slices.map .bytes) tail = .success (.bytes slices.flatten) tail := by
      rw [collected,List.length_map,if_neg (Nat.not_lt.mpr enough),joined,equal]
    exact ⟨_,tail,collects,same⟩

include given sliced in
theorem concatJoins {other : Expr ρ} (slicedOther : Sliced rules names other) {value : Value} {tail : Cursor} :
    Gives rules (.concat e other) c (.success value tail) ↔
      ∃ first second middle, Gives rules e c (.success (.bytes first) middle) ∧
        Gives rules other middle (.success (.bytes second) tail) ∧ value = .bytes (first ++ second) := by
  rw [givesPlan]
  constructor
  · rintro (⟨v,middle,left,⟨w,last,right,same⟩ | ⟨_,_,same⟩⟩ | ⟨_,_,same⟩)
    · cases same
      obtain ⟨before,rfl⟩ := slicedConsumed given sliced left _ _ rfl
      obtain ⟨after,rfl⟩ := slicedConsumed given slicedOther right _ _ rfl
      exact ⟨_,_,middle,left,right,congrArg Value.bytes (Cursor.sliceAppend before after)⟩
    · contradiction
    · contradiction
  · rintro ⟨first,second,middle,left,right,rfl⟩
    obtain ⟨before,sameFirst⟩ := slicedConsumed given sliced left _ _ rfl
    obtain ⟨after,sameSecond⟩ := slicedConsumed given slicedOther right _ _ rfl
    cases sameFirst
    cases sameSecond
    rw [← Cursor.sliceAppend before after]
    exact .inl ⟨_,middle,left,.inl ⟨_,tail,right,rfl⟩⟩

end Joined

theorem slicesAreJoined (given : ∀ name, names name → Sliced rules names (rules name)) (sliced : Sliced rules names e)
    (c : Cursor) :
    (∀ value tail, Gives rules e c (.success value tail) →
      c.Reaches tail ∧ value = .bytes (c.sliceTo tail) ∧ c.remaining = c.sliceTo tail ++ tail.remaining) ∧
    (∀ min max value tail, Gives rules (.repeated e min max) c (.success value tail) ↔
      ∃ slices : List Bytes, Collects (Gives rules e) max c (slices.map .bytes) tail ∧ min ≤ slices.length ∧
        value = .bytes slices.flatten) ∧
    ∀ other, Sliced rules names other → ∀ value tail, Gives rules (.concat e other) c (.success value tail) ↔
      ∃ first second middle, Gives rules e c (.success (.bytes first) middle) ∧
        Gives rules other middle (.success (.bytes second) tail) ∧ value = .bytes (first ++ second) := by
  refine ⟨?_,?_,?_⟩
  · intro value tail found
    obtain ⟨reached,same⟩ := slicedConsumed given sliced found _ _ rfl
    exact ⟨reached,same,Cursor.reachesRemaining reached⟩
  · exact fun _ _ _ _ => repeatedJoins given sliced
  · exact fun _ slicedOther _ _ => concatJoins given sliced slicedOther

def numbered : Rules Bool
  | true => .choice (.concat (.range 'a' 'z') (.rule true)) (.literal "")
  | false => .pair (.range '0' '9') (.optional (.literal "-"))

def numberedWord : Expr Bool := .concat (.recognize (.rule false)) (.rule true)

theorem numberedOnward : Onward numbered (.rule false) := by
  intro c value tail found
  obtain ⟨log,found⟩ := found
  have advancing : ∀ name, (numbered name).Everywhere Advancing := by
    intro name
    cases name <;> simp [numbered,Everywhere,Advancing]
  exact (yieldsSpends (e := .rule false) advancing trivial found value tail rfl).onward

theorem numberedWordsJoined :
    let c := Cursor.start (Utf8.bytes "1-ab2c!") none
    Collects (Gives numbered numberedWord) none c ([Utf8.bytes "1-ab",Utf8.bytes "2c"].map .bytes) (c.advance 6) ∧
    Gives numbered (.many1 numberedWord) c (.success (.bytes (Utf8.bytes "1-ab2c")) (c.advance 6)) := by
  intro c
  have first : Gives numbered numberedWord c (.success (.bytes (Utf8.bytes "1-ab")) (c.advance 4)) :=
    givesParse 12 (by decide +kernel)
  have second : Gives numbered numberedWord (c.advance 4) (.success (.bytes (Utf8.bytes "2c")) (c.advance 6)) :=
    givesParse 12 (by decide +kernel)
  have last : Gives numbered numberedWord (c.advance 6) (.failure none) := givesParse 12 (by decide +kernel)
  have matched : Collects (Gives numbered numberedWord) none c ([Utf8.bytes "1-ab",Utf8.bytes "2c"].map .bytes) (c.advance 6) :=
    .next (by simp) first (.next (by simp) second (.stopped (by simp) last))
  have given : ∀ name, name = true → Sliced numbered (· = true) (numbered name) := by
    rintro name rfl
    exact .choice (.concat (.range 'a' 'z') (.rule rfl)) (.literal "")
  have sliced : Sliced numbered (· = true) numberedWord := .concat (.recognize numberedOnward) (.rule rfl)
  refine ⟨matched,((slicesAreJoined given sliced c).2.1 1 none _ _).mpr ⟨_,matched,by decide,?_⟩⟩
  decide +kernel

end SliceGrammar.Expr
