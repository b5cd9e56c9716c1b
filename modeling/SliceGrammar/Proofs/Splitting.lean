import SliceGrammar.Action
import SliceGrammar.Proofs.Greedy
import SliceGrammar.Proofs.Outcome
/-! A repetition taken in two parts: exactly so many matches first, then the others with what is left of both
bounds. The cut may be made anywhere that the bounds allow. Nothing is asked of the body, so the cursor at the cut
may lie behind the start or in another buffer; the slice is taken from the first cursor to the last and does not
look at it. -/
namespace SliceGrammar

namespace Parser

variable {α β : Type} {answer : Cursor → Reply α → Prop} {f : Bytes → β} {max bound : Option Nat} {c : Cursor} {k min : Nat}

namespace Trail

variable {t u : Trail}

def outcome (f : Bytes → β) (start : Cursor) (min : Nat) (t : Trail) : Outcome β :=
  if t.count < min then .failure none else .success (f (start.sliceTo (t.tails t.count))) (t.tails t.count)

theorem outcomeFew (few : t.count < min) : t.outcome f c min = .failure none := if_pos few

theorem outcomeEnough (enough : min ≤ t.count) :
    t.outcome f c min = .success (f (c.sliceTo (t.tails t.count))) (t.tails t.count) := if_neg (Nat.not_lt.mpr enough)

theorem outcomeFailed {reason : Option Reason} (failed : t.outcome f c min = .failure reason) :
    t.count < min ∧ reason = none := by
  unfold outcome at failed
  split at failed
  · rename_i few
    cases failed
    exact ⟨few,rfl⟩
  · contradiction

theorem outcomeMatched {value : β} {tail : Cursor} (matched : t.outcome f c min = .success value tail) :
    min ≤ t.count ∧ t.tails t.count = tail := by
  unfold outcome at matched
  split at matched
  · contradiction
  · rename_i enough
    cases matched
    exact ⟨Nat.le_of_not_lt enough,rfl⟩

theorem greedyWithin (greedy : t.Greedy answer (some k)) : t.count ≤ k :=
  Nat.le_of_not_lt fun more => greedy.below k more rfl

theorem greedyRebound (greedy : t.Greedy answer max)
    (failed : ∃ reason, answer (t.tails t.count) ⟨t.logs t.count,.failure reason⟩) (within : ∀ m ∈ bound, t.count ≤ m) :
    t.Greedy answer bound :=
  ⟨fun i inside met => absurd (within i met) (Nat.not_le.mpr inside),greedy.matched,.inr failed⟩

theorem greedyUnmet (greedy : t.Greedy answer max) (unmet : ∀ m ∈ max, t.count < m) (within : ∀ m ∈ bound, t.count ≤ m) :
    t.Greedy answer bound := by
  rcases greedy.ended with met | failed
  · exact absurd (unmet t.count met) (Nat.lt_irrefl _)
  · exact greedyRebound greedy failed within

def firstPart (k : Nat) (t : Trail) : Trail := ⟨k,t.tails,t.logs⟩

def lastPart (k : Nat) (t : Trail) : Trail := ⟨t.count - k,fun i => t.tails (k + i),fun i => t.logs (k + i)⟩

def followedBy (t u : Trail) : Trail where
  count := t.count + u.count
  tails i := if i < t.count then t.tails i else u.tails (i - t.count)
  logs i := if i < t.count then t.logs i else u.logs (i - t.count)

theorem boundPast (within : ∀ m ∈ max, k ≤ m) {i : Nat} : max.map (· - k) = some i ↔ max = some (k + i) := by
  cases max with
  | none => simp
  | some m =>
    have fits := within m rfl
    simp only [Option.map_some,Option.some.injEq]
    omega

theorem greedyFirst (greedy : t.Greedy answer max) (enough : k ≤ t.count) : (t.firstPart k).Greedy answer (some k) := by
  have below (i : Nat) (inside : i < k) : some k ≠ some i := fun met => Nat.ne_of_gt inside (Option.some.inj met)
  exact ⟨below,fun i inside => greedy.matched i (Nat.lt_of_lt_of_le inside enough),.inl rfl⟩

theorem greedyLast (greedy : t.Greedy answer max) (enough : k ≤ t.count) (within : ∀ m ∈ max, k ≤ m) :
    (t.lastPart k).Greedy answer (max.map (· - k)) := by
  have whole : k + (t.count - k) = t.count := Nat.add_sub_cancel' enough
  have inside {i : Nat} (less : i < t.count - k) : k + i < t.count := by omega
  refine ⟨?_,fun i less => greedy.matched (k + i) (inside less),?_⟩
  · intro i less met
    exact greedy.below (k + i) (inside less) ((boundPast within).mp met)
  · rcases greedy.ended with met | failed
    · rw [← whole] at met
      exact .inl ((boundPast within).mpr met)
    · rw [← whole] at failed
      exact .inr failed

theorem followedAfter (t u : Trail) (i : Nat) :
    (t.followedBy u).tails (t.count + i) = u.tails i ∧ (t.followedBy u).logs (t.count + i) = u.logs i := by
  have past : ¬ t.count + i < t.count := Nat.not_lt.mpr (Nat.le_add_right _ _)
  simp only [followedBy,if_neg past,Nat.add_sub_cancel_left,and_self]

theorem followedBefore (met : u.tails 0 = t.tails t.count) {i : Nat} (inside : i ≤ t.count) :
    (t.followedBy u).tails i = t.tails i := by
  rcases Nat.lt_or_eq_of_le inside with less | same
  · exact if_pos less
  · rw [same,← met]
    exact (followedAfter t u 0).1

theorem greedyFollowed (first : t.Greedy answer (some t.count)) (second : u.Greedy answer (max.map (· - t.count)))
    (met : u.tails 0 = t.tails t.count) (within : ∀ m ∈ max, t.count ≤ m) : (t.followedBy u).Greedy answer max := by
  refine ⟨?_,?_,?_⟩
  · intro i inside reached
    have fits := within i reached
    obtain ⟨j,rfl⟩ := Nat.exists_eq_add_of_le fits
    exact second.below j (Nat.lt_of_add_lt_add_left inside) ((boundPast within).mpr reached)
  · intro i inside
    by_cases early : i < t.count
    · have log : (t.followedBy u).logs i = t.logs i := if_pos early
      rw [followedBefore met (Nat.le_of_lt early),followedBefore met early,log]
      exact first.matched i early
    · obtain ⟨j,rfl⟩ := Nat.exists_eq_add_of_le (Nat.le_of_not_lt early)
      rw [Nat.add_assoc,(followedAfter t u j).1,(followedAfter t u (j + 1)).1,(followedAfter t u j).2]
      exact second.matched j (Nat.lt_of_add_lt_add_left inside)
  · rcases second.ended with reached | failed
    · exact .inl ((boundPast within).mp reached)
    · obtain ⟨last,log⟩ := followedAfter t u u.count
      rw [← last,← log] at failed
      exact .inr failed

end Trail

def Ends (f : Bytes → β) (answer : Cursor → Reply α → Prop) (min : Nat) (max : Option Nat) (c : Cursor)
    (o : Outcome β) : Prop :=
  ∃ t : Trail, t.tails 0 = c ∧ t.Greedy answer max ∧ t.outcome f c min = o

def InTurn (f : Bytes → β) (first second : Cursor → Outcome β → Prop) (c : Cursor) (o : Outcome β) : Prop :=
  (∃ value middle, first c (.success value middle) ∧
    ((∃ result tail, second middle (.success result tail) ∧ .success (f (c.sliceTo tail)) tail = o) ∨
      ∃ reason, second middle (.failure reason) ∧ .failure reason = o)) ∨
  ∃ reason, first c (.failure reason) ∧ .failure reason = o

theorem endsCut {o : Outcome β} (below : k ≤ min) (within : ∀ m ∈ max, k ≤ m) (ends : Ends f answer min max c o) :
    InTurn f (Ends f answer k (some k)) (Ends f answer (min - k) (max.map (· - k))) c o := by
  obtain ⟨t,rfl,greedy,rfl⟩ := ends
  by_cases early : t.count < k
  -- The chain stops before the cut, so the first part alone fails.
  · have unmet : ∀ m ∈ max, t.count < m := fun m met => Nat.lt_of_lt_of_le early (within m met)
    have short : t.Greedy answer (some k) :=
      Trail.greedyUnmet greedy unmet (fun m met => Option.some.inj met ▸ Nat.le_of_lt early)
    have few := Trail.outcomeFew (f := f) (c := t.tails 0) (Nat.lt_of_lt_of_le early below)
    exact .inr ⟨none,⟨t,rfl,short,Trail.outcomeFew early⟩,few.symm⟩
  · have enough : k ≤ t.count := Nat.le_of_not_lt early
    have first : Ends f answer k (some k) (t.tails 0) _ :=
      ⟨t.firstPart k,rfl,Trail.greedyFirst greedy enough,Trail.outcomeEnough (Nat.le_refl k)⟩
    have later := Trail.greedyLast greedy enough within
    have last : (t.lastPart k).tails (t.count - k) = t.tails t.count :=
      congrArg t.tails (Nat.add_sub_cancel' enough)
    by_cases few : t.count < min
    · have fewer : (t.lastPart k).count < min - k := Nat.sub_lt_sub_right enough few
      exact .inl ⟨_,_,first,.inr ⟨none,⟨_,rfl,later,Trail.outcomeFew fewer⟩,(Trail.outcomeFew few).symm⟩⟩
    · have all : min ≤ t.count := Nat.le_of_not_lt few
      have rest : min - k ≤ (t.lastPart k).count := Nat.sub_le_sub_right all k
      have second : Ends f answer (min - k) (max.map (· - k)) (t.tails k) _ :=
        ⟨t.lastPart k,rfl,later,Trail.outcomeEnough rest⟩
      refine .inl ⟨_,_,first,.inl ⟨_,_,second,?_⟩⟩
      rw [Trail.outcomeEnough all]
      exact congrArg (fun tail => Outcome.success (f ((t.tails 0).sliceTo tail)) tail) last

theorem endsJoined {o : Outcome β} (below : k ≤ min) (within : ∀ m ∈ max, k ≤ m)
    (parts : InTurn f (Ends f answer k (some k)) (Ends f answer (min - k) (max.map (· - k))) c o) :
    Ends f answer min max c o := by
  rcases parts with ⟨value,middle,⟨t,rfl,first,matched⟩,later⟩ | ⟨reason,⟨t,rfl,first,failed⟩,rfl⟩
  · obtain ⟨enough,rfl⟩ := Trail.outcomeMatched matched
    cases Nat.le_antisymm (Trail.greedyWithin first) enough
    have joined {u : Trail} (met : u.tails 0 = t.tails t.count) (second : u.Greedy answer (max.map (· - t.count))) :
        (t.followedBy u).tails 0 = t.tails 0 ∧ (t.followedBy u).Greedy answer max :=
      ⟨Trail.followedBefore met (Nat.zero_le _),Trail.greedyFollowed first second met within⟩
    rcases later with ⟨result,tail,⟨u,met,second,matched⟩,rfl⟩ | ⟨reason,⟨u,met,second,failed⟩,rfl⟩
    · obtain ⟨rest,rfl⟩ := Trail.outcomeMatched matched
      obtain ⟨start,greedy⟩ := joined met second
      have all : min ≤ (t.followedBy u).count := by
        change min ≤ t.count + u.count
        omega
      refine ⟨t.followedBy u,start,greedy,?_⟩
      rw [Trail.outcomeEnough all]
      exact congrArg (fun tail => Outcome.success (f ((t.tails 0).sliceTo tail)) tail) (Trail.followedAfter t u u.count).1
    · obtain ⟨fewer,rfl⟩ := Trail.outcomeFailed failed
      obtain ⟨start,greedy⟩ := joined met second
      have few : (t.followedBy u).count < min := by
        change t.count + u.count < min
        omega
      exact ⟨t.followedBy u,start,greedy,Trail.outcomeFew few⟩
  · obtain ⟨few,rfl⟩ := Trail.outcomeFailed failed
    have unmet : ∀ m ∈ some k, t.count < m := fun m met => Option.some.inj met ▸ few
    have within : ∀ m ∈ max, t.count ≤ m := fun m met => Nat.le_trans (Nat.le_of_lt few) (within m met)
    exact ⟨t,rfl,Trail.greedyUnmet first unmet within,Trail.outcomeFew (Nat.lt_of_lt_of_le few below)⟩

theorem endsSplit (below : k ≤ min) (within : ∀ m ∈ max, k ≤ m) :
    Ends f answer min max c = InTurn f (Ends f answer k (some k)) (Ends f answer (min - k) (max.map (· - k))) c :=
  funext fun _ => propext ⟨endsCut below within,endsJoined below within⟩

def Comes (p : Nat → Parser α) (c : Cursor) (o : Outcome α) : Prop := ∃ budget log, p budget c = some ⟨log,o⟩

theorem repeatedComes {p : Parser α} :
    Comes (fun budget => repeated budget p min max) c = Ends id (fun d s => p d = some s) min max c := by
  funext o
  apply propext
  constructor
  · intro comes
    obtain ⟨budget,log,found⟩ := comes
    obtain ⟨t,rfl,_,greedy,same⟩ := repeatedTrail.mp found
    exact ⟨t,rfl,greedy,congrArg Reply.outcome same⟩
  · intro ends
    obtain ⟨t,rfl,greedy,rfl⟩ := ends
    exact ⟨t.count + 1,_,repeatedTrail.mpr ⟨t,rfl,Nat.lt_succ_self _,greedy,rfl⟩⟩

section Budgets

variable {p q : Nat → Parser Bytes} (first : ∀ m n, m ≤ n → (p m).Extends (p n))
  (second : ∀ m n, m ≤ n → (q m).Extends (q n))

include first second in
theorem comesTogether {d : Cursor} {o o' : Outcome Bytes} (left : Comes p c o) (right : Comes q d o') :
    ∃ budget log own, p budget c = some ⟨log,o⟩ ∧ q budget d = some ⟨own,o'⟩ := by
  obtain ⟨m,log,left⟩ := left
  obtain ⟨n,own,right⟩ := right
  exact ⟨Nat.max m n,log,own,first m _ (Nat.le_max_left m n) c _ left,second n _ (Nat.le_max_right m n) d _ right⟩

include first second in
theorem concatComes : Comes (fun budget => concat (p budget) (q budget)) c = InTurn id (Comes p) (Comes q) c := by
  funext o
  apply propext
  constructor
  · intro comes
    obtain ⟨budget,log,found⟩ := comes
    rcases followAnswer.mp found with ⟨own,value,middle,s,left,rest,same⟩ | ⟨own,reason,s,left,rest,same⟩
    · have outcome := (congrArg Reply.outcome same).symm
      rcases followAnswer.mp rest with ⟨later,result,tail,last,right,done,rfl⟩ | ⟨later,reason,last,right,done,rfl⟩
      · cases Option.some.inj done
        exact .inl ⟨value,middle,⟨budget,own,left⟩,.inl ⟨result,tail,⟨budget,later,right⟩,outcome⟩⟩
      · cases Option.some.inj done
        exact .inl ⟨value,middle,⟨budget,own,left⟩,.inr ⟨reason,⟨budget,later,right⟩,outcome⟩⟩
    · cases Option.some.inj rest
      exact .inr ⟨reason,⟨budget,own,left⟩,(congrArg Reply.outcome same).symm⟩
  · intro parts
    rcases parts with ⟨value,middle,left,⟨result,tail,right,rfl⟩ | ⟨reason,right,rfl⟩⟩ | ⟨reason,⟨budget,log,left⟩,rfl⟩
    · obtain ⟨budget,log,own,left,right⟩ := comesTogether first second left right
      exact ⟨budget,_,(followHit _ _ left).trans (congrArg (Option.map (Reply.after log)) (followHit _ _ right))⟩
    · obtain ⟨budget,log,own,left,right⟩ := comesTogether first second left right
      exact ⟨budget,_,(followHit _ _ left).trans (congrArg (Option.map (Reply.after log)) (followMiss _ _ right))⟩
    · exact ⟨budget,_,followMiss _ _ left⟩

end Budgets

end Parser

namespace Expr

variable {ρ : Type} {rules : Rules ρ} {body : Expr ρ} {c : Cursor} {min : Nat} {max : Option Nat}

theorem givesRepeated : Gives rules (.repeated body min max) c = Parser.Ends Value.bytes (Yields rules body) min max c := by
  have mapped (t : Parser.Trail) : ((t.reply min max).map Value.bytes).outcome = t.outcome Value.bytes (t.tails 0) min := by
    unfold Parser.Trail.reply Parser.Trail.outcome
    split <;> rfl
  funext o
  apply propext
  constructor
  · intro found
    obtain ⟨log,found⟩ := found
    obtain ⟨t,rfl,greedy,same⟩ := yieldsTrail.mp found
    exact ⟨t,rfl,greedy,(mapped t).symm.trans (congrArg Reply.outcome same)⟩
  · intro ends
    obtain ⟨t,rfl,greedy,rfl⟩ := ends
    rw [← mapped t]
    exact ⟨_,yieldsTrail.mpr ⟨t,rfl,greedy,rfl⟩⟩

theorem givesConcat (first second : Expr ρ) :
    Gives rules (.concat first second) c = Parser.InTurn Value.bytes (Gives rules first) (Gives rules second) c :=
  givesSettle (.concat first second)

theorem repeatedSplit (rules : Rules ρ) (body : Expr ρ) {k : Nat} (below : k ≤ min) (within : ∀ m ∈ max, k ≤ m) (c : Cursor) :
    Gives rules (.concat (.repeated body k (some k)) (.repeated body (min - k) (max.map (· - k)))) c =
      Gives rules (.repeated body min max) c := by
  have first : Gives rules (.repeated body k (some k)) = _ := funext fun _ => givesRepeated
  have second : Gives rules (.repeated body (min - k) (max.map (· - k))) = _ := funext fun _ => givesRepeated
  rw [givesConcat,first,second,givesRepeated,Parser.endsSplit below within]

theorem repetitionSplits :
    (∀ {α : Type} (p : Parser α) (k min : Nat) (max : Option Nat), k ≤ min → (∀ m ∈ max, k ≤ m) → ∀ c,
      Parser.Comes (fun budget => Parser.concat (Parser.repeated budget p k (some k))
        (Parser.repeated budget p (min - k) (max.map (· - k)))) c =
      Parser.Comes (fun budget => Parser.repeated budget p min max) c) ∧
    ∀ (rules : Rules ρ) (body : Expr ρ) (c : Cursor),
      (∀ k min max, k ≤ min → (∀ m ∈ max, k ≤ m) →
        Gives rules (.concat (.repeated body k (some k)) (.repeated body (min - k) (max.map (· - k)))) c =
          Gives rules (.repeated body min max) c) ∧
      ∀ m n, Gives rules (.concat (.repeated body m (some m)) (.repeated body n (some n))) c =
        Gives rules (.repeated body (m + n) (some (m + n))) c := by
  refine ⟨?_,fun rules body c => ⟨fun k min max below within => repeatedSplit rules body below within c,?_⟩⟩
  · intro α p k min max below within c
    have more (min : Nat) (max : Option Nat) (m n : Nat) (enough : m ≤ n) :
        (Parser.repeated m p min max).Extends (Parser.repeated n p min max) :=
      Parser.repeatedExtends (Parser.extendsRefl p) enough min max
    have first : Parser.Comes (fun budget => Parser.repeated budget p k (some k)) = _ :=
      funext fun _ => Parser.repeatedComes
    have second : Parser.Comes (fun budget => Parser.repeated budget p (min - k) (max.map (· - k))) = _ :=
      funext fun _ => Parser.repeatedComes
    rw [Parser.concatComes (more k (some k)) (more (min - k) (max.map (· - k))),first,second,Parser.repeatedComes,
      Parser.endsSplit below within]
  · intro m n
    have within : ∀ l ∈ some (m + n), m ≤ l := fun l met => Option.some.inj met ▸ Nat.le_add_right m n
    have whole := repeatedSplit rules body (Nat.le_add_right m n) within c
    rwa [Option.map_some,Nat.add_sub_cancel_left] at whole

/- A letter after which the parse goes back to the second byte, from the third byte on: the tail lies behind the start
and the slice is empty, at the cut and at the end. -/
def backToSecond : Expr Empty := .bind (Action.seek 1) (.literal "a")

theorem backwardSplit :
    let rules : Rules Empty := fun name => nomatch name
    let start := Cursor.start (Utf8.bytes "aaa") none
    2 ≤ 3 ∧ (∀ m ∈ some 5, 2 ≤ m) ∧
    Gives rules (.repeated backToSecond 3 (some 5)) (start.advance 2) (.success (.bytes []) (start.advance 1)) ∧
    Gives rules (.concat (.repeated backToSecond 2 (some 2)) (.repeated backToSecond 1 (some 3))) (start.advance 2)
      (.success (.bytes []) (start.advance 1)) := by
  intro rules start
  have within : ∀ m ∈ some 5, 2 ≤ m := fun m met => Option.some.inj met ▸ (by decide)
  have whole : Gives rules (.repeated backToSecond 3 (some 5)) (start.advance 2) (.success (.bytes []) (start.advance 1)) :=
    givesParse 8 (by decide +kernel)
  have split := (repetitionSplits.2 rules backToSecond (start.advance 2)).1 2 3 (some 5) (by decide) within
  exact ⟨by decide,within,whole,split ▸ whole⟩

end Expr

end SliceGrammar
