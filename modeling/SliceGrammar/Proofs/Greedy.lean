import SliceGrammar.Proofs.Plan
/-! A repetition is the longest chain of matches that its bounds allow. The chain is written out here as the
cursors its matches come to, one after the other: it goes on as long as the bound is not met and the body
matches, whatever the body is. How many matches there are then settles the outcome and the report. -/
namespace SliceGrammar

namespace Parser

variable {α : Type} {answer : Cursor → Reply α → Prop} {p : Parser α} {max : Option Nat} {c : Cursor}

/- So many matches with the cursors between them. Attempt `i` is made at `tails i` and reports `logs i`; nothing
is said of later cursors and attempts. -/
structure Trail where
  count : Nat
  tails : Nat → Cursor
  logs : Nat → Log

namespace Trail

structure Greedy (answer : Cursor → Reply α → Prop) (max : Option Nat) (t : Trail) : Prop where
  below : ∀ i, i < t.count → max ≠ some i
  matched : ∀ i, i < t.count → ∃ value, answer (t.tails i) ⟨t.logs i,.success value (t.tails (i + 1))⟩
  ended : max = some t.count ∨ ∃ reason, answer (t.tails t.count) ⟨t.logs t.count,.failure reason⟩

def report (t : Trail) (max : Option Nat) : Log :=
  (List.range t.count).flatMap t.logs ++ if max = some t.count then [] else t.logs t.count

def reply (t : Trail) (min : Nat) (max : Option Nat) : Reply Bytes :=
  ⟨t.report max ++ [.event (.stopped t.count min max)],
    if t.count < min then .failure none
    else .success ((t.tails 0).sliceTo (t.tails t.count)) (t.tails t.count)⟩

def chain (t : Trail) (max : Option Nat) : Chain := ⟨t.report max,t.count,t.tails t.count⟩

def still (c : Cursor) (log : Log) : Trail := ⟨0,fun _ => c,fun _ => log⟩

def before (c : Cursor) (log : Log) (t : Trail) : Trail where
  count := t.count + 1
  tails
    | 0 => c
    | i + 1 => t.tails i
  logs
    | 0 => log
    | i + 1 => t.logs i

theorem trailInduction {motive : Trail → Prop} (none : ∀ t, t.count = 0 → motive t)
    (more : ∀ c log t, motive t → motive (t.before c log)) (t : Trail) : motive t := by
  obtain ⟨count,tails,logs⟩ := t
  induction count generalizing tails logs with
  | zero => exact none _ rfl
  | succ count ih =>
    have split : (⟨count + 1,tails,logs⟩ : Trail) =
        before (tails 0) (logs 0) ⟨count,fun i => tails (i + 1),fun i => logs (i + 1)⟩ := by
      rw [before,mk.injEq]
      exact ⟨rfl,funext fun i => by cases i <;> rfl,funext fun i => by cases i <;> rfl⟩
    rw [split]
    exact more _ _ _ (ih _ _)

theorem greedyStill {log : Log} (ended : max = some 0 ∨ ∃ reason, answer c ⟨log,.failure reason⟩) :
    (still c log).Greedy answer max :=
  ⟨fun _ inside => absurd inside (Nat.not_lt_zero _),fun _ inside => absurd inside (Nat.not_lt_zero _),ended⟩

theorem boundBefore {i : Nat} (more : max ≠ some 0) : max.map (· - 1) = some i ↔ max = some (i + 1) := by
  cases max with
  | none => simp
  | some m =>
    have positive : m ≠ 0 := fun none => more (congrArg some none)
    simp only [Option.map_some,Option.some.injEq]
    omega

theorem reportBefore (c : Cursor) (log : Log) (t : Trail) (more : max ≠ some 0) :
    (t.before c log).report max = log ++ t.report (max.map (· - 1)) := by
  simp only [report,boundBefore more]
  simp only [before,List.range_succ_eq_map,List.flatMap_cons,List.flatMap_map,List.append_assoc]
  rfl

theorem greedyBefore {t : Trail} {log : Log} (more : max ≠ some 0) :
    (t.before c log).Greedy answer max ↔
      (∃ value, answer c ⟨log,.success value (t.tails 0)⟩) ∧ t.Greedy answer (max.map (· - 1)) := by
  constructor
  · intro greedy
    refine ⟨greedy.matched 0 (Nat.zero_lt_succ _),?_,?_,?_⟩
    · exact fun i inside met => greedy.below (i + 1) (Nat.succ_lt_succ inside) ((boundBefore more).mp met)
    · exact fun i inside => greedy.matched (i + 1) (Nat.succ_lt_succ inside)
    · exact greedy.ended.imp (boundBefore more).mpr (fun failed => failed)
  · intro parts
    obtain ⟨first,greedy⟩ := parts
    refine ⟨?_,?_,?_⟩
    · intro i inside
      cases i with
      | zero => exact more
      | succ i => exact fun met => greedy.below i (Nat.lt_of_succ_lt_succ inside) ((boundBefore more).mpr met)
    · intro i inside
      cases i with
      | zero => exact first
      | succ i => exact greedy.matched i (Nat.lt_of_succ_lt_succ inside)
    · exact greedy.ended.imp (boundBefore more).mp (fun failed => failed)

end Trail

theorem linksWritten {made : Chain} (links : Links answer max c made) :
    ∃ t : Trail, t.tails 0 = c ∧ t.Greedy answer max ∧ t.chain max = made := by
  induction links with
  | full c =>
    refine ⟨.still c [],rfl,Trail.greedyStill (.inl rfl),?_⟩
    simp [Trail.chain,Trail.report,Trail.still]
  | @stopped max c log reason more failed =>
    refine ⟨.still c log,rfl,Trail.greedyStill (.inr ⟨reason,failed⟩),?_⟩
    simp [Trail.chain,Trail.report,Trail.still,more]
  | @linked max c log value tail rest more matched next ih =>
    obtain ⟨t,rfl,greedy,rfl⟩ := ih
    refine ⟨t.before c log,rfl,(Trail.greedyBefore more).mpr ⟨⟨value,matched⟩,greedy⟩,?_⟩
    rw [Trail.chain,Trail.reportBefore c log t more]
    rfl

theorem greedyLinks {t : Trail} (greedy : t.Greedy answer max) : Links answer max (t.tails 0) (t.chain max) := by
  -- The bound counts down with the matches, so it is not fixed in the induction.
  induction t using Trail.trailInduction generalizing max with
  | none t none =>
    rw [Trail.chain,Trail.report,none]
    by_cases full : max = some 0
    · rw [if_pos full,full]
      exact .full _
    · rcases greedy.ended with met | ⟨reason,failed⟩
      · exact absurd (none ▸ met) full
      · rw [none] at failed
        rw [if_neg full]
        exact .stopped full failed
  | more c log t ih =>
    have more : max ≠ some 0 := greedy.below 0 (Nat.zero_lt_succ _)
    obtain ⟨⟨value,matched⟩,later⟩ := (Trail.greedyBefore more).mp greedy
    rw [Trail.chain,Trail.reportBefore c log t more]
    exact .linked more matched (ih later)

theorem chainCounted {budget : Nat} {made : Chain} (answered : Parser.chain p budget max c = some made) :
    made.count < budget := by
  induction budget generalizing max c made with
  | zero => simp [Parser.chain] at answered
  | succ budget ih =>
    unfold Parser.chain at answered
    split at answered
    · cases answered
      exact Nat.zero_lt_succ budget
    · split at answered
      · contradiction
      · cases answered
        exact Nat.zero_lt_succ budget
      · obtain ⟨rest,later,rfl⟩ := Option.map_eq_some_iff.mp answered
        exact Nat.succ_lt_succ (ih later)

theorem linksCounted {budget : Nat} {made : Chain} (links : Links (fun c r => p c = some r) max c made)
    (enough : made.count < budget) : Parser.chain p budget max c = some made := by
  induction links generalizing budget with
  | full c =>
    obtain ⟨budget,rfl⟩ := Nat.exists_eq_add_one_of_ne_zero (Nat.ne_zero_of_lt enough)
    simp [Parser.chain]
  | stopped more failed =>
    obtain ⟨budget,rfl⟩ := Nat.exists_eq_add_one_of_ne_zero (Nat.ne_zero_of_lt enough)
    simp [Parser.chain,more,failed]
  | linked more matched next ih =>
    obtain ⟨budget,rfl⟩ := Nat.exists_eq_add_one_of_ne_zero (Nat.ne_zero_of_lt enough)
    simp only [Parser.chain,more,if_false,matched,ih (Nat.lt_of_succ_lt_succ enough),Option.map_some]

theorem repeatedTrail {budget min : Nat} {r : Reply Bytes} :
    repeated budget p min max c = some r ↔
      ∃ t : Trail, t.tails 0 = c ∧ t.count < budget ∧ t.Greedy (fun c r => p c = some r) max ∧ t.reply min max = r := by
  rw [repeated,Option.map_eq_some_iff]
  constructor
  · intro found
    obtain ⟨made,answered,rfl⟩ := found
    obtain ⟨t,rfl,greedy,rfl⟩ := linksWritten (chainLinks answered)
    exact ⟨t,rfl,chainCounted answered,greedy,rfl⟩
  · intro written
    obtain ⟨t,rfl,enough,greedy,rfl⟩ := written
    exact ⟨t.chain max,linksCounted (greedyLinks greedy) enough,rfl⟩

end Parser

namespace Expr

variable {ρ : Type} {rules : Rules ρ} {body : Expr ρ} {c : Cursor} {min : Nat} {max : Option Nat}

theorem chainTrailReply (t : Parser.Trail) (min : Nat) (max : Option Nat) :
    chainReply (t.tails 0) min max (t.chain max) = (t.reply min max).map Value.bytes := by
  have counted : (t.chain max).count = t.count := rfl
  by_cases few : t.count < min
  · rw [chainReply,Parser.Trail.reply,if_pos (counted ▸ few),if_pos few]
    rfl
  · rw [chainReply,Parser.Trail.reply,if_neg (counted ▸ few),if_neg few]
    rfl

theorem yieldsTrail {r : Reply Value} :
    Yields rules (.repeated body min max) c r ↔
      ∃ t : Parser.Trail, t.tails 0 = c ∧ t.Greedy (Yields rules body) max ∧ (t.reply min max).map Value.bytes = r := by
  constructor
  · intro found
    obtain ⟨made,links,rfl⟩ := yieldsChainedCases rfl found
    obtain ⟨t,rfl,greedy,rfl⟩ := Parser.linksWritten links
    exact ⟨t,rfl,greedy,(chainTrailReply t min max).symm⟩
  · intro written
    obtain ⟨t,rfl,greedy,rfl⟩ := written
    rw [← chainTrailReply]
    exact yieldsChained rfl (Parser.greedyLinks greedy)

theorem repeatedFails {log : Log} {reason : Option Reason}
    (found : Yields rules (.repeated body min max) c ⟨log,.failure reason⟩) :
    ∃ t : Parser.Trail, t.tails 0 = c ∧ t.Greedy (Yields rules body) max ∧ t.count < min := by
  obtain ⟨t,start,greedy,same⟩ := yieldsTrail.mp found
  refine ⟨t,start,greedy,?_⟩
  by_cases few : t.count < min
  · exact few
  · rw [Parser.Trail.reply,if_neg few] at same
    cases same

theorem repeatedSucceeds {log : Log} {value : Value} {tail : Cursor}
    (found : Yields rules (.repeated body min max) c ⟨log,.success value tail⟩) :
    ∃ t : Parser.Trail, t.tails 0 = c ∧ t.Greedy (Yields rules body) max ∧ min ≤ t.count := by
  obtain ⟨t,start,greedy,same⟩ := yieldsTrail.mp found
  refine ⟨t,start,greedy,?_⟩
  by_cases few : t.count < min
  · rw [Parser.Trail.reply,if_pos few] at same
    cases same
  · exact Nat.le_of_not_lt few

theorem many1Fails : (∃ log reason, Yields rules (.many1 body) c ⟨log,.failure reason⟩) ↔
    ∃ log reason, Yields rules body c ⟨log,.failure reason⟩ := by
  constructor
  · intro failed
    obtain ⟨log,reason,found⟩ := failed
    obtain ⟨t,rfl,greedy,few⟩ := repeatedFails found
    have none : t.count = 0 := Nat.lt_one_iff.mp few
    rcases greedy.ended with met | ⟨own,last⟩
    · contradiction
    · rw [none] at last
      exact ⟨t.logs 0,own,last⟩
  · intro refused
    obtain ⟨log,reason,failed⟩ := refused
    exact ⟨_,_,yieldsTrail.mpr ⟨.still c log,rfl,Parser.Trail.greedyStill (.inr ⟨reason,failed⟩),rfl⟩⟩

theorem boundTooSmall {m : Nat} (small : m < min) {log : Log} {value : Value} {tail : Cursor} :
    ¬ Yields rules (.repeated body min (some m)) c ⟨log,.success value tail⟩ := by
  intro found
  obtain ⟨t,_,greedy,enough⟩ := repeatedSucceeds found
  exact greedy.below m (Nat.lt_of_lt_of_le small enough) rfl

theorem repetitionIsGreedy :
    (∀ {α : Type} (p : Parser α) (budget min : Nat) (max : Option Nat) (c : Cursor) (r : Reply Bytes),
      Parser.repeated budget p min max c = some r ↔
        ∃ t : Parser.Trail, t.tails 0 = c ∧ t.count < budget ∧ t.Greedy (fun d s => p d = some s) max ∧
          t.reply min max = r) ∧
    ∀ (rules : Rules ρ) (body : Expr ρ) (c : Cursor),
      (∀ min max r, Yields rules (.repeated body min max) c r ↔
        ∃ t : Parser.Trail, t.tails 0 = c ∧ t.Greedy (Yields rules body) max ∧ (t.reply min max).map Value.bytes = r) ∧
      (∀ log reason, ¬ Yields rules (.many body) c ⟨log,.failure reason⟩) ∧
      (∀ log reason, ¬ Yields rules (.atMostOne body) c ⟨log,.failure reason⟩) ∧
      ((∃ log reason, Yields rules (.many1 body) c ⟨log,.failure reason⟩) ↔
        ∃ log reason, Yields rules body c ⟨log,.failure reason⟩) ∧
      ∀ min m, m < min → ∀ log value tail, ¬ Yields rules (.repeated body min (some m)) c ⟨log,.success value tail⟩ := by
  refine ⟨fun _ _ _ _ _ _ => Parser.repeatedTrail,fun rules body c => ⟨fun _ _ _ => yieldsTrail,?_,?_,many1Fails,?_⟩⟩
  · intro log reason failed
    obtain ⟨t,_,_,few⟩ := repeatedFails failed
    contradiction
  · intro log reason failed
    obtain ⟨t,_,_,few⟩ := repeatedFails failed
    contradiction
  · exact fun min m small log value tail => boundTooSmall small

def letterPair : Rules Unit := fun _ => .choice (.literal "ab") (.fail (some default))

theorem letterPairsTaken :
    let c := Cursor.start (Utf8.bytes "ababab") none
    let t : Parser.Trail := ⟨2,fun i => c.advance (2 * i),fun _ => []⟩
    t.Greedy (Yields letterPair (.rule ())) (some 2) ∧
    Yields letterPair (.repeated (.rule ()) 2 (some 2)) c
      ⟨[.event (.stopped 2 2 (some 2))],.success (.bytes (Utf8.bytes "abab")) (c.advance 4)⟩ ∧
    2 < 3 ∧ ∀ log value tail, ¬ Yields letterPair (.repeated (.rule ()) 3 (some 2)) c ⟨log,.success value tail⟩ := by
  intro c t
  have first : Yields letterPair (.rule ()) c ⟨[],.success (.bytes [97,98]) (c.advance 2)⟩ := ⟨4,by decide +kernel⟩
  have second : Yields letterPair (.rule ()) (c.advance 2) ⟨[],.success (.bytes [97,98]) (c.advance 4)⟩ :=
    ⟨4,by decide +kernel⟩
  have greedy : t.Greedy (Yields letterPair (.rule ())) (some 2) := by
    refine ⟨?_,?_,.inl rfl⟩
    · intro i inside met
      cases met
      exact Nat.lt_irrefl _ inside
    · intro i inside
      match i with
      | 0 => exact ⟨_,first⟩
      | 1 => exact ⟨_,second⟩
  obtain ⟨taken,_,_,_,refused⟩ := repetitionIsGreedy.2 letterPair (.rule ()) c
  refine ⟨greedy,?_,by decide,refused 3 2 (by decide)⟩
  exact (taken 2 (some 2) _).mpr ⟨t,Cursor.advanceZero c,greedy,by decide +kernel⟩

end Expr

end SliceGrammar
