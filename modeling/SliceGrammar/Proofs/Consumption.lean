import SliceGrammar.Proofs.Placement
import SliceGrammar.Proofs.Splitting
import SliceGrammar.Proofs.Termination
/-! Repetition of a body that passes a byte with every match. The chain of matches then has no more matches than
there are bytes ahead, whatever the bounds are: it ends by itself, an upper bound above the number of bytes makes
no difference and a lower bound above it is never met. -/
namespace SliceGrammar

namespace Cursor

theorem shorterOnward {c tail : Cursor} (reachable : tail.Reachable) (same : tail.source = c.source)
    (further : c.offset < tail.offset) : tail.length < c.length := by
  have inside := reachableInside reachable
  rw [same] at inside
  rw [length,length,same]
  omega

theorem reachesFurther {c tail : Cursor} (reached : c.Reaches tail) (shorter : tail.length < c.length) :
    c.offset < tail.offset := by
  obtain ⟨k,inside,rfl⟩ := reached
  rw [advanceLength,Nat.min_eq_left inside] at shorter
  rw [advanceOffset,Nat.min_eq_left inside]
  omega

end Cursor

namespace Parser

variable {α : Type} {answer : Cursor → Reply α → Prop} {p : Parser α} {max : Option Nat} {c : Cursor} {min : Nat} {t : Trail}

structure Consuming (answer : Cursor → Reply α → Prop) : Prop where
  answers : ∀ c, c.Reachable → ∃ r, answer c r
  onward : ∀ c log value tail, c.Reachable → answer c ⟨log,.success value tail⟩ →
    tail.Reachable ∧ tail.source = c.source ∧ c.offset < tail.offset

theorem consumingStep (consuming : Consuming answer) (reachable : c.Reachable) {log : Log} {value : α} {tail : Cursor}
    (matched : answer c ⟨log,.success value tail⟩) : tail.Reachable ∧ tail.length < c.length := by
  obtain ⟨placed,same,further⟩ := consuming.onward c log value tail reachable matched
  exact ⟨placed,Cursor.shorterOnward placed same further⟩

theorem consumingTails (consuming : Consuming answer) (reachable : (t.tails 0).Reachable) (greedy : t.Greedy answer max)
    {i : Nat} (inside : i ≤ t.count) : (t.tails i).Reachable ∧ (t.tails i).length + i ≤ (t.tails 0).length := by
  induction i with
  | zero => exact ⟨reachable,Nat.le_refl _⟩
  | succ i ih =>
    obtain ⟨placed,passed⟩ := ih (Nat.le_of_succ_le inside)
    obtain ⟨value,matched⟩ := greedy.matched i inside
    obtain ⟨next,shorter⟩ := consumingStep consuming placed matched
    exact ⟨next,by omega⟩

theorem consumingCount (consuming : Consuming answer) (reachable : (t.tails 0).Reachable) (greedy : t.Greedy answer max) :
    t.count ≤ (t.tails 0).length := by
  have passed := (consumingTails consuming reachable greedy (Nat.le_refl _)).2
  omega

theorem consumingTrail (consuming : Consuming answer) (reachable : c.Reachable) (max : Option Nat) :
    ∃ t : Trail, t.tails 0 = c ∧ t.Greedy answer max := by
  -- On the number of bytes ahead; the bound counts down beside it.
  induction size : c.length using Nat.strongRecOn generalizing c max with
  | ind size ih =>
    by_cases full : max = some 0
    · exact ⟨.still c [],rfl,Trail.greedyStill (.inl full)⟩
    · obtain ⟨⟨log,outcome⟩,found⟩ := consuming.answers c reachable
      cases outcome with
      | failure reason => exact ⟨.still c log,rfl,Trail.greedyStill (.inr ⟨reason,found⟩)⟩
      | success value tail =>
        obtain ⟨placed,shorter⟩ := consumingStep consuming reachable found
        obtain ⟨t,rfl,greedy⟩ := ih _ (size ▸ shorter) placed (max.map (· - 1)) rfl
        exact ⟨t.before c log,rfl,(Trail.greedyBefore full).mpr ⟨⟨value,found⟩,greedy⟩⟩

section Outcome

variable {β : Type} (f : Bytes → β) (consuming : Consuming answer) (reachable : c.Reachable)

include consuming reachable in
theorem consumingUnbounded (min : Nat) {m : Nat} (enough : c.length ≤ m) :
    ∃ o, Ends f answer min (some m) c o ∧ Ends f answer min none c o := by
  obtain ⟨t,rfl,greedy⟩ := consumingTrail consuming reachable none
  have counted := consumingCount consuming reachable greedy
  have within : ∀ l ∈ some m, t.count ≤ l := fun l met => Option.some.inj met ▸ Nat.le_trans counted enough
  have bounded : t.Greedy answer (some m) := Trail.greedyUnmet greedy (fun _ met => nomatch met) within
  exact ⟨_,⟨t,rfl,bounded,rfl⟩,⟨t,rfl,greedy,rfl⟩⟩

include consuming reachable in
theorem consumingTooFew (max : Option Nat) (more : c.length < min) : Ends f answer min max c (.failure none) := by
  obtain ⟨t,rfl,greedy⟩ := consumingTrail consuming reachable max
  have counted := consumingCount consuming reachable greedy
  exact ⟨t,rfl,greedy,Trail.outcomeFew (Nat.lt_of_le_of_lt counted more)⟩

end Outcome

/- How often the body is called is told by a parser that reports nothing but its calls, one entry for each. -/
def tallied (p : Parser α) : Parser α := fun c => (p c).map (fun r => ⟨[.entered],r.outcome⟩)

namespace Trail

def tally (t : Trail) : Trail := ⟨t.count,t.tails,fun _ => [.entered]⟩

def calls (t : Trail) (max : Option Nat) : Nat := if max = some t.count then t.count else t.count + 1

theorem callsBound (t : Trail) (max : Option Nat) : t.calls max ≤ t.count + 1 := by
  unfold calls
  split
  · exact Nat.le_succ t.count
  · exact Nat.le_refl _

theorem greedyTally (greedy : t.Greedy (fun d s => p d = some s) max) :
    t.tally.Greedy (fun d s => tallied p d = some s) max := by
  have tells {d : Cursor} {log : Log} {o : Outcome α} (found : p d = some ⟨log,o⟩) : tallied p d = some ⟨[.entered],o⟩ := by
    rw [tallied,found]
    rfl
  refine ⟨greedy.below,?_,?_⟩
  · intro i inside
    obtain ⟨value,matched⟩ := greedy.matched i inside
    exact ⟨value,tells matched⟩
  · rcases greedy.ended with met | ⟨reason,failed⟩
    · exact .inl met
    · exact .inr ⟨reason,tells failed⟩

theorem tallyReport (t : Trail) (max : Option Nat) : t.tally.report max = List.replicate (t.calls max) .entered := by
  have each : (List.range t.count).flatMap (fun _ => [Entry.entered]) = List.replicate t.count .entered :=
    List.eq_replicate_iff.mpr ⟨by simp,by simp⟩
  change (List.range t.count).flatMap (fun _ => [Entry.entered]) ++ (if max = some t.count then [] else [Entry.entered]) = _
  rw [each]
  by_cases full : max = some t.count
  · rw [calls,if_pos full,if_pos full,List.append_nil]
  · rw [calls,if_neg full,if_neg full,List.replicate_succ']

end Trail

theorem consumingCalls (consuming : Consuming (fun d s => p d = some s)) (reachable : c.Reachable) (min : Nat) (max : Option Nat) :
    ∃ log count calls outcome, count ≤ c.length ∧ calls ≤ c.length + 1 ∧
      ∀ budget, c.length < budget →
        repeated budget p min max c = some ⟨log ++ [.event (.stopped count min max)],outcome⟩ ∧
        repeated budget (tallied p) min max c =
          some ⟨List.replicate calls .entered ++ [.event (.stopped count min max)],outcome⟩ := by
  obtain ⟨t,rfl,greedy⟩ := consumingTrail consuming reachable max
  have counted := consumingCount consuming reachable greedy
  have called : t.calls max ≤ (t.tails 0).length + 1 := Nat.le_trans (t.callsBound max) (Nat.succ_le_succ counted)
  refine ⟨t.report max,t.count,t.calls max,(t.reply min max).outcome,counted,called,fun budget enough => ?_⟩
  have spent : t.count < budget := Nat.lt_of_le_of_lt counted enough
  rw [← Trail.tallyReport]
  exact ⟨repeatedTrail.mpr ⟨t,rfl,spent,greedy,rfl⟩,repeatedTrail.mpr ⟨t.tally,rfl,spent,Trail.greedyTally greedy,rfl⟩⟩

end Parser

namespace Expr

variable {ρ : Type} {rules : Rules ρ} {e body : Expr ρ} {c : Cursor}

theorem spendsOnward {log : Log} {value : Value} {tail : Cursor} (spends : Spends rules e c ⟨log,.success value tail⟩)
    (nonempty : ¬ Nullable rules e) (reachable : c.Reachable) :
    tail.Reachable ∧ tail.source = c.source ∧ c.offset < tail.offset := by
  obtain ⟨onward,strict⟩ := spends value tail rfl
  have further := Cursor.reachesFurther onward (strict.resolve_left nonempty)
  exact ⟨Cursor.reachesReachable onward reachable,(Cursor.reachesFrame onward).1,further⟩

theorem directConsuming {p : Parser Value} (shape : plan rules e = .direct p) (nonempty : ¬ Nullable rules e) :
    Parser.Consuming (fun d s => p d = some s) :=
  ⟨fun c _ => directAnswers shape c,
    fun _ _ _ _ reachable matched => spendsOnward (directSpends shape matched) nonempty reachable⟩

theorem properConsuming [Finite ρ] (formed : WellFormed rules) (allowed : e.Everywhere (Proper rules))
    (nonempty : ¬ Nullable rules e) : Parser.Consuming (Yields rules e) :=
  ⟨fun c _ => answersEverywhere formed allowed c,
    fun c _ _ _ reachable matched => spendsOnward (properSpends formed allowed c _ matched) nonempty reachable⟩

theorem consumingRepeats (consuming : Parser.Consuming (Yields rules body)) (reachable : c.Reachable) {n : Nat} {d : Cursor}
    (repeats : Repeats rules body c n d) : d.Reachable ∧ d.length + n ≤ c.length := by
  induction repeats with
  | none => exact ⟨reachable,Nat.le_refl _⟩
  | more before matched ih =>
    obtain ⟨placed,shorter⟩ := Parser.consumingStep consuming ih.1 matched
    exact ⟨placed,by omega⟩

theorem consumingYields (consuming : Parser.Consuming (Yields rules body)) (reachable : c.Reachable) (min : Nat) (max : Option Nat) :
    ∃ log count o, count ≤ c.length ∧
      Yields rules (.repeated body min max) c ⟨log ++ [.event (.stopped count min max)],o⟩ := by
  obtain ⟨t,rfl,greedy⟩ := Parser.consumingTrail consuming reachable max
  have counted := Parser.consumingCount consuming reachable greedy
  exact ⟨_,t.count,_,counted,yieldsChained (e := .repeated body min max) rfl (Parser.greedyLinks greedy)⟩

theorem repetitionIsBounded :
    (∀ {α : Type} (p : Parser α), Parser.Consuming (fun d s => p d = some s) → ∀ c : Cursor, c.Reachable →
      (∀ min max, ∃ log count calls outcome, count ≤ c.length ∧ calls ≤ c.length + 1 ∧
        (c.source.length < UInt64.size → count < UInt64.size) ∧
        ∀ budget, c.length < budget →
          Parser.repeated budget p min max c = some ⟨log ++ [.event (.stopped count min max)],outcome⟩ ∧
          Parser.repeated budget (Parser.tallied p) min max c =
            some ⟨List.replicate calls .entered ++ [.event (.stopped count min max)],outcome⟩) ∧
      (∀ min m, c.length ≤ m → ∃ o, Parser.Comes (fun budget => Parser.repeated budget p min (some m)) c o ∧
        Parser.Comes (fun budget => Parser.repeated budget p min none) c o) ∧
      ∀ min max, c.length < min → Parser.Comes (fun budget => Parser.repeated budget p min max) c (.failure none)) ∧
    ∀ (rules : Rules ρ) (body : Expr ρ), Parser.Consuming (Yields rules body) → ∀ c : Cursor, c.Reachable →
      (∀ min max, ∃ log count o, count ≤ c.length ∧
        Yields rules (.repeated body min max) c ⟨log ++ [.event (.stopped count min max)],o⟩) ∧
      (∀ n d, Repeats rules body c n d → n ≤ c.length) ∧
      (∀ min m, c.length ≤ m →
        ∃ o, Gives rules (.repeated body min (some m)) c o ∧ Gives rules (.repeated body min none) c o) ∧
      ∀ min max, c.length < min → Gives rules (.repeated body min max) c (.failure none) := by
  refine ⟨?_,?_⟩
  · intro α p consuming c reachable
    simp only [Parser.repeatedComes]
    refine ⟨?_,?_,?_⟩
    · intro min max
      obtain ⟨log,count,calls,outcome,counted,called,answers⟩ := Parser.consumingCalls consuming reachable min max
      have inside : c.length ≤ c.source.length := Nat.sub_le _ _
      exact ⟨log,count,calls,outcome,counted,called,fun small => by omega,answers⟩
    · exact fun min m enough => Parser.consumingUnbounded id consuming reachable min enough
    · exact fun min max more => Parser.consumingTooFew id consuming reachable max more
  · intro rules body consuming c reachable
    simp only [givesRepeated]
    refine ⟨fun min max => consumingYields consuming reachable min max,?_,?_,?_⟩
    · intro n d repeats
      have passed := (consumingRepeats consuming reachable repeats).2
      omega
    · exact fun min m enough => Parser.consumingUnbounded Value.bytes consuming reachable min enough
    · exact fun min max more => Parser.consumingTooFew Value.bytes consuming reachable max more

def closedListing : Expr Bool := .recognize (.keepLeft (.rule true) (.codePoint ';'))

theorem closedListingConsuming : Parser.Consuming (Yields listing closedListing) := by
  have allowed : closedListing.Everywhere (Proper listing) := by
    simp [closedListing,Everywhere,Proper,Advancing,Guarded,codePoint]
  refine properConsuming listingFormed allowed ?_
  intro null
  cases null with
  | recognize inner =>
    cases inner with
    | keepLeft left right => exact rangeConsumes ';' ';' right

theorem pairsOfLettersBounded :
    let letters : Parser Value := (Parser.literal "ab").map .bytes
    let c := Cursor.start (Utf8.bytes "1x;ababa") none
    Parser.Consuming (fun d s => letters d = some s) ∧ Parser.Consuming (Yields listing closedListing) ∧ c.Reachable ∧
    c.length = 8 ∧
    (∃ o, Parser.Comes (fun budget => Parser.repeated budget letters 2 (some 8)) c o ∧
      Parser.Comes (fun budget => Parser.repeated budget letters 2 none) c o) ∧
    Parser.Comes (fun budget => Parser.repeated budget letters 9 none) c (.failure none) ∧
    Gives listing (.repeated closedListing 9 (some 20)) c (.failure none) := by
  intro letters c
  have consuming : Parser.Consuming (fun d s => letters d = some s) := by
    have nonempty : ¬ Nullable listing (.literal "ab") := by
      intro null
      cases null with
      | literal empty => exact absurd empty (by decide)
    exact directConsuming rfl nonempty
  have reachable : c.Reachable := Cursor.reachableStart _ _
  have eight : c.length = 8 := by decide +kernel
  obtain ⟨parsers,expressions⟩ := repetitionIsBounded (ρ := Bool)
  obtain ⟨_,unbounded,few⟩ := parsers letters consuming c reachable
  obtain ⟨_,_,_,fewLists⟩ := expressions listing closedListing closedListingConsuming c reachable
  exact ⟨consuming,closedListingConsuming,reachable,eight,unbounded 2 8 (Nat.le_of_eq eight),
    few 9 none (by rw [eight]; decide),fewLists 9 (some 20) (by rw [eight]; decide)⟩

end Expr

end SliceGrammar
