import SliceGrammar.Session
import SliceGrammar.Proofs.Calls
import SliceGrammar.Proofs.Forward
/-! Where cursors stand. A cursor comes from the start of some buffer by advancing, and there is no other way to
make one: however a parse goes back, skips or leaves for another buffer, and in whatever order earlier
cursors are used again, no cursor leaves its buffer and its offset alone tells its line and column. -/
namespace SliceGrammar

namespace Position

structure Counted (p : Position) : Prop where
  line : 1 ≤ p.line ∧ p.line ≤ p.offset + 1
  column : 1 ≤ p.column ∧ p.column ≤ p.offset + 1

theorem countedStart (label : Option String) : (start label).Counted := by
  constructor <;> simp [start]

theorem countedStep {p : Position} (counted : p.Counted) (byte : UInt8) : (p.step byte).Counted := by
  obtain ⟨line,column⟩ := counted
  unfold step
  split
  · exact ⟨by dsimp only; omega,by dsimp only; omega⟩
  · split
    · exact ⟨by dsimp only; omega,by dsimp only; omega⟩
    · exact ⟨by dsimp only; omega,by dsimp only; omega⟩

theorem countedSteps {p : Position} (counted : p.Counted) (bytes : Bytes) : (p.steps bytes).Counted := by
  induction bytes generalizing p with
  | nil => exact counted
  | cons byte bytes ih => exact ih (countedStep counted byte)

end Position

namespace Cursor

structure Placed (c : Cursor) : Prop where
  inside : c.offset ≤ c.source.length
  rebuilt : c = (start c.source c.position.label).advance c.offset

/- What is computed from a cursor: neither the length nor the bytes ahead are cut short by an offset too large, and
the counts of a position fit into 64 bits. -/
structure Measured (c : Cursor) : Prop where
  length : c.offset + c.length = c.source.length
  ahead : c.offset + (c.peek none).length = c.source.length
  counted : c.position.Counted
  words : c.source.length < 0x8000000000000000 →
    c.offset < 0x10000000000000000 ∧ c.position.line < 0x10000000000000000 ∧ c.position.column < 0x10000000000000000

theorem reachablePlaced {c : Cursor} (reachable : Reachable c) : Placed c := by
  refine ⟨reachableInside reachable,?_⟩
  obtain ⟨source,label,n,rfl⟩ := reachable
  rw [advanceSource,advanceLabel,advanceOffset,advanceClamp]
  simp only [start,offset,Position.start,Nat.zero_add]

theorem placedMeasured {c : Cursor} (placed : Placed c) : Measured c := by
  have inside := placed.inside
  have counted : c.position.Counted := by
    rw [placed.rebuilt]
    exact Position.countedSteps (Position.countedStart c.position.label) _
  have length : c.offset + c.length = c.source.length := by
    rw [Cursor.length]
    omega
  refine ⟨length,?_,counted,?_⟩
  · simp [peek,length]
  · intro small
    have line : c.position.line ≤ c.offset + 1 := counted.line.2
    have column : c.position.column ≤ c.offset + 1 := counted.column.2
    exact ⟨by omega,by omega,by omega⟩

theorem placedSame {c d : Cursor} (left : Placed c) (right : Placed d) (source : c.source = d.source)
    (label : c.position.label = d.position.label) : c = d ↔ c.offset = d.offset := by
  constructor
  · intro same
    rw [same]
  · intro offsets
    rw [left.rebuilt,right.rebuilt,source,label,offsets]

theorem reachesReachable {c tail : Cursor} (reached : c.Reaches tail) (reachable : Reachable c) : Reachable tail := by
  obtain ⟨k,_,rfl⟩ := reached
  exact reachableAdvance reachable k

end Cursor

namespace Expr

variable {ρ : Type} {rules : Rules ρ} {e : Expr ρ} {c : Cursor}

/- Functions on a value and its tail that answer with a start or an advance of some cursor at hand. -/
def Lands (f : Value → Cursor → Outcome Value) : Prop :=
  ∀ value tail result rest, tail.Reachable → f value tail = .success result rest → rest.Reachable

def Landing : Expr ρ → Prop
  | .bind f _ => Lands f
  | _ => True

def Landed (c : Cursor) (r : Reply Value) : Prop :=
  c.Reachable → ∀ value tail, r.outcome = .success value tail → tail.Reachable

theorem landedFailure (c : Cursor) (log : Log) (reason : Option Reason) : Landed c ⟨log,.failure reason⟩ := by
  intro _ value tail matched
  contradiction

theorem linksLanded {max : Option Nat} {made : Parser.Chain} (links : Parser.Links Landed max c made)
    (reachable : c.Reachable) : made.tail.Reachable := by
  induction links with
  | full c => exact reachable
  | stopped more failed => exact reachable
  | linked more matched next ih => exact ih (matched reachable _ _ rfl)

theorem yieldsLanded (given : ∀ name, (rules name).Everywhere Landing) (allowed : e.Everywhere Landing)
    {r : Reply Value} (found : Yields rules e c r) : Landed c r := by
  refine yieldsInduction (motive := fun _ c r => Landed c r) given ?direct ?withinHit ?withinMiss ?sequenceStop
    ?sequenceMiss ?sequenceHit ?eitherFirst ?eitherSecond ?chained allowed found
  case direct =>
    intro e p c r _ shape answer reachable value tail matched
    exact Cursor.reachesReachable (directSpends shape answer value tail matched).onward reachable
  case withinHit =>
    intro e body hit miss c log value tail landing shape inner reachable result rest matched
    have before := inner reachable _ _ rfl
    rcases hitTail shape matched with rfl | ⟨_,rfl⟩ | ⟨f,rfl,chosen⟩
    · exact before
    · exact reachable
    · exact landing value tail result rest before chosen
  case withinMiss =>
    intro e body hit miss c log reason _ shape _ reachable result rest matched
    obtain ⟨rfl,_⟩ := missTail shape matched
    exact reachable
  case sequenceStop => exact fun _ _ _ _ c log reason _ _ _ => landedFailure c log reason
  case sequenceMiss => exact fun _ _ _ _ c log _ _ own reason _ _ _ _ => landedFailure c (log ++ own) reason
  case sequenceHit =>
    intro e first next join c log value middle own result tail _ _ left right reachable joined rest matched
    cases matched
    exact right (left reachable _ _ rfl) _ _ rfl
  case eitherFirst => exact fun e first second c log value tail _ _ left => left
  case eitherSecond => exact fun e first second c log reason r _ _ _ right => right
  case chained =>
    intro e body min max c made _ _ links reachable value tail matched
    unfold chainReply at matched
    split at matched
    · contradiction
    · cases matched
      exact linksLanded links reachable

theorem visitsReachable (given : ∀ name, (rules name).Everywhere Landing) (allowed : e.Everywhere Landing)
    (reachable : c.Reachable) {part : Expr ρ} {d : Cursor} (visits : Visits rules e c part d) :
    d.Reachable ∧ ∀ log value tail, Yields rules part d ⟨log,.success value tail⟩ → tail.Reachable := by
  have kept : ∀ part c log value tail, part.Everywhere Landing → c.Reachable →
      Yields rules part c ⟨log,.success value tail⟩ → tail.Reachable :=
    fun part c log value tail allowed reachable found => yieldsLanded given allowed found reachable value tail rfl
  obtain ⟨inner,there⟩ := visitsKeep given kept allowed reachable visits
  exact ⟨there,fun log value tail found => kept part d log value tail inner there found⟩

end Expr

namespace Session

variable {ρ : Type} {rules : Rules ρ} {budget : Nat}

def Step.Landing : Step ρ → Prop
  | .parse _ e => e.Everywhere Expr.Landing
  | _ => True

theorem performReachable (given : ∀ name, (rules name).Everywhere Expr.Landing) {registers : List Cursor}
    (held : ∀ c ∈ registers, c.Reachable) {step : Step ρ} (allowed : step.Landing) {effect : Effect}
    (done : perform rules budget registers step = some effect) {d : Cursor} (new : effect.made = some d) :
    d.Reachable := by
  cases step with
  | fresh source label =>
    cases Option.some.inj done
    cases Option.some.inj new
    exact Cursor.reachableStart source label
  | advance i n =>
    obtain ⟨c,found,rfl⟩ := Option.map_eq_some_iff.mp done
    cases Option.some.inj new
    exact Cursor.reachableAdvance (held c (List.mem_of_getElem? found)) n
  | parse i e =>
    simp only [perform,bind,Option.bind_eq_some_iff] at done
    obtain ⟨c,found,r,answer,last⟩ := done
    cases Option.some.inj last
    obtain ⟨log,value | reason⟩ := r
    · cases Option.some.inj new
      exact Expr.yieldsLanded given allowed ⟨budget,answer⟩ (held c (List.mem_of_getElem? found)) _ _ rfl
    · contradiction
  | slice i j | equal i j | samePosition i j =>
    simp only [perform,bind,Option.bind_eq_some_iff] at done
    obtain ⟨_,_,_,_,last⟩ := done
    cases Option.some.inj last
    contradiction
  | peek i _ | source i | inspect i =>
    obtain ⟨_,_,rfl⟩ := Option.map_eq_some_iff.mp done
    contradiction

theorem performAllReachable (given : ∀ name, (rules name).Everywhere Expr.Landing) {registers : List Cursor}
    (held : ∀ c ∈ registers, c.Reachable) {steps : List (Step ρ)} (allowed : ∀ step ∈ steps, step.Landing)
    {effects : List Effect} (done : performAll rules budget registers steps = some effects) :
    ∀ c ∈ effects.filterMap Effect.made, c.Reachable := by
  induction steps generalizing registers effects with
  | nil =>
    cases Option.some.inj done
    simp
  | cons step steps ih =>
    simp only [performAll,bind,Option.bind_eq_some_iff] at done
    obtain ⟨effect,first,rest,later,last⟩ := done
    cases Option.some.inj last
    have new : ∀ d, effect.made = some d → d.Reachable :=
      fun d made => performReachable given held (allowed step List.mem_cons_self) first made
    have more : ∀ c ∈ registers ++ effect.made.toList, c.Reachable := by
      intro c member
      rcases List.mem_append.mp member with old | fresh
      · exact held c old
      · exact new c (Option.mem_toList.mp fresh)
    intro c member
    obtain ⟨effect',among,made⟩ := List.mem_filterMap.mp member
    rcases List.mem_cons.mp among with rfl | among
    · exact new c made
    · exact ih more (fun s h => allowed s (List.mem_cons_of_mem _ h)) later c
        (List.mem_filterMap.mpr ⟨effect',among,made⟩)

theorem cursorsStayPlaced (given : ∀ name, (rules name).Everywhere Expr.Landing) {steps : List (Step ρ)}
    (allowed : ∀ step ∈ steps, step.Landing) {effects : List Effect}
    (done : performAll rules budget [] steps = some effects) :
    (∀ c ∈ effects.filterMap Effect.made, c.Placed ∧
      ∀ e : Expr ρ, e.Everywhere Expr.Landing → ∀ part d, e.Visits rules c part d →
        d.Placed ∧ ∀ log value tail, part.Yields rules d ⟨log,.success value tail⟩ → tail.Placed) ∧
    (∀ c : Cursor, c.Placed → c.Measured) ∧
    ∀ c d : Cursor, c.Placed → d.Placed → c.source = d.source → c.position.label = d.position.label →
      (c = d ↔ c.offset = d.offset) := by
  refine ⟨?_,fun _ placed => Cursor.placedMeasured placed,fun _ _ left right => Cursor.placedSame left right⟩
  intro c member
  have reachable := performAllReachable given (by simp) allowed done c member
  refine ⟨Cursor.reachablePlaced reachable,?_⟩
  intro e landing part d visits
  obtain ⟨there,tails⟩ := Expr.visitsReachable given landing reachable visits
  exact ⟨Cursor.reachablePlaced there,fun log value tail found => Cursor.reachablePlaced (tails log value tail found)⟩

def backInto : Rules Unit := fun _ => .bind (Action.seek 1) (.literal "ab")

def wandering : List (Step Unit) :=
  [.fresh [97,98,10,99] (some "text"),
    .advance 0 18446744073709551615,
    .parse 0 (.rule ()),
    .parse 2 (.bind (Action.jump [13,10] (some "other") 9) (.many1 (.bind (Action.skip 1) (.literal "b")))),
    .equal 1 2]

@[simp] theorem seekLands (n : Nat) : Expr.Lands (Action.seek n) := by
  intro value tail result rest _ chosen
  cases chosen
  exact ⟨_,_,n,rfl⟩

@[simp] theorem jumpLands (source : Bytes) (label : Option String) (n : Nat) : Expr.Lands (Action.jump source label n) := by
  intro value tail result rest _ chosen
  cases chosen
  exact ⟨source,label,n,rfl⟩

@[simp] theorem skipLands (n : Nat) : Expr.Lands (Action.skip n) := by
  intro value tail result rest reachable chosen
  cases chosen
  exact Cursor.reachableAdvance reachable n

theorem wanderingLanding : ∀ step ∈ wandering, step.Landing := by
  simp [wandering,Step.Landing,Expr.Everywhere,Expr.Landing,Expr.many1]

theorem wanderingStaysPlaced :
    ∃ effects, performAll backInto 16 [] wandering = some effects ∧
      effects.filterMap Effect.made =
        [⟨[97,98,10,99],⟨0,1,1,some "text"⟩⟩,⟨[97,98,10,99],⟨4,2,2,some "text"⟩⟩,
          ⟨[97,98,10,99],⟨1,1,2,some "text"⟩⟩,⟨[13,10],⟨2,2,1,some "other"⟩⟩] ∧
      ∀ c ∈ effects.filterMap Effect.made, c.Placed := by
  have answered : ((performAll backInto 16 [] wandering).map (List.filterMap Effect.made)) = some
      [⟨[97,98,10,99],⟨0,1,1,some "text"⟩⟩,⟨[97,98,10,99],⟨4,2,2,some "text"⟩⟩,
        ⟨[97,98,10,99],⟨1,1,2,some "text"⟩⟩,⟨[13,10],⟨2,2,1,some "other"⟩⟩] := by decide +kernel
  obtain ⟨effects,done,made⟩ := Option.map_eq_some_iff.mp answered
  have landing : ∀ name, (backInto name).Everywhere Expr.Landing := fun _ => ⟨seekLands 1,trivial⟩
  exact ⟨effects,done,made,fun c member => ((cursorsStayPlaced landing wanderingLanding done).1 c member).1⟩

end Session

end SliceGrammar
