import SliceGrammar.Action
import SliceGrammar.Proofs.Primitive
/-! Parsing looks at the bytes that remain and at nothing else. Two parses of one expression are compared: one
anywhere in one buffer, the other anywhere in another, with the same bytes ahead of both. They may differ
only in the positions they hand out, so the functions of an expression must treat positions as tokens:
hand on those they were given, look into none and make up none. What that means is said by a relation
between two copies of an expression, as a chosen expression may itself hold values with positions. -/
namespace SliceGrammar

def Event.placeless : Event → Event
  | .noCodePoint _ error => .noCodePoint (.start none) error
  | .notText _ fault => .notText (.start none) fault
  | event => event

def Entry.placeless : Entry → Entry
  | .event e => .event e.placeless
  | entry => entry

def Log.placeless (log : Log) : Log := log.map Entry.placeless

theorem Log.placelessAppend {log own log' own' : Log} (first : Log.placeless log = Log.placeless own)
    (second : Log.placeless log' = Log.placeless own') : Log.placeless (log ++ log') = Log.placeless (own ++ own') := by
  unfold Log.placeless at first second ⊢
  rw [List.map_append,List.map_append,first,second]

inductive Value.Alike (R : Position → Position → Prop) : Value → Value → Prop where
  | unit : Alike R .unit .unit
  | bytes (slice) : Alike R (.bytes slice) (.bytes slice)
  | text (content) : Alike R (.text content) (.text content)
  | char (ch) : Alike R (.char ch) (.char ch)
  | int (n) : Alike R (.int n) (.int n)
  | nothing : Alike R .nothing .nothing
  | just {v w} (inner : Alike R v w) : Alike R (.just v) (.just w)
  | pair {v w v' w'} (first : Alike R v w) (second : Alike R v' w') : Alike R (.pair v v') (.pair w w')
  | spanned {v w p q p' q' slice} (inner : Alike R v w) (start : R p q) (stop : R p' q') :
      Alike R (.spanned v ⟨p,p',slice⟩) (.spanned w ⟨q,q',slice⟩)

namespace Expr

variable {ρ : Type} {R : Position → Position → Prop} {m n : Cursor}

/- What becomes of a value is settled before the tail is seen: a failure, or a result with the tail kept or
advanced. -/
def Decides (R : Position → Position → Prop) (f g : Value → Cursor → Outcome Value) (v w : Value) : Prop :=
  (∃ reason, ∀ t u, f v t = .failure reason ∧ g w u = .failure reason) ∨
  ∃ k a b, Value.Alike R a b ∧ ∀ t u, f v t = .success a (t.advance k) ∧ g w u = .success b (u.advance k)

inductive Alike (R : Position → Position → Prop) : Expr ρ → Expr ρ → Prop where
  | literal (content) : Alike R (.literal content) (.literal content)
  | range (low high) : Alike R (.range low high) (.range low high)
  | anyChar : Alike R .anyChar .anyChar
  | atEnd : Alike R .atEnd .atEnd
  | advance (k) : Alike R (.advance k) (.advance k)
  | fail (reason) : Alike R (.fail reason) (.fail reason)
  | rule (name) : Alike R (.rule name) (.rule name)
  | repeated {a b min max} (body : Alike R a b) : Alike R (.repeated a min max) (.repeated b min max)
  | concat {a b a' b'} (first : Alike R a b) (second : Alike R a' b') : Alike R (.concat a a') (.concat b b')
  | choice {a b a' b'} (first : Alike R a b) (second : Alike R a' b') : Alike R (.choice a a') (.choice b b')
  | pair {a b a' b'} (first : Alike R a b) (second : Alike R a' b') : Alike R (.pair a a') (.pair b b')
  | keepLeft {a b a' b'} (first : Alike R a b) (second : Alike R a' b') : Alike R (.keepLeft a a') (.keepLeft b b')
  | keepRight {a b a' b'} (first : Alike R a b) (second : Alike R a' b') :
      Alike R (.keepRight a a') (.keepRight b b')
  | text {a b} (body : Alike R a b) : Alike R (.text a) (.text b)
  | recognize {a b} (body : Alike R a b) : Alike R (.recognize a) (.recognize b)
  | optional {a b} (body : Alike R a b) : Alike R (.optional a) (.optional b)
  | absent {a b} (body : Alike R a b) : Alike R (.absent a) (.absent b)
  | present {a b} (body : Alike R a b) : Alike R (.present a) (.present b)
  | spanned {a b} (body : Alike R a b) : Alike R (.spanned a) (.spanned b)
  | held {a b} (holding) (body : Alike R a b) : Alike R (.held holding a) (.held holding b)
  | map {f g a b} (functions : ∀ v w, Value.Alike R v w → Value.Alike R (f v) (g w)) (body : Alike R a b) :
      Alike R (.map f a) (.map g b)
  | bind {f g a b} (functions : ∀ v w, Value.Alike R v w → Decides R f g v w) (body : Alike R a b) :
      Alike R (.bind f a) (.bind g b)
  | andThen {f g a b} (chosen : ∀ v w, Value.Alike R v w → Alike R (f v) (g w)) (body : Alike R a b) :
      Alike R (.andThen f a) (.andThen g b)

/- Alike to itself however positions are paired: its functions do not look at them. -/
def Blind (e : Expr ρ) : Prop := ∀ R, Alike R e e

structure Abreast (R : Position → Position → Prop) (m n : Cursor) : Prop where
  ahead : m.remaining = n.remaining
  places : ∀ k, R (m.advance k).position (n.advance k).position

inductive Twins (R : Position → Position → Prop) (m n : Cursor) : Option (Reply Value) → Option (Reply Value) → Prop where
  | unanswered : Twins R m n none none
  | failed {log own reason} (logs : Log.placeless log = Log.placeless own) :
      Twins R m n (some ⟨log,.failure reason⟩) (some ⟨own,.failure reason⟩)
  | matched {log own v w k} (logs : Log.placeless log = Log.placeless own) (inside : k ≤ m.length)
      (values : Value.Alike R v w) :
      Twins R m n (some ⟨log,.success v (m.advance k)⟩) (some ⟨own,.success w (n.advance k)⟩)

theorem abreastAdvance (side : Abreast R m n) (k : Nat) : Abreast R (m.advance k) (n.advance k) := by
  constructor
  · simp [side.ahead]
  · intro j
    simpa using side.places (k + j)

theorem abreastHere (side : Abreast R m n) : R m.position n.position := by
  have here := side.places 0
  simpa using here

theorem abreastSlice (side : Abreast R m n) (k : Nat) : m.sliceTo (m.advance k) = n.sliceTo (n.advance k) := by
  simp [side.ahead]

theorem twinsAdvanced (side : Abreast R m n) {log own v w} (logs : Log.placeless log = Log.placeless own)
    (values : Value.Alike R v w) (k : Nat) :
    Twins R m n (some ⟨log,.success v (m.advance k)⟩) (some ⟨own,.success w (n.advance k)⟩) := by
  rw [Cursor.advanceClamp m,Cursor.advanceClamp n,← Cursor.lengthAgrees side.ahead]
  exact .matched logs (Nat.min_le_right k m.length) values

theorem twinsHere {log own v w} (logs : Log.placeless log = Log.placeless own) (values : Value.Alike R v w) :
    Twins R m n (some ⟨log,.success v m⟩) (some ⟨own,.success w n⟩) := by
  have here := Twins.matched (n := n) logs (Nat.zero_le m.length) values
  simpa using here

theorem twinsAfter {log own : Log} (logs : Log.placeless log = Log.placeless own) {r s : Option (Reply Value)}
    (twins : Twins R m n r s) : Twins R m n (r.map (Reply.after log)) (s.map (Reply.after own)) := by
  cases twins with
  | unanswered => exact .unanswered
  | failed later => exact .failed (Log.placelessAppend logs later)
  | matched later inside values => exact .matched (Log.placelessAppend logs later) inside values

theorem twinsOnward {k : Nat} (inside : k ≤ m.length) {r s : Option (Reply Value)}
    (twins : Twins R (m.advance k) (n.advance k) r s) : Twins R m n r s := by
  cases twins with
  | unanswered => exact .unanswered
  | failed logs => exact .failed logs
  | matched logs further values =>
    rw [Cursor.advanceLength,Nat.min_eq_left inside] at further
    simpa using .matched logs (by omega) values

theorem twinsFollow {p q : Parser Value} {hit hit' : Value → Cursor → Option (Reply Value)}
    {miss miss' : Option Reason → Option (Reply Value)} (first : Twins R m n (p m) (q n))
    (hits : ∀ v w k, k ≤ m.length → Value.Alike R v w → Twins R m n (hit v (m.advance k)) (hit' w (n.advance k)))
    (misses : ∀ reason, Twins R m n (miss reason) (miss' reason)) :
    Twins R m n (p.follow hit miss m) (q.follow hit' miss' n) := by
  unfold Parser.follow
  generalize p m = r at first
  generalize q n = s at first
  cases first with
  | unanswered => exact .unanswered
  | failed logs => exact twinsAfter logs (misses _)
  | matched logs inside values => exact twinsAfter logs (hits _ _ _ inside values)

theorem directTwins (rules : Rules ρ) {e : Expr ρ} {p : Parser Value} (shape : plan rules e = .direct p)
    (side : Abreast R m n) : Twins R m n (p m) (p n) := by
  have ahead := side.ahead
  cases e <;> simp only [plan,Plan.direct.injEq,reduceCtorEq] at shape <;> subst shape
  case literal content =>
    by_cases found : Utf8.bytes content <+: m.remaining
    · rw [Parser.literalAnswer.mpr (.inl ⟨found,rfl⟩),Parser.literalAnswer.mpr (.inl ⟨ahead ▸ found,rfl⟩)]
      exact twinsAdvanced side rfl (.bytes _) _
    · rw [Parser.literalAnswer.mpr (.inr ⟨found,rfl⟩),Parser.literalAnswer.mpr (.inr ⟨ahead ▸ found,rfl⟩)]
      exact .failed rfl
  case range low high =>
    rcases Parser.decodeCases m.remaining with ⟨ch,found,_⟩ | ⟨error,refused⟩
    · by_cases wanted : low ≤ ch ∧ ch ≤ high
      · rw [Parser.rangeAnswer.mpr (.inl ⟨ch,wanted,found,rfl⟩),
          Parser.rangeAnswer.mpr (.inl ⟨ch,wanted,ahead ▸ found,rfl⟩)]
        exact twinsAdvanced side rfl (.bytes _) _
      · rw [Parser.rangeAnswer.mpr (.inr (.inl ⟨ch,wanted,found,rfl⟩)),
          Parser.rangeAnswer.mpr (.inr (.inl ⟨ch,wanted,ahead ▸ found,rfl⟩))]
        exact .failed rfl
    · rw [Parser.rangeAnswer.mpr (.inr (.inr ⟨error,refused,rfl⟩)),
        Parser.rangeAnswer.mpr (.inr (.inr ⟨error,ahead ▸ refused,rfl⟩))]
      exact .failed rfl
  case anyChar =>
    rcases Parser.decodeCases m.remaining with ⟨ch,found,_⟩ | ⟨error,refused⟩
    · rw [Parser.anyCharAnswer.mpr (.inl ⟨ch,found,rfl⟩),Parser.anyCharAnswer.mpr (.inl ⟨ch,ahead ▸ found,rfl⟩)]
      exact twinsAdvanced side rfl (.char ch) _
    · rw [Parser.anyCharAnswer.mpr (.inr ⟨error,refused,rfl⟩),
        Parser.anyCharAnswer.mpr (.inr ⟨error,ahead ▸ refused,rfl⟩)]
      exact .failed rfl
  case atEnd =>
    by_cases ended : m.remaining = []
    · rw [Parser.atEndAnswer.mpr (.inl ⟨ended,rfl⟩),Parser.atEndAnswer.mpr (.inl ⟨ahead ▸ ended,rfl⟩)]
      exact twinsHere rfl .unit
    · rw [Parser.atEndAnswer.mpr (.inr ⟨ended,rfl⟩),Parser.atEndAnswer.mpr (.inr ⟨ahead ▸ ended,rfl⟩)]
      exact .failed rfl
  case advance k =>
    rw [Parser.advanceAnswer.mpr rfl,Parser.advanceAnswer.mpr rfl,ahead]
    exact twinsAdvanced side rfl (.bytes _) k
  case fail reason =>
    rw [Parser.failAnswer.mpr rfl,Parser.failAnswer.mpr rfl]
    exact .failed rfl

section Ways

variable {sub : Expr ρ → Parser Value} {budget : Nat}

theorem withinTwins {a b : Expr ρ} {hit hit' miss miss'} (inner : Twins R m n (sub a m) (sub b n))
    (hits : ∀ v w k, k ≤ m.length → Value.Alike R v w →
      Twins R m n (some (hit m v (m.advance k))) (some (hit' n w (n.advance k))))
    (misses : ∀ reason, Twins R m n (some ⟨[],miss m reason⟩) (some ⟨[],miss' n reason⟩)) :
    Twins R m n ((Plan.within a hit miss).run budget sub m) ((Plan.within b hit' miss').run budget sub n) :=
  twinsFollow inner hits misses

theorem sequenceTwins {a b : Expr ρ} {next next' : Value → Expr ρ} {join join' : Cursor → Value → Value → Cursor → Value}
    (left : Twins R m n (sub a m) (sub b n))
    (right : ∀ v w k, Value.Alike R v w →
      Twins R (m.advance k) (n.advance k) (sub (next v) (m.advance k)) (sub (next' w) (n.advance k)))
    (joins : ∀ v w v' w' k, Value.Alike R v w → Value.Alike R v' w' →
      Value.Alike R (join m v v' (m.advance k)) (join' n w w' (n.advance k))) :
    Twins R m n ((Plan.sequence a next join).run budget sub m) ((Plan.sequence b next' join').run budget sub n) := by
  refine twinsFollow left ?_ (fun _ => .failed rfl)
  intro v w k inside values
  refine twinsOnward inside (twinsFollow (right v w k values) ?_ (fun _ => .failed rfl))
  intro v' w' j further values'
  refine .matched rfl further ?_
  simpa using joins v w v' w' (k + j) values values'

inductive TwinChains (m n : Cursor) : Option Parser.Chain → Option Parser.Chain → Prop where
  | unanswered : TwinChains m n none none
  | made {log own count k} (logs : Log.placeless log = Log.placeless own) (inside : k ≤ m.length) :
      TwinChains m n (some ⟨log,count,m.advance k⟩) (some ⟨own,count,n.advance k⟩)

theorem chainTwins {p q : Parser Value} (each : ∀ m n, Abreast R m n → Twins R m n (p m) (q n)) (fuel : Nat)
    (max : Option Nat) (side : Abreast R m n) : TwinChains m n (Parser.chain p fuel max m) (Parser.chain q fuel max n) := by
  have stopped {log own : Log} (logs : Log.placeless log = Log.placeless own) (m n : Cursor) :
      TwinChains m n (some ⟨log,0,m⟩) (some ⟨own,0,n⟩) := by
    have here : TwinChains m n (some ⟨log,0,m.advance 0⟩) (some ⟨own,0,n.advance 0⟩) :=
      .made logs (Nat.zero_le m.length)
    simpa using here
  induction fuel generalizing m n max with
  | zero => exact .unanswered
  | succ fuel ih =>
    simp only [Parser.chain]
    split
    · exact stopped rfl m n
    · have first := each m n side
      generalize p m = r at first
      generalize q n = s at first
      cases first with
      | unanswered => exact .unanswered
      | failed logs => exact stopped logs m n
      | @matched _ _ _ _ k logs inside values =>
        dsimp only
        have later := ih (max.map (· - 1)) (abreastAdvance side k)
        generalize Parser.chain p fuel (max.map (· - 1)) (m.advance k) = left at later
        generalize Parser.chain q fuel (max.map (· - 1)) (n.advance k) = right at later
        cases later with
        | unanswered => exact .unanswered
        | made further fits =>
          rw [Cursor.advanceLength,Nat.min_eq_left inside] at fits
          simp only [Option.map_some,Cursor.advanceAdvance]
          exact .made (Log.placelessAppend logs further) (by omega)

theorem chainedTwins {a b : Expr ρ} {min : Nat} {max : Option Nat} (side : Abreast R m n)
    (each : ∀ m n, Abreast R m n → Twins R m n (sub a m) (sub b n)) :
    Twins R m n ((Plan.chained a min max).run budget sub m) ((Plan.chained b min max).run budget sub n) := by
  simp only [Plan.run,repeatedAnswer]
  have chains := chainTwins each budget max side
  generalize Parser.chain (sub a) budget max m = left at chains
  generalize Parser.chain (sub b) budget max n = right at chains
  cases chains with
  | unanswered => exact .unanswered
  | @made log own count k logs inside =>
    simp only [Option.map_some,chainReply,abreastSlice side]
    have reported : Log.placeless (log ++ [.event (.stopped count min max)]) =
        Log.placeless (own ++ [.event (.stopped count min max)]) := Log.placelessAppend logs rfl
    split
    · exact .failed reported
    · exact .matched reported inside (.bytes _)

end Ways

theorem readTextTwins {v w : Value} (values : Value.Alike R v w) {k : Nat} (inside : k ≤ m.length) :
    Twins R m n (some (readText m v (m.advance k))) (some (readText n w (n.advance k))) := by
  cases values with
  | bytes slice =>
    simp only [readText]
    cases Utf8.text slice with
    | ok content => exact .matched rfl inside (.text content)
    | error fault => exact .failed rfl
  | _ => exact .failed rfl

theorem decidedTwins (side : Abreast R m n) {f g : Value → Cursor → Outcome Value} {v w : Value} (decides : Decides R f g v w)
    (k : Nat) : Twins R m n (some ⟨[],f v (m.advance k)⟩) (some ⟨[],g w (n.advance k)⟩) := by
  rcases decides with ⟨reason,refused⟩ | ⟨j,a,b,values,chosen⟩
  · rw [(refused (m.advance k) (n.advance k)).1,(refused (m.advance k) (n.advance k)).2]
    exact .failed rfl
  · rw [(chosen (m.advance k) (n.advance k)).1,(chosen (m.advance k) (n.advance k)).2]
    simpa using twinsAdvanced side rfl values (k + j)

theorem parseTwins {rules : Rules ρ} (given : ∀ name, Alike R (rules name) (rules name)) (budget : Nat) {e e' : Expr ρ}
    (alike : Alike R e e') (side : Abreast R m n) : Twins R m n (parse rules budget e m) (parse rules budget e' n) := by
  induction budget generalizing e e' m n with
  | zero => exact .unanswered
  | succ budget ih =>
    rw [parsePlan,parsePlan]
    -- A body is parsed where the whole is, and a second part wherever the first one came on both sides.
    have second {a b : Expr ρ} (parts : Alike R a b) (v w : Value) (k : Nat) (_ : Value.Alike R v w) :
        Twins R (m.advance k) (n.advance k) (parse rules budget a (m.advance k)) (parse rules budget b (n.advance k)) :=
      ih parts (abreastAdvance side k)
    have leaf {e : Expr ρ} {p : Parser Value} (shape : plan rules e = .direct p) :
        Twins R m n ((plan rules e).run budget (parse rules budget) m) ((plan rules e).run budget (parse rules budget) n) := by
      rw [shape]
      exact directTwins rules shape side
    have pass {reason : Option Reason} : Twins R m n (some ⟨[],.failure reason⟩) (some ⟨[],.failure reason⟩) := .failed rfl
    cases alike with
    | literal content => exact leaf rfl
    | range low high => exact leaf rfl
    | anyChar => exact leaf rfl
    | atEnd => exact leaf rfl
    | advance k => exact leaf rfl
    | fail reason => exact leaf rfl
    | rule name =>
      exact withinTwins (ih (given name) side) (fun _ _ _ inside values => .matched rfl inside values) (fun _ => pass)
    | repeated body => exact chainedTwins side (fun _ _ side => ih body side)
    | concat first last =>
      refine sequenceTwins (ih first side) (second last) ?_
      intro _ _ _ _ k _ _
      rw [abreastSlice side k]
      exact .bytes _
    | choice first last =>
      exact twinsFollow (ih first side) (fun _ _ _ inside values => .matched rfl inside values) (fun _ => ih last side)
    | pair first last => exact sequenceTwins (ih first side) (second last) (fun _ _ _ _ _ left right => .pair left right)
    | keepLeft first last => exact sequenceTwins (ih first side) (second last) (fun _ _ _ _ _ left _ => left)
    | keepRight first last => exact sequenceTwins (ih first side) (second last) (fun _ _ _ _ _ _ right => right)
    | text body => exact withinTwins (ih body side) (fun _ _ _ inside values => readTextTwins values inside) (fun _ => pass)
    | recognize body =>
      refine withinTwins (ih body side) ?_ (fun _ => pass)
      intro _ _ k inside _
      simp only [quiet,abreastSlice side k]
      exact .matched rfl inside (.bytes _)
    | optional body =>
      exact withinTwins (ih body side) (fun _ _ _ inside values => .matched rfl inside (.just values))
        (fun _ => twinsHere rfl .nothing)
    | absent body => exact withinTwins (ih body side) (fun _ _ _ _ _ => pass) (fun _ => twinsHere rfl .unit)
    | present body => exact withinTwins (ih body side) (fun _ _ _ _ _ => twinsHere rfl .unit) (fun _ => pass)
    | spanned body =>
      refine withinTwins (ih body side) ?_ (fun _ => pass)
      intro _ _ k inside values
      simp only [quiet,abreastSlice side k]
      exact .matched rfl inside (.spanned values (abreastHere side) (side.places k))
    | held holding body =>
      exact withinTwins (ih body side) (fun _ _ _ inside values => .matched rfl inside values) (fun _ => pass)
    | map functions body =>
      exact withinTwins (ih body side) (fun _ _ _ inside values => .matched rfl inside (functions _ _ values))
        (fun _ => pass)
    | bind functions body =>
      exact withinTwins (ih body side) (fun _ _ k _ values => decidedTwins side (functions _ _ values) k) (fun _ => pass)
    | andThen chosen body =>
      exact sequenceTwins (ih body side) (fun v w k values => ih (chosen v w values) (abreastAdvance side k))
        (fun _ _ _ _ _ _ right => right)

def Level (c d : Cursor) (p q : Position) : Prop := ∃ k, p.offset = c.offset + k ∧ q.offset = d.offset + k

theorem abreastLevel {c d : Cursor} (same : c.remaining = d.remaining) : Abreast (Level c d) c d := by
  refine ⟨same,?_⟩
  intro k
  refine ⟨min k c.length,Cursor.advanceOffset c k,?_⟩
  rw [Cursor.lengthAgrees same]
  exact Cursor.advanceOffset d k

theorem parsingIsLocal {rules : Rules ρ} (given : ∀ name, Blind (rules name)) {e : Expr ρ} (blind : Blind e)
    {c d : Cursor} (same : c.peek none = d.peek none) (budget : Nat) :
    Twins (Level c d) c d (parse rules budget e c) (parse rules budget e d) :=
  parseTwins (fun name => given name _) budget (blind _) (abreastLevel same)

def digitRule : Rules Unit := fun _ => .spanned (.range '0' '9')

def digitThenWord : Expr Unit :=
  .andThen (fun digit => .map (Value.pair digit) (.many1 (.range 'a' 'z'))) (.bind (Action.skip 1) (.rule ()))

theorem digitRuleBlind (name : Unit) : Blind (digitRule name) := fun _ => .spanned (.range '0' '9')

theorem digitThenWordBlind : Blind digitThenWord := by
  intro R
  refine .andThen ?_ (.bind ?_ (.rule ()))
  · intro digit digit' alike
    exact .map (fun _ _ word => .pair alike word) (.repeated (.range 'a' 'z'))
  · intro v w alike
    exact .inr ⟨1,v,w,alike,fun _ _ => ⟨rfl,rfl⟩⟩

theorem digitThenWordElsewhere :
    let c := Cursor.start (Utf8.bytes "7:ab") none
    let d := (Cursor.start (Utf8.bytes "?\nx7:ab") (some "file")).advance 3
    (∃ log value, parse digitRule 8 digitThenWord c = some ⟨log,.success value (c.advance 4)⟩) ∧
    Twins (Level c d) c d (parse digitRule 8 digitThenWord c) (parse digitRule 8 digitThenWord d) := by
  intro c d
  have found : parse digitRule 8 digitThenWord c = some
      ⟨[.event (.noCodePoint ⟨4,1,5,none⟩ .endOfInput),.event (.stopped 2 1 none)],
        .success (.pair (.spanned (.bytes [55]) ⟨⟨0,1,1,none⟩,⟨1,1,2,none⟩,[55]⟩) (.bytes [97,98])) (c.advance 4)⟩ := by
    decide +kernel
  exact ⟨⟨_,_,found⟩,parsingIsLocal digitRuleBlind digitThenWordBlind (by decide +kernel) 8⟩

end Expr

end SliceGrammar
