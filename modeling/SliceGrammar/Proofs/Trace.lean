import SliceGrammar.Proofs.Greedy
import SliceGrammar.Proofs.Placement
/-! What a log says. A parse writes from many depths, and what a given-up alternative or a look ahead wrote stays
in the log; still every entry was written by some part at a cursor that the parse came to, and only three kinds
of parts write. Runs put a bracket around what a parse wrote, and nothing inside opens or closes another. -/
namespace SliceGrammar

theorem Parser.followReported {α β : Type} {p : Parser α} {hit : α → Cursor → Option (Reply β)} {miss} {c : Cursor}
    {r : Reply β} {entry : Entry} (answer : p.follow hit miss c = some r) (member : entry ∈ r.log) :
    (∃ s, p c = some s ∧ entry ∈ s.log) ∨
    (∃ log value tail s, p c = some ⟨log,.success value tail⟩ ∧ hit value tail = some s ∧ entry ∈ s.log) ∨
    ∃ log reason s, p c = some ⟨log,.failure reason⟩ ∧ miss reason = some s ∧ entry ∈ s.log := by
  rcases followAnswer.mp answer with ⟨log,value,tail,s,found,later,rfl⟩ | ⟨log,reason,s,found,later,rfl⟩
  · rcases List.mem_append.mp member with before | after
    · exact .inl ⟨_,found,before⟩
    · exact .inr (.inl ⟨log,value,tail,s,found,later,after⟩)
  · rcases List.mem_append.mp member with before | after
    · exact .inl ⟨_,found,before⟩
    · exact .inr (.inr ⟨log,reason,s,found,later,after⟩)

theorem Parser.doneSilent {α : Type} {outcome : Outcome α} {r : Reply α} {entry : Entry} (answer : done outcome = some r) :
    entry ∉ r.log := by
  cases Option.some.inj answer
  exact List.not_mem_nil

namespace Expr

variable {ρ : Type} {rules : Rules ρ} {e : Expr ρ} {c : Cursor} {entry : Entry}

inductive Writes : Expr ρ → Cursor → Event → Prop where
  | anyChar {d error} (refused : Utf8.decode d.remaining = .error error) :
      Writes .anyChar d (.noCodePoint d.position error)
  | range {low high d error} (refused : Utf8.decode d.remaining = .error error) :
      Writes (.range low high) d (.noCodePoint d.position error)
  | repeated {body min max d count} (bounded : ∀ m, max = some m → count ≤ m) :
      Writes (.repeated body min max) d (.stopped count min max)
  | text {body d slice fault} (faulty : Utf8.text slice = .error fault) :
      Writes (.text body) d (.notText d.position fault)

def Written (e : Expr ρ) (c : Cursor) (entry : Entry) : Prop := ∃ event, entry = .event event ∧ Writes e c event

theorem directWritten {p : Parser Value} {r : Reply Value} (shape : plan rules e = .direct p) (answer : p c = some r)
    (member : entry ∈ r.log) : Written e c entry := by
  cases e <;> simp only [plan,Plan.direct.injEq,reduceCtorEq] at shape <;> subst shape
  case literal content =>
    rcases Parser.literalAnswer.mp answer with ⟨_,rfl⟩ | ⟨_,rfl⟩ <;> contradiction
  case range low high =>
    rcases Parser.rangeAnswer.mp answer with ⟨ch,_,_,rfl⟩ | ⟨ch,_,_,rfl⟩ | ⟨error,refused,rfl⟩
    · contradiction
    · contradiction
    · exact ⟨_,List.mem_singleton.mp member,.range refused⟩
  case anyChar =>
    rcases Parser.anyCharAnswer.mp answer with ⟨ch,_,rfl⟩ | ⟨error,refused,rfl⟩
    · contradiction
    · exact ⟨_,List.mem_singleton.mp member,.anyChar refused⟩
  case atEnd =>
    rcases Parser.atEndAnswer.mp answer with ⟨_,rfl⟩ | ⟨_,rfl⟩ <;> contradiction
  case advance n =>
    cases Parser.advanceAnswer.mp answer
    contradiction
  case fail reason =>
    cases Parser.failAnswer.mp answer
    contradiction

theorem hitWritten {body hit miss value tail} (shape : plan rules e = .within body hit miss)
    (member : entry ∈ (hit c value tail).log) : Written e c entry := by
  cases e <;> simp only [plan,Plan.within.injEq,reduceCtorEq] at shape <;> obtain ⟨rfl,rfl,rfl⟩ := shape
  case text body =>
    unfold readText at member
    split at member
    · split at member
      · contradiction
      · rename_i fault faulty
        exact ⟨_,List.mem_singleton.mp member,.text faulty⟩
    · contradiction
  all_goals contradiction

theorem countWithin {answer : Cursor → Reply Value → Prop} {max : Option Nat} {made : Parser.Chain}
    (links : Parser.Links answer max c made) {m : Nat} (bound : max = some m) : made.count ≤ m := by
  obtain ⟨t,_,greedy,rfl⟩ := Parser.linksWritten links
  exact Nat.le_of_not_lt fun more => greedy.below m more bound

section Parts

variable {budget : Nat}

def WrittenInCall (rules : Rules ρ) (budget : Nat) (e : Expr ρ) (c : Cursor) (entry : Entry) : Prop :=
  ∃ part d r, Calls rules e c part d ∧ parse rules budget part d = some r ∧ entry ∈ r.log

/- Every attempt of a chain is a call of the repetition. The matches before are counted beside the chain, since
its bound counts down. -/
theorem linksWrittenInCall {body : Expr ρ} {min : Nat} {max bound : Option Nat} {d : Cursor} {made : Parser.Chain} {n : Nat}
    (shape : plan rules e = .chained body min max)
    (links : Parser.Links (fun d r => parse rules budget body d = some r) bound d made) (left : bound = max.map (· - n))
    (repeats : Repeats rules body c n d) (member : entry ∈ made.log) : WrittenInCall rules budget e c entry := by
  have below {n : Nat} (more : max.map (· - n) ≠ some 0) : ∀ m, max = some m → n < m := by
    intro m same
    rw [same,Option.map_some,ne_eq,Option.some.injEq] at more
    omega
  induction links generalizing n with
  | full d => contradiction
  | stopped more failed => exact ⟨body,_,_,.again shape repeats (below (left ▸ more)),failed,member⟩
  | linked more matched next ih =>
    rcases List.mem_append.mp member with first | later
    · exact ⟨body,_,_,.again shape repeats (below (left ▸ more)),matched,first⟩
    · refine ih ?_ (.more repeats ⟨budget,matched⟩) later
      rw [left,Option.map_map]
      rfl

theorem writtenStep {r : Reply Value} (answer : parse rules (budget + 1) e c = some r) (member : entry ∈ r.log) :
    Written e c entry ∨ WrittenInCall rules budget e c entry := by
  rw [parsePlan] at answer
  cases shape : plan rules e <;> rw [shape] at answer
  case direct p => exact .inl (directWritten shape answer member)
  case within body hit miss =>
    rcases Parser.followReported answer member with
      ⟨s,found,before⟩ | ⟨log,value,tail,s,_,last,own⟩ | ⟨log,reason,s,_,last,own⟩
    · exact .inr ⟨body,c,s,.body shape,found,before⟩
    · cases Option.some.inj last
      exact .inl (hitWritten shape own)
    · exact absurd own (Parser.doneSilent last)
  case sequence first next join =>
    rcases Parser.followReported answer member with
      ⟨s,found,before⟩ | ⟨log,value,middle,s,matched,later,after⟩ | ⟨log,reason,s,_,last,own⟩
    · exact .inr ⟨first,c,s,.first shape,found,before⟩
    · rcases Parser.followReported later after with ⟨s,found,before⟩ | ⟨_,_,_,s,_,last,own⟩ | ⟨_,_,s,_,last,own⟩
      · exact .inr ⟨next value,middle,s,.next shape ⟨budget,matched⟩,found,before⟩
      · exact absurd own (Parser.doneSilent last)
      · exact absurd own (Parser.doneSilent last)
    · exact absurd own (Parser.doneSilent last)
  case either first second =>
    rcases Parser.followReported answer member with
      ⟨s,found,before⟩ | ⟨log,value,tail,s,_,last,own⟩ | ⟨log,reason,s,failed,later,after⟩
    · exact .inr ⟨first,c,s,.tried shape,found,before⟩
    · exact absurd own (Parser.doneSilent last)
    · exact .inr ⟨second,c,s,.instead shape ⟨budget,failed⟩,later,after⟩
  case chained body min max =>
    rw [Plan.run,repeatedAnswer] at answer
    obtain ⟨made,chained,rfl⟩ := Option.map_eq_some_iff.mp answer
    have links := Parser.chainLinks chained
    cases chainedRepeated shape
    rcases List.mem_append.mp member with before | own
    · exact .inr (linksWrittenInCall shape links (by simp) .none before)
    · exact .inl ⟨_,List.mem_singleton.mp own,.repeated fun m bound => countWithin links bound⟩

theorem writtenVisited {r : Reply Value} (answer : parse rules budget e c = some r) (member : entry ∈ r.log) :
    ∃ part d, Visits rules e c part d ∧ Written part d entry := by
  induction budget generalizing e c r with
  | zero => cases answer
  | succ budget ih =>
    rcases writtenStep answer member with own | ⟨part,d,s,call,answer,member⟩
    · exact ⟨e,c,.here,own⟩
    · obtain ⟨inner,last,visits,written⟩ := ih answer member
      exact ⟨inner,last,visitsInside call visits,written⟩

end Parts

theorem writesTrace {event : Event} (writes : Writes e c event) :
    event.level = .trace ∧ event.message ∈ ["no code point","repeat stopped","matched bytes are not UTF-8"] := by
  cases writes <;> simp [Event.level,Event.message]

structure Logged (rules : Rules ρ) (e : Expr ρ) (c : Cursor) (log : Log) : Prop where
  events : ∀ entry ∈ log, ∃ event, entry = .event event ∧ event.level = .trace ∧
    event.message ∈ ["no code point","repeat stopped","matched bytes are not UTF-8"]
  bounded : ∀ count min m, Entry.event (.stopped count min (some m)) ∈ log → count ≤ m
  refused : ∀ event, Entry.event event ∈ log → event.message = "no code point" →
    ∃ part d error, Visits rules e c part d ∧ Utf8.decode d.remaining = .error error ∧
      event = .noCodePoint d.position error ∧
      event.fields = [("at",d.position.display),("error",error.message)]

theorem parseLogged {budget : Nat} {r : Reply Value} (answer : parse rules budget e c = some r) :
    Logged rules e c r.log := by
  refine ⟨?_,?_,?_⟩
  · intro entry member
    obtain ⟨part,d,_,event,same,writes⟩ := writtenVisited answer member
    exact ⟨event,same,writesTrace writes⟩
  · intro count min m member
    obtain ⟨part,d,_,event,same,writes⟩ := writtenVisited answer member
    cases same
    cases writes with
    | repeated bounded => exact bounded m rfl
  · intro event member message
    obtain ⟨part,d,visits,event,same,writes⟩ := writtenVisited answer member
    cases same
    cases writes with
    | anyChar refused => exact ⟨_,d,_,visits,refused,rfl,rfl⟩
    | range refused => exact ⟨_,d,_,visits,refused,rfl,rfl⟩
    | repeated bounded => simp [Event.message] at message
    | text faulty => simp [Event.message] at message

end Expr

namespace Parser

variable {α : Type} {p : Parser α} {label : Option String}

inductive Judged : Outcome α → Event → Prop where
  | matched (value : α) (tail : Cursor) : Judged (.success value tail) (.succeeded tail.offset)
  | failed (reason : Option Reason) : Judged (.failure reason) .failed

inductive Blocks (answer : Cursor → Reply α → Prop) (label : Option String) :
    List Bytes → List (Outcome α) → Log → Prop where
  | none : Blocks answer label [] [] []
  | next {source sources body outcome outcomes verdict log} (parsed : answer (.start source label) ⟨body,outcome⟩)
      (judged : Judged outcome verdict) (later : Blocks answer label sources outcomes log) :
      Blocks answer label (source :: sources) (outcome :: outcomes)
        ([.opened label source.length,.entered] ++ body ++ [.event verdict,.left] ++ log)

theorem judgedVerdict {outcome : Outcome α} {event : Event} : Judged outcome event ↔ event = verdict outcome := by
  constructor
  · intro judged
    cases judged <;> rfl
  · intro same
    subst same
    cases outcome with
    | success value tail => exact .matched value tail
    | failure reason => exact .failed reason

theorem judgedDebug {outcome : Outcome α} {event : Event} (judged : Judged outcome event) :
    event.level = .debug ∧ event.message = if outcome.isSuccess then "parse succeeded" else "parse failed" := by
  cases judged <;> exact ⟨rfl,rfl⟩

theorem runBlocks {sources : List Bytes} {replies : List (Reply α)} (done : runEach p label sources = some replies) :
    Blocks (fun c r => p c = some r) label sources (replies.map Reply.outcome) (logOf replies) := by
  induction sources generalizing replies with
  | nil =>
    cases Option.some.inj done
    exact .none
  | cons source sources ih =>
    simp only [runEach,run,Option.bind_eq_bind,Option.bind_eq_some_iff,Option.map_eq_some_iff] at done
    obtain ⟨first,⟨r,parsed,rfl⟩,rest,later,last⟩ := done
    cases Option.some.inj last
    exact .next parsed (judgedVerdict.mpr rfl) (ih later)

theorem blocksRun {sources : List Bytes} {outcomes : List (Outcome α)} {log : Log}
    (blocks : Blocks (fun c r => p c = some r) label sources outcomes log) :
    ∃ replies, runEach p label sources = some replies ∧ replies.map Reply.outcome = outcomes ∧ logOf replies = log := by
  induction blocks with
  | none => exact ⟨[],rfl,rfl,rfl⟩
  | @next source sources body outcome outcomes event log parsed judged later ih =>
    obtain ⟨replies,done,rfl,rfl⟩ := ih
    cases judgedVerdict.mp judged
    refine ⟨⟨bracketed label source.length body outcome,outcome⟩ :: replies,?_,rfl,rfl⟩
    simp only [runEach,run,parsed,done,Option.map_some,Option.bind_eq_bind,Option.bind_some]

theorem blocksMono {answer known : Cursor → Reply α → Prop} (more : ∀ c r, answer c r → known c r) {sources : List Bytes}
    {outcomes : List (Outcome α)} {log : Log} (blocks : Blocks answer label sources outcomes log) :
    Blocks known label sources outcomes log := by
  induction blocks with
  | none => exact .none
  | next parsed judged later ih => exact .next (more _ _ parsed) judged ih

end Parser

theorem Entry.labelGiven (label : Option String) (length : Nat) (text : String) :
    ("label",text) ∈ bracketFields label length ↔ label = some text := by
  cases label with
  | none => simp [bracketFields]
  | some own => simp [bracketFields,eq_comm]

namespace Expr

variable {ρ : Type}

theorem tracesAreBracketed (rules : Rules ρ) (budget : Nat) (e : Expr ρ) (label : Option String) :
    (∀ sources outcomes log,
      (∃ replies, Parser.runEach (parse rules budget e) label sources = some replies ∧
        replies.map Reply.outcome = outcomes ∧ Parser.logOf replies = log) ↔
      Parser.Blocks (fun c r => parse rules budget e c = some r ∧ Logged rules e c r.log) label sources outcomes log) ∧
    (∀ length text, ("label",text) ∈ Entry.bracketFields label length ↔ label = some text) ∧
    (∀ (outcome : Outcome Value) event, Parser.Judged outcome event →
      event.level = .debug ∧ event.message = if outcome.isSuccess then "parse succeeded" else "parse failed") ∧
    (∀ registers i c, registers[i]? = some c →
      (Session.perform rules budget registers (.parse i e)).map Session.Effect.log =
        (parse rules budget e c).map Reply.log) ∧
    (∀ c r, parse rules budget e c = some r → Logged rules e c r.log) ∧
    ((∀ name, (rules name).Everywhere Landing) → e.Everywhere Landing →
      ∀ c, c.Reachable → ∀ part d, Visits rules e c part d → d.Placed) := by
  refine ⟨?_,Entry.labelGiven label,fun _ _ => Parser.judgedDebug,?_,fun _ _ => parseLogged,?_⟩
  · intro sources outcomes log
    constructor
    · intro done
      obtain ⟨replies,done,rfl,rfl⟩ := done
      exact Parser.blocksMono (fun c r answer => ⟨answer,parseLogged answer⟩) (Parser.runBlocks done)
    · intro blocks
      exact Parser.blocksRun (Parser.blocksMono (fun c r answer => answer.1) blocks)
  · intro registers i c found
    simp only [Session.perform,found,Option.bind_eq_bind,Option.bind_some]
    cases parse rules budget e c <;> rfl
  · intro given allowed c reachable part d visits
    exact Cursor.reachablePlaced (visitsReachable given allowed reachable visits).1

def notes : Rules Unit := fun _ =>
  .choice (.keepRight (.many1 (.range '0' '9')) (.literal ";")) (.bind (Action.jump [0xC3] (some "note") 0) (.literal "x"))

def noted : Expr Unit := .keepLeft (.rule ()) (.optional .anyChar)

def numberLog : Log :=
  [.event (.stopped 2 1 none),.event (.noCodePoint ⟨3,1,4,some "in"⟩ .endOfInput)]

def wordLog : Log :=
  [.event (.stopped 0 1 none),.event (.noCodePoint ⟨0,1,1,some "note"⟩ .incomplete)]

theorem notesBracketed :
    let number := Utf8.bytes "12;"
    let word := Utf8.bytes "x"
    (∃ outcomes, Parser.Blocks (fun c r => parse notes 8 noted c = some r ∧ Logged notes noted c r.log) (some "in")
      [number,word] outcomes
      ([.opened (some "in") 3,.entered] ++ numberLog ++ [.event (.succeeded 3),.left] ++
        [.opened (some "in") 1,.entered] ++ wordLog ++ [.event (.succeeded 0),.left])) ∧
    ∃ part d, Visits notes noted (.start word (some "in")) part d ∧ d.Placed ∧ d.position.display = "note:1:1" ∧
      Utf8.decode d.remaining = .error .incomplete := by
  intro number word
  obtain ⟨blocks,_,_,_,traced,placed⟩ := tracesAreBracketed notes 8 noted (some "in")
  have logged : (Parser.runEach (parse notes 8 noted) (some "in") [number,word]).map Parser.logOf = some
      ([.opened (some "in") 3,.entered] ++ numberLog ++ [.event (.succeeded 3),.left] ++
        [.opened (some "in") 1,.entered] ++ wordLog ++ [.event (.succeeded 0),.left]) := by decide +kernel
  have alone : (parse notes 8 noted (.start word (some "in"))).map Reply.log = some wordLog := by decide +kernel
  obtain ⟨replies,done,log⟩ := Option.map_eq_some_iff.mp logged
  obtain ⟨r,answer,same⟩ := Option.map_eq_some_iff.mp alone
  have member : Entry.event (.noCodePoint ⟨0,1,1,some "note"⟩ .incomplete) ∈ r.log := by
    rw [same]
    exact List.mem_cons_of_mem _ List.mem_cons_self
  obtain ⟨part,d,error,visits,refused,event,_⟩ := (traced _ r answer).refused _ member rfl
  obtain ⟨place,rfl⟩ := Event.noCodePoint.inj event
  have landing : ∀ name, (notes name).Everywhere Landing := by
    simp [notes,Everywhere,Landing,many1]
  have inside := placed landing (by simp [noted,Everywhere,Landing]) _ (Cursor.reachableStart word (some "in")) part d visits
  exact ⟨⟨_,(blocks _ _ _).mp ⟨replies,done,rfl,log⟩⟩,part,d,visits,inside,by rw [← place]; decide +kernel,refused⟩

end Expr

end SliceGrammar
