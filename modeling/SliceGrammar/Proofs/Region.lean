import SliceGrammar.Action
import SliceGrammar.Proofs.Forward
import SliceGrammar.Proofs.Textual
import SliceGrammar.Proofs.Walk
/-! Where the parts of a value come from. The bytes of a span are cut between two cursors and its positions are
counted byte by byte, so that they agree has to be shown; so has that a parse never hands out anything but
parts of what it passed, in the order it passed them. A value is drawn from a region of the buffer: a pair
divides its region between its two sides, and a span is the region of what it is put around. -/
namespace SliceGrammar

theorem Utf8.textBytes {slice : Bytes} {content : String} (read : text slice = .ok content) : bytes content = slice := by
  obtain ⟨chars,rest,walk⟩ := decodesExists slice
  rcases faultWalk walk with ⟨rfl,_⟩ | ⟨_,f,faulty,_⟩
  · have whole := (decodesSplit walk).1
    rw [List.append_nil] at whole
    rw [whole,textEncode] at read
    cases read
    simp [whole]
  · simp only [text,faulty,reduceCtorEq] at read

structure Cut (source : Bytes) (a b : Nat) (slice : Bytes) : Prop where
  ordered : a ≤ b
  bytes : slice = (source.drop a).take (b - a)
  whole : slice.length = b - a

structure Span.Faithful (source : Bytes) (label : Option String) (span : Span) : Prop where
  cut : Cut source span.start.offset span.stop.offset span.slice
  width : span.length = span.stop.offset - span.start.offset
  counted : span.stop = span.start.steps span.slice
  labels : span.start.label = label ∧ span.stop.label = label

namespace Cursor

variable {c tail : Cursor}

theorem reachesCut (reached : c.Reaches tail) : Cut c.source c.offset tail.offset (c.sliceTo tail) := by
  obtain ⟨k,inside,rfl⟩ := reached
  have moved : (c.advance k).offset - c.offset = k := by
    rw [advanceOffset,Nat.min_eq_left inside]
    omega
  refine ⟨(reachesFrame (reachesAdvance c k)).2.2,?_,?_⟩
  · rw [sliceAdvance,moved]
    rfl
  · simp

theorem reachesFaithful (reached : c.Reaches tail) :
    Span.Faithful c.source c.position.label ⟨c.position,tail.position,c.sliceTo tail⟩ := by
  have cut := reachesCut reached
  obtain ⟨_,label,_⟩ := reachesFrame reached
  refine ⟨cut,cut.whole,?_,rfl,label⟩
  obtain ⟨k,_,rfl⟩ := reached
  rw [sliceAdvance]
  rfl

end Cursor

namespace Value

def spans : Value → List Span
  | .just value => value.spans
  | .pair first second => first.spans ++ second.spans
  | .spanned value span => span :: value.spans
  | _ => []

inductive Occurs (part : Value) : Value → Prop where
  | here : Occurs part part
  | just {value} (inner : Occurs part value) : Occurs part (.just value)
  | first {v w} (left : Occurs part v) : Occurs part (.pair v w)
  | second {v w} (right : Occurs part w) : Occurs part (.pair v w)
  | spanned {value span} (inner : Occurs part value) : Occurs part (.spanned value span)

inductive Drawn (source : Bytes) (label : Option String) : Nat → Nat → Value → Prop where
  | unit (low high) : Drawn source label low high .unit
  | char (low high ch) : Drawn source label low high (.char ch)
  | int (low high n) : Drawn source label low high (.int n)
  | nothing (low high) : Drawn source label low high .nothing
  | bytes {low high a b slice} (lower : low ≤ a) (cut : Cut source a b slice) (upper : b ≤ high) :
      Drawn source label low high (.bytes slice)
  | text {low high a b content} (lower : low ≤ a) (cut : Cut source a b (Utf8.bytes content)) (upper : b ≤ high) :
      Drawn source label low high (.text content)
  | just {low high value} (inner : Drawn source label low high value) : Drawn source label low high (.just value)
  | pair {low middle high v w} (lower : low ≤ middle) (upper : middle ≤ high)
      (first : Drawn source label low middle v) (second : Drawn source label middle high w) :
      Drawn source label low high (.pair v w)
  | spanned {low high value span} (lower : low ≤ span.start.offset) (upper : span.stop.offset ≤ high)
      (faithful : span.Faithful source label)
      (inner : Drawn source label span.start.offset span.stop.offset value) :
      Drawn source label low high (.spanned value span)

section Drawn

variable {source : Bytes} {label : Option String} {low high : Nat} {value : Value}

theorem drawnWiden (drawn : Drawn source label low high value) {low' high' : Nat} (lower : low' ≤ low)
    (upper : high ≤ high') : Drawn source label low' high' value := by
  induction drawn generalizing low' high' with
  | unit => exact .unit low' high'
  | char _ _ ch => exact .char low' high' ch
  | int _ _ n => exact .int low' high' n
  | nothing => exact .nothing low' high'
  | bytes left cut right => exact .bytes (Nat.le_trans lower left) cut (Nat.le_trans right upper)
  | text left cut right => exact .text (Nat.le_trans lower left) cut (Nat.le_trans right upper)
  | just inner ih => exact .just (ih lower upper)
  | pair left right first second ihFirst ihSecond =>
    exact .pair (Nat.le_trans lower left) (Nat.le_trans right upper) (ihFirst lower (Nat.le_refl _))
      (ihSecond (Nat.le_refl _) upper)
  | spanned left right faithful inner _ =>
    exact .spanned (Nat.le_trans lower left) (Nat.le_trans right upper) faithful inner

theorem drawnOccurs (drawn : Drawn source label low high value) {part : Value} (occurs : Occurs part value) :
    ∃ a b, low ≤ a ∧ b ≤ high ∧ Drawn source label a b part := by
  induction occurs generalizing low high with
  | here => exact ⟨low,high,Nat.le_refl _,Nat.le_refl _,drawn⟩
  | just _ ih =>
    cases drawn with
    | just inner => exact ih inner
  | first _ ih =>
    cases drawn with
    | pair lower upper first second =>
      obtain ⟨a,b,left,right,found⟩ := ih first
      exact ⟨a,b,left,Nat.le_trans right upper,found⟩
  | second _ ih =>
    cases drawn with
    | pair lower upper first second =>
      obtain ⟨a,b,left,right,found⟩ := ih second
      exact ⟨a,b,Nat.le_trans lower left,right,found⟩
  | spanned _ ih =>
    cases drawn with
    | spanned lower upper faithful inner =>
      obtain ⟨a,b,left,right,found⟩ := ih inner
      exact ⟨a,b,Nat.le_trans lower left,Nat.le_trans right upper,found⟩

theorem drawnContents (drawn : Drawn source label low high value) {slice : Bytes} (member : slice ∈ value.contents) :
    ∃ a b, low ≤ a ∧ b ≤ high ∧ Cut source a b slice := by
  induction drawn with
  | bytes lower cut upper =>
    cases List.mem_singleton.mp member
    exact ⟨_,_,lower,upper,cut⟩
  | text lower cut upper =>
    cases List.mem_singleton.mp member
    exact ⟨_,_,lower,upper,cut⟩
  | just inner ih => exact ih member
  | pair lower upper first second left right =>
    rcases List.mem_append.mp member with inFirst | inSecond
    · obtain ⟨a,b,below,above,cut⟩ := left inFirst
      exact ⟨a,b,below,Nat.le_trans above upper,cut⟩
    · obtain ⟨a,b,below,above,cut⟩ := right inSecond
      exact ⟨a,b,Nat.le_trans lower below,above,cut⟩
  | spanned lower upper faithful inner ih =>
    rcases List.mem_cons.mp member with rfl | inside
    · exact ⟨_,_,lower,upper,faithful.cut⟩
    · obtain ⟨a,b,below,above,cut⟩ := ih inside
      exact ⟨a,b,Nat.le_trans lower below,Nat.le_trans above upper,cut⟩
  | unit | char | int | nothing => contradiction

theorem drawnSpans (drawn : Drawn source label low high value) {span : Span} (member : span ∈ value.spans) :
    low ≤ span.start.offset ∧ span.stop.offset ≤ high ∧ span.Faithful source label := by
  induction drawn with
  | just inner ih => exact ih member
  | pair lower upper first second left right =>
    rcases List.mem_append.mp member with inFirst | inSecond
    · obtain ⟨below,above,faithful⟩ := left inFirst
      exact ⟨below,Nat.le_trans above upper,faithful⟩
    · obtain ⟨below,above,faithful⟩ := right inSecond
      exact ⟨Nat.le_trans lower below,above,faithful⟩
  | spanned lower upper own inner ih =>
    rcases List.mem_cons.mp member with rfl | inside
    · exact ⟨lower,upper,own⟩
    · obtain ⟨below,above,faithful⟩ := ih inside
      exact ⟨Nat.le_trans lower below,Nat.le_trans above upper,faithful⟩
  | unit | char | int | nothing | bytes | text => contradiction

theorem drawnNested (drawn : Drawn source label low high value) {inner : Value} {span : Span}
    (occurs : Occurs (.spanned inner span) value) {other : Span} (member : other ∈ inner.spans) :
    span.start.offset ≤ other.start.offset ∧ other.stop.offset ≤ span.stop.offset := by
  obtain ⟨_,_,_,_,part⟩ := drawnOccurs drawn occurs
  cases part with
  | spanned _ _ _ drawnInner =>
    obtain ⟨lower,upper,_⟩ := drawnSpans drawnInner member
    exact ⟨lower,upper⟩

theorem drawnApart (drawn : Drawn source label low high value) {left right : Value}
    (occurs : Occurs (.pair left right) value) {span other : Span} (before : span ∈ left.spans)
    (after : other ∈ right.spans) : span.stop.offset ≤ other.start.offset := by
  obtain ⟨_,_,_,_,part⟩ := drawnOccurs drawn occurs
  cases part with
  | pair _ _ first second => exact Nat.le_trans (drawnSpans first before).2.1 (drawnSpans second after).1

end Drawn

inductive Projects (value : Value) : Value → Prop where
  | same : Projects value value
  | number (n) : Projects value (.int n)
  | first {v w} (shape : value = .pair v w) : Projects value v
  | second {v w} (shape : value = .pair v w) : Projects value w

theorem drawnProjects {source : Bytes} {label : Option String} {low high : Nat} {value result : Value}
    (drawn : Drawn source label low high value) (projects : Projects value result) :
    Drawn source label low high result := by
  cases projects with
  | same => exact drawn
  | number n => exact .int low high n
  | first shape =>
    subst shape
    cases drawn with
    | pair lower upper first second => exact drawnWiden first (Nat.le_refl low) upper
  | second shape =>
    subst shape
    cases drawn with
    | pair lower upper first second => exact drawnWiden second lower (Nat.le_refl high)

theorem actionsProject : ∀ f ∈ [Action.length,Action.digit,Action.first,Action.second,Action.sum], ∀ value,
    Projects value (f value) := by
  intro f member value
  simp only [List.mem_cons,List.not_mem_nil,or_false] at member
  rcases member with rfl | rfl | rfl | rfl | rfl
  · unfold Action.length
    split
    · exact .number _
    · exact .same
  · unfold Action.digit
    split
    · exact .number _
    · exact .same
  · unfold Action.first
    split
    · exact .first rfl
    · exact .same
  · unfold Action.second
    split
    · exact .second rfl
    · exact .same
  · exact .number _

end Value

namespace Expr

variable {ρ : Type} {rules : Rules ρ} {e : Expr ρ} {c : Cursor}

def Retains (f : Value → Cursor → Outcome Value) : Prop :=
  ∀ value tail result rest, f value tail = .success result rest →
    (result = value ∨ ∃ n, result = .int n) ∧ ∃ k, rest = tail.advance k

def Drawing : Expr ρ → Prop
  | .map f _ => ∀ value : Value, value.Projects (f value)
  | .bind f _ => Retains f
  | _ => True

theorem actionsRetain (reason : Option Reason) (n : Nat) :
    ∀ f ∈ [Action.integer,Action.accept,Action.reject reason,Action.skip n], Retains f := by
  intro f member value tail result rest chosen
  simp only [List.mem_cons,List.not_mem_nil,or_false] at member
  rcases member with rfl | rfl | rfl | rfl
  · unfold Action.integer at chosen
    split at chosen
    · contradiction
    · split at chosen
      · cases chosen
        exact ⟨.inr ⟨_,rfl⟩,0,(Cursor.advanceZero tail).symm⟩
      · contradiction
  · cases chosen
    exact ⟨.inl rfl,0,(Cursor.advanceZero tail).symm⟩
  · contradiction
  · cases chosen
    exact ⟨.inl rfl,n,rfl⟩

def DrawnFrom (c : Cursor) (value : Value) (tail : Cursor) : Prop :=
  c.Reaches tail ∧ value.Drawn c.source c.position.label c.offset tail.offset

def Traced (c : Cursor) (r : Reply Value) : Prop :=
  ∀ value tail, r.outcome = .success value tail → DrawnFrom c value tail

theorem tracedFailure (c : Cursor) (log : Log) (reason : Option Reason) : Traced c ⟨log,.failure reason⟩ := by
  intro value tail matched
  contradiction

theorem tracedSuccess {log : Log} {value : Value} {tail : Cursor} (drawn : DrawnFrom c value tail) :
    Traced c ⟨log,.success value tail⟩ := by
  intro result rest matched
  cases matched
  exact drawn

theorem drawnSlice {tail : Cursor} (reached : c.Reaches tail) : DrawnFrom c (.bytes (c.sliceTo tail)) tail :=
  ⟨reached,.bytes (Nat.le_refl _) (Cursor.reachesCut reached) (Nat.le_refl _)⟩

theorem drawnPrefix {bytes : Bytes} (found : bytes <+: c.remaining) :
    DrawnFrom c (.bytes bytes) (c.advance bytes.length) := by
  have slice := drawnSlice (Cursor.reachesAdvance c bytes.length)
  rwa [Cursor.sliceAdvance,← List.prefix_iff_eq_take.mp found] at slice

theorem directTraced {p : Parser Value} {r : Reply Value} (shape : plan rules e = .direct p) (answer : p c = some r) :
    Traced c r := by
  cases e <;> simp only [plan,Plan.direct.injEq,reduceCtorEq] at shape <;> subst shape
  case literal content =>
    rcases Parser.literalAnswer.mp answer with ⟨found,rfl⟩ | ⟨_,rfl⟩
    · exact tracedSuccess (drawnPrefix found)
    · exact tracedFailure c _ _
  case range low high =>
    rcases Parser.rangeAnswer.mp answer with ⟨ch,_,found,rfl⟩ | ⟨ch,_,_,rfl⟩ | ⟨error,_,rfl⟩
    · exact tracedSuccess (drawnPrefix found)
    · exact tracedFailure c _ _
    · exact tracedFailure c _ _
  case anyChar =>
    rcases Parser.anyCharAnswer.mp answer with ⟨ch,_,rfl⟩ | ⟨error,_,rfl⟩
    · exact tracedSuccess ⟨Cursor.reachesAdvance c _,.char _ _ ch⟩
    · exact tracedFailure c _ _
  case atEnd =>
    rcases Parser.atEndAnswer.mp answer with ⟨_,rfl⟩ | ⟨_,rfl⟩
    · exact tracedSuccess ⟨Cursor.reachesRefl c,.unit _ _⟩
    · exact tracedFailure c _ _
  case advance n =>
    cases Parser.advanceAnswer.mp answer
    have slice := drawnSlice (Cursor.reachesAdvance c n)
    rw [Cursor.sliceAdvance] at slice
    exact tracedSuccess slice
  case fail reason =>
    cases Parser.failAnswer.mp answer
    exact tracedFailure c _ _

theorem hitTraced {body hit miss log value tail} (drawing : Drawing e) (shape : plan rules e = .within body hit miss)
    (inner : DrawnFrom c value tail) : Traced c ((hit c value tail).after log) := by
  obtain ⟨reached,drawn⟩ := inner
  cases e <;> simp only [plan,Plan.within.injEq,reduceCtorEq] at shape <;> obtain ⟨rfl,rfl,rfl⟩ := shape
  case text body =>
    cases drawn with
    | @bytes _ _ a b slice lower cut upper =>
      cases read : Utf8.text slice with
      | ok content =>
        rw [← Utf8.textBytes read] at cut
        simp only [readText,read]
        exact tracedSuccess ⟨reached,.text lower cut upper⟩
      | error fault =>
        simp only [readText,read]
        exact tracedFailure c _ _
    | _ => exact tracedFailure c _ _
  all_goals rw [quietAfter]
  case recognize body => exact tracedSuccess (drawnSlice reached)
  case optional body => exact tracedSuccess ⟨reached,.just drawn⟩
  case absent body => exact tracedFailure c _ _
  case present body => exact tracedSuccess ⟨Cursor.reachesRefl c,.unit _ _⟩
  case spanned body =>
    have faithful := Cursor.reachesFaithful reached
    exact tracedSuccess ⟨reached,.spanned (Nat.le_refl _) (Nat.le_refl _) faithful drawn⟩
  case held holding body => exact tracedSuccess ⟨reached,drawn⟩
  case rule name => exact tracedSuccess ⟨reached,drawn⟩
  case map f body => exact tracedSuccess ⟨reached,Value.drawnProjects drawn (drawing value)⟩
  case bind f body =>
    intro result rest chosen
    obtain ⟨kept,k,rfl⟩ := drawing value tail result rest chosen
    have onward := Cursor.reachesAdvance tail k
    have wider := Value.drawnWiden drawn (Nat.le_refl _) (Cursor.reachesFrame onward).2.2
    refine ⟨Cursor.reachesTrans reached onward,?_⟩
    rcases kept with rfl | ⟨n,rfl⟩
    · exact wider
    · exact .int _ _ n

theorem joinTraced {first next join value middle result tail} (shape : plan rules e = .sequence first next join)
    (left : DrawnFrom c value middle) (right : DrawnFrom middle result tail) :
    DrawnFrom c (join c value result tail) tail := by
  have reached := Cursor.reachesTrans left.1 right.1
  obtain ⟨source,label,lower⟩ := Cursor.reachesFrame left.1
  have upper := (Cursor.reachesFrame right.1).2.2
  have before := left.2
  have after := right.2
  rw [source,label] at after
  have only := Value.drawnWiden after lower (Nat.le_refl _)
  cases e <;> simp only [plan,Plan.sequence.injEq,reduceCtorEq] at shape <;> obtain ⟨rfl,rfl,rfl⟩ := shape
  case concat first second => exact drawnSlice reached
  case pair first second => exact ⟨reached,.pair lower upper before after⟩
  case keepLeft first second => exact ⟨reached,Value.drawnWiden before (Nat.le_refl _) upper⟩
  case keepRight first second => exact ⟨reached,only⟩
  case andThen next body => exact ⟨reached,only⟩

theorem linksReach {max : Option Nat} {made : Parser.Chain} (links : Parser.Links Traced max c made) :
    c.Reaches made.tail := by
  induction links with
  | full c => exact Cursor.reachesRefl c
  | stopped more failed => exact Cursor.reachesRefl _
  | linked more matched next ih => exact Cursor.reachesTrans (matched _ _ rfl).1 ih

theorem yieldsTraced (given : ∀ name, (rules name).Everywhere Drawing) (allowed : e.Everywhere Drawing)
    {r : Reply Value} (found : Yields rules e c r) : Traced c r := by
  refine yieldsInduction (motive := fun _ c r => Traced c r) given ?direct ?withinHit ?withinMiss ?sequenceStop
    ?sequenceMiss ?sequenceHit ?eitherFirst ?eitherSecond ?chained allowed found
  case direct => exact fun e p c r _ shape answer => directTraced shape answer
  case withinHit =>
    exact fun e body hit miss c log value tail drawing shape inner => hitTraced drawing shape (inner _ _ rfl)
  case withinMiss =>
    intro e body hit miss c log reason _ shape _
    cases e <;> simp only [plan,Plan.within.injEq,reduceCtorEq] at shape <;> obtain ⟨rfl,rfl,rfl⟩ := shape
    case optional body => exact tracedSuccess ⟨Cursor.reachesRefl c,.nothing _ _⟩
    case absent body => exact tracedSuccess ⟨Cursor.reachesRefl c,.unit _ _⟩
    all_goals exact tracedFailure c _ _
  case sequenceStop => exact fun _ _ _ _ c log reason _ _ _ => tracedFailure c log reason
  case sequenceMiss => exact fun _ _ _ _ c log _ _ own reason _ _ _ _ => tracedFailure c (log ++ own) reason
  case sequenceHit =>
    intro e first next join c log value middle own result tail _ shape left right
    exact tracedSuccess (joinTraced shape (left _ _ rfl) (right _ _ rfl))
  case eitherFirst => exact fun e first second c log value tail _ _ left => left
  case eitherSecond => exact fun e first second c log reason r _ _ _ right => right
  case chained =>
    intro e body min max c made _ _ links
    unfold chainReply
    split
    · exact tracedFailure c _ _
    · exact tracedSuccess (drawnSlice (linksReach links))

theorem valuesComeFromInput (given : ∀ name, (rules name).Everywhere Drawing) (allowed : e.Everywhere Drawing)
    {log : Log} {value : Value} {tail : Cursor} (found : Yields rules e c ⟨log,.success value tail⟩) :
    (∀ slice ∈ value.contents, ∃ a b, c.offset ≤ a ∧ b ≤ tail.offset ∧ Cut c.source a b slice) ∧
    (∀ span ∈ value.spans, c.offset ≤ span.start.offset ∧ span.stop.offset ≤ tail.offset ∧
      span.Faithful c.source c.position.label) ∧
    (∀ inner span, Value.Occurs (.spanned inner span) value → ∀ other ∈ inner.spans,
      span.start.offset ≤ other.start.offset ∧ other.stop.offset ≤ span.stop.offset) ∧
    ∀ left right, Value.Occurs (.pair left right) value → ∀ span ∈ left.spans, ∀ other ∈ right.spans,
      span.stop.offset ≤ other.start.offset := by
  have drawn := (yieldsTraced given allowed found value tail rfl).2
  refine ⟨?_,?_,?_,?_⟩
  · exact fun slice member => Value.drawnContents drawn member
  · exact fun span member => Value.drawnSpans drawn member
  · exact fun inner span occurs other member => Value.drawnNested drawn occurs member
  · exact fun left right occurs span before other after => Value.drawnApart drawn occurs before after

def settings : Rules Unit := fun _ =>
  .pair (.spanned (.text (.many1 (.range 'a' 'z'))))
    (.keepRight (.literal "=")
      (.pair (.map Action.length (.many1 (.range '0' '9')))
        (.optional (.keepRight (.literal "\n") (.spanned (.rule ()))))))

theorem settingsDrawing (name : Unit) : (settings name).Everywhere Drawing := by
  have length := Value.actionsProject Action.length (by simp)
  simp [settings,Everywhere,Drawing,many1,length]

theorem settingsComeFromInput :
    let c := (Cursor.start (Utf8.bytes "x:a=1\nbc=22;") (some "s")).advance 2
    let name : Span := ⟨⟨2,1,3,some "s"⟩,⟨3,1,4,some "s"⟩,[97]⟩
    let inner : Span := ⟨⟨6,2,1,some "s"⟩,⟨8,2,3,some "s"⟩,[98,99]⟩
    let outer : Span := ⟨⟨6,2,1,some "s"⟩,⟨11,2,6,some "s"⟩,[98,99,61,50,50]⟩
    let later : Value := .pair (.spanned (.text "bc") inner) (.pair (.int 2) .nothing)
    let value : Value := .pair (.spanned (.text "a") name) (.pair (.int 1) (.just (.spanned later outer)))
    (∃ log, Yields settings (.bind (Action.skip 1) (.rule ())) c ⟨log,.success value (c.advance 10)⟩) ∧
    (∃ a b, 2 ≤ a ∧ b ≤ 12 ∧ Cut c.source a b [98,99]) ∧
    outer.Faithful c.source (some "s") ∧
    (outer.start.offset ≤ inner.start.offset ∧ inner.stop.offset ≤ outer.stop.offset) ∧
    name.stop.offset ≤ inner.start.offset := by
  intro c name inner outer later value
  have found : Yields settings (.bind (Action.skip 1) (.rule ())) c
      ⟨List.replicate 2 (.event (.stopped 1 1 none)) ++ List.replicate 2 (.event (.stopped 2 1 none)),
        .success value (c.advance 10)⟩ := ⟨24,by decide +kernel⟩
  have skipping : (Expr.bind (Action.skip 1) (.rule ())).Everywhere Drawing :=
    ⟨actionsRetain none 1 (Action.skip 1) (by simp),trivial⟩
  obtain ⟨slices,spans,nested,apart⟩ := valuesComeFromInput settingsDrawing skipping found
  refine ⟨⟨_,found⟩,slices [98,99] (by decide +kernel),(spans outer (by decide +kernel)).2.2,?_,?_⟩
  · exact nested later outer (.second (.second (.just .here))) inner (by decide +kernel)
  · exact apart _ _ .here name (by decide +kernel) inner (by decide +kernel)

end Expr

end SliceGrammar
