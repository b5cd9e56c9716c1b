import SliceGrammar.Proofs.Primitive
/-! Slices made of characters are texts. An expression that passes bytes only by characters and literals
never cuts a character in two, wherever it starts and whatever the buffer holds: what it passed and every
slice in its value is the encoding of a text, so reading a slice as text never goes wrong. -/
namespace SliceGrammar

namespace Value

def slices : Value → List Bytes
  | .bytes slice => [slice]
  | .just value => value.slices
  | .pair first second => first.slices ++ second.slices
  | .spanned value span => span.slice :: value.slices
  | _ => []

def contents : Value → List Bytes
  | .bytes slice => [slice]
  | .text content => [Utf8.bytes content]
  | .just value => value.contents
  | .pair first second => first.contents ++ second.contents
  | .spanned value span => span.slice :: value.contents
  | _ => []

def Legible (value : Value) : Prop := ∀ slice ∈ value.slices, Utf8.Valid slice

theorem legibleContents {value : Value} (legible : value.Legible) : ∀ slice ∈ value.contents, Utf8.Valid slice := by
  induction value with
  | bytes slice => exact legible
  | text content =>
    intro slice member
    cases List.mem_singleton.mp member
    exact Utf8.validBytes content
  | just value ih => exact ih legible
  | pair first second left right =>
    intro slice member
    rcases List.mem_append.mp member with inFirst | inSecond
    · exact left (fun s h => legible s (List.mem_append_left _ h)) slice inFirst
    · exact right (fun s h => legible s (List.mem_append_right _ h)) slice inSecond
  | spanned value span ih =>
    intro slice member
    rcases List.mem_cons.mp member with rfl | inside
    · exact legible _ List.mem_cons_self
    · exact ih (fun s h => legible s (List.mem_cons_of_mem _ h)) slice inside
  | unit => simp [contents]
  | char ch => simp [contents]
  | int n => simp [contents]
  | nothing => simp [contents]

theorem legibleNone {value : Value} (none : value.slices = []) : value.Legible := by
  simp [Legible,none]

theorem legibleBytes {slice : Bytes} (valid : Utf8.Valid slice) : (Value.bytes slice).Legible := by
  intro s member
  cases List.mem_singleton.mp member
  exact valid

theorem legiblePair {first second : Value} (left : first.Legible) (right : second.Legible) :
    (Value.pair first second).Legible := by
  intro slice member
  rcases List.mem_append.mp member with inFirst | inSecond
  · exact left slice inFirst
  · exact right slice inSecond

theorem legibleSpanned {value : Value} {span : Span} (inner : value.Legible) (valid : Utf8.Valid span.slice) :
    (Value.spanned value span).Legible := by
  intro slice member
  rcases List.mem_cons.mp member with rfl | inside
  · exact valid
  · exact inner slice inside

end Value

namespace Expr

variable {ρ : Type} {rules : Rules ρ} {e : Expr ρ}

/- Functions may hand on the slices and texts they were given but have none of their own, and a binder
leaves the tail where it is. -/
def Textual : Expr ρ → Prop
  | .advance _ => False
  | .map f _ => ∀ value, ∀ slice ∈ (f value).slices, slice ∈ value.contents
  | .bind f _ => ∀ value tail result rest, f value tail = .success result rest →
      rest = tail ∧ ∀ slice ∈ result.slices, slice ∈ value.contents
  | _ => True

def Silent (log : Log) : Prop := ∀ position fault, Entry.event (.notText position fault) ∉ log

def Passes (c tail : Cursor) : Prop := c.Reaches tail ∧ Utf8.Valid (c.sliceTo tail)

structure Spelled (c : Cursor) (r : Reply Value) : Prop where
  silent : Silent r.log
  passed : ∀ value tail, r.outcome = .success value tail → Passes c tail
  legible : ∀ value tail, r.outcome = .success value tail → value.Legible

theorem silentNil : Silent [] := by simp [Silent]

theorem silentAppend {left right : Log} (hl : Silent left) (hr : Silent right) : Silent (left ++ right) := by
  intro position fault member
  rcases List.mem_append.mp member with h | h
  · exact hl position fault h
  · exact hr position fault h

theorem passesRefl (c : Cursor) : Passes c c := ⟨Cursor.reachesRefl c,by simpa using Utf8.validNil⟩

theorem passesTrans {c middle tail : Cursor} (first : Passes c middle) (second : Passes middle tail) :
    Passes c tail :=
  ⟨Cursor.reachesTrans first.1 second.1,by
    rw [Cursor.sliceAppend first.1 second.1]
    exact Utf8.validAppend first.2 second.2⟩

theorem passesPrefix {c : Cursor} {bytes : Bytes} (found : bytes <+: c.remaining) (valid : Utf8.Valid bytes) :
    Passes c (c.advance bytes.length) := by
  refine ⟨Cursor.reachesAdvance c _,?_⟩
  rw [Cursor.sliceAdvance,← List.prefix_iff_eq_take.mp found]
  exact valid

theorem spelledFailure {c : Cursor} {log : Log} (silent : Silent log) (reason : Option Reason) :
    Spelled c ⟨log,.failure reason⟩ :=
  ⟨silent,fun _ _ h => by contradiction,fun _ _ h => by contradiction⟩

theorem spelledSuccess {c tail : Cursor} {log : Log} {value : Value} (silent : Silent log) (passed : Passes c tail)
    (legible : value.Legible) : Spelled c ⟨log,.success value tail⟩ :=
  ⟨silent,fun _ _ h => by cases h; exact passed,fun _ _ h => by cases h; exact legible⟩

theorem directSpelled {p : Parser Value} {c : Cursor} {r : Reply Value} (textual : Textual e)
    (shape : plan rules e = .direct p) (answer : p c = some r) : Spelled c r := by
  cases e <;> simp only [plan,Plan.direct.injEq,reduceCtorEq] at shape <;> subst shape
  case literal content =>
    rcases Parser.literalAnswer.mp answer with ⟨found,rfl⟩ | ⟨_,rfl⟩
    · have valid := Utf8.validBytes content
      exact spelledSuccess silentNil (passesPrefix found valid) (Value.legibleBytes valid)
    · exact spelledFailure silentNil none
  case range low high =>
    rcases Parser.rangeAnswer.mp answer with ⟨ch,_,found,rfl⟩ | ⟨ch,_,_,rfl⟩ | ⟨error,_,rfl⟩
    · have valid := Utf8.validChar ch
      exact spelledSuccess silentNil (passesPrefix found valid) (Value.legibleBytes valid)
    · exact spelledFailure silentNil none
    · exact spelledFailure (by simp [Silent]) none
  case anyChar =>
    rcases Parser.anyCharAnswer.mp answer with ⟨ch,found,rfl⟩ | ⟨error,_,rfl⟩
    · exact spelledSuccess silentNil (passesPrefix found (Utf8.validChar ch)) (Value.legibleNone rfl)
    · exact spelledFailure (by simp [Silent]) none
  case atEnd =>
    rcases Parser.atEndAnswer.mp answer with ⟨_,rfl⟩ | ⟨_,rfl⟩
    · exact spelledSuccess silentNil (passesRefl c) (Value.legibleNone rfl)
    · exact spelledFailure silentNil none
  case advance n => contradiction
  case fail reason =>
    cases Parser.failAnswer.mp answer
    exact spelledFailure silentNil reason

theorem hitSpelled {body hit miss c log value tail} (textual : Textual e) (shape : plan rules e = .within body hit miss)
    (inner : Spelled c ⟨log,.success value tail⟩) : Spelled c ((hit c value tail).after log) := by
  have silent := inner.silent
  have passed := inner.passed value tail rfl
  have legible := inner.legible value tail rfl
  cases e <;> simp only [plan,Plan.within.injEq,reduceCtorEq] at shape <;> obtain ⟨rfl,rfl,rfl⟩ := shape
  case text body =>
    cases value with
    | bytes slice =>
      -- The check of the slice succeeds, so nothing is reported and the tail is kept.
      obtain ⟨content,read,_⟩ := Utf8.textValid (legible slice (List.mem_singleton_self slice))
      simp only [readText,read,Reply.after,List.append_nil]
      exact spelledSuccess silent passed (Value.legibleNone rfl)
    | _ =>
      simp only [readText,Reply.after,List.append_nil]
      exact spelledFailure silent none
  all_goals rw [quietAfter]
  case recognize body => exact spelledSuccess silent passed (Value.legibleBytes passed.2)
  case optional body => exact spelledSuccess silent passed legible
  case absent body => exact spelledFailure silent none
  case present body => exact spelledSuccess silent (passesRefl c) (Value.legibleNone rfl)
  case spanned body => exact spelledSuccess silent passed (Value.legibleSpanned legible passed.2)
  case held holding body => exact inner
  case rule name => exact inner
  case map f body =>
    exact spelledSuccess silent passed (fun slice own => Value.legibleContents legible slice (textual value slice own))
  case bind f body =>
    cases chosen : f value tail with
    | failure reason => exact spelledFailure silent reason
    | success result rest =>
      obtain ⟨rfl,handed⟩ := textual value tail result rest chosen
      exact spelledSuccess silent passed (fun slice own => Value.legibleContents legible slice (handed slice own))

theorem missSpelled {body hit miss c log reason} (shape : plan rules e = .within body hit miss)
    (inner : Spelled c ⟨log,.failure reason⟩) : Spelled c ⟨log,miss c reason⟩ := by
  cases e <;> simp only [plan,Plan.within.injEq,reduceCtorEq] at shape <;> obtain ⟨rfl,rfl,rfl⟩ := shape
  case optional body => exact spelledSuccess inner.silent (passesRefl c) (Value.legibleNone rfl)
  case absent body => exact spelledSuccess inner.silent (passesRefl c) (Value.legibleNone rfl)
  all_goals exact inner

theorem joinLegible {first next join c value result tail} (shape : plan rules e = .sequence first next join)
    (passed : Passes c tail) (left : value.Legible) (right : result.Legible) : (join c value result tail).Legible := by
  cases e <;> simp only [plan,Plan.sequence.injEq,reduceCtorEq] at shape <;> obtain ⟨rfl,rfl,rfl⟩ := shape
  case concat => exact Value.legibleBytes passed.2
  case pair => exact Value.legiblePair left right
  case keepLeft => exact left
  case keepRight => exact right
  case andThen => exact right

theorem linksSpelled {max : Option Nat} {c : Cursor} {made : Parser.Chain} (links : Parser.Links Spelled max c made) :
    Silent made.log ∧ Passes c made.tail := by
  induction links with
  | full c => exact ⟨silentNil,passesRefl c⟩
  | stopped more failed => exact ⟨failed.silent,passesRefl _⟩
  | linked more matched next ih =>
    exact ⟨silentAppend matched.silent ih.1,passesTrans (matched.passed _ _ rfl) ih.2⟩

theorem yieldsSpelled (given : ∀ name, (rules name).Everywhere Textual) (allowed : e.Everywhere Textual)
    {c : Cursor} {r : Reply Value} (found : Yields rules e c r) : Spelled c r := by
  refine yieldsInduction (motive := fun _ c r => Spelled c r) given ?direct ?withinHit ?withinMiss ?sequenceStop
    ?sequenceMiss ?sequenceHit ?eitherFirst ?eitherSecond ?chained allowed found
  case direct => exact fun e p c r textual shape answer => directSpelled textual shape answer
  case withinHit => exact fun e body hit miss c log value tail textual shape inner => hitSpelled textual shape inner
  case withinMiss => exact fun e body hit miss c log reason _ shape inner => missSpelled shape inner
  case sequenceStop => exact fun e first next join c log reason _ _ left => left
  case sequenceMiss =>
    intro e first next join c log value middle own reason _ _ left right
    exact spelledFailure (silentAppend left.silent right.silent) reason
  case sequenceHit =>
    intro e first next join c log value middle own result tail _ shape left right
    have passed := passesTrans (left.passed _ _ rfl) (right.passed _ _ rfl)
    exact spelledSuccess (silentAppend left.silent right.silent) passed
      (joinLegible shape passed (left.legible _ _ rfl) (right.legible _ _ rfl))
  case eitherFirst => exact fun e first second c log value tail _ _ left => left
  case eitherSecond =>
    intro e first second c log reason r _ _ left right
    exact ⟨silentAppend left.silent right.silent,right.passed,right.legible⟩
  case chained =>
    intro e body min max c made _ _ links
    obtain ⟨silent,passed⟩ := linksSpelled links
    have reported : Silent (made.log ++ [.event (.stopped made.count min max)]) :=
      silentAppend silent (by simp [Silent])
    unfold chainReply
    split
    · exact spelledFailure reported none
    · exact spelledSuccess reported passed (Value.legibleBytes passed.2)

def Slicing (rules : Rules ρ) (e : Expr ρ) : Prop :=
  ∀ c log value tail, Yields rules e c ⟨log,.success value tail⟩ → ∃ slice, value = .bytes slice

theorem slicingRecognize (body : Expr ρ) : Slicing rules (.recognize body) := by
  intro c log value tail found
  rcases yieldsWithinCases rfl found with ⟨own,_,rest,_,same⟩ | ⟨own,reason,_,same⟩
  · rw [quietAfter] at same
    cases same
    exact ⟨c.sliceTo tail,rfl⟩
  · cases same

theorem readTextAfter (c : Cursor) (content : String) (tail : Cursor) (log : Log) :
    (readText c (.bytes (Utf8.bytes content)) tail).after log = ⟨log,.success (.text content) tail⟩ := by
  have read : Utf8.text (Utf8.bytes content) = .ok content := by
    simp [Utf8.bytes]
  simp only [readText,read,Reply.after,List.append_nil]

theorem yieldsText {c : Cursor} {log : Log} {content : String} {tail : Cursor}
    (found : Yields rules e c ⟨log,.success (.bytes (Utf8.bytes content)) tail⟩) :
    Yields rules (.text e) c ⟨log,.success (.text content) tail⟩ := by
  rw [← readTextAfter c content tail log]
  exact yieldsWithinHit rfl found

theorem textCases (given : ∀ name, (rules name).Everywhere Textual) (allowed : e.Everywhere Textual)
    (slicing : Slicing rules e) {c : Cursor} {r : Reply Value} (found : Yields rules (.text e) c r) :
    (∃ log content tail, Yields rules e c ⟨log,.success (.bytes (Utf8.bytes content)) tail⟩ ∧
      r = ⟨log,.success (.text content) tail⟩) ∨
    ∃ log reason, Yields rules e c ⟨log,.failure reason⟩ ∧ r = ⟨log,.failure reason⟩ := by
  rcases yieldsWithinCases rfl found with ⟨log,value,tail,inner,rfl⟩ | ⟨log,reason,inner,rfl⟩
  · obtain ⟨slice,rfl⟩ := slicing c log value tail inner
    have legible := (yieldsSpelled given allowed inner).legible _ _ rfl
    obtain ⟨content,_,rfl⟩ := Utf8.textValid (legible slice (List.mem_singleton_self slice))
    exact .inl ⟨log,content,tail,inner,readTextAfter c content tail log⟩
  · exact .inr ⟨log,reason,inner,rfl⟩

theorem textualSlicesAreTexts (given : ∀ name, (rules name).Everywhere Textual) (allowed : e.Everywhere Textual)
    (c : Cursor) :
    (∀ log value tail, Yields rules e c ⟨log,.success value tail⟩ →
      Utf8.Valid (c.sliceTo tail) ∧ ∀ slice, value = .bytes slice → Utf8.Valid slice) ∧
    (∀ r, Yields rules e c r → ∀ position fault, Entry.event (.notText position fault) ∉ r.log) ∧
    (Slicing rules e →
      (∀ log tail, (∃ content, Yields rules (.text e) c ⟨log,.success (.text content) tail⟩) ↔
        ∃ value, Yields rules e c ⟨log,.success value tail⟩) ∧
      (∀ log content tail, Yields rules (.text e) c ⟨log,.success (.text content) tail⟩ →
        Yields rules e c ⟨log,.success (.bytes (Utf8.bytes content)) tail⟩) ∧
      ∀ log reason, Yields rules (.text e) c ⟨log,.failure reason⟩ ↔ Yields rules e c ⟨log,.failure reason⟩) := by
  refine ⟨?_,?_,?_⟩
  · intro log value tail found
    have spelled := yieldsSpelled given allowed found
    refine ⟨(spelled.passed value tail rfl).2,?_⟩
    intro slice same
    subst same
    exact spelled.legible _ _ rfl slice (List.mem_singleton_self slice)
  · intro r found
    exact (yieldsSpelled given allowed found).silent
  · intro slicing
    have back : ∀ log content tail, Yields rules (.text e) c ⟨log,.success (.text content) tail⟩ →
        Yields rules e c ⟨log,.success (.bytes (Utf8.bytes content)) tail⟩ := by
      intro log content tail found
      rcases textCases given allowed slicing found with ⟨own,text,rest,inner,same⟩ | ⟨own,reason,inner,same⟩
      · cases same
        exact inner
      · cases same
    refine ⟨?_,back,?_⟩
    · intro log tail
      constructor
      · intro found
        obtain ⟨content,found⟩ := found
        exact ⟨_,back log content tail found⟩
      · intro found
        obtain ⟨value,found⟩ := found
        obtain ⟨slice,rfl⟩ := slicing c log value tail found
        have legible := (yieldsSpelled given allowed found).legible _ _ rfl
        obtain ⟨content,_,rfl⟩ := Utf8.textValid (legible slice (List.mem_singleton_self slice))
        exact ⟨content,yieldsText found⟩
    · intro log reason
      constructor
      · intro found
        rcases textCases given allowed slicing found with ⟨own,text,rest,inner,same⟩ | ⟨own,why,inner,same⟩
        · cases same
        · cases same
          exact inner
      · intro found
        have shape : plan rules (.text e) = .within e readText passOn := rfl
        exact yieldsWithinMiss shape found

def letters : Rules Unit := fun _ => .choice (.concat (.range 'a' 'ÿ') (.rule ())) (.literal "")

def lettersThenNone : Expr Unit := .recognize (.pair (.rule ()) (.absent .anyChar))

theorem lettersTextual (name : Unit) : (letters name).Everywhere Textual := by
  simp [letters,Everywhere,Textual]

theorem lettersThenNoneTextual : lettersThenNone.Everywhere Textual := by
  simp [lettersThenNone,Everywhere,Textual]

theorem lettersOfBrokenBuffer :
    let c := (Cursor.start [0xA9,0xC3,0xA9,0x62,0xFF] none).advance 1
    let p := c.position
    let log := [Entry.event (.noCodePoint ⟨4,1,5,p.label⟩ (.invalidStartByte 0xFF)),
      .event (.noCodePoint ⟨4,1,5,p.label⟩ (.invalidStartByte 0xFF))]
    Yields letters lettersThenNone c ⟨log,.success (.bytes [0xC3,0xA9,0x62]) (c.advance 3)⟩ ∧
    Utf8.Valid [0xC3,0xA9,0x62] ∧
    ∃ content, Yields letters (.text lettersThenNone) c ⟨log,.success (.text content) (c.advance 3)⟩ := by
  intro c p log
  have found : Yields letters lettersThenNone c ⟨log,.success (.bytes [0xC3,0xA9,0x62]) (c.advance 3)⟩ :=
    ⟨16,by decide +kernel⟩
  have all := textualSlicesAreTexts lettersTextual lettersThenNoneTextual c
  exact ⟨found,(all.1 _ _ _ found).2 _ rfl,((all.2.2 (slicingRecognize _)).1 _ _).mpr ⟨_,found⟩⟩

end Expr

end SliceGrammar
