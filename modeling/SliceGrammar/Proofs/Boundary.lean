import SliceGrammar.Proofs.Calls
import SliceGrammar.Proofs.Forward
import SliceGrammar.Proofs.Textual
/-! Boundaries between characters. A literal is compared byte by byte and knows nothing of characters, yet in
a text it cannot end inside one: what is left of a text after a text is a text. So from a boundary every part
of a parse is entered on a boundary, also in an alternative that is given up and in a look ahead, and the
decoder never meets anything but a character or the end. -/
namespace SliceGrammar

namespace Utf8

def Boundary (bytes : Bytes) (n : Nat) : Prop :=
  ∃ before after, bytes = encode (before ++ after) ∧ n = (encode before).length

theorem encodeCancel {first second : List Char} {rest : Bytes} (same : encode first ++ rest = encode second) :
    ∃ last, second = first ++ last ∧ rest = encode last := by
  induction first generalizing second with
  | nil => exact ⟨second,rfl,same⟩
  | cons ch first ih =>
    cases second with
    | nil =>
      rw [encodeCons,encodeNil,List.append_assoc,List.append_eq_nil_iff] at same
      exact absurd same.1 String.utf8EncodeChar_ne_nil
    | cons other second =>
      -- The same bytes decode once, so both begin with the same character.
      rw [encodeCons,encodeCons,List.append_assoc] at same
      have read := decodeEncoded (encodedChar ch) (encode first ++ rest)
      rw [same,decodeEncoded (encodedChar other)] at read
      cases read
      obtain ⟨last,rfl,ended⟩ := ih (List.append_cancel_left same)
      exact ⟨last,rfl,ended⟩

theorem validCancel {left right : Bytes} (whole : Valid (left ++ right)) (first : Valid left) : Valid right := by
  obtain ⟨chars,rfl⟩ := first
  obtain ⟨all,same⟩ := whole
  obtain ⟨last,_,ended⟩ := encodeCancel same
  exact ⟨last,ended⟩

theorem decodeText {bytes : Bytes} (valid : Valid bytes) {error : DecodeError} (refused : decode bytes = .error error) :
    error = .endOfInput := by
  obtain ⟨chars,rfl⟩ := valid
  cases chars with
  | nil =>
    cases refused
    rfl
  | cons ch chars =>
    rw [encodeCons,decodeEncoded (encodedChar ch)] at refused
    contradiction

end Utf8

namespace Cursor

structure Between (source : Bytes) (c : Cursor) : Prop where
  same : c.source = source
  boundary : Utf8.Boundary source c.offset
  ahead : Utf8.Valid c.remaining

theorem betweenBoundary {c : Cursor} (boundary : Utf8.Boundary c.source c.offset) : Between c.source c := by
  refine ⟨rfl,boundary,?_⟩
  obtain ⟨before,after,text,place⟩ := boundary
  refine ⟨after,?_⟩
  simp [remaining,text,place]

end Cursor

namespace Expr

variable {ρ : Type} {rules : Rules ρ} {e : Expr ρ} {c : Cursor}

/- Bytes are passed by characters and literals only; functions are free to make any value of them. -/
def Aligned : Expr ρ → Prop
  | .advance _ => False
  | .bind f _ => ∀ value tail result rest, f value tail = .success result rest → rest = tail
  | _ => True

theorem passesAhead {tail : Cursor} (text : Utf8.Valid c.remaining) (passed : Passes c tail) :
    Utf8.Valid tail.remaining := by
  rw [Cursor.reachesRemaining passed.1] at text
  exact Utf8.validCancel text passed.2

theorem passesBetween {source : Bytes} {tail : Cursor} (between : c.Between source) (passed : Passes c tail) :
    tail.Between source := by
  have ahead := passesAhead between.ahead passed
  obtain ⟨rfl,⟨before,after,text,place⟩,_⟩ := between
  obtain ⟨⟨k,inside,rfl⟩,valid⟩ := passed
  refine ⟨rfl,?_,ahead⟩
  rw [Cursor.sliceAdvance] at valid
  obtain ⟨through,taken⟩ := valid
  obtain ⟨last,rest⟩ := ahead
  rw [Cursor.advanceRemaining] at rest
  have split : c.source = Utf8.encode before ++ c.remaining := by
    simp [Cursor.remaining,place,text]
  refine ⟨before ++ through,last,?_,?_⟩
  · rw [Utf8.encodeAppend,Utf8.encodeAppend,← taken,← rest,List.append_assoc,List.take_append_drop]
    exact split
  · rw [Cursor.advanceOffset,Utf8.encodeAppend,List.length_append,← place,← taken,List.length_take]
    simp

def Unbroken (log : Log) : Prop :=
  ∀ position error, Entry.event (.noCodePoint position error) ∈ log → error = .endOfInput

theorem unbrokenAppend {left right : Log} (hl : Unbroken left) (hr : Unbroken right) : Unbroken (left ++ right) := by
  intro position error member
  rcases List.mem_append.mp member with h | h
  · exact hl position error h
  · exact hr position error h

theorem directReports {p : Parser Value} {r : Reply Value} (shape : plan rules e = .direct p) (answer : p c = some r)
    {position : Position} {error : Utf8.DecodeError} (member : Entry.event (.noCodePoint position error) ∈ r.log) :
    position = c.position ∧ Utf8.decode c.remaining = .error error := by
  cases e <;> simp only [plan,Plan.direct.injEq,reduceCtorEq] at shape <;> subst shape
  case literal content =>
    rcases Parser.literalAnswer.mp answer with ⟨_,rfl⟩ | ⟨_,rfl⟩ <;> contradiction
  case range low high =>
    rcases Parser.rangeAnswer.mp answer with ⟨ch,_,_,rfl⟩ | ⟨ch,_,_,rfl⟩ | ⟨own,refused,rfl⟩
    · contradiction
    · contradiction
    · cases List.mem_singleton.mp member
      exact ⟨rfl,refused⟩
  case anyChar =>
    rcases Parser.anyCharAnswer.mp answer with ⟨ch,_,rfl⟩ | ⟨own,refused,rfl⟩
    · contradiction
    · cases List.mem_singleton.mp member
      exact ⟨rfl,refused⟩
  case atEnd =>
    rcases Parser.atEndAnswer.mp answer with ⟨_,rfl⟩ | ⟨_,rfl⟩ <;> contradiction
  case advance n =>
    cases Parser.advanceAnswer.mp answer
    contradiction
  case fail reason =>
    cases Parser.failAnswer.mp answer
    contradiction

theorem hitReports {body hit miss value tail} (shape : plan rules e = .within body hit miss) {position : Position}
    {error : Utf8.DecodeError} : Entry.event (.noCodePoint position error) ∉ (hit c value tail).log := by
  cases e <;> simp only [plan,Plan.within.injEq,reduceCtorEq] at shape <;> obtain ⟨rfl,rfl,rfl⟩ := shape
  case text body =>
    unfold readText
    split
    · split <;> simp
    · simp
  all_goals exact List.not_mem_nil

structure Steady (c : Cursor) (r : Reply Value) : Prop where
  unbroken : Unbroken r.log
  passed : ∀ value tail, r.outcome = .success value tail → Passes c tail

theorem directSteady {p : Parser Value} {r : Reply Value} (aligned : Aligned e) (shape : plan rules e = .direct p)
    (answer : p c = some r) (text : Utf8.Valid c.remaining) : Steady c r := by
  have textual : Textual e := by
    cases e <;> simp only [plan,reduceCtorEq] at shape
    case advance n => exact aligned
    all_goals trivial
  refine ⟨?_,(directSpelled textual shape answer).passed⟩
  intro position error member
  exact Utf8.decodeText text (directReports shape answer member).2

theorem hitSteady {body hit miss log value tail} (aligned : Aligned e) (shape : plan rules e = .within body hit miss)
    (inner : Steady c ⟨log,.success value tail⟩) : Steady c ((hit c value tail).after log) := by
  constructor
  · exact unbrokenAppend inner.unbroken (fun position error member => absurd member (hitReports shape))
  · intro result rest matched
    rcases hitTail shape matched with rfl | ⟨_,rfl⟩ | ⟨f,rfl,chosen⟩
    · exact inner.passed value _ rfl
    · exact passesRefl rest
    · cases aligned value tail result rest chosen
      exact inner.passed value _ rfl

theorem linksSteady {max : Option Nat} {made : Parser.Chain} (text : Utf8.Valid c.remaining)
    (links : Parser.Links (fun c r => Utf8.Valid c.remaining → Steady c r) max c made) :
    Unbroken made.log ∧ Passes c made.tail := by
  induction links with
  | full c => exact ⟨by simp [Unbroken],passesRefl c⟩
  | stopped more failed => exact ⟨(failed text).unbroken,passesRefl _⟩
  | linked more matched next ih =>
    have passed := (matched text).passed _ _ rfl
    obtain ⟨later,further⟩ := ih (passesAhead text passed)
    exact ⟨unbrokenAppend (matched text).unbroken later,passesTrans passed further⟩

theorem yieldsSteady (given : ∀ name, (rules name).Everywhere Aligned) (allowed : e.Everywhere Aligned)
    {r : Reply Value} (found : Yields rules e c r) (text : Utf8.Valid c.remaining) : Steady c r := by
  revert text
  refine yieldsInduction (motive := fun _ c r => Utf8.Valid c.remaining → Steady c r) given ?direct ?withinHit
    ?withinMiss ?sequenceStop ?sequenceMiss ?sequenceHit ?eitherFirst ?eitherSecond ?chained allowed found
  case direct => exact fun e p c r aligned shape answer text => directSteady aligned shape answer text
  case withinHit =>
    exact fun e body hit miss c log value tail aligned shape inner text => hitSteady aligned shape (inner text)
  case withinMiss =>
    intro e body hit miss c log reason _ shape inner text
    refine ⟨(inner text).unbroken,?_⟩
    intro value tail matched
    obtain ⟨rfl,_⟩ := missTail shape matched
    exact passesRefl tail
  case sequenceStop => exact fun e first next join c log reason _ _ left text => ⟨(left text).unbroken,by simp⟩
  case sequenceMiss =>
    intro e first next join c log value middle own reason _ _ left right text
    have there := right (passesAhead text ((left text).passed _ _ rfl))
    exact ⟨unbrokenAppend (left text).unbroken there.unbroken,by simp⟩
  case sequenceHit =>
    intro e first next join c log value middle own result tail _ _ left right text
    have passed := (left text).passed _ _ rfl
    have there := right (passesAhead text passed)
    refine ⟨unbrokenAppend (left text).unbroken there.unbroken,?_⟩
    intro joined rest matched
    cases matched
    exact passesTrans passed (there.passed _ _ rfl)
  case eitherFirst => exact fun e first second c log value tail _ _ left => left
  case eitherSecond =>
    intro e first second c log reason r _ _ left right text
    exact ⟨unbrokenAppend (left text).unbroken (right text).unbroken,(right text).passed⟩
  case chained =>
    intro e body min max c made _ _ links text
    obtain ⟨unbroken,passed⟩ := linksSteady text links
    refine ⟨unbrokenAppend unbroken (by simp [Unbroken]),?_⟩
    intro value tail matched
    unfold chainReply at matched
    split at matched
    · contradiction
    · cases matched
      exact passed

theorem boundariesAreKept (given : ∀ name, (rules name).Everywhere Aligned) (allowed : e.Everywhere Aligned)
    (boundary : Utf8.Boundary c.source c.offset) :
    (∀ part d, Visits rules e c part d → d.Between c.source) ∧
    (∀ log value tail, Yields rules e c ⟨log,.success value tail⟩ → tail.Between c.source) ∧
    ∀ part d r, Visits rules e c part d → Yields rules part d r →
      ∀ position error, Entry.event (.noCodePoint position error) ∈ r.log → error = .endOfInput := by
  have kept : ∀ part d log value tail, part.Everywhere Aligned → d.Between c.source →
      Yields rules part d ⟨log,.success value tail⟩ → tail.Between c.source := by
    intro part d log value tail aligned between found
    exact passesBetween between ((yieldsSteady given aligned found between.ahead).passed value tail rfl)
  have start := Cursor.betweenBoundary boundary
  refine ⟨?_,fun log value tail found => kept e c log value tail allowed start found,?_⟩
  · intro part d visits
    exact (visitsKeep given kept allowed start visits).2
  · intro part d r visits found
    obtain ⟨aligned,between⟩ := visitsKeep given kept allowed start visits
    exact (yieldsSteady given aligned found between.ahead).unbroken

def accents : Rules Unit := fun _ =>
  .choice (.concat (.literal "é") (.literal "x")) (.keepRight (.present .anyChar) (.many (.range 'à' 'ÿ')))

theorem accentsAligned (name : Unit) : (accents name).Everywhere Aligned := by
  simp [accents,Everywhere,Aligned,many]

theorem accentsOnBoundaries :
    let c := (Cursor.start (Utf8.bytes "aéü") none).advance 1
    let log := [Entry.event (.noCodePoint ⟨5,1,6,none⟩ .endOfInput),.event (.stopped 2 0 none)]
    Utf8.Boundary c.source c.offset ∧
    Visits accents (.rule ()) c (.literal "x") (c.advance 2) ∧ (c.advance 2).Between c.source ∧
    Yields accents (.rule ()) c ⟨log,.success (.bytes (Utf8.bytes "éü")) (c.advance 4)⟩ ∧
    (c.advance 4).Between c.source ∧
    ∀ position error, Entry.event (.noCodePoint position error) ∈ log → error = .endOfInput := by
  intro c log
  have boundary : Utf8.Boundary c.source c.offset := ⟨['a'],['é','ü'],by decide +kernel,by decide +kernel⟩
  have first : Yields accents (.literal "é") c ⟨[],.success (.bytes (Utf8.bytes "é")) (c.advance 2)⟩ :=
    ⟨1,by decide +kernel⟩
  have shape : plan accents (.concat (.literal "é") (.literal "x")) = .sequence _ (fun _ => .literal "x") _ := rfl
  have visits : Visits accents (.rule ()) c (.literal "x") (c.advance 2) :=
    .deeper (.deeper (.deeper .here (.body rfl)) (.tried rfl)) (.next shape first)
  have found : Yields accents (.rule ()) c ⟨log,.success (.bytes (Utf8.bytes "éü")) (c.advance 4)⟩ :=
    ⟨8,by decide +kernel⟩
  obtain ⟨entered,ended,reported⟩ := boundariesAreKept (e := .rule ()) accentsAligned trivial boundary
  exact ⟨boundary,visits,entered _ _ visits,found,ended _ _ _ found,reported _ _ _ .here found⟩

end Expr

end SliceGrammar
