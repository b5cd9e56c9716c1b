import SliceGrammar.Proofs.Outcome
import SliceGrammar.Proofs.Primitive
/-! Ways to write a fixed text. A literal compares bytes, a character is decoded from a window and then compared,
and a concatenation takes one part after the other; what they all come to is settled by whether the bytes of the
text lie ahead. So a text may be written as one literal, as several or as its characters, however they are put
together, and neither malformed nor missing bytes make a difference. Only the reports differ: a literal makes none. -/
namespace SliceGrammar

theorem Utf8.bytesSingleton (ch : Char) : bytes (String.singleton ch) = String.utf8EncodeChar ch := by
  simp [bytes,encode]

namespace Expr

variable {ρ : Type} {rules : Rules ρ} {e e' : Expr ρ} {c : Cursor}

def exactly (bytes : Bytes) (c : Cursor) : Outcome Value :=
  if bytes <+: c.remaining then .success (.bytes bytes) (c.advance bytes.length) else .failure none

def Spells (rules : Rules ρ) (e : Expr ρ) (bytes : Bytes) : Prop := ∀ c, Gives rules e c (exactly bytes c)

theorem exactlyAhead {bytes : Bytes} (ahead : bytes <+: c.remaining) :
    exactly bytes c = .success (.bytes bytes) (c.advance bytes.length) := if_pos ahead

theorem exactlyElsewhere {bytes : Bytes} (elsewhere : ¬ bytes <+: c.remaining) : exactly bytes c = .failure none :=
  if_neg elsewhere

theorem prefixInTurn {left right bytes : Bytes} :
    left ++ right <+: bytes ↔ left <+: bytes ∧ right <+: bytes.drop left.length := by
  constructor
  · intro whole
    obtain ⟨rest,rfl⟩ := whole
    rw [List.append_assoc,List.drop_left]
    exact ⟨List.prefix_append _ _,List.prefix_append _ _⟩
  · intro parts
    obtain ⟨⟨rest,rfl⟩,later⟩ := parts
    rw [List.drop_left] at later
    exact (List.prefix_append_right_inj left).mpr later

theorem literalSpells (rules : Rules ρ) (content : String) : Spells rules (.literal content) (Utf8.bytes content) := by
  intro c
  by_cases ahead : Utf8.bytes content <+: c.remaining
  · rw [exactlyAhead ahead]
    exact ⟨_,yieldsDirect rfl (Parser.literalAnswer.mpr (.inl ⟨ahead,rfl⟩))⟩
  · rw [exactlyElsewhere ahead]
    exact ⟨_,yieldsDirect rfl (Parser.literalAnswer.mpr (.inr ⟨ahead,rfl⟩))⟩

theorem rangeGives {low high ch : Char} (inside : low ≤ ch ∧ ch ≤ high) (ahead : String.utf8EncodeChar ch <+: c.remaining) :
    Gives rules (.range low high) c (exactly (String.utf8EncodeChar ch) c) := by
  rw [exactlyAhead ahead]
  exact ⟨_,yieldsDirect rfl (Parser.rangeAnswer.mpr (.inl ⟨ch,inside,ahead,rfl⟩))⟩

theorem rangeRefuses {low high : Char} (other : ∀ ch, low ≤ ch ∧ ch ≤ high → ¬ String.utf8EncodeChar ch <+: c.remaining) :
    Gives rules (.range low high) c (.failure none) := by
  rcases Parser.decodeCases c.remaining with ⟨ch,found,_⟩ | ⟨error,refused⟩
  · have outside := fun inside => other ch inside found
    exact ⟨_,yieldsDirect rfl (Parser.rangeAnswer.mpr (.inr (.inl ⟨ch,outside,found,rfl⟩)))⟩
  · exact ⟨_,yieldsDirect rfl (Parser.rangeAnswer.mpr (.inr (.inr ⟨error,refused,rfl⟩)))⟩

theorem codePointSpells (ch : Char) : Spells rules (.codePoint ch) (String.utf8EncodeChar ch) := by
  intro c
  by_cases ahead : String.utf8EncodeChar ch <+: c.remaining
  · exact rangeGives ⟨Nat.le_refl _,Nat.le_refl _⟩ ahead
  · rw [exactlyElsewhere ahead]
    refine rangeRefuses (fun other inside found => ahead ?_)
    rwa [Char.le_antisymm inside.1 inside.2]

theorem spelledPassed {bytes rest : Bytes} (spells : Spells rules e bytes) (ahead : c.remaining = bytes ++ rest) :
    Gives rules e c (.success (.bytes bytes) (c.advance bytes.length)) := by
  have first : bytes <+: c.remaining := by rw [ahead]; exact List.prefix_append _ _
  exact exactlyAhead first ▸ spells c

theorem spelledRefused {b : UInt8} (spells : Spells rules e [b]) (other : c.remaining.head? ≠ some b) :
    Gives rules e c (.failure none) := by
  have elsewhere : ¬ [b] <+: c.remaining := by
    intro ahead
    obtain ⟨more,found⟩ := ahead
    exact other (by rw [← found]; rfl)
  exact exactlyElsewhere elsewhere ▸ spells c

theorem asciiSpells {ch : Char} {b : UInt8} (form : String.utf8EncodeChar ch = [b]) : Spells rules (.codePoint ch) [b] :=
  form ▸ codePointSpells ch

theorem concatSpells {first second : Expr ρ} {left right : Bytes} (one : Spells rules first left)
    (two : Spells rules second right) : Spells rules (.concat first second) (left ++ right) := by
  intro c
  have start := one c
  rw [givesPlan]
  by_cases ahead : left <+: c.remaining
  -- The second part is looked for only where the first has been passed.
  · have later := two (c.advance left.length)
    rw [exactlyAhead ahead] at start
    by_cases further : right <+: (c.advance left.length).remaining
    · rw [exactlyAhead further,Cursor.advanceAdvance] at later
      rw [Cursor.advanceRemaining] at further
      have whole := prefixInTurn.mpr ⟨ahead,further⟩
      have slice : c.sliceTo (c.advance (left.length + right.length)) = left ++ right := by
        rw [Cursor.sliceAdvance,← List.length_append,← List.prefix_iff_eq_take.mp whole]
      rw [exactlyAhead whole,List.length_append,← slice]
      exact .inl ⟨_,_,start,.inl ⟨_,_,later,rfl⟩⟩
    · rw [exactlyElsewhere further] at later
      rw [Cursor.advanceRemaining] at further
      rw [exactlyElsewhere (fun whole => further (prefixInTurn.mp whole).2)]
      exact .inl ⟨_,_,start,.inr ⟨_,later,rfl⟩⟩
  · rw [exactlyElsewhere ahead] at start
    rw [exactlyElsewhere (fun whole => ahead (prefixInTurn.mp whole).1)]
    exact .inr ⟨_,start,rfl⟩

inductive Nesting where
  | one (ch : Char)
  | both (first second : Nesting)
  deriving DecidableEq, Repr

namespace Nesting

def chars : Nesting → List Char
  | .one ch => [ch]
  | .both first second => first.chars ++ second.chars

def expr : Nesting → Expr ρ
  | .one ch => .codePoint ch
  | .both first second => .concat first.expr second.expr

end Nesting

theorem nestingSpells (rules : Rules ρ) (t : Nesting) : Spells rules t.expr (Utf8.encode t.chars) := by
  induction t with
  | one ch => simpa [Nesting.chars,Nesting.expr] using codePointSpells ch
  | both first second left right =>
    rw [Nesting.chars,Utf8.encodeAppend]
    exact concatSpells left right

theorem nestingExists {chars : List Char} (some : chars ≠ []) : ∃ t : Nesting, t.chars = chars := by
  induction chars with
  | nil => contradiction
  | cons ch chars ih =>
    cases chars with
    | nil => exact ⟨.one ch,rfl⟩
    | cons next chars =>
      obtain ⟨t,same⟩ := ih (List.cons_ne_nil next chars)
      exact ⟨.both (.one ch) t,by rw [Nesting.chars,same]; rfl⟩

def SameOutcome (rules : Rules ρ) (e e' : Expr ρ) (c : Cursor) : Prop := ∃ o, Gives rules e c o ∧ Gives rules e' c o

theorem spellsSame {bytes : Bytes} (one : Spells rules e bytes) (two : Spells rules e' bytes) (c : Cursor) :
    SameOutcome rules e e' c := ⟨_,one c,two c⟩

theorem rangeSucceeds {low high : Char} :
    (∃ value tail, Gives rules (.range low high) c (.success value tail)) ↔
      ∃ ch, (low ≤ ch ∧ ch ≤ high) ∧ String.utf8EncodeChar ch <+: c.remaining := by
  constructor
  · intro success
    obtain ⟨value,tail,found⟩ := success
    refine Classical.byContradiction fun absent => ?_
    have refused : Gives rules (.range low high) c (.failure none) :=
      rangeRefuses fun ch inside ahead => absent ⟨ch,inside,ahead⟩
    cases givesUnique found refused
  · intro wanted
    obtain ⟨ch,inside,ahead⟩ := wanted
    exact ⟨_,_,exactlyAhead ahead ▸ rangeGives inside ahead⟩

theorem spellingsAgree (rules : Rules ρ) (c : Cursor) :
    (∀ ch, SameOutcome rules (.codePoint ch) (.literal (String.singleton ch)) c) ∧
    (∀ content, content ≠ "" → (∃ t : Nesting, t.chars = content.toList) ∧
      ∀ t : Nesting, t.chars = content.toList → SameOutcome rules (.literal content) t.expr c) ∧
    (∀ first second, SameOutcome rules (.literal (first ++ second)) (.concat (.literal first) (.literal second)) c) ∧
    ∀ low high,
      ((∃ value tail, Gives rules (.range low high) c (.success value tail)) ↔
        ∃ ch, (low ≤ ch ∧ ch ≤ high) ∧ String.utf8EncodeChar ch <+: c.remaining) ∧
      ∀ ch, low ≤ ch ∧ ch ≤ high → String.utf8EncodeChar ch <+: c.remaining →
        SameOutcome rules (.range low high) (.literal (String.singleton ch)) c := by
  have single (ch : Char) : Spells rules (.literal (String.singleton ch)) (String.utf8EncodeChar ch) :=
    Utf8.bytesSingleton ch ▸ literalSpells rules _
  refine ⟨fun ch => spellsSame (codePointSpells ch) (single ch) c,?_,?_,fun low high => ⟨rangeSucceeds,?_⟩⟩
  · intro content some
    refine ⟨nestingExists (fun none => some (String.toList_eq_nil_iff.mp none)),fun t same => ?_⟩
    have spells := nestingSpells rules t
    rw [same] at spells
    exact spellsSame (literalSpells rules content) spells c
  · intro first second
    have joined := literalSpells rules (first ++ second)
    rw [Utf8.bytesAppend] at joined
    exact spellsSame joined (concatSpells (literalSpells rules first) (literalSpells rules second)) c
  · intro ch inside ahead
    exact ⟨_,rangeGives inside ahead,single ch c⟩

def euroNesting : Nesting := .both (.both (.one 'a') (.one 'é')) (.one '€')

theorem euroBrokenOff :
    let rules : Rules Empty := fun name => nomatch name
    let whole := Cursor.start (Utf8.bytes "aé€") none
    let broken := Cursor.start [0x61,0xC3,0xA9,0xE2,0x82] none
    "aé€" ≠ "" ∧ euroNesting.chars = "aé€".toList ∧ SameOutcome rules (.literal "aé€") euroNesting.expr whole ∧
    SameOutcome rules (.literal "aé€") euroNesting.expr broken ∧
    Gives rules euroNesting.expr broken (.failure none) ∧
    ('à' ≤ 'é' ∧ 'é' ≤ 'ÿ') ∧ String.utf8EncodeChar 'é' <+: (broken.advance 1).remaining ∧
    SameOutcome rules (.range 'à' 'ÿ') (.literal (String.singleton 'é')) (broken.advance 1) := by
  intro rules whole broken
  have same : euroNesting.chars = "aé€".toList := by decide +kernel
  have ahead : String.utf8EncodeChar 'é' <+: (broken.advance 1).remaining := by decide +kernel
  refine ⟨by decide,same,?_,?_,givesParse 4 (by decide +kernel),by decide,ahead,?_⟩
  · exact ((spellingsAgree rules whole).2.1 "aé€" (by decide)).2 euroNesting same
  · exact ((spellingsAgree rules broken).2.1 "aé€" (by decide)).2 euroNesting same
  · exact ((spellingsAgree rules (broken.advance 1)).2.2.2 'à' 'ÿ').2 'é' (by decide) ahead

end Expr

end SliceGrammar
