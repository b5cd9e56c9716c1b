import SliceGrammar.Proofs.Codec
import SliceGrammar.Proofs.Cursor
import SliceGrammar.Proofs.Plan
/-! What the primitives answer, told by the bytes that remain. Each statement covers every reply there is, so
a proof about a primitive starts from its cases here and opens no definition. -/
namespace SliceGrammar.Parser

variable {c : Cursor} {r : Reply Value}

theorem literalAnswer {content : String} :
    (literal content).map Value.bytes c = some r ↔
      Utf8.bytes content <+: c.remaining ∧
        r = ⟨[],.success (.bytes (Utf8.bytes content)) (c.advance (Utf8.bytes content).length)⟩ ∨
      ¬ Utf8.bytes content <+: c.remaining ∧ r = ⟨[],.failure none⟩ := by
  have same : c.peek (some (Utf8.bytes content).length) = Utf8.bytes content ↔ Utf8.bytes content <+: c.remaining := by
    rw [List.prefix_iff_eq_take,eq_comm]
    rfl
  rw [mapAnswer,literal]
  by_cases found : Utf8.bytes content <+: c.remaining
  · simp [same.mpr found,found,succeed,done,Reply.map,eq_comm]
  · simp [mt same.mp found,found,refuse,done,Reply.map,eq_comm]

theorem decodeCases (bytes : Bytes) :
    (∃ ch, String.utf8EncodeChar ch <+: bytes ∧ Utf8.decode bytes = .ok (ch,(String.utf8EncodeChar ch).length)) ∨
    ∃ error, Utf8.decode bytes = .error error := by
  cases read : Utf8.decode bytes with
  | error error => exact .inr ⟨error,rfl⟩
  | ok pair =>
    obtain ⟨ch,n⟩ := pair
    obtain ⟨found,rfl⟩ := Utf8.decodeExact.mp read
    exact .inl ⟨ch,found,rfl⟩

theorem anyCharOk {ch : Char} (found : String.utf8EncodeChar ch <+: c.remaining) :
    anyChar c = some ⟨[],.success ch (c.advance (String.utf8EncodeChar ch).length)⟩ := by
  have read := Utf8.decodeExact.mpr ⟨found,rfl⟩
  rw [← Utf8.decodeWindow] at read
  simp only [anyChar,Cursor.peek,read,succeed,done]

theorem anyCharError {error : Utf8.DecodeError} (refused : Utf8.decode c.remaining = .error error) :
    anyChar c = some ⟨[.event (.noCodePoint c.position error)],.failure none⟩ := by
  rw [← Utf8.decodeWindow] at refused
  simp only [anyChar,Cursor.peek,refused]

theorem anyCharAnswer :
    anyChar.map Value.char c = some r ↔
      (∃ ch, String.utf8EncodeChar ch <+: c.remaining ∧
        r = ⟨[],.success (.char ch) (c.advance (String.utf8EncodeChar ch).length)⟩) ∨
      ∃ error, Utf8.decode c.remaining = .error error ∧
        r = ⟨[.event (.noCodePoint c.position error)],.failure none⟩ := by
  rw [mapAnswer]
  constructor
  · intro answer
    rcases decodeCases c.remaining with ⟨ch,found,_⟩ | ⟨error,refused⟩
    · rw [anyCharOk found] at answer
      exact .inl ⟨ch,found,(Option.some.inj answer).symm⟩
    · rw [anyCharError refused] at answer
      exact .inr ⟨error,refused,(Option.some.inj answer).symm⟩
  · intro answer
    rcases answer with ⟨ch,found,rfl⟩ | ⟨error,refused,rfl⟩
    · rw [anyCharOk found]; rfl
    · rw [anyCharError refused]; rfl

theorem rangeAnswer {low high : Char} :
    (range low high).map Value.bytes c = some r ↔
      (∃ ch, (low ≤ ch ∧ ch ≤ high) ∧ String.utf8EncodeChar ch <+: c.remaining ∧
        r = ⟨[],.success (.bytes (String.utf8EncodeChar ch)) (c.advance (String.utf8EncodeChar ch).length)⟩) ∨
      (∃ ch, ¬ (low ≤ ch ∧ ch ≤ high) ∧ String.utf8EncodeChar ch <+: c.remaining ∧ r = ⟨[],.failure none⟩) ∨
      ∃ error, Utf8.decode c.remaining = .error error ∧
        r = ⟨[.event (.noCodePoint c.position error)],.failure none⟩ := by
  have inside {ch : Char} (found : String.utf8EncodeChar ch <+: c.remaining) (wanted : low ≤ ch ∧ ch ≤ high) :
      range low high c =
        some ⟨[],.success (String.utf8EncodeChar ch) (c.advance (String.utf8EncodeChar ch).length)⟩ := by
    have slice := (Cursor.sliceAdvance c _).trans (List.prefix_iff_eq_take.mp found).symm
    rw [range,followHit _ _ (anyCharOk found),if_pos wanted,slice]
    rfl
  have outside {ch : Char} (found : String.utf8EncodeChar ch <+: c.remaining) (other : ¬ (low ≤ ch ∧ ch ≤ high)) :
      range low high c = some ⟨[],.failure none⟩ := by
    rw [range,followHit _ _ (anyCharOk found),if_neg other]
    rfl
  have nothing {error} (refused : Utf8.decode c.remaining = .error error) :
      range low high c = some ⟨[.event (.noCodePoint c.position error)],.failure none⟩ := by
    rw [range,followMiss _ _ (anyCharError refused)]
    rfl
  rw [mapAnswer]
  constructor
  · intro answer
    rcases decodeCases c.remaining with ⟨ch,found,_⟩ | ⟨error,refused⟩
    · by_cases wanted : low ≤ ch ∧ ch ≤ high
      · rw [inside found wanted] at answer
        exact .inl ⟨ch,wanted,found,(Option.some.inj answer).symm⟩
      · rw [outside found wanted] at answer
        exact .inr (.inl ⟨ch,wanted,found,(Option.some.inj answer).symm⟩)
    · rw [nothing refused] at answer
      exact .inr (.inr ⟨error,refused,(Option.some.inj answer).symm⟩)
  · intro answer
    rcases answer with ⟨ch,wanted,found,rfl⟩ | ⟨ch,other,found,rfl⟩ | ⟨error,refused,rfl⟩
    · rw [inside found wanted]; rfl
    · rw [outside found other]; rfl
    · rw [nothing refused]; rfl

theorem atEndAnswer :
    atEnd.map (fun _ => Value.unit) c = some r ↔
      c.remaining = [] ∧ r = ⟨[],.success .unit c⟩ ∨ c.remaining ≠ [] ∧ r = ⟨[],.failure none⟩ := by
  have empty : c.isEmpty = true ↔ c.remaining = [] := by
    rw [Cursor.isEmpty,beq_iff_eq,← Cursor.lengthRemaining,List.length_eq_zero_iff]
  rw [mapAnswer,atEnd]
  by_cases ended : c.remaining = []
  · rw [if_pos (empty.mpr ended)]
    simp [succeed,done,Reply.map,ended,eq_comm]
  · rw [if_neg (fun h => ended (empty.mp h))]
    simp [refuse,done,Reply.map,ended,eq_comm]

theorem advanceAnswer {n : Nat} :
    (advance n).map Value.bytes c = some r ↔ r = ⟨[],.success (.bytes (c.remaining.take n)) (c.advance n)⟩ := by
  simp [advance,succeed,done,Reply.map,eq_comm]

theorem failAnswer {reason : Option Reason} : fail reason c = some r ↔ r = ⟨[],.failure reason⟩ := by
  simp only [fail,refuse,done,Option.some.injEq,eq_comm]

end SliceGrammar.Parser
