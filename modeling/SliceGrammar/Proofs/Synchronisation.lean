import SliceGrammar.Proofs.Boundary
import SliceGrammar.Proofs.Delimiter
import SliceGrammar.Proofs.Malformation
/-! Decoding from the wrong place is noticed at once. The bytes inside a character are the ones that begin nothing,
so a decoder that starts inside a character stops at its first byte and never reads a character across
another. In a text each offset is the end, the beginning of a character or the inside of one, and the answer
there tells which. -/
namespace SliceGrammar.Utf8

theorem continuationStray {b : UInt8} (follows : isContinuation b = true) : Stray b := by
  have range := (continuationRange b).mp follows
  exact .inl ⟨range.1,Nat.le_of_lt_succ range.2⟩

section Inside

variable {bytes : Bytes} {i j n : Nat} {ch : Char}

theorem insideRefused (read : decode (bytes.drop i) = .ok (ch,n)) (later : i < j) (within : j < i + n) :
    ∃ b, bytes[j]? = some b ∧ decode (bytes.drop j) = .error (.invalidStartByte b) := by
  obtain ⟨⟨rest,split⟩,rfl⟩ := decodeExact.mp read
  obtain ⟨k,rfl⟩ := Nat.exists_eq_add_of_lt later
  have inside : k + 1 < (String.utf8EncodeChar ch).length := by omega
  obtain ⟨b,left,there,follows⟩ := insideFollows rest (Nat.zero_lt_succ k) inside
  have found : bytes.drop (i + k + 1) = b :: left := by
    rw [Nat.add_assoc,← List.drop_drop,← split,there]
  refine ⟨b,?_,?_⟩
  · rw [← List.head?_drop,found,List.head?_cons]
  · rw [found,decodeStray (continuationStray follows)]

theorem charactersApart (read : decode (bytes.drop i) = .ok (ch,n)) {other : Char} {m : Nat}
    (again : decode (bytes.drop j) = .ok (other,m)) (later : i < j) : i + n ≤ j := by
  by_cases within : j < i + n
  · obtain ⟨b,_,refused⟩ := insideRefused read later within
    rw [refused] at again
    contradiction
  · exact Nat.le_of_not_lt within

end Inside

theorem boundaryOrInside (chars : List Char) {j : Nat} (inside : j ≤ (encode chars).length) :
    Boundary (encode chars) j ∨
      ∃ i ch n, decode ((encode chars).drop i) = .ok (ch,n) ∧ i < j ∧ j < i + n := by
  induction chars generalizing j with
  | nil =>
    have start : j = 0 := Nat.le_zero.mp inside
    exact .inl ⟨[],[],rfl,start⟩
  | cons first chars ih =>
    rw [encodeCons]
    by_cases past : (String.utf8EncodeChar first).length ≤ j
    · -- Past the first character: the offset is counted from where the others begin.
      obtain ⟨k,rfl⟩ := Nat.exists_eq_add_of_le past
      rw [encodeCons,List.length_append] at inside
      rcases ih (Nat.le_of_add_le_add_left inside) with ⟨before,after,text,place⟩ | ⟨i,ch,n,read,later,within⟩
      · refine .inl ⟨first :: before,after,?_,?_⟩
        · simp [text]
        · simp [place]
      · refine .inr ⟨(String.utf8EncodeChar first).length + i,ch,n,?_,by omega,by omega⟩
        rw [← List.drop_drop,List.drop_left,read]
    · rcases Nat.eq_zero_or_pos j with rfl | later
      · exact .inl ⟨[],first :: chars,(encodeCons first chars).symm,rfl⟩
      · exact .inr ⟨0,first,_,decodeEncoded (encodedChar first) _,later,by omega⟩

theorem boundaryReads {bytes : Bytes} {j : Nat} (boundary : Boundary bytes j) (more : j < bytes.length) :
    ∃ ch n, decode (bytes.drop j) = .ok (ch,n) := by
  obtain ⟨before,after,rfl,rfl⟩ := boundary
  rw [encodeAppend,List.drop_left]
  cases after with
  | nil =>
    rw [List.append_nil] at more
    exact absurd more (Nat.lt_irrefl _)
  | cons ch after =>
    simpa using ⟨ch,_,decodeEncoded (encodedChar ch) _⟩

theorem offsetAnswers {bytes : Bytes} (valid : Valid bytes) {j : Nat} (inside : j ≤ bytes.length) :
    j = bytes.length ∧ decode (bytes.drop j) = .error .endOfInput ∨
    (j < bytes.length ∧ Boundary bytes j) ∧ (∃ ch n, decode (bytes.drop j) = .ok (ch,n)) ∨
    ∃ b, bytes[j]? = some b ∧ decode (bytes.drop j) = .error (.invalidStartByte b) := by
  obtain ⟨chars,rfl⟩ := valid
  rcases Nat.eq_or_lt_of_le inside with rfl | more
  · refine .inl ⟨rfl,?_⟩
    rw [List.drop_length]
    rfl
  · rcases boundaryOrInside chars inside with boundary | ⟨i,ch,n,read,later,within⟩
    · exact .inr (.inl ⟨⟨more,boundary⟩,boundaryReads boundary more⟩)
    · exact .inr (.inr (insideRefused read later within))

theorem boundaryExact {bytes : Bytes} (valid : Valid bytes) {j : Nat} (inside : j ≤ bytes.length) :
    (∃ ch n, decode (bytes.drop j) = .ok (ch,n)) ↔ j < bytes.length ∧ Boundary bytes j := by
  constructor
  · intro found
    obtain ⟨ch,n,read⟩ := found
    rcases offsetAnswers valid inside with ⟨_,refused⟩ | ⟨here,_⟩ | ⟨b,_,refused⟩
    · rw [refused] at read
      contradiction
    · exact here
    · rw [refused] at read
      contradiction
  · intro here
    exact boundaryReads here.2 here.1

theorem endExact {bytes : Bytes} {j : Nat} (inside : j ≤ bytes.length) :
    decode (bytes.drop j) = .error .endOfInput ↔ j = bytes.length := by
  rw [emptyExact,List.drop_eq_nil_iff]
  exact ⟨fun ended => Nat.le_antisymm inside ended,fun same => Nat.le_of_eq same.symm⟩

theorem insideExact {bytes : Bytes} (valid : Valid bytes) {j : Nat} (inside : j ≤ bytes.length) :
    (∃ b, bytes[j]? = some b ∧ decode (bytes.drop j) = .error (.invalidStartByte b)) ↔
      j < bytes.length ∧ ¬ Boundary bytes j := by
  constructor
  · intro found
    obtain ⟨b,here,refused⟩ := found
    obtain ⟨more,_⟩ := List.getElem?_eq_some_iff.mp here
    refine ⟨more,fun boundary => ?_⟩
    obtain ⟨ch,n,read⟩ := boundaryReads boundary more
    rw [refused] at read
    contradiction
  · intro other
    rcases offsetAnswers valid inside with ⟨ended,_⟩ | ⟨here,_⟩ | found
    · exact absurd ended (Nat.ne_of_lt other.1)
    · exact absurd here.2 other.2
    · exact found

theorem decodingSynchronises (bytes : Bytes) :
    (∀ i j ch n, decode (bytes.drop i) = .ok (ch,n) → i < j → j < i + n →
      ∃ b, bytes[j]? = some b ∧ decode (bytes.drop j) = .error (.invalidStartByte b)) ∧
    (∀ i j first second m n, decode (bytes.drop i) = .ok (first,m) → decode (bytes.drop j) = .ok (second,n) → i < j →
      i + m ≤ j) ∧
    (Valid bytes → ∀ j, j ≤ bytes.length →
      ((∃ ch n, decode (bytes.drop j) = .ok (ch,n)) ↔ j < bytes.length ∧ Boundary bytes j) ∧
      (decode (bytes.drop j) = .error .endOfInput ↔ j = bytes.length) ∧
      ((∃ b, bytes[j]? = some b ∧ decode (bytes.drop j) = .error (.invalidStartByte b)) ↔
        j < bytes.length ∧ ¬ Boundary bytes j)) := by
  refine ⟨fun _ _ _ _ => insideRefused,fun _ _ _ _ _ _ read again => charactersApart read again,?_⟩
  intro valid j inside
  exact ⟨boundaryExact valid inside,endExact inside,insideExact valid inside⟩

theorem euroFromInside :
    let text := encode ['é','€']
    let broken : Bytes := [0xFF,0xE2,0x82,0xAC,0xC3]
    decode (broken.drop 1) = .ok ('€',3) ∧ decode (broken.drop 2) = .error (.invalidStartByte 0x82) ∧
    Valid text ∧ ¬ Boundary text 3 ∧ Boundary text 2 := by
  intro text broken
  have euro : decode (broken.drop 1) = .ok ('€',3) := rfl
  have valid : Valid text := ⟨['é','€'],rfl⟩
  obtain ⟨inside,_,_⟩ := decodingSynchronises broken
  obtain ⟨_,_,offsets⟩ := decodingSynchronises text
  obtain ⟨b,here,refused⟩ := inside 1 2 '€' 3 euro (by decide) (by decide)
  cases Option.some.inj here
  obtain ⟨_,_,middle⟩ := offsets valid 3 (by decide +kernel)
  obtain ⟨whole,_,_⟩ := offsets valid 2 (by decide +kernel)
  have stray : decode (text.drop 3) = .error (.invalidStartByte 0x82) := rfl
  have first : decode (text.drop 2) = .ok ('€',3) := rfl
  exact ⟨euro,refused,valid,(middle.mp ⟨0x82,by decide +kernel,stray⟩).2,(whole.mp ⟨_,_,first⟩).2⟩

end SliceGrammar.Utf8
