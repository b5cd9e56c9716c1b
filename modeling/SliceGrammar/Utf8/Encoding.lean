/-! The bytes of characters and texts. Core's `String.utf8EncodeChar` is the encoding of one
character; a text is encoded character by character. Nothing here reads bytes back. -/
namespace SliceGrammar

abbrev Bytes := List UInt8

namespace Utf8

def encode (chars : List Char) : Bytes := chars.flatMap String.utf8EncodeChar

def bytes (text : String) : Bytes := encode text.toList

def isContinuation (b : UInt8) : Bool := 0x80 ≤ b.toNat && b.toNat < 0xC0

@[simp] theorem encodeNil : encode [] = [] := rfl

@[simp] theorem encodeCons (c : Char) (chars : List Char) :
    encode (c :: chars) = String.utf8EncodeChar c ++ encode chars := by
  simp [encode]

@[simp] theorem encodeAppend (left right : List Char) :
    encode (left ++ right) = encode left ++ encode right := by
  simp [encode]

@[simp] theorem bytesAppend (left right : String) : bytes (left ++ right) = bytes left ++ bytes right := by
  simp [bytes]

@[simp] theorem bytesOfList (chars : List Char) : bytes (String.ofList chars) = encode chars := by
  simp [bytes]

@[simp] theorem continuationRange (b : UInt8) : isContinuation b = true ↔ 0x80 ≤ b.toNat ∧ b.toNat < 0xC0 := by
  simp [isContinuation]

end Utf8

end SliceGrammar
