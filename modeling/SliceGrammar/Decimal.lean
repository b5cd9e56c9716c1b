import SliceGrammar.Utf8.Encoding
/-! Decimal texts of whole numbers: at most one sign, then at least one digit and nothing else. Zeros in
front are allowed. Texts of any length are read; only the result is held to the 64-bit range. -/
namespace SliceGrammar.Decimal

def isDigit (b : UInt8) : Bool := 48 ≤ b.toNat && b.toNat ≤ 57

def value (digits : Bytes) : Nat := digits.foldl (fun n b => n * 10 + (b.toNat - 48)) 0

def natural? (digits : Bytes) : Option Nat :=
  if digits ≠ [] ∧ digits.all isDigit then some (value digits) else none

def signed? : Bytes → Option Int
  | [] => none
  | b :: rest =>
      if b = 45 then (natural? rest).map (fun n => -(n : Int))
      else if b = 43 then (natural? rest).map (fun n => (n : Int))
      else (natural? (b :: rest)).map (fun n => (n : Int))

def InRange (n : Int) : Prop := -9223372036854775808 ≤ n ∧ n ≤ 9223372036854775807

instance (n : Int) : Decidable (InRange n) := by unfold InRange; infer_instance

def int64? (bytes : Bytes) : Option Int :=
  match signed? bytes with
  | some n => if InRange n then some n else none
  | none => none

end SliceGrammar.Decimal
