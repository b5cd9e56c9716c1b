import SliceGrammar.Utf8.Decode
/-! Reading a whole byte sequence as text. The check follows the table of well-formed sequences byte
by byte and does no arithmetic on characters; its answer names the index after the longest readable
beginning. That it agrees with repeated decoding is a fact about both, not a definition. -/
namespace SliceGrammar.Utf8

inductive Fault where
  -- The bytes end inside a sequence that is well formed so far.
  | incomplete (index : Nat)
  -- The `width` bytes from `index` begin no longer well-formed sequence.
  | invalid (index width : Nat)
  deriving DecidableEq, Repr

def Fault.index : Fault → Nat
  | .incomplete index => index
  | .invalid index _ => index

def Fault.message : Fault → String
  | .incomplete index => "incomplete utf-8 byte sequence from index " ++ toString index
  | .invalid index width =>
      "invalid utf-8 sequence of " ++ toString width ++ " bytes from index " ++ toString index

/- The second byte of a three-byte sequence: E0 leaves out shorter forms and ED surrogates. -/
def secondOfThree (first second : UInt8) : Bool :=
  if first = 0xE0 then 0xA0 ≤ second && second ≤ 0xBF
  else if first = 0xED then 0x80 ≤ second && second ≤ 0x9F
  else isContinuation second

/- The second byte of a four-byte sequence: F0 leaves out shorter forms and F4 what is too large. -/
def secondOfFour (first second : UInt8) : Bool :=
  if first = 0xF0 then 0x90 ≤ second && second ≤ 0xBF
  else if first = 0xF4 then 0x80 ≤ second && second ≤ 0x8F
  else isContinuation second

def faultFrom (index : Nat) : Bytes → Option Fault
  | [] => none
  | a :: s =>
      if a < 0x80 then faultFrom (index + 1) s
      else if 0xC2 ≤ a && a ≤ 0xDF then
        match s with
        | [] => some (.incomplete index)
        | b :: s => if isContinuation b then faultFrom (index + 2) s else some (.invalid index 1)
      else if 0xE0 ≤ a && a ≤ 0xEF then
        match s with
        | [] => some (.incomplete index)
        | b :: s =>
            if secondOfThree a b then
              match s with
              | [] => some (.incomplete index)
              | c :: s => if isContinuation c then faultFrom (index + 3) s else some (.invalid index 2)
            else some (.invalid index 1)
      else if 0xF0 ≤ a && a ≤ 0xF4 then
        match s with
        | [] => some (.incomplete index)
        | b :: s =>
            if secondOfFour a b then
              match s with
              | [] => some (.incomplete index)
              | c :: s =>
                  if isContinuation c then
                    match s with
                    | [] => some (.incomplete index)
                    | d :: s => if isContinuation d then faultFrom (index + 4) s else some (.invalid index 3)
                  else some (.invalid index 2)
            else some (.invalid index 1)
      else some (.invalid index 1)

def fault (bytes : Bytes) : Option Fault := faultFrom 0 bytes

/- The characters that decode one after the other from the front, up to the first error. The fuel
bounds their number; every character takes a byte, so the length of the bytes is enough. -/
def charsUpTo : Nat → Bytes → List Char
  | 0, _ => []
  | fuel + 1, bytes =>
      match decode bytes with
      | .error _ => []
      | .ok (c,n) => c :: charsUpTo fuel (bytes.drop n)

def chars (bytes : Bytes) : List Char := charsUpTo bytes.length bytes

def text (bytes : Bytes) : Except Fault String :=
  match fault bytes with
  | some f => .error f
  | none => .ok (String.ofList (chars bytes))

end SliceGrammar.Utf8
