import SliceGrammar.Action
import SliceGrammar.Proofs.Spelling
import SliceGrammar.Proofs.Textual
import SliceGrammar.Proofs.Walk
/-! Whole numbers in decimal: a minus that may be missing and a run of digits. A grammar for them takes the longest
such beginning of what lies ahead, be it text or not, and then refuses it if there is no digit in it or the number
is out of range; it never tries a shorter one. The text of a number in range is read back as that number. -/
namespace SliceGrammar

namespace Decimal

structure Numeral where
  negative : Bool
  digits : List Char
  decimal : ∀ ch ∈ digits, ch.isDigit = true
  deriving DecidableEq, Repr

def Clear (rest : Bytes) : Prop := ∀ b ∈ rest.head?, isDigit b = false

theorem clearNil : Clear [] := by simp [Clear]

theorem clearCons {b : UInt8} (other : isDigit b = false) (rest : Bytes) : Clear (b :: rest) := by
  intro next same
  cases Option.some.inj same
  exact other

namespace Numeral

def sign (n : Numeral) : List Char := if n.negative then ['-'] else []

def bytes (n : Numeral) : Bytes := Utf8.encode (n.sign ++ n.digits)

def value (n : Numeral) : Int :=
  if n.negative then -(Nat.ofDigitChars 10 n.digits 0 : Int) else Nat.ofDigitChars 10 n.digits 0

structure Longest (n : Numeral) (bytes : Bytes) : Prop where
  within : n.bytes <+: bytes
  longest : ∀ other : Numeral, other.bytes <+: bytes → other.bytes.length ≤ n.bytes.length

def minus : Numeral := ⟨true,[],by simp⟩

def push (n : Numeral) (ch : Char) (digit : ch.isDigit = true) : Numeral where
  negative := n.negative
  digits := n.digits ++ [ch]
  decimal := List.forall_mem_append.mpr ⟨n.decimal,List.forall_mem_singleton.mpr digit⟩

structure Stops (n : Numeral) (rest : Bytes) : Prop where
  clear : Clear rest
  unsigned : n.bytes = [] → rest.head? ≠ some 45

end Numeral

theorem digitRange (ch : Char) : ch.isDigit = true ↔ '0' ≤ ch ∧ ch ≤ '9' := by
  simp [Char.isDigit,Char.le_def,UInt32.le_iff_toNat_le]

theorem digitByte {ch : Char} (digit : ch.isDigit = true) :
    String.utf8EncodeChar ch = [UInt8.ofNat ch.toNat] ∧ (UInt8.ofNat ch.toNat).toNat = ch.toNat ∧
      isDigit (UInt8.ofNat ch.toNat) = true := by
  have range : 48 ≤ ch.toNat ∧ ch.toNat ≤ 57 := (digitRange ch).mp digit
  have same : (UInt8.ofNat ch.toNat).toNat = ch.toNat := UInt8.toNat_ofNat_of_lt' (show ch.toNat < 256 by omega)
  refine ⟨Utf8.encodedUnique (Utf8.encodedChar ch) (.one (by omega) same),same,?_⟩
  simp only [isDigit,same,Bool.and_eq_true,decide_eq_true_eq]
  exact range

theorem byteDigit {b : UInt8} (digit : isDigit b = true) : ∃ ch : Char, ch.isDigit = true ∧ String.utf8EncodeChar ch = [b] := by
  simp only [isDigit,Bool.and_eq_true,decide_eq_true_eq] at digit
  obtain ⟨ch,same⟩ := Utf8.charOfNumber (v := b.toNat) (by omega)
  have range : 48 ≤ ch.toNat ∧ ch.toNat ≤ 57 := by omega
  exact ⟨ch,(digitRange ch).mpr range,Utf8.encodedUnique (Utf8.encodedChar ch) (.one (by omega) same.symm)⟩

theorem encodeDigits {digits : List Char} (decimal : ∀ ch ∈ digits, ch.isDigit = true) :
    Utf8.encode digits = digits.map (fun ch => UInt8.ofNat ch.toNat) := by
  induction digits with
  | nil => rfl
  | cons ch digits ih =>
    obtain ⟨first,others⟩ := List.forall_mem_cons.mp decimal
    simp [(digitByte first).1,ih others]

theorem encodeNonempty {digits : List Char} (decimal : ∀ ch ∈ digits, ch.isDigit = true) (some : digits ≠ []) :
    Utf8.encode digits ≠ [] := by
  rw [encodeDigits decimal]
  simpa using some

theorem digitBytes {digits : List Char} (decimal : ∀ ch ∈ digits, ch.isDigit = true) :
    ∀ b ∈ Utf8.encode digits, isDigit b = true := by
  intro b member
  rw [encodeDigits decimal] at member
  obtain ⟨ch,inside,rfl⟩ := List.mem_map.mp member
  exact (digitByte (decimal ch inside)).2.2

theorem valueDigits {digits : List Char} (decimal : ∀ ch ∈ digits, ch.isDigit = true) :
    value (Utf8.encode digits) = Nat.ofDigitChars 10 digits 0 := by
  have from' (start : Nat) : (Utf8.encode digits).foldl (fun n b => n * 10 + (b.toNat - 48)) start =
      Nat.ofDigitChars 10 digits start := by
    induction digits generalizing start with
    | nil => rfl
    | cons ch digits ih =>
      obtain ⟨first,others⟩ := List.forall_mem_cons.mp decimal
      obtain ⟨form,same,_⟩ := digitByte first
      rw [Utf8.encodeCons,form,Nat.ofDigitChars_cons,← ih others]
      simp [same,Nat.mul_comm]
  exact from' 0

theorem naturalDigits {digits : List Char} (decimal : ∀ ch ∈ digits, ch.isDigit = true) (some : digits ≠ []) :
    natural? (Utf8.encode digits) = Option.some (Nat.ofDigitChars 10 digits 0) := by
  have all : (Utf8.encode digits).all isDigit = true := List.all_eq_true.mpr (digitBytes decimal)
  rw [natural?,if_pos ⟨encodeNonempty decimal some,all⟩,valueDigits decimal]

theorem encodeMinus : Utf8.encode ['-'] = [45] := by decide +kernel

namespace Numeral

variable {n : Numeral} {rest : Bytes}

theorem bytesNegative (below : n.negative = true) : n.bytes = 45 :: Utf8.encode n.digits := by
  rw [bytes,sign,if_pos below,Utf8.encodeAppend,encodeMinus]
  rfl

theorem bytesPlain (above : n.negative = false) : n.bytes = Utf8.encode n.digits := by
  rw [bytes,sign,above]
  rfl

theorem bytesPush (n : Numeral) {ch : Char} (digit : ch.isDigit = true) :
    (n.push ch digit).bytes = n.bytes ++ String.utf8EncodeChar ch := by
  change Utf8.encode (n.sign ++ (n.digits ++ [ch])) = _
  rw [← List.append_assoc,Utf8.encodeAppend,Utf8.encodeCons,Utf8.encodeNil,List.append_nil]
  rfl

theorem byteAt {before more : Bytes} {b : UInt8} (here : n.bytes = before ++ b :: more) :
    isDigit b = true ∨ b = 45 ∧ n.negative = true ∧ before = [] := by
  cases side : n.negative with
  | false =>
    rw [bytesPlain side] at here
    exact .inl (digitBytes n.decimal b (by rw [here]; simp))
  | true =>
    rw [bytesNegative side] at here
    cases before with
    | nil =>
      cases here
      exact .inr ⟨rfl,rfl,rfl⟩
    | cons first before =>
      have later := (List.cons.inj here).2
      exact .inl (digitBytes n.decimal b (by rw [later]; simp))

theorem clearStops (some : n.digits ≠ []) (clear : Clear rest) : n.Stops rest := by
  refine ⟨clear,fun empty => absurd ?_ (encodeNonempty n.decimal some)⟩
  rw [bytes,Utf8.encodeAppend] at empty
  exact (List.append_eq_nil_iff.mp empty).2

theorem stopsLongest (stops : n.Stops rest) : n.Longest (n.bytes ++ rest) := by
  refine ⟨List.prefix_append _ _,fun other within => Nat.le_of_not_lt fun longer => ?_⟩
  obtain ⟨more,form⟩ := List.prefix_of_prefix_length_le (List.prefix_append n.bytes rest) within (Nat.le_of_lt longer)
  rw [← form] at within longer
  cases more with
  | nil => simp at longer
  | cons b more =>
    -- The longer one goes on with a byte that may not follow.
    obtain ⟨left,rfl⟩ := (List.prefix_append_right_inj n.bytes).mp within
    rcases byteAt form.symm with digit | ⟨rfl,_,empty⟩
    · have clear := stops.clear b rfl
      rw [digit] at clear
      contradiction
    · exact stops.unsigned empty rfl

theorem longestStops {bytes : Bytes} (longest : n.Longest bytes) : ∃ rest, bytes = n.bytes ++ rest ∧ n.Stops rest := by
  obtain ⟨⟨rest,rfl⟩,longest⟩ := longest
  refine ⟨rest,rfl,?_,?_⟩
  · intro b next
    obtain ⟨left,rfl⟩ := List.head?_eq_some_iff.mp next
    cases digit : isDigit b with
    | false => rfl
    | true =>
      obtain ⟨ch,decimal,form⟩ := byteDigit digit
      have grown := bytesPush n decimal
      rw [form] at grown
      have shorter := longest (n.push ch decimal) (by rw [grown]; simp)
      rw [grown,List.length_append] at shorter
      exact absurd shorter (Nat.not_succ_le_self _)
  · intro empty next
    obtain ⟨left,rfl⟩ := List.head?_eq_some_iff.mp next
    have alone : minus.bytes = [45] := bytesNegative rfl
    have shorter := longest minus (by rw [alone,empty]; simp)
    rw [alone,empty] at shorter
    contradiction

theorem signedNumeral (some : n.digits ≠ []) : signed? n.bytes = Option.some n.value := by
  have natural := naturalDigits n.decimal some
  cases side : n.negative with
  | true =>
    rw [bytesNegative side,signed?,if_pos rfl,natural,value,if_pos side]
    rfl
  | false =>
    rw [bytesPlain side,value,side]
    cases form : Utf8.encode n.digits with
    | nil => exact absurd form (encodeNonempty n.decimal some)
    | cons b more =>
      have digit : isDigit b = true := digitBytes n.decimal b (by rw [form]; simp)
      have minus : b ≠ 45 := fun same => by rw [same] at digit; contradiction
      have plus : b ≠ 43 := fun same => by rw [same] at digit; contradiction
      rw [signed?,if_neg minus,if_neg plus,← form,natural]
      rfl

theorem int64Numeral (some : n.digits ≠ []) :
    int64? n.bytes = if InRange n.value then Option.some n.value else none := by
  rw [int64?,signedNumeral some]

end Numeral

theorem digitsExist (bytes : Bytes) :
    ∃ digits rest, (∀ ch ∈ digits, ch.isDigit = true) ∧ bytes = Utf8.encode digits ++ rest ∧ Clear rest := by
  induction bytes with
  | nil => exact ⟨[],[],by simp,rfl,clearNil⟩
  | cons b bytes ih =>
    cases digit : isDigit b with
    | false => exact ⟨[],b :: bytes,by simp,rfl,clearCons digit bytes⟩
    | true =>
      obtain ⟨ch,decimal,form⟩ := byteDigit digit
      obtain ⟨digits,rest,all,rfl,clear⟩ := ih
      exact ⟨ch :: digits,rest,by simpa [decimal] using all,by rw [Utf8.encodeCons,form]; rfl,clear⟩

theorem numeralExists (bytes : Bytes) : ∃ (n : Numeral) (rest : Bytes), bytes = n.bytes ++ rest ∧ n.Stops rest := by
  by_cases minus : ∃ later, bytes = 45 :: later
  · obtain ⟨later,rfl⟩ := minus
    obtain ⟨digits,rest,decimal,rfl,clear⟩ := digitsExist later
    have form : (⟨true,digits,decimal⟩ : Numeral).bytes = 45 :: Utf8.encode digits := Numeral.bytesNegative rfl
    exact ⟨⟨true,digits,decimal⟩,rest,by rw [form]; rfl,clear,by simp [form]⟩
  · obtain ⟨digits,rest,decimal,rfl,clear⟩ := digitsExist bytes
    have form : (⟨false,digits,decimal⟩ : Numeral).bytes = Utf8.encode digits := Numeral.bytesPlain rfl
    refine ⟨⟨false,digits,decimal⟩,rest,by rw [form],clear,?_⟩
    intro empty next
    obtain ⟨left,same⟩ := List.head?_eq_some_iff.mp next
    rw [form] at empty
    exact minus ⟨left,by rw [empty]; exact same⟩

def Numeral.ofInt (n : Int) : Numeral where
  negative := decide (n < 0)
  digits := Nat.toDigits 10 n.natAbs
  decimal := fun _ member => Nat.isDigit_of_mem_toDigits (by decide) (by decide) member

theorem ofIntDigits (n : Int) : (Numeral.ofInt n).digits ≠ [] := Nat.toDigits_ne_nil

theorem ofIntBytes (n : Int) : (Numeral.ofInt n).bytes = Utf8.bytes (toString n) := by
  rw [Int.toString_eq_repr,Int.repr_eq_if]
  by_cases below : n < 0
  · have size : (-n).toNat = n.natAbs := by omega
    have minus : Utf8.bytes "-" = [45] := encodeMinus
    rw [Numeral.bytesNegative (decide_eq_true below),if_neg (by omega),Utf8.bytesAppend,minus,
      Nat.repr_eq_ofList_toDigits,Utf8.bytesOfList,size]
    rfl
  · have size : n.toNat = n.natAbs := by omega
    rw [Numeral.bytesPlain (decide_eq_false below),if_pos (by omega),Nat.repr_eq_ofList_toDigits,Utf8.bytesOfList,size]
    rfl

theorem ofIntValue (n : Int) : (Numeral.ofInt n).value = n := by
  have size : Nat.ofDigitChars 10 (Numeral.ofInt n).digits 0 = n.natAbs := Nat.ofDigitChars_toDigits (by decide) (by decide)
  rw [Numeral.value,size]
  by_cases below : n < 0
  · have side : (Numeral.ofInt n).negative = true := decide_eq_true below
    rw [if_pos side]
    omega
  · have side : (Numeral.ofInt n).negative = false := decide_eq_false below
    rw [side,if_neg Bool.false_ne_true]
    omega

end Decimal

namespace Expr

open Decimal

variable {ρ : Type} {rules : Rules ρ} {c : Cursor} {n : Numeral} {digits : List Char} {rest : Bytes}

def numeral : Expr ρ := .concat (.atMostOne (.codePoint '-')) (.many1 (.range '0' '9'))

def signedInteger : Expr ρ := .bind Action.integer (.text numeral)

theorem minusMissing (ahead : c.remaining = n.bytes ++ rest) (stops : n.Stops rest) (above : n.negative = false) :
    c.remaining.head? ≠ some 45 := by
  intro minus
  rw [ahead] at minus
  cases form : n.bytes with
  | nil =>
    rw [form] at minus
    exact stops.unsigned form minus
  | cons b later =>
    rw [form] at minus
    cases Option.some.inj minus
    have first : n.bytes = [] ++ 45 :: later := form
    rcases Numeral.byteAt first with digit | ⟨_,below,_⟩
    · contradiction
    · rw [above] at below
      contradiction

theorem signPassed (rules : Rules ρ) (ahead : c.remaining = n.bytes ++ rest) (stops : n.Stops rest) :
    Gives rules (.atMostOne (.codePoint '-')) c
      (.success (.bytes (Utf8.encode n.sign)) (c.advance (Utf8.encode n.sign).length)) := by
  have spells : Spells rules (.codePoint '-') [45] := asciiSpells (by decide +kernel)
  rw [givesPlan]
  cases side : n.negative with
  | true =>
    have next : c.remaining = [45] ++ (Utf8.encode n.digits ++ rest) := by rw [ahead,Numeral.bytesNegative side]; rfl
    have slice : c.sliceTo (c.advance 1) = [45] := Cursor.slicePast next
    have sign : Utf8.encode n.sign = [45] := by rw [Numeral.sign,if_pos side,encodeMinus]
    rw [sign]
    exact ⟨_,_,.next (by simp) (spelledPassed spells next) (.full _),by rw [collected]; simp [slice]⟩
  | false =>
    have sign : Utf8.encode n.sign = [] := by rw [Numeral.sign,side]; rfl
    rw [sign]
    exact ⟨_,_,.stopped (by simp) (spelledRefused spells (minusMissing ahead stops side)),
      by simp [collected]⟩

theorem digitsCollected (rules : Rules ρ) (decimal : ∀ ch ∈ digits, ch.isDigit = true) (ahead : c.remaining = Utf8.encode digits ++ rest)
    (clear : Clear rest) :
    ∃ values, Collects (Gives rules (.range '0' '9')) none c values (c.advance (Utf8.encode digits).length) ∧
      values.length = digits.length := by
  induction digits generalizing c with
  | nil =>
    have refused : Gives rules (.range '0' '9') c (.failure none) := by
      refine rangeRefuses fun ch inside found => ?_
      obtain ⟨form,_,digit⟩ := digitByte ((digitRange ch).mpr inside)
      rw [form] at found
      obtain ⟨more,found⟩ := found
      have next : rest.head? = some (UInt8.ofNat ch.toNat) := by
        rw [← List.nil_append rest,← Utf8.encodeNil,← ahead,← found]
        rfl
      exact absurd ((clear _ next).symm.trans digit) Bool.false_ne_true
    refine ⟨[],?_,rfl⟩
    simpa using .stopped (by simp) refused
  | cons ch digits ih =>
    obtain ⟨digit,others⟩ := List.forall_mem_cons.mp decimal
    rw [Utf8.encodeCons,List.append_assoc] at ahead
    have first : String.utf8EncodeChar ch <+: c.remaining := ahead ▸ List.prefix_append _ _
    have matched : Gives rules (.range '0' '9') c (exactly (String.utf8EncodeChar ch) c) :=
      rangeGives ((digitRange ch).mp digit) first
    rw [exactlyAhead first] at matched
    obtain ⟨values,collects,count⟩ := ih others (Cursor.remainingPast ahead)
    rw [← Cursor.advanceAppend,← Utf8.encodeCons] at collects
    exact ⟨_,.next (by simp) matched collects,congrArg Nat.succ count⟩

theorem digitsPassed (rules : Rules ρ) (decimal : ∀ ch ∈ digits, ch.isDigit = true) (ahead : c.remaining = Utf8.encode digits ++ rest)
    (clear : Clear rest) :
    Gives rules (.many1 (.range '0' '9')) c
      (if digits = [] then .failure none
        else .success (.bytes (Utf8.encode digits)) (c.advance (Utf8.encode digits).length)) := by
  obtain ⟨values,collects,count⟩ := digitsCollected rules decimal ahead clear
  refine givesPlan.mpr ⟨values,_,collects,?_⟩
  rw [collected,count,Cursor.slicePast ahead]
  simp [List.length_eq_zero_iff]

theorem numeralPassed (rules : Rules ρ) (ahead : c.remaining = n.bytes ++ rest) (stops : n.Stops rest) :
    Gives rules numeral c
      (if n.digits = [] then .failure none else .success (.bytes n.bytes) (c.advance n.bytes.length)) := by
  have parts : n.bytes = Utf8.encode n.sign ++ Utf8.encode n.digits := Utf8.encodeAppend _ _
  have sign := signPassed rules ahead stops
  have slice := Cursor.slicePast ahead
  rw [parts,List.append_assoc] at ahead
  have run := digitsPassed rules n.decimal (Cursor.remainingPast ahead) stops.clear
  rw [← Cursor.advanceAppend,← parts] at run
  rw [givesPlan]
  by_cases empty : n.digits = []
  · rw [if_pos empty] at run ⊢
    exact .inl ⟨_,_,sign,.inr ⟨_,run,rfl⟩⟩
  · rw [if_neg empty] at run ⊢
    have joined : Outcome.success (Value.bytes (c.sliceTo (c.advance n.bytes.length))) (c.advance n.bytes.length) =
        .success (.bytes n.bytes) (c.advance n.bytes.length) := by rw [slice]
    exact .inl ⟨_,_,sign,.inl ⟨_,_,run,joined⟩⟩

def readNumeral (n : Numeral) (c : Cursor) : Outcome Value :=
  if n.digits ≠ [] ∧ InRange n.value then .success (.int n.value) (c.advance n.bytes.length) else .failure none

theorem integerGives (rules : Rules ρ) (ahead : c.remaining = n.bytes ++ rest) (stops : n.Stops rest) :
    Gives rules signedInteger c (readNumeral n c) := by
  have found := numeralPassed rules ahead stops
  rw [givesPlan]
  by_cases empty : n.digits = []
  · rw [if_pos empty] at found
    rw [readNumeral,if_neg (fun fits => fits.1 empty)]
    exact .inr ⟨_,givesPlan.mpr (.inr ⟨_,found,rfl⟩),rfl⟩
  · rw [if_neg empty] at found
    have content : Utf8.bytes (String.ofList (n.sign ++ n.digits)) = n.bytes := Utf8.bytesOfList _
    rw [← content] at found
    obtain ⟨log,found⟩ := found
    refine .inl ⟨_,_,⟨log,yieldsText found⟩,?_⟩
    change Action.integer (.text _) _ = _
    simp only [Action.integer,Value.content?,content,Numeral.int64Numeral empty,readNumeral]
    by_cases fits : InRange n.value
    · rw [if_pos fits,if_pos ⟨empty,fits⟩]
    · rw [if_neg fits,if_neg (fun both => fits both.2)]

theorem readSuccess {value : Value} {tail : Cursor} :
    readNumeral n c = .success value tail ↔
      (n.digits ≠ [] ∧ InRange n.value) ∧ value = .int n.value ∧ tail = c.advance n.bytes.length := by
  by_cases fits : n.digits ≠ [] ∧ InRange n.value
  · rw [readNumeral,if_pos fits,Outcome.success.injEq]
    exact ⟨fun same => ⟨fits,same.1.symm,same.2.symm⟩,fun same => ⟨same.2.1.symm,same.2.2.symm⟩⟩
  · rw [readNumeral,if_neg fits]
    exact ⟨fun same => by contradiction,fun same => absurd same.1 fits⟩

theorem readFailure {reason : Option Reason} :
    readNumeral n c = .failure reason ↔ ¬ (n.digits ≠ [] ∧ InRange n.value) ∧ reason = none := by
  by_cases fits : n.digits ≠ [] ∧ InRange n.value
  · rw [readNumeral,if_pos fits]
    exact ⟨fun same => by contradiction,fun same => absurd fits same.1⟩
  · rw [readNumeral,if_neg fits,Outcome.failure.injEq]
    exact ⟨fun same => ⟨fits,same.symm⟩,fun same => same.2.symm⟩

theorem integerMissing (rules : Rules ρ) (clear : Clear c.remaining) (unsigned : c.remaining.head? ≠ some 45) :
    Gives rules signedInteger c (.failure none) := by
  let empty : Numeral := ⟨false,[],by simp⟩
  have ahead : c.remaining = empty.bytes ++ c.remaining := rfl
  have gives := integerGives rules ahead ⟨clear,fun _ => unsigned⟩
  rwa [readNumeral,if_neg (fun fits => fits.1 rfl)] at gives

theorem integerText (rules : Rules ρ) {n : Int} (fits : InRange n) (clear : Clear rest)
    (ahead : c.remaining = Utf8.bytes (toString n) ++ rest) :
    Gives rules signedInteger c (.success (.int n) (c.advance (Utf8.bytes (toString n)).length)) := by
  rw [← ofIntBytes] at ahead ⊢
  have gives := integerGives rules ahead (Numeral.clearStops (ofIntDigits n) clear)
  rwa [readNumeral,ofIntValue,if_pos ⟨ofIntDigits n,fits⟩] at gives

theorem integerReadsLongestNumeral (rules : Rules ρ) (c : Cursor) :
    (∃ n : Numeral, n.Longest c.remaining) ∧
    (∀ n : Numeral, n.Longest c.remaining →
      (∀ value tail, Gives rules signedInteger c (.success value tail) ↔
        (n.digits ≠ [] ∧ InRange n.value) ∧ value = .int n.value ∧ tail = c.advance n.bytes.length) ∧
      ∀ reason, Gives rules signedInteger c (.failure reason) ↔
        ¬ (n.digits ≠ [] ∧ InRange n.value) ∧ reason = none) ∧
    ∀ (n : Int) (rest : Bytes), InRange n → Clear rest → c.remaining = Utf8.bytes (toString n) ++ rest →
      ∃ tail, Gives rules signedInteger c (.success (.int n) tail) ∧ tail.remaining = rest := by
  refine ⟨?_,?_,?_⟩
  · obtain ⟨n,rest,whole,stops⟩ := numeralExists c.remaining
    rw [whole]
    exact ⟨n,Numeral.stopsLongest stops⟩
  · intro n longest
    obtain ⟨rest,ahead,stops⟩ := Numeral.longestStops longest
    have gives := integerGives rules ahead stops
    have only (o : Outcome Value) : Gives rules signedInteger c o ↔ readNumeral n c = o :=
      ⟨givesUnique gives,fun same => same ▸ gives⟩
    exact ⟨fun value tail => (only _).trans readSuccess,fun reason => (only _).trans readFailure⟩
  · intro n rest fits clear ahead
    exact ⟨_,integerText rules fits clear ahead,Cursor.remainingPast ahead⟩

def paddedNumeral : Numeral := ⟨true,['0','4','2'],by simp⟩

def belowLeast : Numeral := .ofInt (-9223372036854775809)

theorem numeralsRead :
    let padded := Cursor.start [45,48,52,50,255,49] none
    let least := Cursor.start (Utf8.bytes "-9223372036854775808)") none
    let below := Cursor.start (Utf8.bytes "-9223372036854775809)") none
    (paddedNumeral.Longest padded.remaining ∧ Gives noRules signedInteger padded (.success (.int (-42)) (padded.advance 4))) ∧
    (InRange (-9223372036854775808) ∧ Clear [41] ∧
      ∃ tail, Gives noRules signedInteger least (.success (.int (-9223372036854775808)) tail) ∧ tail.remaining = [41]) ∧
    belowLeast.Longest below.remaining ∧ Gives noRules signedInteger below (.failure none) := by
  intro padded least below
  have clear : Clear [41] := clearCons (by decide) []
  have first : paddedNumeral.Longest padded.remaining :=
    (by decide +kernel : paddedNumeral.bytes ++ [255,49] = padded.remaining) ▸
      Numeral.stopsLongest (Numeral.clearStops (by decide) (clearCons (by decide) [49]))
  have last : belowLeast.Longest below.remaining :=
    (by decide +kernel : belowLeast.bytes ++ [41] = below.remaining) ▸
      Numeral.stopsLongest (Numeral.clearStops (by decide) clear)
  refine ⟨⟨first,?_⟩,⟨by decide,clear,?_⟩,last,?_⟩
  · exact (((integerReadsLongestNumeral noRules padded).2.1 _ first).1 _ _).mpr (by decide +kernel)
  · exact (integerReadsLongestNumeral noRules least).2.2 _ _ (by decide) clear (by decide +kernel)
  · exact (((integerReadsLongestNumeral noRules below).2.1 _ last).2 _).mpr (by decide +kernel)

end Expr

end SliceGrammar
