import Mathlib.Data.List.Basic
import SliceGrammar.Cursor
import SliceGrammar.Proofs.Codec
/-! Why bytes are refused. A first byte announces a width or begins nothing; then there are too few bytes, or one
that follows is out of place, or the bytes have the shape of the width and spell one number, which is too
small, a surrogate or too large. Every beginning that is no character has exactly one of these faults, and
the decoder names it. -/
namespace SliceGrammar.Utf8

def Stray (b : UInt8) : Prop := 0x80 ≤ b.toNat ∧ b.toNat ≤ 0xBF ∨ 0xF8 ≤ b.toNat

namespace Width

def Leads : Width → UInt8 → Prop
  | .one, b => b.toNat ≤ 0x7F
  | .two, b => 0xC0 ≤ b.toNat ∧ b.toNat ≤ 0xDF
  | .three, b => 0xE0 ≤ b.toNat ∧ b.toNat ≤ 0xEF
  | .four, b => 0xF0 ≤ b.toNat ∧ b.toNat ≤ 0xF7

def following : Width → Nat
  | .one => 0
  | .two => 1
  | .three => 2
  | .four => 3

theorem sizeFollowing (w : Width) : w.size = w.following + 1 := by
  cases w <;> rfl

theorem leadsOrStray (b : UInt8) : Stray b ∨ ∃ w : Width, w.Leads b := by
  by_cases stray : Stray b
  · exact .inl stray
  · have range := b.toNat_lt
    unfold Stray at stray
    by_cases one : b.toNat ≤ 0x7F
    · exact .inr ⟨.one,one⟩
    · by_cases two : b.toNat ≤ 0xDF
      · exact .inr ⟨.two,by omega,two⟩
      · by_cases three : b.toNat ≤ 0xEF
        · exact .inr ⟨.three,by omega,three⟩
        · exact .inr ⟨.four,by omega,by omega⟩

@[simp] theorem formLength (w : Width) (v : Nat) : (w.form v).length = w.size := by
  cases w <;> rfl

end Width

theorem leadStray {b : UInt8} (stray : Stray b) : lead b = none := by
  cases announced : lead b with
  | none => rfl
  | some l =>
    unfold Stray at stray
    rcases leadAnswer.mp announced with ⟨_,_⟩ | ⟨_,_⟩ | ⟨_,_⟩ | ⟨_,_⟩ <;> omega

theorem leadWidth {w : Width} {b : UInt8} (leads : w.Leads b) :
    ∃ payload, lead b = some ⟨payload,w.following,w.least⟩ := by
  cases w with
  | one => exact ⟨_,leadAnswer.mpr (.inl ⟨Nat.lt_succ_of_le leads,rfl⟩)⟩
  | two => exact ⟨_,leadAnswer.mpr (.inr (.inl ⟨⟨leads.1,Nat.lt_succ_of_le leads.2⟩,rfl⟩))⟩
  | three => exact ⟨_,leadAnswer.mpr (.inr (.inr (.inl ⟨⟨leads.1,Nat.lt_succ_of_le leads.2⟩,rfl⟩)))⟩
  | four => exact ⟨_,leadAnswer.mpr (.inr (.inr (.inr ⟨⟨leads.1,Nat.lt_succ_of_le leads.2⟩,rfl⟩)))⟩

theorem gatherRefuses (number : Nat) {bytes : Bytes} (other : ∃ b ∈ bytes, isContinuation b = false) :
    gather number bytes = none := by
  induction bytes generalizing number with
  | nil =>
    obtain ⟨b,member,_⟩ := other
    contradiction
  | cons a bytes ih =>
    rw [gather]
    split
    · rename_i follows
      obtain ⟨b,member,refused⟩ := other
      rcases List.mem_cons.mp member with rfl | later
      · rw [follows] at refused
        contradiction
      · exact ih _ ⟨b,later,refused⟩
    · rfl

section Announced

variable {w : Width} {b : UInt8} {rest : Bytes}

theorem decodeStray (stray : Stray b) (rest : Bytes) : decode (b :: rest) = .error (.invalidStartByte b) := by
  simp only [decode,leadStray stray]

theorem decodeShort (leads : w.Leads b) (few : rest.length < w.following) : decode (b :: rest) = .error .incomplete := by
  obtain ⟨payload,announced⟩ := leadWidth leads
  have short : (rest.take w.following).length < w.following := by
    rw [List.length_take]
    omega
  simp only [decode,announced,short,if_true]

theorem decodeBroken (leads : w.Leads b) (enough : w.following ≤ rest.length)
    (other : ∃ x ∈ rest.take w.following, isContinuation x = false) :
    decode (b :: rest) = .error .invalidContinuation := by
  obtain ⟨payload,announced⟩ := leadWidth leads
  have long : ¬ (rest.take w.following).length < w.following := by
    rw [List.length_take]
    omega
  simp only [decode,announced,long,if_false,gatherRefuses payload other]

theorem decodeWithin (leads : w.Leads b) (rest : Bytes) : decode (b :: rest.take w.following) = decode (b :: rest) := by
  obtain ⟨payload,announced⟩ := leadWidth leads
  simp only [decode,announced,List.take_take,Nat.min_self]

end Announced

theorem formUnique {w : Width} {u v : Nat} (small : u < w.capacity) (fits : v < w.capacity) (same : w.form u = w.form v) :
    u = v := by
  have byte {m n : Nat} (left : m < 256) (right : n < 256) (equal : UInt8.ofNat m = .ofNat n) : m = n := by
    rw [← UInt8.toNat_ofNat_of_lt' left,equal,UInt8.toNat_ofNat_of_lt' right]
  cases w <;> simp only [Width.capacity,Width.form,List.cons.injEq,and_true] at small fits same
  case one => exact byte (by omega) (by omega) same
  case two =>
    have first := byte (by omega) (by omega) same.1
    have second := byte (by omega) (by omega) same.2
    omega
  case three =>
    have first := byte (by omega) (by omega) same.1
    have second := byte (by omega) (by omega) same.2.1
    have third := byte (by omega) (by omega) same.2.2
    omega
  case four =>
    have first := byte (by omega) (by omega) same.1
    have second := byte (by omega) (by omega) same.2.1
    have third := byte (by omega) (by omega) same.2.2.1
    have fourth := byte (by omega) (by omega) same.2.2.2
    omega

theorem formExists {w : Width} {b : UInt8} {rest : Bytes} (leads : w.Leads b) (enough : w.following ≤ rest.length)
    (follow : ∀ x ∈ rest.take w.following, isContinuation x = true) :
    ∃ v, v < w.capacity ∧ w.form v = b :: rest.take w.following := by
  have byte {a : UInt8} {n : Nat} (same : a.toNat = n) : .ofNat n = a := by rw [← same,UInt8.ofNat_toNat]
  have long : (rest.take w.following).length = w.following := List.length_take_of_le enough
  generalize rest.take w.following = tail at follow long
  cases w with
  | one =>
    obtain rfl := List.length_eq_zero_iff.mp long
    exact ⟨b.toNat,Nat.lt_succ_of_le leads,congrArg (· :: []) (byte rfl)⟩
  | two =>
    obtain ⟨x,rfl⟩ := List.length_eq_one_iff.mp long
    simp only [List.forall_mem_cons,continuationRange] at follow
    obtain ⟨second,_⟩ := follow
    obtain ⟨low,high⟩ := leads
    refine ⟨(b.toNat - 0xC0) * 64 + (x.toNat - 0x80),by dsimp only [Width.capacity]; omega,?_⟩
    rw [Width.form,byte (a := b) (by omega),byte (a := x) (by omega)]
  | three =>
    obtain ⟨x,y,rfl⟩ := List.length_eq_two.mp long
    simp only [List.forall_mem_cons,continuationRange] at follow
    obtain ⟨second,third,_⟩ := follow
    obtain ⟨low,high⟩ := leads
    refine ⟨(b.toNat - 0xE0) * 4096 + (x.toNat - 0x80) * 64 + (y.toNat - 0x80),by dsimp only [Width.capacity]; omega,?_⟩
    rw [Width.form,byte (a := b) (by omega),byte (a := x) (by omega),byte (a := y) (by omega)]
  | four =>
    obtain ⟨x,y,z,rfl⟩ := List.length_eq_three.mp long
    simp only [List.forall_mem_cons,continuationRange] at follow
    obtain ⟨second,third,fourth,_⟩ := follow
    obtain ⟨low,high⟩ := leads
    refine ⟨(b.toNat - 0xF0) * 262144 + (x.toNat - 0x80) * 4096 + (y.toNat - 0x80) * 64 + (z.toNat - 0x80),
      by dsimp only [Width.capacity]; omega,?_⟩
    rw [Width.form,byte (a := b) (by omega),byte (a := x) (by omega),byte (a := y) (by omega),byte (a := z) (by omega)]

theorem decodeFormRefuses {w : Width} {v : Nat} (fits : v < w.capacity) (rest : Bytes) (error : DecodeError) :
    decode (w.form v ++ rest) = .error error ↔ scalar w.least v = .error error := by
  rw [decodeForm w fits]
  cases scalar w.least v <;> simp [Except.map]

theorem scalarRefusal {least number : Nat} {error : DecodeError} :
    scalar least number = .error error ↔
      number < least ∧ error = .overlong ∨
      (least ≤ number ∧ 0xD800 ≤ number ∧ number ≤ 0xDFFF) ∧ error = .surrogate ∨
      (least ≤ number ∧ 0x10FFFF < number) ∧ error = .outOfRange := by
  unfold scalar
  repeat' split
  all_goals simp only [Except.error.injEq,reduceCtorEq,false_iff]
  all_goals grind

theorem widthRefusal {w : Width} {v : Nat} (fits : v < w.capacity) :
    (scalar w.least v = .error .overlong ↔ v < w.least) ∧
    (scalar w.least v = .error .surrogate ↔ w = .three ∧ 0xD800 ≤ v ∧ v ≤ 0xDFFF) ∧
    (scalar w.least v = .error .outOfRange ↔ w = .four ∧ 0x10FFFF < v) := by
  simp only [scalarRefusal,reduceCtorEq,and_true,and_false,or_false,false_or,true_and]
  cases w <;> simp only [Width.capacity,Width.least,reduceCtorEq,true_and,false_and,iff_false] at fits ⊢
  all_goals omega

section Faults

variable {w : Width} {b : UInt8}

theorem announcedFaults (leads : w.Leads b) (rest : Bytes) :
    rest.length < w.following ∧ decode (b :: rest) = .error .incomplete ∨
    (w.following ≤ rest.length ∧ ∃ x ∈ rest.take w.following, isContinuation x = false) ∧
      decode (b :: rest) = .error .invalidContinuation ∨
    (w.following ≤ rest.length ∧ ∀ x ∈ rest.take w.following, isContinuation x = true) ∧
      ∃ v, v < w.capacity ∧ w.form v <+: b :: rest ∧
        ∀ error, decode (b :: rest) = .error error ↔ scalar w.least v = .error error := by
  by_cases enough : w.following ≤ rest.length
  · by_cases other : ∃ x ∈ rest.take w.following, isContinuation x = false
    · exact .inr (.inl ⟨⟨enough,other⟩,decodeBroken leads enough other⟩)
    · have follow : ∀ x ∈ rest.take w.following, isContinuation x = true := by
        intro x member
        exact Bool.of_not_eq_false fun refused => other ⟨x,member,refused⟩
      obtain ⟨v,fits,form⟩ := formExists leads enough follow
      have split : b :: rest = w.form v ++ rest.drop w.following := by
        rw [form,List.cons_append,List.take_append_drop]
      refine .inr (.inr ⟨⟨enough,follow⟩,v,fits,⟨_,split.symm⟩,?_⟩)
      rw [split]
      exact decodeFormRefuses fits _
  · have few := Nat.lt_of_not_le enough
    exact .inl ⟨few,decodeShort leads few⟩

theorem incompleteExact (leads : w.Leads b) (rest : Bytes) :
    decode (b :: rest) = .error .incomplete ↔ rest.length < w.following := by
  rcases announcedFaults leads rest with ⟨few,refused⟩ | ⟨⟨enough,_⟩,refused⟩ | ⟨⟨enough,_⟩,v,_,_,named⟩
  · simp [refused,few]
  · simp [refused,enough]
  · simp [named,scalarRefusal,enough]

theorem continuationExact (leads : w.Leads b) (rest : Bytes) :
    decode (b :: rest) = .error .invalidContinuation ↔
      w.following ≤ rest.length ∧ ∃ x ∈ rest.take w.following, isContinuation x = false := by
  rcases announcedFaults leads rest with ⟨few,refused⟩ | ⟨other,refused⟩ | ⟨⟨_,follow⟩,v,_,_,named⟩
  · have short : ¬ w.following ≤ rest.length := Nat.not_le_of_lt few
    simp only [refused,Except.error.injEq,reduceCtorEq,short,false_and]
  · simp only [refused,other,and_self]
  · have none : ¬ ∃ x ∈ rest.take w.following, isContinuation x = false := by
      intro other
      obtain ⟨x,member,refused⟩ := other
      rw [follow x member] at refused
      contradiction
    simp [named,scalarRefusal,none]

theorem numberExact (leads : w.Leads b) {rest : Bytes} (enough : w.following ≤ rest.length)
    (follow : ∀ x ∈ rest.take w.following, isContinuation x = true) :
    ∃ v, (∀ u, u < w.capacity ∧ w.form u <+: b :: rest ↔ u = v) ∧
      (decode (b :: rest) = .error .overlong ↔ v < w.least) ∧
      (decode (b :: rest) = .error .surrogate ↔ w = .three ∧ 0xD800 ≤ v ∧ v ≤ 0xDFFF) ∧
      (decode (b :: rest) = .error .outOfRange ↔ w = .four ∧ 0x10FFFF < v) := by
  rcases announcedFaults leads rest with ⟨few,_⟩ | ⟨⟨_,x,member,refused⟩,_⟩ | ⟨_,v,fits,form,named⟩
  · omega
  · rw [follow x member] at refused
    contradiction
  · simp only [named]
    refine ⟨v,?_,widthRefusal fits⟩
    intro u
    constructor
    · intro other
      obtain ⟨small,again⟩ := other
      have lengths : (w.form u).length = (w.form v).length := by simp
      exact formUnique small fits ((List.prefix_of_prefix_length_le again form (Nat.le_of_eq lengths)).eq_of_length lengths)
    · intro same
      subst same
      exact ⟨fits,form⟩

theorem announcedNames (leads : w.Leads b) {rest : Bytes} {error : DecodeError} (refused : decode (b :: rest) = .error error) :
    error = .incomplete ∨ error = .invalidContinuation ∨ error = .overlong ∨ error = .surrogate ∨ error = .outOfRange := by
  rcases announcedFaults leads rest with ⟨_,found⟩ | ⟨_,found⟩ | ⟨_,v,_,_,named⟩
  · cases found.symm.trans refused
    exact .inl rfl
  · cases found.symm.trans refused
    exact .inr (.inl rfl)
  · rcases scalarRefusal.mp ((named error).mp refused) with ⟨_,rfl⟩ | ⟨_,rfl⟩ | ⟨_,rfl⟩ <;> simp

theorem decodeAgree (leads : w.Leads b) {rest other : Bytes} (same : other.take w.size = (b :: rest).take w.size) :
    decode other = decode (b :: rest) := by
  rw [Width.sizeFollowing,List.take_succ_cons] at same
  cases other with
  | nil => contradiction
  | cons a other =>
    rw [List.take_succ_cons] at same
    obtain ⟨rfl,agree⟩ := List.cons.inj same
    rw [← decodeWithin leads,agree,decodeWithin leads]

end Faults

theorem emptyExact {bytes : Bytes} : decode bytes = .error .endOfInput ↔ bytes = [] := by
  constructor
  · intro refused
    cases bytes with
    | nil => rfl
    | cons b rest =>
      rcases Width.leadsOrStray b with stray | ⟨w,leads⟩
      · cases (decodeStray stray rest).symm.trans refused
      · have named := announcedNames leads refused
        simp at named
  · intro empty
    subst empty
    rfl

theorem strayExact {bytes : Bytes} {b : UInt8} :
    decode bytes = .error (.invalidStartByte b) ↔ bytes.head? = some b ∧ Stray b := by
  constructor
  · intro refused
    cases bytes with
    | nil => cases refused
    | cons a rest =>
      rcases Width.leadsOrStray a with stray | ⟨w,leads⟩
      · cases (decodeStray stray rest).symm.trans refused
        exact ⟨rfl,stray⟩
      · have named := announcedNames leads refused
        simp at named
  · intro first
    obtain ⟨head,stray⟩ := first
    obtain ⟨rest,rfl⟩ := List.head?_eq_some_iff.mp head
    exact decodeStray stray rest

theorem refusedExact {bytes : Bytes} :
    (∃ error, decode bytes = .error error) ↔ ∀ ch, ¬ String.utf8EncodeChar ch <+: bytes := by
  constructor
  · intro refused
    obtain ⟨error,refused⟩ := refused
    exact refusedNowhere refused
  · intro nowhere
    cases read : decode bytes with
    | error error => exact ⟨error,rfl⟩
    | ok pair => exact absurd (decodeExact.mp read).1 (nowhere pair.1)

theorem decodeNamesFault :
    (∀ bytes, (∃ error, decode bytes = .error error) ↔ ∀ ch, ¬ String.utf8EncodeChar ch <+: bytes) ∧
    (∀ bytes, decode bytes = .error .endOfInput ↔ bytes = []) ∧
    (∀ bytes b, decode bytes = .error (.invalidStartByte b) ↔ bytes.head? = some b ∧ Stray b) ∧
    (∀ b, Stray b ∨ ∃ w : Width, w.Leads b) ∧
    (∀ (w : Width) b rest, w.Leads b →
      (decode (b :: rest) = .error .incomplete ↔ (b :: rest).length < w.size) ∧
      (decode (b :: rest) = .error .invalidContinuation ↔
        w.size ≤ (b :: rest).length ∧ ∃ x ∈ rest.take w.following, isContinuation x = false) ∧
      (w.size ≤ (b :: rest).length → (∀ x ∈ rest.take w.following, isContinuation x = true) →
        ∃ v, (∀ u, u < w.capacity ∧ w.form u <+: b :: rest ↔ u = v) ∧
          (decode (b :: rest) = .error .overlong ↔ v < w.least) ∧
          (decode (b :: rest) = .error .surrogate ↔ w = .three ∧ 0xD800 ≤ v ∧ v ≤ 0xDFFF) ∧
          (decode (b :: rest) = .error .outOfRange ↔ w = .four ∧ 0x10FFFF < v)) ∧
      ∀ other, other.take w.size = (b :: rest).take (min w.size (b :: rest).length) → decode other = decode (b :: rest)) ∧
    ∀ c : Cursor, decode (c.peek (some 4)) = decode (c.peek none) := by
  refine ⟨fun _ => refusedExact,fun _ => emptyExact,fun _ _ => strayExact,Width.leadsOrStray,?_,?_⟩
  · intro w b rest leads
    rw [List.length_cons,Width.sizeFollowing,Nat.add_lt_add_iff_right,Nat.add_le_add_iff_right,← Width.sizeFollowing]
    refine ⟨incompleteExact leads rest,continuationExact leads rest,fun enough follow => numberExact leads enough follow,?_⟩
    intro other same
    rw [← List.length_cons,← List.take_take,List.take_length] at same
    exact decodeAgree leads same
  · exact fun c => decodeWindow c.remaining

theorem surrogateInFourBytes :
    Width.four.Leads 0xF0 ∧ decode [0xF0,0x8D,0xA0,0x80,0x61] = .error .overlong ∧
    Width.three.Leads 0xE2 ∧ decode [0xE2,0x41] = .error .incomplete := by
  obtain ⟨_,_,_,_,named,_⟩ := decodeNamesFault
  have four : Width.four.Leads 0xF0 := ⟨by decide,by decide⟩
  have three : Width.three.Leads 0xE2 := ⟨by decide,by decide⟩
  obtain ⟨_,_,spelled,_⟩ := named .four 0xF0 [0x8D,0xA0,0x80,0x61] four
  have follow : ([0x8D,0xA0,0x80] : Bytes).all isContinuation = true := by decide
  obtain ⟨v,only,overlong,_⟩ := spelled (by decide) (List.all_eq_true.mp follow)
  have number : 0xD800 = v := (only 0xD800).mp ⟨by decide,[0x61],by decide⟩
  subst number
  exact ⟨four,overlong.mpr (by decide),three,(named .three 0xE2 [0x41] three).1.mpr (by decide)⟩

end SliceGrammar.Utf8
