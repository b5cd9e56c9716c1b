import SliceGrammar.Utf8.Text
/-! Decoding and encoding undo each other. The bytes of a character are described by what each of them is
as a number; the decoder accepts exactly these bytes, whatever follows them, and so does the check that
works by table. Bytes of the same shape for a number that is too small, a surrogate or too large are
refused. -/
namespace SliceGrammar.Utf8

inductive Encoded : Nat → Bytes → Prop where
  | one {v : Nat} {a : UInt8} (small : v < 0x80) (first : a.toNat = v) : Encoded v [a]
  | two {v : Nat} {a b : UInt8} (least : 0x80 ≤ v) (bound : v < 0x800)
      (first : a.toNat = 0xC0 + v / 64) (second : b.toNat = 0x80 + v % 64) : Encoded v [a,b]
  | three {v : Nat} {a b c : UInt8} (least : 0x800 ≤ v) (bound : v < 0x10000)
      (first : a.toNat = 0xE0 + v / 4096) (second : b.toNat = 0x80 + v / 64 % 64)
      (third : c.toNat = 0x80 + v % 64) : Encoded v [a,b,c]
  | four {v : Nat} {a b c d : UInt8} (least : 0x10000 ≤ v) (bound : v < 0x110000)
      (first : a.toNat = 0xF0 + v / 262144) (second : b.toNat = 0x80 + v / 4096 % 64)
      (third : c.toNat = 0x80 + v / 64 % 64) (fourth : d.toNat = 0x80 + v % 64) : Encoded v [a,b,c,d]

theorem scalarRange (ch : Char) : ch.toNat < 0xD800 ∨ 0xDFFF < ch.toNat ∧ ch.toNat < 0x110000 := ch.valid

theorem encodedChar (ch : Char) : Encoded ch.toNat (String.utf8EncodeChar ch) := by
  have range := scalarRange ch
  change Encoded ch.val.toNat _
  change ch.val.toNat < 0xD800 ∨ 0xDFFF < ch.val.toNat ∧ ch.val.toNat < 0x110000 at range
  unfold String.utf8EncodeChar
  generalize ch.val.toNat = v at range
  dsimp only
  split
  · exact .one (by omega) (UInt8.toNat_ofNat_of_lt' (show v < 256 by omega))
  · split
    · exact .two (by omega) (by omega) (by rw [UInt8.toNat_ofNat']; omega) (by rw [UInt8.toNat_ofNat']; omega)
    · split
      · exact .three (by omega) (by omega) (by rw [UInt8.toNat_ofNat']; omega)
          (by rw [UInt8.toNat_ofNat']; omega) (by rw [UInt8.toNat_ofNat']; omega)
      · exact .four (by omega) (by omega) (by rw [UInt8.toNat_ofNat']; omega)
          (by rw [UInt8.toNat_ofNat']; omega) (by rw [UInt8.toNat_ofNat']; omega)
          (by rw [UInt8.toNat_ofNat']; omega)

theorem encodedFollowing {v : Nat} {bytes : Bytes} (form : Encoded v bytes) :
    ∃ first rest, bytes = first :: rest ∧ isContinuation first = false ∧ ∀ b ∈ rest, isContinuation b = true := by
  have follows {b : UInt8} : isContinuation b = true ↔ 0x80 ≤ b.toNat ∧ b.toNat < 0xC0 := continuationRange b
  have leads {a : UInt8} (outside : a.toNat < 0x80 ∨ 0xC0 ≤ a.toNat) : isContinuation a = false := by
    rw [Bool.eq_false_iff,ne_eq,follows]
    omega
  cases form with
  | one small first => exact ⟨_,_,rfl,leads (by omega),by simp⟩
  | two least bound first second =>
    refine ⟨_,_,rfl,leads (by omega),?_⟩
    simp only [List.forall_mem_cons,follows]
    exact ⟨by omega,by simp⟩
  | three least bound first second third =>
    refine ⟨_,_,rfl,leads (by omega),?_⟩
    simp only [List.forall_mem_cons,follows]
    exact ⟨by omega,by omega,by simp⟩
  | four least bound first second third fourth =>
    refine ⟨_,_,rfl,leads (by omega),?_⟩
    simp only [List.forall_mem_cons,follows]
    exact ⟨by omega,by omega,by omega,by simp⟩

theorem encodedUnique {v : Nat} {left right : Bytes} (hl : Encoded v left) (hr : Encoded v right) : left = right := by
  -- Forms of different lengths contradict each other's bounds; in equal ones the bytes agree as numbers.
  cases hl <;> cases hr <;> first | omega | (simp only [List.cons.injEq,and_true,← UInt8.toNat_inj]; omega)

theorem leadAnswer {b : UInt8} {l : Lead} :
    lead b = some l ↔
      b.toNat < 0x80 ∧ l = ⟨b.toNat,0,0⟩ ∨
      (0xC0 ≤ b.toNat ∧ b.toNat < 0xE0) ∧ l = ⟨b.toNat % 32,1,0x80⟩ ∨
      (0xE0 ≤ b.toNat ∧ b.toNat < 0xF0) ∧ l = ⟨b.toNat % 16,2,0x800⟩ ∨
      (0xF0 ≤ b.toNat ∧ b.toNat < 0xF8) ∧ l = ⟨b.toNat % 8,3,0x10000⟩ := by
  unfold lead
  repeat' split
  all_goals simp only [Option.some.injEq,reduceCtorEq,false_iff,not_or,not_and]
  all_goals grind

theorem gatherCons {number result : Nat} {b : UInt8} {rest : Bytes} :
    gather number (b :: rest) = some result ↔
      (0x80 ≤ b.toNat ∧ b.toNat < 0xC0) ∧ gather (number * 64 + b.toNat % 64) rest = some result := by
  rw [gather,← continuationRange]
  split <;> simp [*]

theorem scalarAnswer {least number : Nat} {ch : Char} :
    scalar least number = .ok ch ↔ least ≤ number ∧ ch.toNat = number := by
  have range := scalarRange ch
  unfold scalar
  split
  · simp only [reduceCtorEq,false_iff]; omega
  · split
    · simp only [reduceCtorEq,false_iff]; omega
    · split
      · simp only [reduceCtorEq,false_iff]; omega
      · have valid : number.isValidChar := by unfold Nat.isValidChar; omega
        simp only [Except.ok.injEq]
        constructor
        · intro same
          subst same
          exact ⟨by omega,by rw [Char.ofNat,dif_pos valid]; rfl⟩
        · intro read
          rw [← read.2]
          exact Char.ofNat_toNat ch

theorem decodeGathered {b : UInt8} {rest : Bytes} {l : Lead} {number : Nat} (announced : lead b = some l)
    (enough : l.following ≤ rest.length) (gathered : gather l.payload (rest.take l.following) = some number) :
    decode (b :: rest) = (scalar l.least number).map (fun ch => (ch,l.following + 1)) := by
  have long : ¬ (rest.take l.following).length < l.following := by
    rw [List.length_take]
    omega
  simp only [decode,announced,long,if_false,gathered]
  cases scalar l.least number <;> rfl

theorem decodeAnswer {b : UInt8} {rest : Bytes} {ch : Char} {n : Nat} :
    decode (b :: rest) = .ok (ch,n) ↔
      ∃ l number, lead b = some l ∧ l.following ≤ rest.length ∧
        gather l.payload (rest.take l.following) = some number ∧ scalar l.least number = .ok ch ∧
        n = l.following + 1 := by
  constructor
  · intro read
    simp only [decode] at read
    split at read
    · contradiction
    · rename_i l announced
      split at read
      · contradiction
      · rename_i long
        split at read
        · contradiction
        · rename_i number gathered
          split at read
          · contradiction
          · rename_i kept
            cases read
            exact ⟨l,number,announced,by rw [List.length_take] at long; omega,gathered,kept,rfl⟩
  · intro parts
    obtain ⟨l,number,announced,enough,gathered,kept,rfl⟩ := parts
    rw [decodeGathered announced enough gathered,kept]
    rfl

/- Byte sequences that have the shape of an encoding. Each width has room for more numbers than are encoded in
it: small ones that a shorter width is meant for, surrogates, and numbers that are no code points. The
decoder reads the number back from any such sequence and then decides by the number alone. -/
inductive Width where
  | one
  | two
  | three
  | four
  deriving DecidableEq, Repr

namespace Width

def size : Width → Nat
  | .one => 1
  | .two => 2
  | .three => 3
  | .four => 4

def least : Width → Nat
  | .one => 0
  | .two => 0x80
  | .three => 0x800
  | .four => 0x10000

def capacity : Width → Nat
  | .one => 0x80
  | .two => 0x800
  | .three => 0x10000
  | .four => 0x200000

def form : Width → Nat → Bytes
  | .one, v => [.ofNat v]
  | .two, v => [.ofNat (0xC0 + v / 64),.ofNat (0x80 + v % 64)]
  | .three, v => [.ofNat (0xE0 + v / 4096),.ofNat (0x80 + v / 64 % 64),.ofNat (0x80 + v % 64)]
  | .four, v =>
      [.ofNat (0xF0 + v / 262144),.ofNat (0x80 + v / 4096 % 64),.ofNat (0x80 + v / 64 % 64),.ofNat (0x80 + v % 64)]

end Width

theorem gatherByte {number bits : Nat} (small : bits < 64) (rest : Bytes) :
    gather number (.ofNat (0x80 + bits) :: rest) = gather (number * 64 + bits) rest := by
  have value : (UInt8.ofNat (0x80 + bits)).toNat = 0x80 + bits := UInt8.toNat_ofNat_of_lt' (show 0x80 + bits < 256 by omega)
  have follows : isContinuation (.ofNat (0x80 + bits)) = true := by
    rw [continuationRange,value]
    omega
  rw [gather,if_pos follows,value]
  congr 1
  omega

theorem decodeForm (w : Width) {v : Nat} (fits : v < w.capacity) (rest : Bytes) :
    decode (w.form v ++ rest) = (scalar w.least v).map (fun ch => (ch,w.size)) := by
  cases w with
  | one =>
    have first : (UInt8.ofNat v).toNat = v := UInt8.toNat_ofNat_of_lt' (Nat.lt_trans fits (by decide))
    have announced : lead (.ofNat v) = some ⟨v,0,0⟩ := leadAnswer.mpr (.inl ⟨by rwa [first],by rw [first]⟩)
    exact decodeGathered announced (Nat.zero_le _) rfl
  | two =>
    dsimp only [Width.capacity] at fits
    have first : (UInt8.ofNat (0xC0 + v / 64)).toNat = 0xC0 + v / 64 := by
      rw [UInt8.toNat_ofNat']
      omega
    have announced : lead (.ofNat (0xC0 + v / 64)) = some ⟨v / 64,1,0x80⟩ := by
      refine leadAnswer.mpr (.inr (.inl ⟨by omega,?_⟩))
      rw [first,Lead.mk.injEq]
      omega
    have gathered : gather (v / 64) [.ofNat (0x80 + v % 64)] = some v := by
      rw [gatherByte (Nat.mod_lt _ (by decide)),gather,Option.some.injEq]
      omega
    exact decodeGathered announced (by simp) gathered
  | three =>
    dsimp only [Width.capacity] at fits
    have first : (UInt8.ofNat (0xE0 + v / 4096)).toNat = 0xE0 + v / 4096 := by
      rw [UInt8.toNat_ofNat']
      omega
    have announced : lead (.ofNat (0xE0 + v / 4096)) = some ⟨v / 4096,2,0x800⟩ := by
      refine leadAnswer.mpr (.inr (.inr (.inl ⟨by omega,?_⟩)))
      rw [first,Lead.mk.injEq]
      omega
    have gathered : gather (v / 4096) [.ofNat (0x80 + v / 64 % 64),.ofNat (0x80 + v % 64)] = some v := by
      rw [gatherByte (Nat.mod_lt _ (by decide)),gatherByte (Nat.mod_lt _ (by decide)),gather,Option.some.injEq]
      omega
    exact decodeGathered announced (by simp) gathered
  | four =>
    dsimp only [Width.capacity] at fits
    have first : (UInt8.ofNat (0xF0 + v / 262144)).toNat = 0xF0 + v / 262144 := by
      rw [UInt8.toNat_ofNat']
      omega
    have announced : lead (.ofNat (0xF0 + v / 262144)) = some ⟨v / 262144,3,0x10000⟩ := by
      refine leadAnswer.mpr (.inr (.inr (.inr ⟨by omega,?_⟩)))
      rw [first,Lead.mk.injEq]
      omega
    have gathered : gather (v / 262144)
        [.ofNat (0x80 + v / 4096 % 64),.ofNat (0x80 + v / 64 % 64),.ofNat (0x80 + v % 64)] = some v := by
      rw [gatherByte (Nat.mod_lt _ (by decide)),gatherByte (Nat.mod_lt _ (by decide)),
        gatherByte (Nat.mod_lt _ (by decide)),gather,Option.some.injEq]
      omega
    exact decodeGathered announced (by simp) gathered

theorem encodedForm {v : Nat} {bytes : Bytes} (form : Encoded v bytes) :
    ∃ w : Width, bytes = w.form v ∧ w.least ≤ v ∧ v < w.capacity ∧ w.size = bytes.length := by
  have byte {a : UInt8} {n : Nat} (same : a.toNat = n) : a = .ofNat n := by rw [← same,UInt8.ofNat_toNat]
  cases form with
  | one small first =>
    rw [byte first]
    exact ⟨.one,rfl,Nat.zero_le v,small,rfl⟩
  | two least bound first second =>
    rw [byte first,byte second]
    exact ⟨.two,rfl,least,bound,rfl⟩
  | three least bound first second third =>
    rw [byte first,byte second,byte third]
    exact ⟨.three,rfl,least,bound,rfl⟩
  | four least bound first second third fourth =>
    rw [byte first,byte second,byte third,byte fourth]
    exact ⟨.four,rfl,least,Nat.lt_trans bound (by decide),rfl⟩

theorem decodeEncoded {ch : Char} {bytes : Bytes} (form : Encoded ch.toNat bytes) (rest : Bytes) :
    decode (bytes ++ rest) = .ok (ch,bytes.length) := by
  obtain ⟨w,rfl,least,fits,size⟩ := encodedForm form
  rw [decodeForm w fits,scalarAnswer.mpr ⟨least,rfl⟩,← size]
  rfl

theorem decodedForm {bytes : Bytes} {ch : Char} {n : Nat} (read : decode bytes = .ok (ch,n)) :
    n ≤ bytes.length ∧ Encoded ch.toNat (bytes.take n) := by
  cases bytes with
  | nil => simp [decode] at read
  | cons a rest =>
    obtain ⟨l,number,announced,enough,gathered,kept,rfl⟩ := decodeAnswer.mp read
    obtain ⟨least,same⟩ := scalarAnswer.mp kept
    have range := scalarRange ch
    refine ⟨by simpa using enough,?_⟩
    rcases leadAnswer.mp announced with ⟨small,rfl⟩ | ⟨inside,rfl⟩ | ⟨inside,rfl⟩ | ⟨inside,rfl⟩
    · simp only [List.take_zero,gather,Option.some.injEq] at gathered
      exact .one (by omega) (by omega)
    · obtain ⟨b,rest,rfl⟩ := List.exists_cons_of_length_pos enough
      dsimp only at least
      obtain ⟨second,gathered⟩ := gatherCons.mp gathered
      simp only [List.take_zero,gather,Option.some.injEq] at gathered
      exact .two (by omega) (by omega) (by omega) (by omega)
    · match rest,enough with
      | b :: c :: rest,_ =>
        dsimp only at least
        obtain ⟨second,gathered⟩ := gatherCons.mp gathered
        obtain ⟨third,gathered⟩ := gatherCons.mp gathered
        simp only [List.take_zero,gather,Option.some.injEq] at gathered
        exact .three (by omega) (by omega) (by omega) (by omega) (by omega)
    · match rest,enough with
      | b :: c :: d :: rest,_ =>
        dsimp only at least
        obtain ⟨second,gathered⟩ := gatherCons.mp gathered
        obtain ⟨third,gathered⟩ := gatherCons.mp gathered
        obtain ⟨fourth,gathered⟩ := gatherCons.mp gathered
        simp only [List.take_zero,gather,Option.some.injEq] at gathered
        exact .four (by omega) (by omega) (by omega) (by omega) (by omega) (by omega)

theorem decodeExact {bytes : Bytes} {ch : Char} {n : Nat} :
    decode bytes = .ok (ch,n) ↔ String.utf8EncodeChar ch <+: bytes ∧ n = (String.utf8EncodeChar ch).length := by
  constructor
  · intro read
    obtain ⟨enough,form⟩ := decodedForm read
    have same := encodedUnique form (encodedChar ch)
    exact ⟨same ▸ List.take_prefix n bytes,by rw [← same,List.length_take]; omega⟩
  · intro form
    obtain ⟨⟨rest,rfl⟩,rfl⟩ := form
    exact decodeEncoded (encodedChar ch) rest

theorem prefixUnique {bytes : Bytes} {a b : Char} (left : String.utf8EncodeChar a <+: bytes)
    (right : String.utf8EncodeChar b <+: bytes) : a = b := by
  have first := decodeExact.mpr ⟨left,rfl⟩
  have second := decodeExact.mpr ⟨right,rfl⟩
  rw [first] at second
  cases second
  rfl

theorem refusedNowhere {bytes : Bytes} {error : DecodeError} (refused : decode bytes = .error error)
    (ch : Char) : ¬ String.utf8EncodeChar ch <+: bytes := by
  intro found
  have read := decodeExact.mpr ⟨found,rfl⟩
  rw [refused] at read
  contradiction

@[simp] theorem decodeWindow (bytes : Bytes) : decode (bytes.take 4) = decode bytes := by
  cases bytes with
  | nil => rfl
  | cons b rest =>
    cases announced : lead b with
    | none => simp [decode,announced]
    | some l =>
      have few : l.following ≤ 3 := by
        rcases leadAnswer.mp announced with ⟨_,rfl⟩ | ⟨_,rfl⟩ | ⟨_,rfl⟩ | ⟨_,rfl⟩ <;> simp
      have same : (rest.take 3).take l.following = rest.take l.following := by
        rw [List.take_take,Nat.min_eq_left few]
      simp only [List.take_succ_cons,decode,announced,same]

theorem scalarRefuses {least number : Nat}
    (bad : number < least ∨ (0xD800 ≤ number ∧ number ≤ 0xDFFF) ∨ 0x10FFFF < number) :
    ∃ error, scalar least number = .error error := by
  cases read : scalar least number with
  | error error => exact ⟨error,rfl⟩
  | ok ch =>
    obtain ⟨enough,same⟩ := scalarAnswer.mp read
    have range := scalarRange ch
    omega

def encodedSize (ch : Char) : Nat :=
  if ch.toNat < 0x80 then 1 else if ch.toNat < 0x800 then 2 else if ch.toNat < 0x10000 then 3 else 4

theorem encodeCharLength (ch : Char) : (String.utf8EncodeChar ch).length = encodedSize ch := by
  unfold encodedSize
  have form := encodedChar ch
  generalize String.utf8EncodeChar ch = bytes at form ⊢
  cases form with
  | one small first => rw [if_pos small,List.length_singleton]
  | two least bound first second => rw [if_neg (by omega),if_pos bound]; rfl
  | three least bound first second third => rw [if_neg (by omega),if_neg (by omega),if_pos bound]; rfl
  | four least bound first second third fourth =>
    rw [if_neg (by omega),if_neg (by omega),if_neg (by omega)]
    rfl

theorem decodeInvertsEncoding :
    (∀ bytes ch n, decode bytes = .ok (ch,n) ↔ String.utf8EncodeChar ch <+: bytes ∧ n = encodedSize ch) ∧
    (∀ ch, (String.utf8EncodeChar ch).length = encodedSize ch) ∧
    (∀ ch rest, decode (String.utf8EncodeChar ch ++ rest) = .ok (ch,(String.utf8EncodeChar ch).length)) ∧
    (∀ bytes ch n, decode bytes = .ok (ch,n) → String.utf8EncodeChar ch = bytes.take n) ∧
    ∀ (w : Width) (v : Nat) (rest : Bytes), v < w.capacity →
      (v < w.least ∨ (0xD800 ≤ v ∧ v ≤ 0xDFFF) ∨ 0x10FFFF < v) → ∃ error, decode (w.form v ++ rest) = .error error := by
  refine ⟨?_,encodeCharLength,?_,?_,?_⟩
  · intro bytes ch n
    rw [decodeExact,encodeCharLength]
  · intro ch rest
    exact decodeEncoded (encodedChar ch) rest
  · intro bytes ch n read
    obtain ⟨_,form⟩ := decodedForm read
    exact encodedUnique (encodedChar ch) form
  · intro w v rest fits bad
    obtain ⟨error,refused⟩ := scalarRefuses bad
    exact ⟨error,by rw [decodeForm w fits,refused]; rfl⟩

theorem decodeAtTheEdges :
    decode [0xED,0x9F,0xBF,0x80] = .ok (Char.ofNat 0xD7FF,3) ∧
    (∃ error, decode [0xED,0xA0,0x80,0x80] = .error error) ∧
    ∃ error, decode [0xF4,0x90,0x80,0x80] = .error error := by
  obtain ⟨_,_,accepted,_,refused⟩ := decodeInvertsEncoding
  refine ⟨accepted (Char.ofNat 0xD7FF) [0x80],?_,?_⟩
  · exact refused .three 0xD800 [0x80] (by decide) (.inr (.inl (by decide)))
  · exact refused .four 0x110000 [] (by decide) (.inr (.inr (by decide)))

def Valid (bytes : Bytes) : Prop := ∃ chars, bytes = encode chars

theorem validNil : Valid [] := ⟨[],rfl⟩

theorem validAppend {left right : Bytes} (hl : Valid left) (hr : Valid right) : Valid (left ++ right) := by
  obtain ⟨first,rfl⟩ := hl
  obtain ⟨second,rfl⟩ := hr
  exact ⟨first ++ second,(encodeAppend first second).symm⟩

theorem validChar (ch : Char) : Valid (String.utf8EncodeChar ch) := ⟨[ch],by simp [encode]⟩

theorem validBytes (content : String) : Valid (bytes content) := ⟨content.toList,rfl⟩

theorem between {low high a : UInt8} :
    (decide (low ≤ a) && decide (a ≤ high)) = true ↔ low.toNat ≤ a.toNat ∧ a.toNat ≤ high.toNat := by
  simp [UInt8.le_iff_toNat_le]

theorem secondThree {v : Nat} {a b : UInt8} (least : 0x800 ≤ v) (bound : v < 0x10000) (outside : v < 0xD800 ∨ 0xDFFF < v)
    (first : a.toNat = 0xE0 + v / 4096) (second : b.toNat = 0x80 + v / 64 % 64) : secondOfThree a b = true := by
  unfold secondOfThree
  split
  · subst a; rw [between]; simp at first ⊢; omega
  · split
    · subst a; rw [between]; simp at first ⊢; omega
    · rw [continuationRange]; omega

theorem secondFour {v : Nat} {a b : UInt8} (least : 0x10000 ≤ v) (bound : v < 0x110000)
    (first : a.toNat = 0xF0 + v / 262144) (second : b.toNat = 0x80 + v / 4096 % 64) : secondOfFour a b = true := by
  unfold secondOfFour
  split
  · subst a; rw [between]; simp at first ⊢; omega
  · split
    · subst a; rw [between]; simp at first ⊢; omega
    · rw [continuationRange]; omega

theorem faultEncoded {ch : Char} {bytes : Bytes} (form : Encoded ch.toNat bytes) (index : Nat) (rest : Bytes) :
    faultFrom index (bytes ++ rest) = faultFrom (index + bytes.length) rest := by
  have range := scalarRange ch
  cases form with
  | @one a small first =>
    have ascii : a < 0x80 := by simp [UInt8.lt_iff_toNat_lt]; omega
    change faultFrom index (a :: rest) = _
    rw [faultFrom.eq_def]
    simp only [ascii,if_true,List.length_singleton]
  | @two a b least bound first second =>
    have high : ¬ a < 0x80 := by simp [UInt8.lt_iff_toNat_lt]; omega
    have ofTwo : (decide (0xC2 ≤ a) && decide (a ≤ 0xDF)) = true := by rw [between]; simp; omega
    have follows : isContinuation b = true := by rw [continuationRange]; omega
    change faultFrom index (a :: b :: rest) = _
    rw [faultFrom.eq_def]
    simp only [high,ofTwo,follows,if_true,if_false]
    rfl
  | @three a b c least bound first second third =>
    have high : ¬ a < 0x80 := by simp [UInt8.lt_iff_toNat_lt]; omega
    have notTwo : ¬ (decide (0xC2 ≤ a) && decide (a ≤ 0xDF)) = true := by rw [between]; simp; omega
    have ofThree : (decide (0xE0 ≤ a) && decide (a ≤ 0xEF)) = true := by rw [between]; simp; omega
    have begins : secondOfThree a b = true := secondThree least bound (by omega) first second
    have follows : isContinuation c = true := by rw [continuationRange]; omega
    change faultFrom index (a :: b :: c :: rest) = _
    rw [faultFrom.eq_def]
    simp only [high,notTwo,ofThree,begins,follows,if_true,if_false]
    rfl
  | @four a b c d least bound first second third fourth =>
    have high : ¬ a < 0x80 := by simp [UInt8.lt_iff_toNat_lt]; omega
    have notTwo : ¬ (decide (0xC2 ≤ a) && decide (a ≤ 0xDF)) = true := by rw [between]; simp; omega
    have notThree : ¬ (decide (0xE0 ≤ a) && decide (a ≤ 0xEF)) = true := by rw [between]; simp; omega
    have ofFour : (decide (0xF0 ≤ a) && decide (a ≤ 0xF4)) = true := by rw [between]; simp; omega
    have begins : secondOfFour a b = true := secondFour least bound first second
    have follows : isContinuation c = true ∧ isContinuation d = true := by
      rw [continuationRange,continuationRange]; omega
    change faultFrom index (a :: b :: c :: d :: rest) = _
    rw [faultFrom.eq_def]
    simp only [high,notTwo,notThree,ofFour,begins,follows,if_true,if_false]
    rfl

theorem faultAfter (index : Nat) (chars : List Char) (rest : Bytes) :
    faultFrom index (encode chars ++ rest) = faultFrom (index + (encode chars).length) rest := by
  induction chars generalizing index with
  | nil => rfl
  | cons ch chars ih =>
    simp [faultEncoded (encodedChar ch),ih,Nat.add_assoc]

theorem faultEncode (chars : List Char) : fault (encode chars) = none := by
  have whole := faultAfter 0 chars []
  rwa [List.append_nil] at whole

theorem charsUpToEncode (chars : List Char) (fuel : Nat) (enough : chars.length ≤ fuel) :
    charsUpTo fuel (encode chars) = chars := by
  induction chars generalizing fuel with
  | nil => cases fuel <;> rfl
  | cons ch chars ih =>
    cases fuel with
    | zero => simp at enough
    | succ fuel =>
      rw [encodeCons,charsUpTo,decodeEncoded (encodedChar ch)]
      simp only [List.drop_left,ih fuel (Nat.le_of_succ_le_succ enough)]

theorem encodeLength (chars : List Char) : chars.length ≤ (encode chars).length := by
  induction chars with
  | nil => exact Nat.le_refl 0
  | cons ch chars ih =>
    have one : 0 < (String.utf8EncodeChar ch).length := List.length_pos_iff.mpr String.utf8EncodeChar_ne_nil
    rw [encodeCons,List.length_append,List.length_cons]
    omega

theorem bytesEmpty {content : String} (none : bytes content = []) : content = "" := by
  have few := encodeLength content.toList
  rw [← bytes,none] at few
  exact String.toList_eq_nil_iff.mp (List.eq_nil_of_length_eq_zero (Nat.le_zero.mp few))

@[simp] theorem textEncode (chars : List Char) : text (encode chars) = .ok (String.ofList chars) := by
  simp only [text,faultEncode chars,Utf8.chars,charsUpToEncode chars _ (encodeLength chars)]

theorem textValid {bytes : Bytes} (valid : Valid bytes) : ∃ content, text bytes = .ok content ∧ Utf8.bytes content = bytes := by
  obtain ⟨chars,rfl⟩ := valid
  exact ⟨String.ofList chars,textEncode chars,bytesOfList chars⟩

end SliceGrammar.Utf8
