import SliceGrammar.Proofs.Primitive
/-! Walking over characters one at a time against checking a whole slice. Both look for the longest beginning
that is text: the walk by the decoder's arithmetic, the check by its table of byte ranges. They stop at the
same byte of every input. -/
namespace SliceGrammar

namespace Utf8

inductive Decodes : Bytes → List Char → Bytes → Prop where
  | stop {bytes error} (refused : decode bytes = .error error) : Decodes bytes [] bytes
  | next {bytes ch n chars rest} (read : decode bytes = .ok (ch,n)) (later : Decodes (bytes.drop n) chars rest) :
      Decodes bytes (ch :: chars) rest

structure LongestValid (bytes found : Bytes) : Prop where
  within : found <+: bytes
  valid : Valid found
  longest : ∀ other, other <+: bytes → Valid other → other.length ≤ found.length

def validUpTo (bytes : Bytes) : Nat :=
  match fault bytes with
  | none => bytes.length
  | some f => f.index

theorem decodesExists (bytes : Bytes) : ∃ chars rest, Decodes bytes chars rest := by
  induction size : bytes.length using Nat.strongRecOn generalizing bytes with
  | ind length ih =>
    rcases Parser.decodeCases bytes with ⟨ch,found,read⟩ | ⟨error,refused⟩
    · have some : 0 < (String.utf8EncodeChar ch).length := List.length_pos_iff.mpr String.utf8EncodeChar_ne_nil
      have fits := found.length_le
      have shorter : (bytes.drop (String.utf8EncodeChar ch).length).length < length := by
        rw [List.length_drop]
        omega
      obtain ⟨chars,rest,later⟩ := ih _ shorter _ rfl
      exact ⟨ch :: chars,rest,.next read later⟩
    · exact ⟨[],bytes,.stop refused⟩

theorem decodesUnique {bytes : Bytes} {chars other : List Char} {rest left : Bytes} (walk : Decodes bytes chars rest)
    (again : Decodes bytes other left) : chars = other ∧ rest = left := by
  induction walk generalizing other with
  | stop refused =>
    cases again with
    | stop _ => exact ⟨rfl,rfl⟩
    | next read _ =>
      rw [refused] at read
      contradiction
  | next read later ih =>
    cases again with
    | stop refused =>
      rw [refused] at read
      contradiction
    | next second further =>
      rw [read] at second
      cases second
      obtain ⟨rfl,rfl⟩ := ih further
      exact ⟨rfl,rfl⟩

theorem decodesSplit {bytes : Bytes} {chars : List Char} {rest : Bytes} (walk : Decodes bytes chars rest) :
    bytes = encode chars ++ rest ∧ ∃ error, decode rest = .error error := by
  induction walk with
  | stop refused => exact ⟨rfl,_,refused⟩
  | @next bytes ch n chars rest read later ih =>
    obtain ⟨found,rfl⟩ := decodeExact.mp read
    refine ⟨?_,ih.2⟩
    rw [encodeCons,List.append_assoc,← ih.1,List.prefix_iff_eq_append.mp found]

theorem decodesLongest {bytes : Bytes} {chars : List Char} {rest : Bytes} (walk : Decodes bytes chars rest) :
    LongestValid bytes (encode chars) := by
  refine ⟨⟨rest,(decodesSplit walk).1.symm⟩,⟨chars,rfl⟩,?_⟩
  intro other within valid
  obtain ⟨others,rfl⟩ := valid
  induction walk generalizing others with
  | stop refused =>
    cases others with
    | nil => exact Nat.le_refl _
    | cons o os =>
      rw [encodeCons] at within
      have read := decodeExact.mpr ⟨(List.prefix_append _ _).trans within,rfl⟩
      rw [refused] at read
      contradiction
  | @next bytes ch n chars rest read later ih =>
    cases others with
    | nil => exact Nat.zero_le _
    | cons o os =>
      -- Both start with the character that decodes here, so what follows it is compared.
      rw [encodeCons] at within
      have second := decodeExact.mpr ⟨(List.prefix_append _ _).trans within,rfl⟩
      rw [read] at second
      cases second
      obtain ⟨tail,rfl⟩ := within
      rw [List.append_assoc,List.drop_left] at ih
      have shorter := ih os (List.prefix_append _ _)
      rw [encodeCons,encodeCons,List.length_append,List.length_append]
      omega

theorem charOfNumber {v : Nat} (valid : v < 0xD800 ∨ 0xDFFF < v ∧ v < 0x110000) : ∃ ch : Char, ch.toNat = v :=
  ⟨Char.ofNatAux v valid,rfl⟩

theorem rowOne {a : UInt8} (first : a < 0x80) : ∃ ch : Char, Encoded ch.toNat [a] := by
  have small : a.toNat < 0x80 := first
  obtain ⟨ch,same⟩ := charOfNumber (v := a.toNat) (by omega)
  exact ⟨ch,.one (by omega) (by omega)⟩

theorem rowTwo {a b : UInt8} (first : (decide (0xC2 ≤ a) && decide (a ≤ 0xDF)) = true)
    (second : isContinuation b = true) : ∃ ch : Char, Encoded ch.toNat [a,b] := by
  rw [between] at first
  rw [continuationRange] at second
  simp only [UInt8.reduceToNat] at first
  obtain ⟨ch,same⟩ := charOfNumber (v := (a.toNat - 0xC0) * 64 + (b.toNat - 0x80)) (by omega)
  exact ⟨ch,.two (by omega) (by omega) (by omega) (by omega)⟩

/- Both tables of second bytes have this shape: one first byte raises the lower bound, one cuts the upper. -/
theorem secondRange {a b x y low high : UInt8} (different : x ≠ y) (least : 0x80 ≤ low.toNat) (most : high.toNat < 0xC0)
    (second : (if a = x then decide (low ≤ b) && decide (b ≤ 0xBF)
      else if a = y then decide (0x80 ≤ b) && decide (b ≤ high) else isContinuation b) = true) :
    (0x80 ≤ b.toNat ∧ b.toNat < 0xC0) ∧ (a.toNat = x.toNat → low.toNat ≤ b.toNat) ∧
      (a.toNat = y.toNat → b.toNat ≤ high.toNat) := by
  rw [UInt8.toNat_inj,UInt8.toNat_inj]
  split at second
  · rename_i same
    rw [between] at second
    simp only [UInt8.reduceToNat] at second
    exact ⟨by omega,fun _ => second.1,fun other => absurd (same.symm.trans other) different⟩
  · split at second
    · rename_i apart same
      rw [between] at second
      simp only [UInt8.reduceToNat] at second
      exact ⟨by omega,fun other => absurd other apart,fun _ => second.2⟩
    · rename_i apart beyond
      rw [continuationRange] at second
      exact ⟨second,fun other => absurd other apart,fun other => absurd other beyond⟩

theorem rowThree {a b c : UInt8} (first : (decide (0xE0 ≤ a) && decide (a ≤ 0xEF)) = true)
    (second : secondOfThree a b = true) (third : isContinuation c = true) : ∃ ch : Char, Encoded ch.toNat [a,b,c] := by
  rw [between] at first
  rw [continuationRange] at third
  simp only [UInt8.reduceToNat] at first
  have ranges : (0x80 ≤ b.toNat ∧ b.toNat < 0xC0) ∧ (a.toNat = 0xE0 → 0xA0 ≤ b.toNat) ∧
      (a.toNat = 0xED → b.toNat ≤ 0x9F) := secondRange (by decide) (by decide) (by decide) second
  obtain ⟨ch,same⟩ := charOfNumber (v := (a.toNat - 0xE0) * 4096 + (b.toNat - 0x80) * 64 + (c.toNat - 0x80)) (by omega)
  exact ⟨ch,.three (by omega) (by omega) (by omega) (by omega) (by omega)⟩

theorem rowFour {a b c d : UInt8} (first : (decide (0xF0 ≤ a) && decide (a ≤ 0xF4)) = true)
    (second : secondOfFour a b = true) (third : isContinuation c = true) (fourth : isContinuation d = true) :
    ∃ ch : Char, Encoded ch.toNat [a,b,c,d] := by
  rw [between] at first
  rw [continuationRange] at third fourth
  simp only [UInt8.reduceToNat] at first
  have ranges : (0x80 ≤ b.toNat ∧ b.toNat < 0xC0) ∧ (a.toNat = 0xF0 → 0x90 ≤ b.toNat) ∧
      (a.toNat = 0xF4 → b.toNat ≤ 0x8F) := secondRange (by decide) (by decide) (by decide) second
  obtain ⟨ch,same⟩ := charOfNumber
    (v := (a.toNat - 0xF0) * 262144 + (b.toNat - 0x80) * 4096 + (c.toNat - 0x80) * 64 + (d.toNat - 0x80)) (by omega)
  exact ⟨ch,.four (by omega) (by omega) (by omega) (by omega) (by omega) (by omega)⟩

theorem faultRefused {bytes : Bytes} {error : DecodeError} (refused : decode bytes = .error error) (more : bytes ≠ [])
    (index : Nat) : ∃ f, faultFrom index bytes = some f ∧ f.index = index := by
  have unread {taken later : Bytes} (row : ∃ ch : Char, Encoded ch.toNat taken) (same : bytes = taken ++ later) :
      False := by
    obtain ⟨ch,form⟩ := row
    rw [same,decodeEncoded form] at refused
    contradiction
  fun_cases faultFrom index bytes with
  | case1 => contradiction
  | case2 a s first => exact (unread (rowOne first) rfl).elim
  | case4 a _ first b s second => exact (unread (rowTwo first second) rfl).elim
  | case8 a _ _ first b second c s third => exact (unread (rowThree first second third) rfl).elim
  | case14 a _ _ _ first b second c third d s fourth => exact (unread (rowFour first second third fourth) rfl).elim
  | _ => exact ⟨_,rfl,rfl⟩

theorem faultWalk {bytes : Bytes} {chars : List Char} {rest : Bytes} (walk : Decodes bytes chars rest) :
    rest = [] ∧ fault bytes = none ∨ rest ≠ [] ∧ ∃ f, fault bytes = some f ∧ f.index = (encode chars).length := by
  obtain ⟨rfl,error,refused⟩ := decodesSplit walk
  have after := faultAfter 0 chars rest
  rw [Nat.zero_add] at after
  by_cases ended : rest = []
  · rw [ended] at after ⊢
    exact .inl ⟨rfl,after⟩
  · obtain ⟨f,found,same⟩ := faultRefused refused ended (encode chars).length
    exact .inr ⟨ended,f,after.trans found,same⟩

theorem validUpToWalk {bytes : Bytes} {chars : List Char} {rest : Bytes} (walk : Decodes bytes chars rest) :
    validUpTo bytes = (encode chars).length := by
  unfold validUpTo
  rcases faultWalk walk with ⟨ended,sound⟩ | ⟨_,f,found,same⟩
  · have whole := (decodesSplit walk).1
    rw [ended,List.append_nil] at whole
    rw [sound,whole]
  · rw [found]
    exact same

end Utf8

namespace Expr

variable {ρ : Type} {rules : Rules ρ} {c : Cursor}

inductive Reads (rules : Rules ρ) : Cursor → List Char → Cursor → Prop where
  | stop {c log reason} (failed : Yields rules .anyChar c ⟨log,.failure reason⟩) : Reads rules c [] c
  | next {c log ch tail chars last} (matched : Yields rules .anyChar c ⟨log,.success (.char ch) tail⟩)
      (later : Reads rules tail chars last) : Reads rules c (ch :: chars) last

def anyText : Expr ρ := .many (.range (Char.ofNat 0) (Char.ofNat 0x10FFFF))

theorem inFullRange (ch : Char) : Char.ofNat 0 ≤ ch ∧ ch ≤ Char.ofNat 0x10FFFF := by
  have range := Utf8.scalarRange ch
  constructor
  · exact Nat.zero_le ch.toNat
  · have most : ch.toNat ≤ 0x10FFFF := by omega
    exact most

theorem readsWalk {chars : List Char} {last : Cursor} :
    Reads rules c chars last ↔
      (∃ rest, Utf8.Decodes c.remaining chars rest) ∧ last = c.advance (Utf8.encode chars).length := by
  constructor
  · intro reads
    induction reads with
    | stop failed =>
      obtain ⟨_,answer⟩ := yieldsPlan.mp failed
      rcases Parser.anyCharAnswer.mp answer with ⟨_,_,same⟩ | ⟨error,refused,_⟩
      · cases same
      · exact ⟨⟨_,.stop refused⟩,(Cursor.advanceZero _).symm⟩
    | next matched later ih =>
      obtain ⟨_,answer⟩ := yieldsPlan.mp matched
      rcases Parser.anyCharAnswer.mp answer with ⟨ch,found,same⟩ | ⟨error,_,same⟩
      · cases same
        obtain ⟨⟨rest,walk⟩,ended⟩ := ih
        rw [Cursor.advanceRemaining] at walk
        refine ⟨⟨rest,.next (Utf8.decodeExact.mpr ⟨found,rfl⟩) walk⟩,?_⟩
        simp [ended]
      · cases same
  · rintro ⟨⟨rest,walk⟩,rfl⟩
    generalize same : c.remaining = bytes at walk
    induction walk generalizing c with
    | stop refused =>
      subst same
      simpa using .stop (yieldsDirect rfl (Parser.anyCharAnswer.mpr (.inr ⟨_,refused,rfl⟩)))
    | next read later ih =>
      subst same
      obtain ⟨found,rfl⟩ := Utf8.decodeExact.mp read
      rw [Utf8.encodeCons,List.length_append,← Cursor.advanceAdvance]
      refine .next (yieldsDirect rfl (Parser.anyCharAnswer.mpr (.inl ⟨_,found,rfl⟩))) (ih ?_)
      exact Cursor.advanceRemaining c _

theorem anyTextLinks (rules : Rules ρ) {bytes rest : Bytes} {chars : List Char} (walk : Utf8.Decodes bytes chars rest)
    (same : c.remaining = bytes) :
    ∃ made, Parser.Links (Yields rules (.range (Char.ofNat 0) (Char.ofNat 0x10FFFF))) none c made ∧
      made.tail = c.advance (Utf8.encode chars).length := by
  induction walk generalizing c with
  | stop refused =>
    subst same
    have failed : Yields rules (.range (Char.ofNat 0) (Char.ofNat 0x10FFFF)) c _ :=
      yieldsDirect rfl (Parser.rangeAnswer.mpr (.inr (.inr ⟨_,refused,rfl⟩)))
    exact ⟨_,.stopped (by simp) failed,(Cursor.advanceZero c).symm⟩
  | @next _ ch _ chars _ read later ih =>
    subst same
    obtain ⟨found,rfl⟩ := Utf8.decodeExact.mp read
    have matched : Yields rules (.range (Char.ofNat 0) (Char.ofNat 0x10FFFF)) c _ :=
      yieldsDirect rfl (Parser.rangeAnswer.mpr (.inl ⟨ch,inFullRange ch,found,rfl⟩))
    obtain ⟨made,links,ended⟩ := ih (Cursor.advanceRemaining c _)
    refine ⟨_,.linked (by simp) matched links,?_⟩
    simp [ended]

theorem anyTextYields {rest : Bytes} {chars : List Char} (walk : Utf8.Decodes c.remaining chars rest) :
    ∃ log, Yields rules anyText c
      ⟨log,.success (.bytes (Utf8.encode chars)) (c.advance (Utf8.encode chars).length)⟩ := by
  obtain ⟨made,links,ended⟩ := anyTextLinks rules walk rfl
  have found : Yields rules anyText c (chainReply c 0 none made) := yieldsChained rfl links
  have slice : c.sliceTo made.tail = Utf8.encode chars := by
    simp [ended,(Utf8.decodesSplit walk).1]
  rw [chainReply,if_neg (Nat.not_lt_zero _),slice,ended] at found
  exact ⟨_,found⟩

section Text

variable {e : Expr ρ} {log : Log} {v : Bytes} {tail : Cursor} (found : Yields rules e c ⟨log,.success (.bytes v) tail⟩)

include found in
theorem textOfWalk {chars : List Char} (walk : Utf8.Decodes v chars []) :
    Yields rules (.text e) c ⟨log,.success (.text (String.ofList chars)) tail⟩ := by
  have whole := (Utf8.decodesSplit walk).1
  rw [List.append_nil] at whole
  subst whole
  have answer := yieldsWithinHit (e := .text e) rfl found
  simpa only [readText,Utf8.textEncode,Reply.after,List.append_nil] using answer

include found in
theorem textOfFault {fault : Utf8.Fault} (faulty : Utf8.fault v = some fault) :
    Yields rules (.text e) c ⟨log ++ [.event (.notText c.position fault)],.failure none⟩ := by
  have answer := yieldsWithinHit (e := .text e) rfl found
  simpa only [readText,Utf8.text,faulty,Reply.after] using answer

include found in
theorem textMatched {own : Log} {content : Value} {last : Cursor} :
    Yields rules (.text e) c ⟨own,.success content last⟩ ↔
      ∃ chars, Utf8.Decodes v chars [] ∧ own = log ∧ content = .text (String.ofList chars) ∧ last = tail := by
  constructor
  · intro matched
    obtain ⟨chars,rest,walk⟩ := Utf8.decodesExists v
    rcases Utf8.faultWalk walk with ⟨rfl,_⟩ | ⟨_,fault,faulty,_⟩
    · cases yieldsUnique matched (textOfWalk found walk)
      exact ⟨chars,walk,rfl,rfl,rfl⟩
    · cases yieldsUnique matched (textOfFault found faulty)
  · rintro ⟨chars,walk,rfl,rfl,rfl⟩
    exact textOfWalk found walk

include found in
theorem textRefused {own : Log} {reason : Option Reason} :
    Yields rules (.text e) c ⟨own,.failure reason⟩ ↔
      ∃ fault chars rest, Utf8.Decodes v chars rest ∧ rest ≠ [] ∧ fault.index + rest.length = v.length ∧
        Utf8.fault v = some fault ∧ own = log ++ [.event (.notText c.position fault)] ∧ reason = none := by
  constructor
  · intro failed
    obtain ⟨chars,rest,walk⟩ := Utf8.decodesExists v
    rcases Utf8.faultWalk walk with ⟨rfl,_⟩ | ⟨more,fault,faulty,same⟩
    · cases yieldsUnique failed (textOfWalk found walk)
    · cases yieldsUnique failed (textOfFault found faulty)
      have lengths := congrArg List.length (Utf8.decodesSplit walk).1
      rw [List.length_append,← same] at lengths
      exact ⟨fault,chars,rest,walk,more,lengths.symm,faulty,rfl,rfl⟩
  · rintro ⟨fault,chars,rest,_,_,_,faulty,rfl,rfl⟩
    exact textOfFault found faulty

end Text

theorem walkAgreesWithCheck (rules : Rules ρ) (c : Cursor) :
    let stop := Utf8.validUpTo c.remaining
    Utf8.LongestValid c.remaining (c.remaining.take stop) ∧
    (∃ log, Yields rules anyText c ⟨log,.success (.bytes (c.remaining.take stop)) (c.advance stop)⟩) ∧
    (∃ chars, Utf8.encode chars = c.remaining.take stop ∧
      ∀ read last, Reads rules c read last ↔ read = chars ∧ last = c.advance stop) ∧
    ∀ (e : Expr ρ) v log tail, Yields rules e c ⟨log,.success (.bytes v) tail⟩ →
      (∀ own content last, Yields rules (.text e) c ⟨own,.success content last⟩ ↔
        ∃ chars, Utf8.Decodes v chars [] ∧ own = log ∧ content = .text (String.ofList chars) ∧ last = tail) ∧
      ∀ own reason, Yields rules (.text e) c ⟨own,.failure reason⟩ ↔
        ∃ fault chars rest, Utf8.Decodes v chars rest ∧ rest ≠ [] ∧ fault.index + rest.length = v.length ∧
          Utf8.fault v = some fault ∧ own = log ++ [.event (.notText c.position fault)] ∧ reason = none := by
  intro stop
  obtain ⟨chars,rest,walk⟩ := Utf8.decodesExists c.remaining
  have upTo : stop = (Utf8.encode chars).length := Utf8.validUpToWalk walk
  have taken : c.remaining.take stop = Utf8.encode chars := by
    rw [upTo,(Utf8.decodesSplit walk).1,List.take_left]
  rw [taken,upTo]
  refine ⟨Utf8.decodesLongest walk,anyTextYields walk,⟨chars,rfl,?_⟩,?_⟩
  · intro read last
    rw [readsWalk]
    constructor
    · rintro ⟨⟨left,again⟩,rfl⟩
      obtain ⟨rfl,_⟩ := Utf8.decodesUnique again walk
      exact ⟨rfl,rfl⟩
    · rintro ⟨rfl,rfl⟩
      exact ⟨⟨rest,walk⟩,rfl⟩
  · intro e v log tail found
    exact ⟨fun _ _ _ => textMatched found,fun _ _ => textRefused found⟩

def noRules : Rules Empty := fun name => nomatch name

theorem brokenBufferWalk :
    let c := Cursor.start [0x61,0xC3,0xA9,0xED,0xA0,0x80] none
    (∃ log, Yields noRules anyText c ⟨log,.success (.bytes [0x61,0xC3,0xA9]) (c.advance 3)⟩) ∧
    Yields noRules (.text (.advance 6)) c ⟨[.event (.notText c.position (.invalid 3 1))],.failure none⟩ ∧
    ∃ chars rest, Utf8.Decodes c.source chars rest ∧ 3 + rest.length = 6 := by
  intro c
  obtain ⟨_,walk,_,text⟩ := walkAgreesWithCheck noRules c
  have raw : Yields noRules (.advance 6) c ⟨[],.success (.bytes c.source) (c.advance 6)⟩ := ⟨1,by decide +kernel⟩
  have refused : Yields noRules (.text (.advance 6)) c ⟨[.event (.notText c.position (.invalid 3 1))],.failure none⟩ :=
    ⟨2,by decide +kernel⟩
  obtain ⟨fault,chars,rest,passed,_,index,_,same,_⟩ := ((text _ _ _ _ raw).2 _ _).mp refused
  cases same
  exact ⟨walk,refused,chars,rest,passed,index⟩

end Expr

end SliceGrammar
