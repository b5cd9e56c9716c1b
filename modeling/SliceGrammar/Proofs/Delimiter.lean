import SliceGrammar.Proofs.Spelling
import SliceGrammar.Proofs.Walk
/-! Scanning up to a delimiter. The scan goes from character to character and looks for the delimiter only where a
character begins, yet it passes no occurrence at any byte: the bytes inside a character begin no text. So it
stops at the first occurrence of the bytes of the delimiter, or earlier where the input is no text. -/
namespace SliceGrammar

namespace Utf8

def firstIndex (wanted bytes : Bytes) : Option Nat :=
  (List.range (bytes.length + 1)).find? (fun i => decide (wanted <+: bytes.drop i))

theorem firstIndexSome {wanted bytes : Bytes} {i : Nat} (found : firstIndex wanted bytes = some i) :
    wanted <+: bytes.drop i ∧ ∀ j, j < i → ¬ wanted <+: bytes.drop j := by
  obtain ⟨here,_,before⟩ := List.find?_range_eq_some.mp found
  exact ⟨of_decide_eq_true here,fun j less => by simpa using before j less⟩

theorem firstIndexNone {wanted bytes : Bytes} (missing : firstIndex wanted bytes = none) {i : Nat}
    (inside : i ≤ bytes.length) : ¬ wanted <+: bytes.drop i := by
  have nowhere := List.find?_range_eq_none.mp missing i (Nat.lt_succ_of_le inside)
  simpa using nowhere

structure StopsAt (wanted bytes : Bytes) (limit n : Nat) : Prop where
  within : n ≤ limit
  clear : ∀ i, i < n → ¬ wanted <+: bytes.drop i
  ended : wanted <+: bytes.drop n ∨ n = limit

def searched (wanted bytes : Bytes) (limit : Nat) : Nat :=
  match firstIndex wanted bytes with
  | some first => min first limit
  | none => limit

theorem stopsSearched {wanted bytes : Bytes} {limit n : Nat} (inside : limit ≤ bytes.length)
    (stops : StopsAt wanted bytes limit n) : n = searched wanted bytes limit := by
  obtain ⟨within,clear,ended⟩ := stops
  unfold searched
  split
  · rename_i first found
    obtain ⟨here,before⟩ := firstIndexSome found
    have late : n ≤ first := Nat.le_of_not_lt fun less => clear first less here
    rcases ended with there | same
    · have early : first ≤ n := Nat.le_of_not_lt fun less => before n less there
      omega
    · omega
  · rename_i missing
    rcases ended with there | same
    · exact absurd there (firstIndexNone missing (Nat.le_trans within inside))
    · exact same

theorem insideFollows {ch : Char} (rest : Bytes) {i : Nat} (later : 0 < i) (inside : i < (String.utf8EncodeChar ch).length) :
    ∃ b left, (String.utf8EncodeChar ch ++ rest).drop i = b :: left ∧ isContinuation b = true := by
  obtain ⟨first,following,form,_,follows⟩ := encodedFollowing (encodedChar ch)
  rw [form] at inside ⊢
  obtain ⟨j,rfl⟩ := Nat.exists_eq_add_one_of_ne_zero (Nat.ne_of_gt later)
  have fits : j < following.length := Nat.lt_of_succ_lt_succ inside
  refine ⟨following.get ⟨j,fits⟩,following.drop (j + 1) ++ rest,?_,follows _ (List.get_mem _ _)⟩
  rw [List.cons_append,List.drop_succ_cons,List.drop_append_of_le_length (Nat.le_of_lt fits)]
  rw [List.drop_eq_getElem_cons fits]
  rfl

theorem textBegins {chars : List Char} {b : UInt8} {left : Bytes} (found : encode chars <+: b :: left)
    (follows : isContinuation b = true) : chars = [] := by
  cases chars with
  | nil => rfl
  | cons ch chars =>
    obtain ⟨first,following,form,leads,_⟩ := encodedFollowing (encodedChar ch)
    rw [encodeCons,form,List.cons_append,List.cons_prefix_cons] at found
    rw [found.1,follows] at leads
    contradiction

theorem stopsPast {chars : List Char} {ch : Char} {rest : Bytes} {limit n : Nat}
    (elsewhere : ¬ encode chars <+: String.utf8EncodeChar ch ++ rest) (stops : StopsAt (encode chars) rest limit n) :
    StopsAt (encode chars) (String.utf8EncodeChar ch ++ rest) ((String.utf8EncodeChar ch).length + limit)
      ((String.utf8EncodeChar ch).length + n) := by
  have further (i : Nat) : (String.utf8EncodeChar ch ++ rest).drop ((String.utf8EncodeChar ch).length + i) = rest.drop i := by
    rw [← List.drop_drop,List.drop_left]
  refine ⟨Nat.add_le_add_left stops.within _,?_,?_⟩
  · intro i less found
    by_cases past : (String.utf8EncodeChar ch).length ≤ i
    · obtain ⟨j,rfl⟩ := Nat.exists_eq_add_of_le past
      rw [further] at found
      exact stops.clear j (Nat.lt_of_add_lt_add_left less) found
    · rcases Nat.eq_zero_or_pos i with rfl | later
      · exact elsewhere found
      -- Only the empty text occurs inside a character, and that one occurs before it too.
      · obtain ⟨b,left,there,follows⟩ := insideFollows rest later (Nat.lt_of_not_le past)
        rw [there] at found
        cases textBegins found follows
        exact elsewhere List.nil_prefix
  · rw [further]
    exact stops.ended.imp (fun there => there) (congrArg _)

end Utf8

namespace Expr

variable {ρ : Type} {rules : Rules ρ} {c : Cursor} {delimiter : String}

def notYet (delimiter : String) : Expr ρ := .recognize (.keepRight (.absent (.literal delimiter)) .anyChar)

def upTo (delimiter : String) : Expr ρ := .many (notYet delimiter)

theorem anyCharGives {ch : Char} (ahead : String.utf8EncodeChar ch <+: c.remaining) :
    Gives rules .anyChar c (.success (.char ch) (c.advance (String.utf8EncodeChar ch).length)) :=
  ⟨_,yieldsDirect rfl (Parser.anyCharAnswer.mpr (.inl ⟨ch,ahead,rfl⟩))⟩

theorem anyCharRefuses {error : Utf8.DecodeError} (refused : Utf8.decode c.remaining = .error error) :
    Gives rules .anyChar c (.failure none) :=
  ⟨_,yieldsDirect rfl (Parser.anyCharAnswer.mpr (.inr ⟨error,refused,rfl⟩))⟩

theorem notYetSettles :
    Gives rules (notYet delimiter) c =
      After (Gives rules (.literal delimiter) c) (fun _ _ => Eq (.failure none)) (fun _ =>
        After (Gives rules .anyChar c) (fun _ tail => Eq (.success (.bytes (c.sliceTo tail)) tail))
          (fun reason => Eq (.failure reason))) := by
  rw [notYet,givesSettle (.recognize _)]
  simp [givesSettle (.keepRight _ _),givesSettle (.absent _),plan,Plan.settle,quiet,passOn]

theorem notYetPasses (rules : Rules ρ) {ch : Char} (elsewhere : ¬ Utf8.bytes delimiter <+: c.remaining)
    (ahead : String.utf8EncodeChar ch <+: c.remaining) :
    ∃ value, Gives rules (notYet delimiter) c (.success value (c.advance (String.utf8EncodeChar ch).length)) := by
  have missed := literalSpells rules delimiter c
  rw [exactlyElsewhere elsewhere] at missed
  rw [notYetSettles]
  exact ⟨_,.inr ⟨_,missed,.inl ⟨_,_,anyCharGives ahead,rfl⟩⟩⟩

theorem notYetStops (ended : Utf8.bytes delimiter <+: c.remaining ∨ ∃ error, Utf8.decode c.remaining = .error error) :
    Gives rules (notYet delimiter) c (.failure none) := by
  have looked := literalSpells rules delimiter c
  rw [notYetSettles]
  by_cases here : Utf8.bytes delimiter <+: c.remaining
  · rw [exactlyAhead here] at looked
    exact .inl ⟨_,_,looked,rfl⟩
  · obtain ⟨error,refused⟩ := ended.resolve_left here
    rw [exactlyElsewhere here] at looked
    exact .inr ⟨_,looked,.inr ⟨_,anyCharRefuses refused,rfl⟩⟩

theorem upToCollects (rules : Rules ρ) (delimiter : String) {bytes rest : Bytes} {chars : List Char}
    (walk : Utf8.Decodes bytes chars rest) (same : c.remaining = bytes) :
    ∃ values n, Collects (Gives rules (notYet delimiter)) none c values (c.advance n) ∧
      Utf8.StopsAt (Utf8.bytes delimiter) bytes (Utf8.encode chars).length n := by
  have stopped (c : Cursor)
      (ended : Utf8.bytes delimiter <+: c.remaining ∨ ∃ error, Utf8.decode c.remaining = .error error) :
      Collects (Gives rules (notYet delimiter)) none c [] (c.advance 0) := by
    simpa using .stopped (by simp) (notYetStops ended)
  -- Along the walk over all characters: the scan is on it until the delimiter is met.
  induction walk generalizing c with
  | stop refused =>
    subst same
    exact ⟨[],0,stopped c (.inr ⟨_,refused⟩),Nat.le_refl 0,by simp,.inr rfl⟩
  | @next _ ch _ chars _ read later ih =>
    subst same
    obtain ⟨ahead,rfl⟩ := Utf8.decodeExact.mp read
    by_cases here : Utf8.bytes delimiter <+: c.remaining
    · exact ⟨[],0,stopped c (.inl here),Nat.zero_le _,by simp,.inl here⟩
    · obtain ⟨value,passed⟩ := notYetPasses rules here ahead
      obtain ⟨values,n,collects,stops⟩ := ih (Cursor.advanceRemaining c _)
      rw [Cursor.advanceAdvance] at collects
      rw [← List.prefix_iff_eq_append.mp ahead] at here ⊢
      rw [Utf8.encodeCons,List.length_append]
      exact ⟨value :: values,_,.next (by simp) passed collects,Utf8.stopsPast here stops⟩

theorem scanFindsFirst (rules : Rules ρ) (delimiter : String) (c : Cursor) :
    let valid := Utf8.validUpTo c.remaining
    let n := Utf8.searched (Utf8.bytes delimiter) c.remaining valid
    valid ≤ c.length ∧ Utf8.LongestValid c.remaining (c.remaining.take valid) ∧
    Gives rules (upTo delimiter) c (.success (.bytes (c.remaining.take n)) (c.advance n)) ∧
    n ≤ valid ∧ ∀ i, i < n → ¬ Utf8.bytes delimiter <+: c.remaining.drop i := by
  intro valid n
  obtain ⟨chars,rest,walk⟩ := Utf8.decodesExists c.remaining
  have limit : valid = (Utf8.encode chars).length := Utf8.validUpToWalk walk
  have taken : c.remaining.take valid = Utf8.encode chars := by
    rw [limit,(Utf8.decodesSplit walk).1,List.take_left]
  have longest := Utf8.decodesLongest walk
  have inside : valid ≤ c.remaining.length := limit ▸ longest.within.length_le
  obtain ⟨values,m,collects,stops⟩ := upToCollects rules delimiter walk rfl
  rw [← limit] at stops
  cases Utf8.stopsSearched inside stops
  refine ⟨Cursor.lengthRemaining c ▸ inside,taken ▸ longest,?_,stops.within,stops.clear⟩
  rw [← Cursor.sliceAdvance]
  exact givesPlan.mpr ⟨values,_,collects,rfl⟩

theorem bracketsScanned :
    let whole := Cursor.start (Utf8.bytes "a]é]]]") none
    let broken := Cursor.start [0x61,0x5D,0x62,0xC3,0x5D,0x5D] none
    Gives noRules (upTo "]]") whole (.success (.bytes (Utf8.bytes "a]é")) (whole.advance 4)) ∧
    ¬ Utf8.bytes "]]" <+: whole.remaining.drop 1 ∧
    Utf8.firstIndex (Utf8.bytes "]]") broken.remaining = some 4 ∧
    Gives noRules (upTo "]]") broken (.success (.bytes (Utf8.bytes "a]b")) (broken.advance 3)) := by
  intro whole broken
  have first : Utf8.searched (Utf8.bytes "]]") whole.remaining (Utf8.validUpTo whole.remaining) = 4 := by decide +kernel
  have second : Utf8.searched (Utf8.bytes "]]") broken.remaining (Utf8.validUpTo broken.remaining) = 3 := by decide +kernel
  obtain ⟨_,_,found,_,clear⟩ := scanFindsFirst noRules "]]" whole
  obtain ⟨_,_,stopped,_,_⟩ := scanFindsFirst noRules "]]" broken
  rw [first] at found clear
  rw [second] at stopped
  exact ⟨found,clear 1 (by decide),by decide +kernel,stopped⟩

end Expr

end SliceGrammar
