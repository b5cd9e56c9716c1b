import SliceGrammar.Expr.Basic
import SliceGrammar.Parser.Repetition
import SliceGrammar.Parser.Run
/-! What an expression matches. Rules may refer to themselves, so parsing has a budget: it bounds the depth of
expressions entered and the matches of each repetition. A parse that spends it has no answer, and an
answer never depends on how much was left over. -/
namespace SliceGrammar.Expr

variable {ρ : Type}

def slices (p : Parser Value) : Parser Bytes :=
  p.bind (fun value tail =>
    match value with
    | .bytes bytes => .success bytes tail
    | _ => .failure none)

def parse (rules : Rules ρ) : Nat → Expr ρ → Cursor → Option (Reply Value)
  | 0, _, _ => none
  | budget + 1, e, c =>
      match e with
      | .literal content => ((Parser.literal content).map .bytes) c
      | .range low high => ((Parser.range low high).map .bytes) c
      | .anyChar => (Parser.anyChar.map .char) c
      | .atEnd => (Parser.atEnd.map (fun _ => .unit)) c
      | .advance n => ((Parser.advance n).map .bytes) c
      | .fail reason => Parser.fail reason c
      | .repeated body min max => ((Parser.repeated budget (parse rules budget body) min max).map .bytes) c
      | .concat first second => ((Parser.concat (parse rules budget first) (parse rules budget second)).map .bytes) c
      | .text body => ((Parser.text (slices (parse rules budget body))).map .text) c
      | .recognize body => ((Parser.recognize (parse rules budget body)).map .bytes) c
      | .choice first second => Parser.orElse (parse rules budget first) (parse rules budget second) c
      | .pair first second =>
          ((Parser.pair (parse rules budget first) (parse rules budget second)).map (fun v => .pair v.1 v.2)) c
      | .keepLeft first second => Parser.keepLeft (parse rules budget first) (parse rules budget second) c
      | .keepRight first second => Parser.keepRight (parse rules budget first) (parse rules budget second) c
      | .optional body => ((Parser.optional (parse rules budget body)).map Value.ofOption) c
      | .absent body => ((Parser.absent (parse rules budget body)).map (fun _ => .unit)) c
      | .present body => ((Parser.present (parse rules budget body)).map (fun _ => .unit)) c
      | .spanned body => ((Parser.spanned (parse rules budget body)).map (fun v => .spanned v.1 v.2)) c
      | .held _ body => parse rules budget body c
      | .rule name => parse rules budget (rules name) c
      | .map f body => Parser.map f (parse rules budget body) c
      | .bind f body => Parser.bind (parse rules budget body) f c
      | .andThen next body => Parser.andThen (parse rules budget body) (fun value => parse rules budget (next value)) c

/-- The reply of an expression at a cursor, given budget enough. -/
def Yields (rules : Rules ρ) (e : Expr ρ) (c : Cursor) (r : Reply Value) : Prop :=
  ∃ budget, parse rules budget e c = some r

theorem slicesExtends {p q : Parser Value} (more : p.Extends q) : (slices p).Extends (slices q) :=
  Parser.bindExtends _ more

theorem parseExtends (rules : Rules ρ) {budget larger : Nat} (enough : budget ≤ larger) (e : Expr ρ) :
    Parser.Extends (parse rules budget e) (parse rules larger e) := by
  induction budget generalizing larger e with
  | zero => intro c r h; simp [parse] at h
  | succ budget ih =>
      obtain ⟨larger,rfl⟩ : ∃ n, larger = n + 1 := ⟨larger - 1,by omega⟩
      have less : budget ≤ larger := by omega
      cases e with
      | literal text => exact fun _ _ h => h
      | range low high => exact fun _ _ h => h
      | anyChar => exact fun _ _ h => h
      | atEnd => exact fun _ _ h => h
      | advance n => exact fun _ _ h => h
      | fail reason => exact fun _ _ h => h
      | repeated body min max =>
          exact Parser.mapExtends _ (Parser.repeatedExtends (ih less body) less min max)
      | concat first second => exact Parser.mapExtends _ (Parser.concatExtends (ih less first) (ih less second))
      | text body => exact Parser.mapExtends _ (Parser.textExtends (slicesExtends (ih less body)))
      | recognize body => exact Parser.mapExtends _ (Parser.recognizeExtends (ih less body))
      | choice first second => exact Parser.orElseExtends (ih less first) (ih less second)
      | pair first second => exact Parser.mapExtends _ (Parser.pairExtends (ih less first) (ih less second))
      | keepLeft first second => exact Parser.keepLeftExtends (ih less first) (ih less second)
      | keepRight first second => exact Parser.keepRightExtends (ih less first) (ih less second)
      | optional body => exact Parser.mapExtends _ (Parser.optionalExtends (ih less body))
      | absent body => exact Parser.mapExtends _ (Parser.absentExtends (ih less body))
      | present body => exact Parser.mapExtends _ (Parser.presentExtends (ih less body))
      | spanned body => exact Parser.mapExtends _ (Parser.spannedExtends (ih less body))
      | held holding body => exact ih less body
      | rule name => exact ih less (rules name)
      | map f body => exact Parser.mapExtends f (ih less body)
      | bind f body => exact Parser.bindExtends f (ih less body)
      | andThen next body => exact Parser.andThenExtends (ih less body) (fun value => ih less (next value))

theorem yieldsUnique {rules : Rules ρ} {e : Expr ρ} {c : Cursor} {r s : Reply Value}
    (first : Yields rules e c r) (second : Yields rules e c s) : r = s := by
  obtain ⟨m,hm⟩ := first
  obtain ⟨n,hn⟩ := second
  have left := parseExtends rules (Nat.le_max_left m n) e c r hm
  have right := parseExtends rules (Nat.le_max_right m n) e c s hn
  exact Option.some.inj (left.symm.trans right)

/-- A budget that no parse of a text in memory spends unless it goes on for ever. -/
def ampleBudget : Nat := 4611686018427387904

def parser (rules : Rules ρ) (e : Expr ρ) : Parser Value := parse rules ampleBudget e

end SliceGrammar.Expr
