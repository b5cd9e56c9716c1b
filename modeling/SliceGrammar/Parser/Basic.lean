import SliceGrammar.Outcome
import SliceGrammar.Log
/-! A parser is a function from a cursor to what it reports and its outcome. It answers nothing only
where a bound on its work is spent, which is no outcome: a parser given more work may answer there
and never answers differently where it answered before. Every combinator is built from `follow`, so
the order of reports is settled once. -/
namespace SliceGrammar

structure Reply (α : Type) where
  log : Log
  outcome : Outcome α
  deriving DecidableEq, Repr

def Reply.after {α : Type} (log : Log) (r : Reply α) : Reply α := ⟨log ++ r.log,r.outcome⟩

abbrev Parser (α : Type) := Cursor → Option (Reply α)

namespace Parser

variable {α β : Type}

def done (outcome : Outcome α) : Option (Reply α) := some ⟨[],outcome⟩

def succeed (value : α) (tail : Cursor) : Option (Reply α) := done (.success value tail)

def refuse (reason : Option Reason) : Option (Reply α) := done (.failure reason)

/-- Goes on from the outcome of `p`; what `p` reported comes first. -/
def follow (p : Parser α) (hit : α → Cursor → Option (Reply β))
    (miss : Option Reason → Option (Reply β)) : Parser β := fun c =>
  match p c with
  | none => none
  | some ⟨log,.success value tail⟩ => (hit value tail).map (Reply.after log)
  | some ⟨log,.failure reason⟩ => (miss reason).map (Reply.after log)

def Extends (p q : Parser α) : Prop := ∀ c r, p c = some r → q c = some r

theorem extendsRefl (p : Parser α) : Extends p p := fun _ _ h => h

theorem followHit {p : Parser α} {c : Cursor} {log value tail} (hit : α → Cursor → Option (Reply β)) (miss)
    (matched : p c = some ⟨log,.success value tail⟩) :
    p.follow hit miss c = (hit value tail).map (Reply.after log) := by
  simp only [follow,matched]

theorem followMiss {p : Parser α} {c : Cursor} {log reason} (hit : α → Cursor → Option (Reply β)) (miss)
    (failed : p c = some ⟨log,.failure reason⟩) :
    p.follow hit miss c = (miss reason).map (Reply.after log) := by
  simp only [follow,failed]

theorem followAnswer {p : Parser α} {hit : α → Cursor → Option (Reply β)} {miss} {c : Cursor} {r : Reply β} :
    p.follow hit miss c = some r ↔
      (∃ log value tail s, p c = some ⟨log,.success value tail⟩ ∧ hit value tail = some s ∧ r = s.after log) ∨
      (∃ log reason s, p c = some ⟨log,.failure reason⟩ ∧ miss reason = some s ∧ r = s.after log) := by
  unfold follow
  constructor
  · intro h
    split at h
    · contradiction
    · rename_i log value tail found
      obtain ⟨s,hs,rfl⟩ := Option.map_eq_some_iff.mp h
      exact .inl ⟨log,value,tail,s,found,hs,rfl⟩
    · rename_i log reason found
      obtain ⟨s,hs,rfl⟩ := Option.map_eq_some_iff.mp h
      exact .inr ⟨log,reason,s,found,hs,rfl⟩
  · rintro (⟨log,value,tail,s,found,hs,rfl⟩ | ⟨log,reason,s,found,hs,rfl⟩) <;> simp [found,hs]

theorem followExtends {p q : Parser α} {hit hit' : α → Cursor → Option (Reply β)} {miss miss'} {c : Cursor}
    {r : Reply β} (more : Extends p q)
    (hits : ∀ value tail s, hit value tail = some s → hit' value tail = some s)
    (misses : ∀ reason s, miss reason = some s → miss' reason = some s)
    (answered : p.follow hit miss c = some r) : q.follow hit' miss' c = some r := by
  rcases followAnswer.mp answered with ⟨log,value,tail,s,found,hs,rfl⟩ | ⟨log,reason,s,found,hs,rfl⟩
  · exact followAnswer.mpr (.inl ⟨log,value,tail,s,more _ _ found,hits _ _ _ hs,rfl⟩)
  · exact followAnswer.mpr (.inr ⟨log,reason,s,more _ _ found,misses _ _ hs,rfl⟩)

end Parser

end SliceGrammar
