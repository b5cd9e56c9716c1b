import SliceGrammar.Proofs.Plan
/-! Which parts a parse enters, and at which cursors. An answer tells where a parse ended, not where it has
been: alternatives that were given up and parts that were only looked at leave no tail behind. The
relation here has them all, also for a parse that never answers. -/
namespace SliceGrammar.Expr

variable {ρ : Type} {rules : Rules ρ} {e : Expr ρ} {c : Cursor}

inductive Repeats (rules : Rules ρ) (body : Expr ρ) (c : Cursor) : Nat → Cursor → Prop where
  | none : Repeats rules body c 0 c
  | more {n middle log value tail} (before : Repeats rules body c n middle)
      (matched : Yields rules body middle ⟨log,.success value tail⟩) : Repeats rules body c (n + 1) tail

inductive Calls (rules : Rules ρ) (e : Expr ρ) (c : Cursor) : Expr ρ → Cursor → Prop where
  | body {body hit miss} (shape : plan rules e = .within body hit miss) : Calls rules e c body c
  | first {first next join} (shape : plan rules e = .sequence first next join) : Calls rules e c first c
  | next {first next join log value middle} (shape : plan rules e = .sequence first next join)
      (matched : Yields rules first c ⟨log,.success value middle⟩) : Calls rules e c (next value) middle
  | tried {first second} (shape : plan rules e = .either first second) : Calls rules e c first c
  | instead {first second log reason} (shape : plan rules e = .either first second)
      (failed : Yields rules first c ⟨log,.failure reason⟩) : Calls rules e c second c
  | again {body min max n d} (shape : plan rules e = .chained body min max) (repeats : Repeats rules body c n d)
      (below : ∀ m, max = some m → n < m) : Calls rules e c body d

inductive Visits (rules : Rules ρ) (e : Expr ρ) (c : Cursor) : Expr ρ → Cursor → Prop where
  | here : Visits rules e c e c
  | deeper {part d inner last} (outer : Visits rules e c part d) (call : Calls rules part d inner last) :
      Visits rules e c inner last

theorem visitsInside {inner part : Expr ρ} {d last : Cursor} (call : Calls rules e c inner d)
    (visits : Visits rules inner d part last) : Visits rules e c part last := by
  induction visits with
  | here => exact .deeper .here call
  | deeper outer next ih => exact .deeper ih next

theorem followAgree {α β : Type} {p q : Parser α} {hit hit' : α → Cursor → Option (Reply β)}
    {miss miss' : Option Reason → Option (Reply β)} (first : p c = q c)
    (hits : ∀ log value tail, q c = some ⟨log,.success value tail⟩ → hit value tail = hit' value tail)
    (misses : ∀ log reason, q c = some ⟨log,.failure reason⟩ → miss reason = miss' reason) :
    p.follow hit miss c = q.follow hit' miss' c := by
  unfold Parser.follow
  rw [first]
  cases answer : q c with
  | none => rfl
  | some r =>
    obtain ⟨log,value | reason⟩ := r
    · simp only [hits log value _ answer]
    · simp only [misses log reason answer]

theorem chainAgree {body : Expr ρ} {sub : Parser Value} {budget : Nat} {bound : Option Nat}
    (agree : ∀ n d, Repeats rules body c n d → (∀ m, bound = some m → n < m) → sub d = parse rules budget body d)
    {n : Nat} {d : Cursor} (repeats : Repeats rules body c n d) (fuel : Nat) :
    Parser.chain sub fuel (bound.map (· - n)) d = Parser.chain (parse rules budget body) fuel (bound.map (· - n)) d := by
  induction fuel generalizing n d with
  | zero => rfl
  | succ fuel ih =>
    simp only [Parser.chain]
    by_cases full : bound.map (· - n) = some 0
    · simp only [full,if_true]
    · have below : ∀ m, bound = some m → n < m := by
        intro m same
        rw [same,Option.map_some,Option.some.injEq] at full
        omega
      simp only [full,if_false,agree n d repeats below]
      cases answer : parse rules budget body d with
      | none => rfl
      | some r =>
        obtain ⟨log,value | reason⟩ := r
        · rename_i tail
          have next := ih (.more repeats ⟨budget,answer⟩)
          have fewer : (bound.map (· - n)).map (· - 1) = bound.map (· - (n + 1)) := by
            simp only [Option.map_map,Function.comp_def,Nat.sub_sub]
          simp only [fewer,next]
        · rfl

theorem callsSuffice {budget : Nat} {sub : Expr ρ → Parser Value}
    (agree : ∀ part d, Calls rules e c part d → sub part d = parse rules budget part d) :
    (plan rules e).run budget sub c = parse rules (budget + 1) e c := by
  rw [parsePlan]
  cases shape : plan rules e with
  | direct p => rfl
  | within body hit miss =>
    exact followAgree (agree body c (.body shape)) (fun _ _ _ _ => rfl) (fun _ _ _ => rfl)
  | sequence first next join =>
    refine followAgree (agree first c (.first shape)) ?_ (fun _ _ _ => rfl)
    intro log value middle matched
    have later := agree (next value) middle (.next shape ⟨budget,matched⟩)
    exact followAgree later (fun _ _ _ _ => rfl) (fun _ _ _ => rfl)
  | either first second =>
    refine followAgree (agree first c (.tried shape)) (fun _ _ _ _ => rfl) ?_
    intro log reason failed
    exact agree second c (.instead shape ⟨budget,failed⟩)
  | chained body min max =>
    have same := chainAgree (fun n d repeats below => agree body d (.again shape repeats below)) .none budget
    have whole : max.map (· - 0) = max := by simp
    rw [whole] at same
    simp only [Plan.run,repeatedAnswer,same]

section Keeping

variable {P : Expr ρ → Prop} {Inv : Cursor → Prop} (given : ∀ name, (rules name).Everywhere P)
  (kept : ∀ part c log value tail, part.Everywhere P → Inv c → Yields rules part c ⟨log,.success value tail⟩ → Inv tail)

include kept in
theorem repeatsKeep {body : Expr ρ} (allowed : body.Everywhere P) (start : Inv c) {n : Nat} {d : Cursor}
    (repeats : Repeats rules body c n d) : Inv d := by
  induction repeats with
  | none => exact start
  | more before matched ih => exact kept body _ _ _ _ allowed ih matched

include given kept in
theorem callsKeep (allowed : e.Everywhere P) (start : Inv c) {part : Expr ρ} {d : Cursor}
    (call : Calls rules e c part d) : part.Everywhere P ∧ Inv d := by
  cases call with
  | body shape => exact ⟨everywhereWithin given allowed shape,start⟩
  | first shape => exact ⟨(everywhereSequence allowed shape).1,start⟩
  | next shape matched =>
    obtain ⟨left,right⟩ := everywhereSequence allowed shape
    exact ⟨right _,kept _ _ _ _ _ left start matched⟩
  | tried shape => exact ⟨(everywhereEither allowed shape).1,start⟩
  | instead shape failed => exact ⟨(everywhereEither allowed shape).2,start⟩
  | again shape repeats below =>
    have inner := everywhereChained allowed shape
    exact ⟨inner,repeatsKeep kept inner start repeats⟩

include given kept in
theorem visitsKeep (allowed : e.Everywhere P) (start : Inv c) {part : Expr ρ} {d : Cursor}
    (visits : Visits rules e c part d) : part.Everywhere P ∧ Inv d := by
  induction visits with
  | here => exact ⟨allowed,start⟩
  | deeper outer call ih => exact callsKeep given kept ih.1 ih.2 call

end Keeping

end SliceGrammar.Expr
