import CatLa.Foundations.FuelLoop

namespace FuelLoop

universe u v w
variable {σ τ : Type u} {ρ ρ' : Type v} {ε : Type w}

/-- The state at the start of a pass of a `while (true)`, if the loop gets
that far. -/
def stateAt (body : σ → Option (Next σ ρ)) : Nat → σ → Option σ
  | 0, s => some s
  | pass + 1, s =>
    match body s with
    | some (.again s') => stateAt body pass s'
    | _ => none

theorem stateAt_succ {body : σ → Option (Next σ ρ)} {s s' : σ} (pass : Nat) :
    stateAt body (pass + 1) s = some s' ↔ ∃ last, stateAt body pass s = some last ∧ body last = some (.again s') := by
  induction pass generalizing s with
  | zero =>
    cases run : body s with
    | none => simp [stateAt, run]
    | some next => cases next <;> simp [stateAt, run]
  | succ pass ih =>
    rw [stateAt]
    conv in (stateAt body (pass + 1) s) => rw [stateAt]
    cases run : body s with
    | none => simp
    | some next =>
      cases next with
      | again first => exact ih
      | done r => simp

/-- What holds at the start of a loop and is kept by every pass that the loop
gets to holds at the start of every pass. -/
theorem stateAt_post {body : σ → Option (Next σ ρ)} {s : σ} (Inv : σ → Prop) (start : Inv s)
    (pass : ∀ n last next, stateAt body n s = some last → Inv last → body last = some (.again next) → Inv next)
    {n : Nat} {s' : σ} (run : stateAt body n s = some s') : Inv s' := by
  induction n generalizing s' with
  | zero => exact Option.some.inj run ▸ start
  | succ n ih =>
    obtain ⟨last, before, next⟩ := (stateAt_succ n).mp run
    exact pass n last s' before (ih before) next

/-- The outcomes of two passes, side by side. -/
inductive Together (R : σ → τ → Prop) (Q : ρ → ρ' → Prop) : Option (Next σ ρ) → Option (Next τ ρ') → Prop
  | stuck : Together R Q none none
  | again {s : σ} {t : τ} (related : R s t) : Together R Q (some (.again s)) (some (.again t))
  | done {r : ρ} {r' : ρ'} (related : Q r r') : Together R Q (some (.done r)) (some (.done r'))

/-- Two loops that stay related return together, or neither returns. -/
theorem whileTrue_rel {R : σ → τ → Prop} {Q : ρ → ρ' → Prop} {body : σ → Option (Next σ ρ)} {body' : τ → Option (Next τ ρ')}
    (pass : ∀ s t, R s t → Together R Q (body s) (body' t)) {s : σ} {t : τ} (related : R s t) (fuel : Nat) :
    Option.Rel Q (whileTrue body fuel s) (whileTrue body' fuel t) := by
  induction fuel generalizing s t with
  | zero => exact .none
  | succ fuel ih =>
    have together := pass s t related
    rw [whileTrue, whileTrue]
    cases next : body s <;> cases next' : body' t <;> rw [next, next'] at together <;> cases together
    · exact .none
    · exact ih ‹_›
    · exact .some ‹_›

/-- Every pass that one of the loops gets to the other one gets to as well. -/
theorem stateAt_rel {R : σ → τ → Prop} {Q : ρ → ρ' → Prop} {body : σ → Option (Next σ ρ)} {body' : τ → Option (Next τ ρ')}
    (pass : ∀ s t, R s t → Together R Q (body s) (body' t)) {s : σ} {t : τ} (related : R s t) (n : Nat) :
    Option.Rel R (stateAt body n s) (stateAt body' n t) := by
  induction n generalizing s t with
  | zero => exact .some related
  | succ n ih =>
    have together := pass s t related
    rw [stateAt, stateAt]
    cases next : body s <;> cases next' : body' t <;> rw [next, next'] at together <;> cases together
    · exact .none
    · exact ih ‹_›
    · exact .none

/-- A loop that returns has a last pass. -/
theorem exists_last {body : σ → Option (Next σ ρ)} {fuel : Nat} {s : σ} {r : ρ} (returned : whileTrue body fuel s = some r) :
    ∃ n last, stateAt body n s = some last ∧ body last = some (.done r) := by
  induction fuel generalizing s with
  | zero => cases returned
  | succ fuel ih =>
    rw [whileTrue] at returned
    cases next : body s with
    | none => simp [next] at returned
    | some outcome =>
      rw [next] at returned
      cases outcome with
      | again s' =>
        obtain ⟨n, last, reached, done⟩ := ih returned
        exact ⟨n + 1, last, by rw [stateAt, next]; exact reached, done⟩
      | done r' =>
        obtain rfl := Option.some.inj returned
        exact ⟨0, s, rfl, next⟩

theorem foldl_rel {ι : Type*} {R : σ → τ → Prop} {xs : List ι} {f : σ → ι → σ} {g : τ → ι → τ}
    (pass : ∀ x ∈ xs, ∀ s t, R s t → R (f s x) (g t x)) {s : σ} {t : τ} (related : R s t) :
    R (xs.foldl f s) (xs.foldl g t) := by
  induction xs generalizing s t with
  | nil => exact related
  | cons x rest ih =>
    exact ih (fun y member => pass y (List.mem_cons_of_mem x member)) (pass x List.mem_cons_self s t related)

theorem bind_rel {α β α' β' : Type*} {R : α → α' → Prop} {Q : β → β' → Prop} {x : Option α} {x' : Option α'}
    {f : α → Option β} {f' : α' → Option β'} (first : Option.Rel R x x') (rest : ∀ a a', R a a' → Option.Rel Q (f a) (f' a')) :
    Option.Rel Q (x.bind f) (x'.bind f') := by
  cases first with
  | none => exact .none
  | some related => exact rest _ _ related

theorem map_rel {α β α' β' : Type*} {R : α → α' → Prop} {Q : β → β' → Prop} {x : Option α} {x' : Option α'}
    {f : α → β} {f' : α' → β'} (first : Option.Rel R x x') (rest : ∀ a a', R a a' → Q (f a) (f' a')) :
    Option.Rel Q (x.map f) (x'.map f') := by
  cases first with
  | none => exact .none
  | some related => exact .some (rest _ _ related)

theorem foldlM_rel {ι : Type*} {R : σ → τ → Prop} {xs : List ι} {f : σ → ι → Option σ} {g : τ → ι → Option τ}
    (pass : ∀ x ∈ xs, ∀ s t, R s t → Option.Rel R (f s x) (g t x)) {s : σ} {t : τ} (related : R s t) :
    Option.Rel R (xs.foldlM f s) (xs.foldlM g t) := by
  induction xs generalizing s t with
  | nil => exact .some related
  | cons x rest ih =>
    rw [List.foldlM_cons, List.foldlM_cons]
    exact bind_rel (pass x List.mem_cons_self s t related)
      fun s' t' => ih fun y member => pass y (List.mem_cons_of_mem x member)

/-- Two loops that stay related pass by pass. -/
structure Lockstep (R : σ → τ → Prop) (Q : ρ → ρ' → Prop) (label : σ → Option ε) (label' : τ → Option ε)
    (body : σ → Option (Next σ ρ)) (body' : τ → Option (Next τ ρ')) : Prop where
  labels : ∀ s t, R s t → label s = label' t
  pass : ∀ s t, R s t → Together R Q (body s) (body' t)

namespace Lockstep
variable {R : σ → τ → Prop} {Q : ρ → ρ' → Prop} {label : σ → Option ε} {label' : τ → Option ε}
  {body : σ → Option (Next σ ρ)} {body' : τ → Option (Next τ ρ')} {s : σ} {t : τ}

theorem result (lockstep : Lockstep R Q label label' body body') (related : R s t) {fuel : Nat} {r' : ρ'}
    (run : whileTrue body' fuel t = some r') : ∃ r, whileTrue body fuel s = some r ∧ Q r r' := by
  induction fuel generalizing s t with
  | zero => exact absurd run (by simp [whileTrue])
  | succ fuel ih =>
    have together := lockstep.pass s t related
    rw [whileTrue] at run ⊢
    cases next : body s <;> cases next' : body' t <;> rw [next, next'] at together <;> cases together
    · rw [next'] at run
      exact absurd run (by simp)
    · rw [next'] at run
      exact ih ‹_› run
    · rw [next'] at run
      obtain rfl := Option.some.inj run
      exact ⟨_, rfl, ‹_›⟩

end Lockstep

end FuelLoop
