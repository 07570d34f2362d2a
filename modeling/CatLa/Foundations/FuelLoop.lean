import Mathlib.Data.List.Basic
import Mathlib.Order.Nat

namespace FuelLoop

universe u v w
variable {α : Type u} {β : Type v} {σ : Type u} {ρ : Type v} {ι : Type w}

/-- A fuelled computation terminates with `a`: every large enough fuel gives
`a`. Two loops that share one fuel compose without a monotonicity proof. -/
def Returns (f : Nat → Option α) (a : α) : Prop :=
  ∃ enough, ∀ fuel, enough ≤ fuel → f fuel = some a

theorem Returns.pure (a : α) : Returns (fun _ => some a) a := ⟨0, fun _ _ => rfl⟩

/-- A computation without loops of its own ignores the fuel. -/
theorem Returns.of_eq {f : Nat → Option α} {a : α} (value : ∀ fuel, f fuel = some a) : Returns f a :=
  ⟨0, fun fuel _ => value fuel⟩

theorem Returns.unique {f : Nat → Option α} {a b : α} (left : Returns f a) (right : Returns f b) :
    a = b := by
  obtain ⟨n, atLeft⟩ := left
  obtain ⟨m, atRight⟩ := right
  have same := (atLeft (max n m) (Nat.le_max_left n m)).symm.trans (atRight (max n m) (Nat.le_max_right n m))
  exact Option.some.inj same

theorem Returns.bind {f : Nat → Option α} {g : Nat → α → Option β} {a : α} {b : β}
    (first : Returns f a) (rest : Returns (fun fuel => g fuel a) b) :
    Returns (fun fuel => (f fuel).bind (g fuel)) b := by
  obtain ⟨n, atFirst⟩ := first
  obtain ⟨m, atRest⟩ := rest
  refine ⟨max n m, fun fuel enough => ?_⟩
  show (f fuel).bind (g fuel) = some b
  rw [atFirst fuel ((Nat.le_max_left n m).trans enough), Option.bind_some]
  exact atRest fuel ((Nat.le_max_right n m).trans enough)

theorem Returns.congr {f g : Nat → Option α} {a : α} (run : Returns f a) (same : ∀ fuel, g fuel = f fuel) :
    Returns g a := by
  obtain ⟨n, atRun⟩ := run
  exact ⟨n, fun fuel enough => (same fuel).trans (atRun fuel enough)⟩

theorem Returns.map {f : Nat → Option α} {a : α} (run : Returns f a) (g : α → β) :
    Returns (fun fuel => (f fuel).map g) (g a) := by
  obtain ⟨n, atRun⟩ := run
  refine ⟨n, fun fuel enough => ?_⟩
  show (f fuel).map g = some (g a)
  rw [atRun fuel enough, Option.map_some]

/-- What one pass through the body of a `while (true)` does: go round again
with a new loop state, or leave the loop with a result. -/
inductive Next (σ : Type u) (ρ : Type v)
  | again (s : σ)
  | done (r : ρ)

/-- `while (true)`. A body that does not return (it spins on a lock) is `none`. -/
def whileTrue (body : σ → Option (Next σ ρ)) : Nat → σ → Option ρ
  | 0, _ => none
  | fuel + 1, s =>
    match body s with
    | none => none
    | some (.again s') => whileTrue body fuel s'
    | some (.done r) => some r

/-- The postcondition of one pass: the invariant again, with fewer passes
left, or the loop's own postcondition. -/
def Progress (Inv : Nat → σ → Prop) (Post : ρ → Prop) (left : Nat) : Next σ ρ → Prop
  | .again s => ∃ less, less < left ∧ Inv less s
  | .done r => Post r

/-- Total correctness of a `while (true)`: an invariant, indexed by a bound on
the passes left, that every pass keeps while the bound decreases. -/
theorem returns_whileTrue {body : Nat → σ → Option (Next σ ρ)} (Inv : Nat → σ → Prop) {Post : ρ → Prop}
    (pass : ∀ left s, Inv left s → ∃ next, Returns (fun fuel => body fuel s) next ∧ Progress Inv Post left next)
    {left : Nat} {s : σ} (start : Inv left s) :
    ∃ r, Returns (fun fuel => whileTrue (body fuel) fuel s) r ∧ Post r := by
  -- the body's fuel and the number of passes are one number at the top, but
  -- only the second goes down
  suffices key : ∃ r, (∃ n, ∀ fuel, n ≤ fuel → ∀ passes, n ≤ passes →
      whileTrue (body fuel) passes s = some r) ∧ Post r by
    obtain ⟨r, ⟨n, run⟩, post⟩ := key
    exact ⟨r, ⟨n, fun fuel enough => run fuel enough fuel enough⟩, post⟩
  induction left using Nat.strongRecOn generalizing s with
  | _ left ih =>
    obtain ⟨next, ⟨n, run⟩, progress⟩ := pass left s start
    cases next with
    | done r =>
      refine ⟨r, ⟨n + 1, fun fuel enough passes some => ?_⟩, progress⟩
      obtain ⟨passes, rfl⟩ : ∃ k, passes = k + 1 := ⟨passes - 1, by omega⟩
      simp only [whileTrue, run fuel (by omega)]
    | again s' =>
      obtain ⟨less, smaller, kept⟩ := progress
      obtain ⟨r, ⟨m, rest⟩, post⟩ := ih less smaller kept
      refine ⟨r, ⟨max n m + 1, fun fuel enough passes some => ?_⟩, post⟩
      obtain ⟨passes, rfl⟩ : ∃ k, passes = k + 1 := ⟨passes - 1, by omega⟩
      simp only [whileTrue, run fuel (by omega)]
      exact rest fuel (by omega) passes (by omega)

/-- Partial correctness of a `while (true)`: when the loop returns, every pass
has kept the invariant. -/
theorem whileTrue_post {body : σ → Option (Next σ ρ)} (Inv : σ → Prop) (Post : ρ → Prop)
    (again : ∀ s s', Inv s → body s = some (.again s') → Inv s')
    (done : ∀ s r, Inv s → body s = some (.done r) → Post r)
    {fuel : Nat} {s : σ} {r : ρ} (returned : whileTrue body fuel s = some r) (start : Inv s) : Post r := by
  induction fuel generalizing s with
  | zero => cases returned
  | succ fuel ih =>
    rw [whileTrue] at returned
    split at returned
    · cases returned
    · rename_i s' pass
      exact ih returned (again s s' start pass)
    · rename_i last pass
      cases returned
      exact done s r start pass

/-- A loop that has returned returns the same with more fuel. -/
theorem Returns.of_whileTrue {body : σ → Option (Next σ ρ)} {fuel : Nat} {s : σ} {r : ρ}
    (returned : whileTrue body fuel s = some r) : Returns (fun fuel => whileTrue body fuel s) r := by
  refine ⟨fuel, fun more enough => ?_⟩
  induction fuel generalizing s more with
  | zero => cases returned
  | succ fuel ih =>
    obtain ⟨more, rfl⟩ : ∃ k, more = k + 1 := ⟨more - 1, by omega⟩
    rw [whileTrue] at returned
    simp only [whileTrue]
    split at returned
    · cases returned
    · exact ih returned more (by omega)
    · exact returned

/-- A `for` over `0 .. n-1` whose body always returns. -/
theorem forRange {n : Nat} {body : σ → Nat → σ} (Inv : Nat → σ → Prop)
    (pass : ∀ i, i < n → ∀ s, Inv i s → Inv (i + 1) (body s i)) (s : σ) (start : Inv 0 s) :
    Inv n ((List.range n).foldl body s) := by
  induction n with
  | zero => exact start
  | succ n ih =>
    rw [List.range_succ, List.foldl_append]
    exact pass n (Nat.lt_succ_self n) _ (ih fun i bound => pass i (Nat.lt_succ_of_lt bound))

/-- A `for` over a list whose body always returns; the invariant may speak
about the elements still to come. -/
theorem forEach {xs : List ι} {body : σ → ι → σ} (Inv : List ι → σ → Prop)
    (pass : ∀ x rest s, Inv (x :: rest) s → Inv rest (body s x)) (s : σ) (start : Inv xs s) :
    Inv [] (xs.foldl body s) := by
  induction xs generalizing s with
  | nil => exact start
  | cons x rest ih => exact ih _ (pass x rest s start)

/-- A `for` over a list whose body contains loops of its own. -/
theorem returns_forEach {xs : List ι} {body : Nat → σ → ι → Option σ} (Inv : List ι → σ → Prop)
    (pass : ∀ x rest s, Inv (x :: rest) s → ∃ s', Returns (fun fuel => body fuel s x) s' ∧ Inv rest s')
    (s : σ) (start : Inv xs s) :
    ∃ s', Returns (fun fuel => xs.foldlM (body fuel) s) s' ∧ Inv [] s' := by
  induction xs generalizing s with
  | nil => exact ⟨s, .pure s, start⟩
  | cons x rest ih =>
    obtain ⟨next, run, kept⟩ := pass x rest s start
    obtain ⟨last, later, finished⟩ := ih next kept
    exact ⟨last, (run.bind later).congr fun _ => List.foldlM_cons .., finished⟩

/-- Partial correctness of a `for` over a list: when it returns, every pass has
kept the invariant. -/
theorem forEach_post {xs : List ι} {body : σ → ι → Option σ} (Inv : σ → Prop)
    (pass : ∀ x s s', Inv s → body s x = some s' → Inv s') {s s' : σ} (returned : xs.foldlM body s = some s')
    (start : Inv s) : Inv s' := by
  induction xs generalizing s with
  | nil => exact Option.some.inj returned ▸ start
  | cons x rest ih =>
    rw [List.foldlM_cons] at returned
    obtain ⟨next, run, later⟩ := Option.bind_eq_some_iff.mp returned
    exact ih later (pass x s next start run)

/-- A `for` over `0 .. n-1` whose body contains loops of its own. -/
theorem returns_forRange {n : Nat} {body : Nat → σ → Nat → Option σ} (Inv : Nat → σ → Prop)
    (pass : ∀ i, i < n → ∀ s, Inv i s → ∃ s', Returns (fun fuel => body fuel s i) s' ∧ Inv (i + 1) s')
    (s : σ) (start : Inv 0 s) :
    ∃ s', Returns (fun fuel => (List.range n).foldlM (body fuel) s) s' ∧ Inv n s' := by
  induction n with
  | zero => exact ⟨s, .pure s, start⟩
  | succ n ih =>
    obtain ⟨before, run, kept⟩ := ih fun i bound => pass i (Nat.lt_succ_of_lt bound)
    obtain ⟨last, later, finished⟩ := pass n (Nat.lt_succ_self n) before kept
    refine ⟨last, (run.bind (g := fun fuel s => body fuel s n) later).congr fun fuel => ?_, finished⟩
    rw [List.range_succ, List.foldlM_append]
    simp only [List.foldlM_cons, List.foldlM_nil, bind_pure]
    rfl

/-- Partial correctness of a `for` over `0 .. n-1`. -/
theorem forRange_post {n : Nat} {body : σ → Nat → Option σ} (Inv : Nat → σ → Prop)
    (pass : ∀ i, i < n → ∀ s s', Inv i s → body s i = some s' → Inv (i + 1) s') {s s' : σ}
    (returned : (List.range n).foldlM body s = some s') (start : Inv 0 s) : Inv n s' := by
  induction n generalizing s' with
  | zero => exact Option.some.inj returned ▸ start
  | succ n ih =>
    rw [List.range_succ, List.foldlM_append] at returned
    obtain ⟨before, run, last⟩ := Option.bind_eq_some_iff.mp returned
    simp only [List.foldlM_cons, List.foldlM_nil, bind_pure] at last
    exact pass n (Nat.lt_succ_self n) before s' (ih (fun i bound => pass i (Nat.lt_succ_of_lt bound)) run) last

end FuelLoop
