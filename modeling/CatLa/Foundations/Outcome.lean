import Mathlib.Data.List.Induction

namespace Outcome

universe u v w
variable {ε : Type u} {α β : Type v} {ι : Type w}

@[simp] theorem ok_bind (a : α) (f : α → Except ε β) : (Except.ok a >>= f) = f a := rfl

@[simp] theorem error_bind (e : ε) (f : α → Except ε β) : ((Except.error e : Except ε α) >>= f) = .error e := rfl

/-- A sequence that returns: its first part has returned, and the rest from
there. -/
theorem bind_eq_ok {x : Except ε α} {f : α → Except ε β} {b : β} :
    (x >>= f) = .ok b ↔ ∃ a, x = .ok a ∧ f a = .ok b := by
  cases x with
  | error e => simp
  | ok a => simp

theorem map_eq_ok {x : Except ε α} {f : α → β} {b : β} : x.map f = .ok b ↔ ∃ a, x = .ok a ∧ f a = b := by
  cases x with
  | error e => simp [Except.map]
  | ok a => simp [Except.map]

theorem mapM_range {f : Nat → Except ε α} {values : List α}
    (each : ∀ i value, values[i]? = some value → f i = .ok value) :
    (List.range values.length).mapM f = .ok values := by
  induction values using List.reverseRecOn with
  | nil => rfl
  | append_singleton before last ih =>
    have earlier := ih fun i value at_i => each i value (List.getElem?_append_left (List.getElem?_eq_some_iff.mp at_i).1 ▸ at_i)
    have final : f before.length = .ok last := each before.length last (by simp)
    rw [List.length_append, List.length_singleton, List.range_succ, List.mapM_append, earlier]
    simp only [List.mapM_cons, List.mapM_nil, final]
    rfl

/-- A `mapM` that returns applies to every element what its body returns. -/
theorem mapM_run {f : ι → Except ε α} {g : ι → α} (each : ∀ x y, f x = .ok y → y = g x) {xs : List ι} {ys : List α}
    (run : xs.mapM f = .ok ys) : ys = xs.map g := by
  induction xs generalizing ys with
  | nil => exact (Except.ok.inj run).symm
  | cons x xs ih =>
    rw [List.mapM_cons] at run
    obtain ⟨y, first, run⟩ := bind_eq_ok.mp run
    obtain ⟨ys', later, same⟩ := bind_eq_ok.mp run
    rw [← Except.ok.inj same, each x y first, ih later, List.map_cons]

theorem mapM_ok {f : ι → Except ε α} {g : ι → α} {xs : List ι} (each : ∀ x ∈ xs, f x = .ok (g x)) :
    xs.mapM f = .ok (xs.map g) := by
  induction xs with
  | nil => rfl
  | cons x xs ih =>
    rw [List.mapM_cons, each x List.mem_cons_self, ok_bind, ih fun y member => each y (List.mem_cons_of_mem x member)]
    rfl

theorem mem_of_mapM {f : ι → Except ε α} {xs : List ι} {ys : List α} (run : xs.mapM f = .ok ys) {y : α} (member : y ∈ ys) :
    ∃ x, f x = .ok y := by
  induction xs generalizing ys with
  | nil =>
    rw [← Except.ok.inj run] at member
    exact absurd member (by simp)
  | cons x xs ih =>
    rw [List.mapM_cons] at run
    obtain ⟨first, here, run⟩ := bind_eq_ok.mp run
    obtain ⟨others, later, same⟩ := bind_eq_ok.mp run
    rw [← Except.ok.inj same] at member
    rcases List.mem_cons.mp member with rfl | member
    · exact ⟨x, here⟩
    · exact ih later member

theorem each_of_mapM {f : ι → Except ε α} {xs : List ι} {ys : List α} (run : xs.mapM f = .ok ys) {x : ι} (member : x ∈ xs) :
    ∃ y, f x = .ok y := by
  induction xs generalizing ys with
  | nil => exact absurd member List.not_mem_nil
  | cons x' xs ih =>
    rw [List.mapM_cons] at run
    obtain ⟨first, here, run⟩ := bind_eq_ok.mp run
    obtain ⟨others, later, _⟩ := bind_eq_ok.mp run
    rcases List.mem_cons.mp member with rfl | member
    · exact ⟨first, here⟩
    · exact ih later member

theorem mapM_returns {f : ι → Except ε α} {xs : List ι} (each : ∀ x ∈ xs, ∃ y, f x = .ok y) : ∃ ys, xs.mapM f = .ok ys := by
  induction xs with
  | nil => exact ⟨[], rfl⟩
  | cons x xs ih =>
    obtain ⟨y, first⟩ := each x List.mem_cons_self
    obtain ⟨ys, later⟩ := ih fun z member => each z (List.mem_cons_of_mem x member)
    exact ⟨y :: ys, by rw [List.mapM_cons, first, ok_bind, later]; rfl⟩

/-- A postcondition of a loop that returns, over the elements that are left. -/
theorem foldlM_post {P : List ι → β → Prop} {body : β → ι → Except ε β}
    (step : ∀ x rest s s', P (x :: rest) s → body s x = .ok s' → P rest s') {xs : List ι} {s s' : β}
    (run : xs.foldlM body s = .ok s') (start : P xs s) : P [] s' := by
  induction xs generalizing s with
  | nil => exact Except.ok.inj run ▸ start
  | cons x xs ih =>
    rw [List.foldlM_cons] at run
    obtain ⟨s₁, first, later⟩ := bind_eq_ok.mp run
    exact ih later (step x xs s s₁ start first)

theorem foldlM_returns {P : List ι → β → Prop} {body : β → ι → Except ε β}
    (step : ∀ x rest s, P (x :: rest) s → ∃ s', body s x = .ok s' ∧ P rest s') {xs : List ι} {s : β}
    (start : P xs s) : ∃ s', xs.foldlM body s = .ok s' ∧ P [] s' := by
  induction xs generalizing s with
  | nil => exact ⟨s, rfl, start⟩
  | cons x xs ih =>
    obtain ⟨s₁, first, kept⟩ := step x xs s start
    obtain ⟨s', later, kept'⟩ := ih kept
    exact ⟨s', by rw [List.foldlM_cons, first]; exact later, kept'⟩

/-- Where an invariant is kept, every element is met in a state that has it. -/
theorem foldlM_visits {P : β → Prop} {body : β → ι → Except ε β} (keeps : ∀ x s s', P s → body s x = .ok s' → P s')
    {xs : List ι} {s s' : β} (run : xs.foldlM body s = .ok s') (start : P s) {x : ι} (member : x ∈ xs) :
    ∃ s₁ s₂, P s₁ ∧ body s₁ x = .ok s₂ := by
  induction xs generalizing s with
  | nil => exact absurd member List.not_mem_nil
  | cons y xs ih =>
    rw [List.foldlM_cons] at run
    obtain ⟨s₁, first, later⟩ := bind_eq_ok.mp run
    rcases List.mem_cons.mp member with rfl | member
    · exact ⟨s, s₁, start, first⟩
    · exact ih later (keeps y s s₁ start first) member

/-- A loop whose body returns on good elements and exits on the others. -/
theorem foldlM_decides {P : List ι → β → Prop} {Good : ι → Prop} {E : ε → Prop} {body : β → ι → Except ε β}
    (step : ∀ x rest s, P (x :: rest) s →
      (∃ s', body s x = .ok s' ∧ P rest s' ∧ Good x) ∨ ∃ e, body s x = .error e ∧ E e ∧ ¬Good x)
    {xs : List ι} {s : β} (start : P xs s) :
    (∃ s', xs.foldlM body s = .ok s' ∧ ∀ x ∈ xs, Good x) ∨ ∃ e, xs.foldlM body s = .error e ∧ E e ∧ ∃ x ∈ xs, ¬Good x := by
  induction xs generalizing s with
  | nil => exact .inl ⟨s, rfl, fun x member => absurd member List.not_mem_nil⟩
  | cons x xs ih =>
    rw [List.foldlM_cons]
    rcases step x xs s start with ⟨s₁, first, kept, good⟩ | ⟨e, exit, ends, bad⟩
    · rw [first, ok_bind]
      rcases ih kept with ⟨s', later, others⟩ | ⟨e, exit, ends, y, member, bad⟩
      · exact .inl ⟨s', later, List.forall_mem_cons.mpr ⟨good, others⟩⟩
      · exact .inr ⟨e, exit, ends, y, List.mem_cons_of_mem x member, bad⟩
    · rw [exit]
      exact .inr ⟨e, rfl, ends, x, List.mem_cons_self, bad⟩

/-- What holds when a computation ends: of its result, or of its exception. -/
def Ends (E : ε → Prop) (Q : α → Prop) : Except ε α → Prop
  | .ok a => Q a
  | .error e => E e

theorem Ends.bind {E : ε → Prop} {Q : α → Prop} {R : β → Prop} {x : Except ε α} {f : α → Except ε β} (first : Ends E Q x)
    (rest : ∀ a, Q a → Ends E R (f a)) : Ends E R (x >>= f) := by
  cases x with
  | ok a => exact rest a first
  | error e => exact first

theorem Ends.of_bind {E : ε → Prop} {R : β → Prop} {x : Except ε α} {f : α → Except ε β} (run : Ends E R (x >>= f)) :
    Ends E (fun _ => True) x := by
  cases x with
  | ok a => trivial
  | error e => exact run

theorem Ends.mono {E E' : ε → Prop} {Q R : α → Prop} {x : Except ε α} (run : Ends E Q x) (exits : ∀ e, E e → E' e)
    (results : ∀ a, Q a → R a) : Ends E' R x := by
  cases x with
  | ok a => exact results a run
  | error e => exact exits e run

theorem Ends.foldlM {E : ε → Prop} {Q : List ι → β → Prop} {body : β → ι → Except ε β}
    (step : ∀ x rest s, Q (x :: rest) s → Ends E (Q rest) (body s x)) {xs : List ι} {s : β} (start : Q xs s) :
    Ends E (Q []) (xs.foldlM body s) := by
  induction xs generalizing s with
  | nil => exact start
  | cons x xs ih =>
    rw [List.foldlM_cons]
    exact (step x xs s start).bind fun s' kept => ih kept

theorem Ends.mapM {E : ε → Prop} {f : ι → Except ε α} {xs : List ι} (each : ∀ x ∈ xs, Ends E (fun _ => True) (f x)) :
    Ends E (fun _ => True) (xs.mapM f) := by
  induction xs with
  | nil => trivial
  | cons x xs ih =>
    rw [List.mapM_cons]
    exact (each x List.mem_cons_self).bind fun _ _ => (ih fun y member => each y (List.mem_cons_of_mem x member)).bind
      fun _ _ => trivial

/-- A loop over `0 .. n-1` ends well exactly if each of its rounds does so that
the rounds before it come to. -/
theorem ends_mapM_range {E : ε → Prop} {f : Nat → Except ε α} {n : Nat} :
    Ends E (fun _ => True) ((List.range n).mapM f) ↔
      ∀ i < n, (∀ j < i, ∃ a, f j = .ok a) → Ends E (fun _ => True) (f i) := by
  have from_ (start n : Nat) : Ends E (fun _ => True) ((List.range' start n).mapM f) ↔
      ∀ i, start ≤ i → i < start + n → (∀ j, start ≤ j → j < i → ∃ a, f j = .ok a) → Ends E (fun _ => True) (f i) := by
    induction n generalizing start with
    | zero => exact iff_of_true trivial fun i lower upper => absurd upper (by omega)
    | succ n ih =>
      rw [List.range'_succ, List.mapM_cons]
      cases first : f start with
      | error e =>
        refine ⟨fun ends i lower upper before => ?_, fun each => ?_⟩
        · rcases Nat.eq_or_lt_of_le lower with rfl | later
          · rw [first]
            exact ends
          · obtain ⟨a, same⟩ := before start (Nat.le_refl _) later
            cases first.symm.trans same
        · have here := each start (Nat.le_refl _) (by omega) fun j lower upper => absurd upper (by omega)
          rw [first] at here
          exact here
      | ok a =>
        have rest : Ends E (fun _ => True) ((List.range' (start + 1) n).mapM f >>= fun as => pure (a :: as)) ↔
            Ends E (fun _ => True) ((List.range' (start + 1) n).mapM f) := by
          cases (List.range' (start + 1) n).mapM f <;> exact Iff.rfl
        rw [ok_bind, rest, ih]
        refine ⟨fun each i lower upper before => ?_, fun each i lower upper before => ?_⟩
        · rcases Nat.eq_or_lt_of_le lower with rfl | later
          · rw [first]
            trivial
          · exact each i later (by omega) fun j above => before j (by omega)
        · refine each i (by omega) (by omega) fun j above below => ?_
          rcases Nat.eq_or_lt_of_le above with rfl | later
          · exact ⟨a, first⟩
          · exact before j later below
  rw [List.range_eq_range', from_]
  simp only [Nat.zero_le, true_imp_iff, Nat.zero_add]

/-- Two loops over `0 .. n-1` with the same rounds, as far as they come. -/
theorem mapM_range_congr {f g : Nat → Except ε α} {n : Nat}
    (same : ∀ i < n, (∀ j < i, ∃ a, f j = .ok a) → f i = g i) : (List.range n).mapM f = (List.range n).mapM g := by
  have from_ (start n : Nat)
      (same : ∀ i, start ≤ i → i < start + n → (∀ j, start ≤ j → j < i → ∃ a, f j = .ok a) → f i = g i) :
      (List.range' start n).mapM f = (List.range' start n).mapM g := by
    induction n generalizing start with
    | zero => rfl
    | succ n ih =>
      have here := same start (Nat.le_refl _) (by omega) fun j lower upper => absurd upper (by omega)
      rw [List.range'_succ, List.mapM_cons, List.mapM_cons, ← here]
      cases first : f start with
      | error e => rfl
      | ok a =>
        rw [ok_bind, ok_bind, ih]
        intro i lower upper before
        refine same i (by omega) (by omega) fun j above below => ?_
        rcases Nat.eq_or_lt_of_le above with rfl | later
        · exact ⟨a, first⟩
        · exact before j later below
  rw [List.range_eq_range']
  exact from_ 0 n fun i _ upper before => same i (by omega) fun j => before j (Nat.zero_le j)

section Agreement
universe x y
variable {γ : Type x} {δ : Type y} {γ' : Type x} {δ' : Type y}

/-- Two computations that end alike: with results that `R` relates, or with the
same exception. -/
def Agree (R : γ → δ → Prop) : Except ε γ → Except ε δ → Prop
  | .ok a, .ok b => R a b
  | .error e, .error e' => e = e'
  | _, _ => False

variable {R : γ → δ → Prop} {R' : γ' → δ' → Prop} {m : Except ε γ} {n : Except ε δ}

theorem Agree.bind {f : γ → Except ε γ'} {g : δ → Except ε δ'} (first : Agree R m n)
    (rest : ∀ a b, m = .ok a → R a b → Agree R' (f a) (g b)) : Agree R' (m >>= f) (n >>= g) := by
  cases m with
  | ok a =>
    cases n with
    | ok b => exact rest a b rfl first
    | error e => exact first.elim
  | error e =>
    cases n with
    | ok b => exact first.elim
    | error e' => exact first

theorem Agree.ends {E : ε → Prop} (agree : Agree (fun _ _ => True) m n) :
    Ends E (fun _ => True) m ↔ Ends E (fun _ => True) n := by
  cases m with
  | ok a =>
    cases n with
    | ok b => exact Iff.rfl
    | error e => exact agree.elim
  | error e =>
    cases n with
    | ok b => exact agree.elim
    | error e' =>
      obtain rfl : e = e' := agree
      exact Iff.rfl

theorem Agree.error_iff (agree : Agree R m n) {e : ε} : m = .error e ↔ n = .error e := by
  cases m with
  | ok a =>
    cases n with
    | ok b => simp
    | error e => exact agree.elim
  | error e' =>
    cases n with
    | ok b => exact agree.elim
    | error e'' =>
      obtain rfl : e' = e'' := agree
      simp

theorem Agree.self {R : γ → γ → Prop} (same : ∀ a, R a a) (m : Except ε γ) : Agree R m m := by
  cases m with
  | ok a => exact same a
  | error e => rfl

end Agreement

end Outcome
