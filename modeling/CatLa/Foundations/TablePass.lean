import CatLa.Foundations.Outcome

namespace TablePass
open Outcome

universe u v w
variable {ε : Type u} {S K : Type v} {M X : Type w} [DecidableEq K] {find : S → K → Option M}

/-- What a pass sees of the table: of every entry the part that no pass of this
kind changes. -/
def viewOf (look : M → X) (entries : K → Option M) (k : K) : Option X := (entries k).map look

/-- The table after the entries in `changed` have been replaced. -/
def replaced (next : K → M → M) (changed : K → Prop) [DecidablePred changed] (entries : K → Option M) (k : K) : Option M :=
  (entries k).map fun m => if changed k then next k m else m

omit [DecidableEq K] in
theorem replaced_of (next : K → M → M) {changed : K → Prop} [DecidablePred changed] (entries : K → Option M) {k : K}
    (here : changed k) : replaced next changed entries k = (entries k).map (next k) := by
  simp [replaced, here]

omit [DecidableEq K] in
theorem replaced_of_not (next : K → M → M) {changed : K → Prop} [DecidablePred changed] (entries : K → Option M) {k : K}
    (other : ¬changed k) : replaced next changed entries k = entries k := by
  simp [replaced, other]

omit [DecidableEq K] in
@[simp] theorem isSome_replaced (next : K → M → M) (changed : K → Prop) [DecidablePred changed] (entries : K → Option M) (k : K) :
    (replaced next changed entries k).isSome = (entries k).isSome := by
  simp [replaced]

omit [DecidableEq K] in
theorem viewOf_replaced {look : M → X} {change : K → M → M} (steady : ∀ k m, look (change k m) = look m)
    (changed : K → Prop) [DecidablePred changed] (entries : K → Option M) :
    viewOf look (replaced change changed entries) = viewOf look entries := by
  funext k
  simp only [viewOf, replaced, Option.map_map]
  refine congrFun (congrArg Option.map (funext fun m => ?_)) _
  simp only [Function.comp_apply]
  split
  · exact steady k m
  · rfl

omit [DecidableEq K] in
/-- Which decision procedure is taken does not matter. -/
theorem replaced_decide (next : K → M → M) {changed : K → Prop} (decide decide' : DecidablePred changed)
    (entries : K → Option M) : @replaced K M next changed decide entries = @replaced K M next changed decide' entries := by
  rw [Subsingleton.elim decide decide']

omit [DecidableEq K] in
/-- Only which entries are replaced matters, not in which order. -/
theorem replaced_members {change change' : K → M → M} {changed changed' : K → Prop} [DecidablePred changed]
    [DecidablePred changed'] {entries entries' : K → Option M} (same : ∀ k, changed k ↔ changed' k) (changes : change = change')
    (tables : entries = entries') : replaced change changed entries = replaced change' changed' entries' := by
  subst changes tables
  funext k
  by_cases here : changed k
  · rw [replaced_of _ _ here, replaced_of _ _ ((same k).mp here)]
  · rw [replaced_of_not _ _ here, replaced_of_not _ _ (mt (same k).mpr here)]

variable (find) (look : M → X) (next : (K → Option X) → K → M → M) {body : S → K → Except ε S}

theorem replaced_replaced (change : K → M → M) {name : K} {names : List K} (fresh : name ∉ names) (entries : K → Option M) :
    replaced change (· ∈ names) (replaced change (· = name) entries) = replaced change (· ∈ name :: names) entries := by
  funext k
  simp only [replaced, Option.map_map]
  refine congrFun (congrArg Option.map (funext fun m => ?_)) _
  by_cases here : k = name
  · subst here
    simp [fresh]
  · simp [here]

omit [DecidableEq K] in
theorem replaced_same (changed : K → Prop) [DecidablePred changed] (entries : K → Option M) :
    replaced (fun _ m => m) changed entries = entries := by
  funext k
  simp [replaced]

omit [DecidableEq K] in
theorem replaced_comp (change change' : K → M → M) (changed : K → Prop) [DecidablePred changed] (entries : K → Option M) :
    replaced change' changed (replaced change changed entries) =
      replaced (fun k m => change' k (change k m)) changed entries := by
  funext k
  simp only [replaced, Option.map_map]
  refine congrFun (congrArg Option.map (funext fun m => ?_)) _
  by_cases here : changed k <;> simp [here]

theorem replaced_congr {change change' : K → M → M} {name : K} {entries : K → Option M}
    (same : ∀ m, entries name = some m → change name m = change' name m) :
    replaced change (· = name) entries = replaced change' (· = name) entries := by
  funext k
  by_cases here : k = name
  · subst here
    cases found : entries k with
    | none => simp [replaced, found]
    | some m => simp [replaced, found, same m found]
  · simp [replaced, here]

/-- A pass over distinct entries that changes only the entry it is at, and sees
of the others only what stays: every entry is replaced by itself. -/
theorem foldlM_run (steady : ∀ view k m, look (next view k m) = look m)
    (step : ∀ {s k s'}, body s k = .ok s' → find s' = replaced (next (viewOf look (find s))) (· = k) (find s))
    {names : List K} [decide : DecidablePred (· ∈ names)] (distinct : names.Nodup) {s s' : S}
    (run : names.foldlM body s = .ok s') : find s' = replaced (next (viewOf look (find s))) (· ∈ names) (find s) := by
  refine Eq.trans ?_ (replaced_decide _ (fun k => List.instDecidableMemOfLawfulBEq k names) decide _)
  clear decide
  induction names generalizing s with
  | nil =>
    obtain rfl := Except.ok.inj run
    funext k
    simp [replaced]
  | cons name names ih =>
    obtain ⟨fresh, distinct⟩ := List.nodup_cons.mp distinct
    rw [List.foldlM_cons] at run
    obtain ⟨s₁, first, later⟩ := bind_eq_ok.mp run
    have changed := step first
    have view : viewOf look (find s₁) = viewOf look (find s) := by rw [changed, viewOf_replaced (steady _)]
    rw [ih distinct later, view, changed, replaced_replaced _ fresh]

/-- Such a pass returns when every entry is ready for it, and keeps what each
of its steps keeps. -/
theorem returns_foldlM {Ready : (K → Option X) → K → M → Prop} {W : Type w} {kept : S → W}
    (steady : ∀ view k m, look (next view k m) = look m)
    (step : ∀ {s k s'}, body s k = .ok s' → find s' = replaced (next (viewOf look (find s))) (· = k) (find s))
    (returns : ∀ s k m, find s k = some m → Ready (viewOf look (find s)) k m → ∃ s', body s k = .ok s' ∧ kept s' = kept s)
    {names : List K} (distinct : names.Nodup) {s : S}
    (ready : ∀ k ∈ names, ∃ m, find s k = some m ∧ Ready (viewOf look (find s)) k m) :
    ∃ s', names.foldlM body s = .ok s' ∧ kept s' = kept s := by
  induction names generalizing s with
  | nil => exact ⟨s, rfl, rfl⟩
  | cons name names ih =>
    obtain ⟨fresh, distinct⟩ := List.nodup_cons.mp distinct
    obtain ⟨m, found, readyHere⟩ := ready name List.mem_cons_self
    obtain ⟨s₁, run, same⟩ := returns s name m found readyHere
    have changed := step run
    have view : viewOf look (find s₁) = viewOf look (find s) := by rw [changed, viewOf_replaced (steady _)]
    obtain ⟨s', later, same'⟩ := ih distinct (s := s₁) fun k member => by
      obtain ⟨m, found, readyThere⟩ := ready k (List.mem_cons_of_mem name member)
      have other : k ≠ name := fun same => fresh (same ▸ member)
      refine ⟨m, ?_, view ▸ readyThere⟩
      rw [changed, replaced, found]
      simp [other]
    exact ⟨s', by rw [List.foldlM_cons, run]; exact later, same'.trans same⟩

end TablePass
