import Mathlib.Data.List.TakeWhile
import Mathlib.Data.List.Infix

namespace Pattern

universe u
variable {α : Type u}

/-- What stands between the brackets of one capture group. -/
inductive Group (α : Type u)
  | single (kind : α → Bool)
  | repeated (least : Nat) (kind : α → Bool)
  | either (words : List (List α))

/-- A pattern is a sequence of literal texts and capture groups. -/
inductive Piece (α : Type u)
  | literal (text : List α)
  | group (g : Group α)

namespace Group
variable [DecidableEq α]

/-- The lengths that a group may take of the text, in the order in which a
backtracking matcher tries them: a repetition is greedy. -/
def lengths : Group α → List α → List Nat
  | single _, [] => []
  | single kind, c :: _ => if kind c then [1] else []
  | repeated least kind, text => (List.range ((text.takeWhile kind).length + 1)).reverse.filter (least ≤ ·)
  | either words, text => (words.filter (·.isPrefixOf text)).map List.length

end Group

section Matcher
variable [DecidableEq α]

/-- The whole text against the pattern: the first match in the matcher's
order, as the texts of its groups. -/
def fullMatch : List (Piece α) → List α → Option (List (List α))
  | [], [] => some []
  | [], _ :: _ => none
  | .literal word :: rest, text => if word.isPrefixOf text then fullMatch rest (text.drop word.length) else none
  | .group g :: rest, text =>
    (g.lengths text).findSome? fun n => (fullMatch rest (text.drop n)).map (text.take n :: ·)

variable {least : Nat} {kind : α → Bool} {rest : List (Piece α)} {word text : List α} {c : α}

theorem findSome?_only {β γ : Type*} {f : β → Option γ} {a : β} {l : List β} (member : a ∈ l)
    (only : ∀ b ∈ l, b ≠ a → f b = none) : l.findSome? f = f a := by
  cases value : f a with
  | none =>
    rw [List.findSome?_eq_none_iff]
    intro b within
    by_cases same : b = a
    · rw [same, value]
    · exact only b within same
  | some result =>
    induction l with
    | nil => simp at member
    | cons b l ih =>
      by_cases same : b = a
      · rw [List.findSome?_cons, same, value]
      · have later : a ∈ l := (List.mem_cons.mp member).resolve_left (Ne.symm same)
        rw [List.findSome?_cons, only b List.mem_cons_self same]
        exact ih later fun x within => only x (List.mem_cons_of_mem b within)

@[simp] theorem fullMatch_literal (word text : List α) (rest : List (Piece α)) :
    fullMatch (.literal word :: rest) (word ++ text) = fullMatch rest text := by
  simp [fullMatch]

@[simp] theorem fullMatch_literal_nil (text : List α) (rest : List (Piece α)) :
    fullMatch (.literal [] :: rest) text = fullMatch rest text := fullMatch_literal [] text rest

@[simp] theorem fullMatch_literal_cons (c : α) (more text : List α) (rest : List (Piece α)) :
    fullMatch (.literal (c :: more) :: rest) (c :: text) = fullMatch (.literal more :: rest) text := by
  simp [fullMatch]

/-- A text that goes on otherwise than the literal. -/
theorem fullMatch_literal_none (other : ¬word <+: text) : fullMatch (.literal word :: rest) text = none := by
  rw [fullMatch, if_neg (by rwa [List.isPrefixOf_iff_prefix])]

theorem fullMatch_single (fits : kind c = true) :
    fullMatch (.group (.single kind) :: rest) (c :: text) = (fullMatch rest text).map ([c] :: ·) := by
  simp [fullMatch, Group.lengths, fits]

theorem fullMatch_either {words : List (List α)} (member : word ∈ words)
    (only : ∀ other ∈ words, other <+: word ++ text → other = word) :
    fullMatch (.group (.either words) :: rest) (word ++ text) = (fullMatch rest text).map (word :: ·) := by
  have here : word.length ∈ (Group.either words).lengths (word ++ text) := by
    simp only [Group.lengths, List.mem_map, List.mem_filter, List.isPrefixOf_iff_prefix]
    exact ⟨word, ⟨member, List.prefix_append ..⟩, rfl⟩
  rw [fullMatch, findSome?_only here]
  · simp
  · intro n candidate different
    simp only [Group.lengths, List.mem_map, List.mem_filter, List.isPrefixOf_iff_prefix] at candidate
    obtain ⟨other, ⟨known, starts⟩, rfl⟩ := candidate
    exact absurd (congrArg List.length (only other known starts)) different

omit [DecidableEq α] in
theorem length_le_takeWhile (letters : ∀ c ∈ word, kind c = true) :
    word.length ≤ ((word ++ text).takeWhile kind).length := by
  rw [List.takeWhile_append_of_pos letters, List.length_append]
  exact Nat.le_add_right ..

/-- A repetition whose end is certain: everywhere else in the run the rest of
the pattern fails. -/
theorem fullMatch_repeated (letters : ∀ c ∈ word, kind c = true) (long : least ≤ word.length)
    (only : ∀ n, n ≤ ((word ++ text).takeWhile kind).length → n ≠ word.length →
      fullMatch rest ((word ++ text).drop n) = none) :
    fullMatch (.group (.repeated least kind) :: rest) (word ++ text) = (fullMatch rest text).map (word :: ·) := by
  have candidates (n : Nat) : n ∈ (Group.repeated least kind).lengths (word ++ text) ↔
      n ≤ ((word ++ text).takeWhile kind).length ∧ least ≤ n := by
    simp only [Group.lengths, List.mem_filter, List.mem_reverse, List.mem_range, Nat.lt_succ_iff, decide_eq_true_eq]
  rw [fullMatch, findSome?_only ((candidates word.length).mpr ⟨length_le_takeWhile letters, long⟩)]
  · simp
  · intro n candidate different
    rw [only n ((candidates n).mp candidate).1 different, Option.map_none]

/-- A repetition that is followed by a character of another kind ends there. -/
theorem fullMatch_repeated_literal (letters : ∀ c ∈ word, kind c = true) (long : least ≤ word.length)
    (outside : kind c = false) (more : List α) :
    fullMatch (.group (.repeated least kind) :: .literal (c :: more) :: rest) (word ++ c :: text) =
      (fullMatch (.literal (c :: more) :: rest) (c :: text)).map (word :: ·) := by
  refine fullMatch_repeated letters long fun n bound different => fullMatch_literal_none fun starts => ?_
  have run : ((word ++ c :: text).takeWhile kind).length = word.length := by
    rw [List.takeWhile_append_of_pos letters, List.takeWhile_cons_of_neg (by simp [outside]), List.append_nil]
  have inside : n < word.length := by omega
  rw [List.drop_append_of_le_length inside.le, List.drop_eq_getElem_cons inside] at starts
  have first : c = word[n] := (List.cons_prefix_cons.mp starts).1
  have fits := letters word[n] (List.getElem_mem inside)
  rw [← first, outside] at fits
  exact absurd fits (by simp)

/-- A repetition that is followed by a character which stands nowhere else. -/
theorem fullMatch_repeated_absent (letters : ∀ c ∈ word, kind c = true) (long : least ≤ word.length)
    (before : c ∉ word) (after : c ∉ text) (more : List α) :
    fullMatch (.group (.repeated least kind) :: .literal (c :: more) :: rest) (word ++ c :: text) =
      (fullMatch (.literal (c :: more) :: rest) (c :: text)).map (word :: ·) := by
  refine fullMatch_repeated letters long fun n bound different => fullMatch_literal_none fun starts => ?_
  have member : c ∈ (word ++ c :: text).drop n := starts.subset List.mem_cons_self
  rcases Nat.lt_or_gt_of_ne different with inside | beyond
  · rw [List.drop_append_of_le_length inside.le, List.drop_eq_getElem_cons inside] at starts
    exact before ((List.cons_prefix_cons.mp starts).1 ▸ List.getElem_mem inside)
  · have far : (word ++ c :: text).drop n = text.drop (n - word.length - 1) := by
      rw [List.drop_append, List.drop_of_length_le beyond.le, List.nil_append,
        show n - word.length = n - word.length - 1 + 1 by omega, List.drop_succ_cons, Nat.add_sub_cancel]
    rw [far] at member
    exact after (List.mem_of_mem_drop member)

/-- A repetition at the end of the pattern takes all that is left. -/
theorem fullMatch_repeated_end (letters : ∀ c ∈ word, kind c = true) (long : least ≤ word.length) :
    fullMatch [.group (.repeated least kind)] word = some [word] := by
  have whole : fullMatch (.group (.repeated least kind) :: []) (word ++ []) = (fullMatch [] []).map (word :: ·) :=
      fullMatch_repeated letters long fun n bound different => by
    rw [List.append_nil] at bound ⊢
    have inside : n < word.length := by
      have := (List.takeWhile_prefix kind (l := word)).length_le
      omega
    rw [List.drop_eq_getElem_cons inside, fullMatch]
  rwa [List.append_nil] at whole

/-- A repetition that no rest of the text follows. -/
theorem fullMatch_repeated_none (fails : ∀ n, fullMatch rest (text.drop n) = none) :
    fullMatch (.group (.repeated least kind) :: rest) text = none := by
  rw [fullMatch, List.findSome?_eq_none_iff]
  intro n _
  rw [fails n, Option.map_none]

/-- A pattern of one repetition matches letters only. -/
theorem fullMatch_repeated_all {found : List (List α)} (matched : fullMatch [.group (.repeated least kind)] text = some found) :
    ∀ c ∈ text, kind c = true := by
  rw [fullMatch, List.findSome?_eq_some_iff] at matched
  obtain ⟨_, n, _, lengths, here, _⟩ := matched
  have whole : text.length ≤ n := by
    cases left : text.drop n with
    | nil => exact List.drop_eq_nil_iff.mp left
    | cons c more =>
      rw [left] at here
      exact absurd here (by simp [fullMatch])
  have candidate : n ∈ (Group.repeated least kind).lengths text := lengths ▸ by simp
  simp only [Group.lengths, List.mem_filter, List.mem_reverse, List.mem_range, Nat.lt_succ_iff] at candidate
  have run : text.takeWhile kind = text :=
    (List.takeWhile_prefix kind).eq_of_length_le (whole.trans candidate.1)
  exact List.takeWhile_eq_self_iff.mp run

/-- A matched text contains the literals of the pattern. -/
theorem fullMatch_literal_subset {pattern : List (Piece α)} {found : List (List α)} {w : List α}
    (matched : fullMatch pattern text = some found) (member : .literal w ∈ pattern) : w ⊆ text := by
  induction pattern generalizing text found with
  | nil => simp at member
  | cons piece rest ih =>
    cases piece with
    | literal first =>
      rw [fullMatch] at matched
      split at matched
      · rename_i starts
        have starts := List.isPrefixOf_iff_prefix.mp starts
        rcases List.mem_cons.mp member with here | later
        · obtain rfl := Piece.literal.inj here
          exact starts.subset
        · exact List.Subset.trans (ih matched later) (List.drop_subset ..)
      · exact absurd matched (by simp)
    | group g =>
      rw [fullMatch, List.findSome?_eq_some_iff] at matched
      obtain ⟨_, n, _, _, here, _⟩ := matched
      obtain ⟨found', later, _⟩ := Option.map_eq_some_iff.mp here
      exact List.Subset.trans (ih later ((List.mem_cons.mp member).resolve_left (by simp))) (List.drop_subset ..)

end Matcher
end Pattern
