import CatLa.Parser.ModuleText

namespace CatLa
open Outcome Pattern

/-- The same text up to spaces. -/
def SameText (code code' : Text) : Prop := code.filter (· ≠ ' ') = code'.filter (· ≠ ' ')

/-- The same result, with texts left that are the same up to spaces, or the same
exception. -/
def SameOutcome {α : Type} : Except ParseFailure (α × Text) → Except ParseFailure (α × Text) → Prop :=
  Agree fun result result' => result.1 = result'.1 ∧ SameText result.2 result'.2

section Cursor
variable {α : Type} {p q : α → Bool}

/-- What is deleted does not end the run that it stands in. -/
theorem filter_takeWhile (inside : ∀ c, q c = false → p c = true) (text : List α) :
    (text.takeWhile p).filter q = (text.filter q).takeWhile p := by
  induction text with
  | nil => rfl
  | cons c text ih =>
    by_cases run : p c = true
    · rw [List.takeWhile_cons_of_pos run]
      by_cases stays : q c = true
      · rw [List.filter_cons_of_pos stays, List.filter_cons_of_pos stays, List.takeWhile_cons_of_pos run, ih]
      · rw [List.filter_cons_of_neg stays, List.filter_cons_of_neg stays, ih]
    · have stays : q c = true := by
        by_contra deleted
        exact run (inside c (by simpa using deleted))
      rw [List.takeWhile_cons_of_neg run, List.filter_cons_of_pos stays, List.takeWhile_cons_of_neg run, List.filter_nil]

theorem filter_dropWhile (inside : ∀ c, q c = false → p c = true) (text : List α) :
    (text.dropWhile p).filter q = (text.filter q).dropWhile p := by
  induction text with
  | nil => rfl
  | cons c text ih =>
    by_cases run : p c = true
    · rw [List.dropWhile_cons_of_pos run]
      by_cases stays : q c = true
      · rw [List.filter_cons_of_pos stays, List.dropWhile_cons_of_pos run, ih]
      · rw [List.filter_cons_of_neg stays, ih]
    · have stays : q c = true := by
        by_contra deleted
        exact run (inside c (by simpa using deleted))
      rw [List.dropWhile_cons_of_neg run, List.filter_cons_of_pos stays, List.dropWhile_cons_of_neg run]

variable {code code' : Text}

theorem moveUntilNextLine_filter (code : Text) : (moveUntilNextLine code).1 = (code.filter (· ≠ ' ')).takeWhile (· ≠ '\n') ∧
    (moveUntilNextLine code).2.filter (· ≠ ' ') = ((code.filter (· ≠ ' ')).dropWhile (· ≠ '\n')).drop 1 := by
  have space (c : Char) (deleted : decide (c ≠ ' ') = false) : decide (c ≠ '\n') = true := by
    obtain rfl : c = ' ' := by simpa using deleted
    rfl
  refine ⟨filter_takeWhile space code, ?_⟩
  rw [moveUntilNextLine, ← filter_dropWhile space]
  cases behind : code.dropWhile (· ≠ '\n') with
  | nil => rfl
  | cons c rest =>
    have stop : ¬decide (c ≠ '\n') = true := by
      have head := List.head?_dropWhile_not (decide <| · ≠ '\n') code
      rw [behind] at head
      simpa using head
    obtain rfl : c = '\n' := by simpa using stop
    rw [List.filter_cons_of_pos (by decide), List.drop_one, List.drop_one, List.tail_cons, List.tail_cons]

theorem SameText.next (same : SameText code code') : (moveUntilNextLine code).1 = (moveUntilNextLine code').1 ∧
    SameText (moveUntilNextLine code).2 (moveUntilNextLine code').2 := by
  obtain ⟨line, left⟩ := moveUntilNextLine_filter code
  obtain ⟨line', left'⟩ := moveUntilNextLine_filter code'
  unfold SameText at same ⊢
  exact ⟨by rw [line, line', same], by rw [left, left', same]⟩

end Cursor

section Loop
variable {σ : Type} {last : Text} {body : LineBody σ} {s : σ} {code code' : Text}

/-- The loop runs through spaces to the end. -/
theorem forLines_spaces (closing : last ≠ []) (blank : code.filter (· ≠ ' ') = []) : forLines last body s code = .ok (s, []) := by
  by_cases more : code = []
  · rw [forLines, dif_pos more]
  · obtain ⟨line, left⟩ := moveUntilNextLine_filter code
    rw [blank] at line left
    have rest : (moveUntilNextLine code).2 = [] := by
      have spaces (c : Char) (member : c ∈ code) : decide (c ≠ '\n') = true := by
        have space : c = ' ' := by simpa using List.filter_eq_nil_iff.mp blank c member
        rw [space]
        rfl
      rw [moveUntilNextLine, List.dropWhile_eq_nil_iff.mpr spaces]
      rfl
    rw [List.takeWhile_nil] at line
    rw [forLines_pass more (Prod.ext line rest), if_neg closing.symm, if_pos rfl, forLines, dif_pos rfl]

/-- A body that gives the same outcome on the same text gives it to its loop. -/
theorem forLines_sameOutcome (closing : last ≠ [])
    (each : ∀ s line code code', SameText code code' → SameOutcome (body.run s line code) (body.run s line code'))
    (same : SameText code code') : SameOutcome (forLines last body s code) (forLines last body s code') := by
  induction length : code.length using Nat.strongRecOn generalizing s code code' with
  | _ n ih =>
    by_cases blank : code.filter (· ≠ ' ') = []
    · rw [forLines_spaces closing blank, forLines_spaces closing (same ▸ blank)]
      exact ⟨rfl, rfl⟩
    · have more : code ≠ [] := fun none => blank (by rw [none]; rfl)
      have more' : code' ≠ [] := fun none => blank (by rw [same, none]; rfl)
      obtain ⟨sameLine, sameLeft⟩ := same.next
      have shorter := moveUntilNextLine_length more
      obtain ⟨line, left, moved⟩ : ∃ line left, moveUntilNextLine code = (line, left) := ⟨_, _, rfl⟩
      obtain ⟨line', left', moved'⟩ : ∃ line left, moveUntilNextLine code' = (line, left) := ⟨_, _, rfl⟩
      rw [moved, moved'] at sameLine sameLeft
      rw [moved] at shorter
      dsimp only at sameLine sameLeft shorter
      subst sameLine
      rw [forLines_pass more moved, forLines_pass more' moved']
      split
      · exact ⟨rfl, sameLeft⟩
      · split
        · exact ih left.length (by omega) sameLeft rfl
        · refine Agree.bind (each s line left left' sameLeft) fun result result' run related => ?_
          obtain ⟨s₁, rest⟩ := result
          obtain ⟨s₁', rest'⟩ := result'
          obtain ⟨rfl, sameRest⟩ := related
          have advanced := body.advances run
          exact ih rest.length (by omega) sameRest rfl

theorem ofLine_sameOutcome (read : σ → Text → Except ParseFailure σ) (s : σ) (line : Text) (same : SameText code code') :
    SameOutcome ((LineBody.ofLine read).run s line code) ((LineBody.ofLine read).run s line code') := by
  rw [LineBody.ofLine_run, LineBody.ofLine_run]
  cases read s line with
  | error failure => rfl
  | ok s' => exact ⟨rfl, same⟩

/-- A table is made of what the loop has read. -/
theorem table_sameOutcome {π : Type} {loop loop' : Except ParseFailure (List (Nat × π) × Text)} (library : StandardLibrary)
    (size : Nat) (same : SameOutcome loop loop') :
    SameOutcome (loop >>= fun result => tableOf library size result.1 >>= fun table => .ok (table, result.2))
      (loop' >>= fun result => tableOf library size result.1 >>= fun table => .ok (table, result.2)) := by
  refine Agree.bind same fun result result' _ related => ?_
  rw [← related.1]
  refine Agree.bind (Agree.self (R := Eq) (fun _ => rfl) (tableOf library size result.1)) fun table table' _ equal => ?_
  exact ⟨equal, related.2⟩

end Loop

section Sections
variable {code code' : Text} (library : StandardLibrary) (constValues : List ConstValue)

theorem parseOrders_sameOutcome (same : SameText code code') :
    SameOutcome (parseOrders constValues code) (parseOrders constValues code') :=
  forLines_sameOutcome (by decide) (fun s line _ _ same => ofLine_sameOutcome _ s line same) same

theorem readLabelBlock_sameOutcome (labelBlocks : List LabelBlock) (line : Text) (same : SameText code code') :
    SameOutcome (readLabelBlock constValues labelBlocks line code) (readLabelBlock constValues labelBlocks line code') := by
  unfold readLabelBlock
  split
  · refine Agree.bind (parseOrders_sameOutcome constValues same) fun result result' _ related => ?_
    exact ⟨by rw [related.1], related.2⟩
  · rfl

theorem parseLabelBlocks_sameOutcome (same : SameText code code') :
    SameOutcome (parseLabelBlocks constValues code) (parseLabelBlocks constValues code') :=
  forLines_sameOutcome (by decide) (fun labelBlocks line _ _ same => readLabelBlock_sameOutcome constValues labelBlocks line same)
    same

theorem readFunction_sameOutcome (functionMap : List (Nat × VMFunction)) (line : Text) (same : SameText code code') :
    SameOutcome (readFunction library constValues functionMap line code)
      (readFunction library constValues functionMap line code') := by
  have self {α : Type} (m : Except ParseFailure α) : Agree Eq m m := Agree.self (fun _ => rfl) m
  unfold readFunction
  split
  · refine Agree.bind (self _) fun index _ _ equal => equal ▸ ?_
    refine Agree.bind (self _) fun name _ _ equal => equal ▸ ?_
    refine Agree.bind (self _) fun variablesSize _ _ equal => equal ▸ ?_
    refine Agree.bind (self _) fun registersSize _ _ equal => equal ▸ ?_
    refine Agree.bind (self _) fun argMap _ _ equal => equal ▸ ?_
    refine Agree.bind (self _) fun returnTypeInfo _ _ equal => equal ▸ ?_
    refine Agree.bind (self _) fun argumentTypes _ _ equal => equal ▸ ?_
    refine Agree.bind (parseLabelBlocks_sameOutcome constValues same) fun result result' _ related => ?_
    exact ⟨by rw [related.1], related.2⟩
  · rfl

/-- On the same text up to spaces every section but that of the constants has
the same outcome. -/
theorem sections_spaces (moduleName : Text) (same : SameText code code') :
    SameOutcome (parseImport library moduleName constValues code) (parseImport library moduleName constValues code') ∧
      SameOutcome (parseTypeDefine constValues code) (parseTypeDefine constValues code') ∧
      SameOutcome (parseType library code) (parseType library code') ∧
      SameOutcome (parseFunction library constValues code) (parseFunction library constValues code') := by
  have lines {σ : Type} (read : σ → Text → Except ParseFailure σ) (s : σ) :
      SameOutcome (forLines END (.ofLine read) s code) (forLines END (.ofLine read) s code') :=
    forLines_sameOutcome (by decide) (fun s line _ _ same => ofLine_sameOutcome read s line same) same
  refine ⟨table_sameOutcome _ _ (lines _ _), lines _ _, table_sameOutcome _ _ (lines _ _), table_sameOutcome _ _ ?_⟩
  exact forLines_sameOutcome (by decide)
    (fun functionMap line _ _ same => readFunction_sameOutcome library constValues functionMap line same) same

theorem sections_spaces_indented :
    SameOutcome (parseType plainLibrary "0:0:1\n$end\n".toList) (parseType plainLibrary "  0 : 0:1 \n $end\n ".toList) :=
  (sections_spaces _ [] [] (by unfold SameText; decide +kernel)).2.2.1

end Sections
end CatLa
