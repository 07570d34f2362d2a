import CatLa.Parser.Scanner

namespace CatLa
open Outcome

variable {σ : Type}

/-- What a section does with a line that is neither empty nor its last one. The
cursor does not go back. -/
structure LineBody (σ : Type) where
  run : σ → Text → Text → Except ParseFailure (σ × Text)
  advances : ∀ {s s' line code left}, run s line code = .ok (s', left) → left.length ≤ code.length

/-- A body that leaves the cursor behind its line. -/
def LineBody.ofLine (read : σ → Text → Except ParseFailure σ) : LineBody σ where
  run s line code := (read s line).map (·, code)
  advances run := by
    obtain ⟨_, _, same⟩ := map_eq_ok.mp run
    rw [(Prod.mk.inj same).2]

theorem LineBody.ofLine_run (read : σ → Text → Except ParseFailure σ) (s : σ) (line code : Text) :
    (LineBody.ofLine read).run s line code = (read s line).map (·, code) := rfl

/-- The loop that all sections but `$const` share: up to the end of the code,
or to the line `last`. -/
def forLines (last : Text) (body : LineBody σ) (s : σ) (code : Text) : Except ParseFailure (σ × Text) :=
  if more : code = [] then .ok (s, [])
  else
    have shorter := moveUntilNextLine_length more
    let next := moveUntilNextLine code
    if next.1 = last then .ok (s, next.2)
    else if next.1 = [] then forLines last body s next.2
    else
      match run : body.run s next.1 next.2 with
      | .error failure => .error failure
      | .ok (s', left) =>
        have _shorter := (body.advances run).trans_lt shorter
        forLines last body s' left
termination_by code.length

section Passes
variable {last line code left : Text} {body : LineBody σ} {s s' : σ}

/-- One pass of the loop. -/
theorem forLines_pass (more : code ≠ []) (next : moveUntilNextLine code = (line, left)) :
    forLines last body s code =
      if line = last then .ok (s, left)
      else if line = [] then forLines last body s left
      else body.run s line left >>= fun result => forLines last body result.1 result.2 := by
  rw [forLines]
  simp only [dif_neg more, next]
  split
  · rfl
  · split
    · rfl
    · split <;> rename_i run <;> rw [next] at run <;> rw [run] <;> rfl

/-- A postcondition of the loop: every line that is read keeps the invariant. -/
theorem forLines_post (Inv : σ → Text → Prop) (Post : σ → Text → Prop)
    (next : ∀ s code, Inv s code → code ≠ [] → Inv s (moveUntilNextLine code).2)
    (read : ∀ s code line s' left, Inv s code → body.run s line code = .ok (s', left) → Inv s' left)
    (finished : ∀ s code, Inv s code → Post s code)
    (run : forLines last body s code = .ok (s', left)) (start : Inv s code) : Post s' left := by
  induction length : code.length using Nat.strongRecOn generalizing s code with
  | _ n ih =>
    by_cases more : code = []
    · rw [forLines, dif_pos more] at run
      obtain ⟨rfl, rfl⟩ := Prod.mk.inj (Except.ok.inj run)
      exact finished s [] (more ▸ start)
    · have shorter := moveUntilNextLine_length more
      have kept := next s code start more
      obtain ⟨line, behind, moved⟩ : ∃ line behind, moveUntilNextLine code = (line, behind) := ⟨_, _, rfl⟩
      rw [moved] at shorter kept
      dsimp only at shorter kept
      rw [forLines_pass more moved] at run
      split at run
      · obtain ⟨rfl, rfl⟩ := Prod.mk.inj (Except.ok.inj run)
        exact finished s _ kept
      · split at run
        · exact ih _ (by omega) run kept rfl
        · obtain ⟨⟨s₁, code₁⟩, pass, run⟩ := bind_eq_ok.mp run
          have advanced := body.advances pass
          exact ih code₁.length (by omega) run (read _ _ _ _ _ kept pass) rfl

theorem forLines_kept (Inv : σ → Prop) (read : ∀ s line code s' left, Inv s → body.run s line code = .ok (s', left) → Inv s')
    (run : forLines last body s code = .ok (s', left)) (start : Inv s) : Inv s' :=
  forLines_post (fun s _ => Inv s) (fun s _ => Inv s) (fun _ _ kept _ => kept)
    (fun s code line s' left kept pass => read s line code s' left kept pass) (fun _ _ kept => kept) run start

theorem forLines_length (run : forLines last body s code = .ok (s', left)) : left.length ≤ code.length :=
  forLines_post (fun _ code' => code'.length ≤ code.length) (fun _ left => left.length ≤ code.length)
    (fun _ _ bound more => (moveUntilNextLine_length more).le.trans bound)
    (fun _ _ _ _ _ bound pass => (body.advances pass).trans bound) (fun _ _ bound => bound) run le_rfl

end Passes

/-- The code shows these lines, and `rest` behind them: lines may be indented
or spaced out, and empty lines may stand between them. -/
inductive Shows (rest : Text) : List Text → Text → Prop
  | done : Shows rest [] rest
  | emptyLine {lines raw code} : '\n' ∉ raw → raw.filter (· ≠ ' ') = [] → Shows rest lines code →
      Shows rest lines (raw ++ '\n' :: code)
  | line {lines raw code} : '\n' ∉ raw → Shows rest lines code →
      Shows rest (raw.filter (· ≠ ' ') :: lines) (raw ++ '\n' :: code)

/-- What a text shows, line by line. -/
theorem shows_lines (rest : Text) {raws : List Text} (oneLine : ∀ raw ∈ raws, '\n' ∉ raw) :
    Shows rest ((raws.map (·.filter (· ≠ ' '))).filter (· ≠ [])) (raws.flatMap (· ++ ['\n']) ++ rest) := by
  induction raws with
  | nil => exact .done
  | cons raw raws ih =>
    have later := ih fun other member => oneLine other (List.mem_cons_of_mem raw member)
    rw [List.flatMap_cons, List.append_assoc, List.append_assoc, List.singleton_append, List.map_cons]
    by_cases blank : raw.filter (· ≠ ' ') = []
    · rw [List.filter_cons_of_neg (by rw [decide_eq_true_eq, not_not]; exact blank)]
      exact .emptyLine (oneLine raw List.mem_cons_self) blank later
    · rw [List.filter_cons_of_pos (by rw [decide_eq_true_eq]; exact blank)]
      exact .line (oneLine raw List.mem_cons_self) later

section Layout
variable {rest last line code : Text} {lines : List Text} {b : LineBody σ}

/-- The next line that is shown is the next one that the loop looks at. -/
theorem Shows.next (laid : Shows rest (line :: lines) code) (visible : line ≠ []) (closing : last ≠ []) :
    ∃ left, Shows rest lines left ∧ ∀ s, forLines last b s code =
      if line = last then .ok (s, left)
      else b.run s line left >>= fun result => forLines last b result.1 result.2 := by
  generalize all : line :: lines = shown at laid
  induction laid with
  | done => exact absurd all (by simp)
  | @emptyLine _ raw _ oneLine blank _ ih =>
    obtain ⟨left, shown, run⟩ := ih all
    refine ⟨left, shown, fun s => ?_⟩
    rw [forLines_pass (by simp) (moveUntilNextLine_line oneLine _), blank, if_neg closing.symm, if_pos rfl, run s]
  | @line _ raw left oneLine laid _ =>
    obtain ⟨rfl, rfl⟩ := List.cons.inj all
    refine ⟨left, laid, fun s => ?_⟩
    rw [forLines_pass (by simp) (moveUntilNextLine_line oneLine left), if_neg visible]

theorem Shows.length (shows : Shows rest lines code) :
    lines.length ≤ code.length ∧ ∀ line ∈ lines, line.length ≤ code.length := by
  induction shows with
  | done => simp
  | emptyLine _ _ _ ih =>
    rw [List.length_append, List.length_cons]
    exact ⟨by omega, fun line member => by have := ih.2 line member; omega⟩
  | @line _ raw _ _ _ ih =>
    have shorter := List.length_filter_le (· ≠ ' ') raw
    rw [List.length_append, List.length_cons, List.length_cons]
    refine ⟨by omega, fun line member => ?_⟩
    rcases List.mem_cons.mp member with rfl | later
    · omega
    · have := ih.2 line later
      omega

theorem Shows.finish (shows : Shows rest (last :: lines) code) (closing : last ≠ []) :
    ∃ left, Shows rest lines left ∧ ∀ s, forLines last b s code = .ok (s, left) := by
  obtain ⟨left, later, run⟩ := shows.next (b := b) closing closing
  exact ⟨left, later, fun s => (run s).trans (if_pos rfl)⟩

theorem Shows.skip (shows : Shows rest [] code) (closing : last ≠ []) (s : σ) :
    forLines last b s code = forLines last b s rest := by
  generalize none : ([] : List Text) = shown at shows
  induction shows with
  | done => rfl
  | emptyLine oneLine blank _ ih =>
    rw [forLines_pass (by simp) (moveUntilNextLine_line oneLine _), blank, if_neg closing.symm, if_pos rfl, ih none]
  | line => exact absurd none (by simp)

/-- The line `last` ends here, with a line break or with the code. -/
def Closes (last behind tail : Text) : Prop :=
  ∃ raw : Text, '\n' ∉ raw ∧ raw.filter (· ≠ ' ') = last ∧ (tail = raw ++ '\n' :: behind ∨ tail = raw ∧ behind = [])

theorem Closes.finish {behind tail : Text} (closes : Closes last behind tail) (closing : last ≠ []) (s : σ) :
    forLines last b s tail = .ok (s, behind) := by
  obtain ⟨raw, oneLine, shown, rfl | ⟨rfl, rfl⟩⟩ := closes
  · rw [forLines_pass (by simp) (moveUntilNextLine_line oneLine _), if_pos shown]
  · have more : tail ≠ [] := by
      rintro rfl
      exact closing shown.symm
    rw [forLines_pass more (moveUntilNextLine_last oneLine), if_pos shown]

/-- The loop over lines that are read one by one. -/
theorem forLines_lines (read : σ → Text → Except ParseFailure σ) {more : List Text} (closing : last ≠ [])
    (open_lines : ∀ line ∈ lines, line ≠ [] ∧ line ≠ last) (shows : Shows rest (lines ++ more) code) :
    ∃ left, Shows rest more left ∧
      ∀ s, forLines last (.ofLine read) s code = lines.foldlM read s >>= fun s => forLines last (.ofLine read) s left := by
  induction lines generalizing code with
  | nil => exact ⟨code, shows, fun s => rfl⟩
  | cons line lines ih =>
    obtain ⟨visible, open_line⟩ := open_lines line List.mem_cons_self
    obtain ⟨next, later, run⟩ := shows.next (b := .ofLine read) visible closing
    obtain ⟨left, behind, loop⟩ := ih (fun other member => open_lines other (List.mem_cons_of_mem line member)) later
    refine ⟨left, behind, fun s => ?_⟩
    rw [run s, if_neg open_line, LineBody.ofLine_run, List.foldlM_cons]
    cases read s line with
    | error failure => rfl
    | ok s' => exact loop s'

/-- The loop over the lines of a list of items: the body reads the first line
of an item from the loop, and the others itself. -/
theorem forLines_items {ι : Type} {items : List ι} {more : List Text} (first : ι → Text) (others : ι → List Text)
    (step : σ → ι → σ) (closing : last ≠ [])
    (item : ∀ x ∈ items, first x ≠ [] ∧ first x ≠ last ∧ ∀ s more left, Shows rest (others x ++ more) left →
      ∃ left', b.run s (first x) left = .ok (step s x, left') ∧ Shows rest more left')
    (shows : Shows rest (items.flatMap (fun x => first x :: others x) ++ more) code) (s : σ) :
    ∃ left, forLines last b s code = forLines last b (items.foldl step s) left ∧ Shows rest more left := by
  induction items generalizing code s with
  | nil => exact ⟨code, rfl, shows⟩
  | cons x items ih =>
    obtain ⟨visible, open_line, reads⟩ := item x List.mem_cons_self
    rw [List.flatMap_cons, List.cons_append, List.cons_append, List.append_assoc] at shows
    obtain ⟨left, later, run⟩ := shows.next (b := b) visible closing
    obtain ⟨left', read, later⟩ := reads s _ left later
    obtain ⟨finish, loop, later⟩ := ih (fun y member => item y (List.mem_cons_of_mem x member)) later (step s x)
    exact ⟨finish, by rw [run s, if_neg open_line, read, ok_bind]; exact loop, later⟩

/-- The same up to the line that ends the loop. -/
theorem forLines_section {ι : Type} {items : List ι} {more : List Text} (first : ι → Text) (others : ι → List Text)
    (step : σ → ι → σ) (closing : last ≠ [])
    (item : ∀ x ∈ items, first x ≠ [] ∧ first x ≠ last ∧ ∀ s more left, Shows rest (others x ++ more) left →
      ∃ left', b.run s (first x) left = .ok (step s x, left') ∧ Shows rest more left')
    (shows : Shows rest (items.flatMap (fun x => first x :: others x) ++ last :: more) code) (s : σ) :
    ∃ left, forLines last b s code = .ok (items.foldl step s, left) ∧ Shows rest more left := by
  obtain ⟨left, run, later⟩ := forLines_items first others step closing item shows s
  obtain ⟨left', later, finish⟩ := later.finish (b := b) closing
  exact ⟨left', run.trans (finish _), later⟩

end Layout
end CatLa
