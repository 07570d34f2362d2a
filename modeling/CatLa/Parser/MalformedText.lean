import CatLa.Parser.LineChecks

namespace CatLa
open Outcome Pattern

section Loop
variable {σ : Type}

/-- The loop over the lines comes to this line, in the state `s'` and with `left`
behind it. -/
inductive Meets (last : Text) (body : LineBody σ) : σ → Text → σ → Text → Text → Prop
  | here {s code line left} : code ≠ [] → moveUntilNextLine code = (line, left) → line ≠ last → line ≠ [] →
      Meets last body s code s line left
  | emptyLine {s code behind s' line left} : code ≠ [] → moveUntilNextLine code = ([], behind) → [] ≠ last →
      Meets last body s behind s' line left → Meets last body s code s' line left
  | later {s code first behind s₁ code₁ s' line left} : code ≠ [] → moveUntilNextLine code = (first, behind) →
      first ≠ last → first ≠ [] → body.run s first behind = .ok (s₁, code₁) → Meets last body s₁ code₁ s' line left →
      Meets last body s code s' line left

variable {last : Text} {body : LineBody σ} {s : σ} {code : Text} {E : ParseFailure → Prop}

/-- A loop ends well exactly if its body does so at every line that it comes to. -/
theorem forLines_ends : Ends E (fun _ => True) (forLines last body s code) ↔
    ∀ s' line left, Meets last body s code s' line left → Ends E (fun _ => True) (body.run s' line left) := by
  constructor
  · intro run s' line left meets
    induction meets with
    | here more next other visible =>
      rw [forLines_pass more next, if_neg other, if_neg visible] at run
      exact Ends.of_bind run
    | emptyLine more next other _ ih =>
      rw [forLines_pass more next, if_neg other, if_pos rfl] at run
      exact ih run
    | later more next other visible read _ ih =>
      rw [forLines_pass more next, if_neg other, if_neg visible, read, ok_bind] at run
      exact ih run
  · intro each
    induction length : code.length using Nat.strongRecOn generalizing s code with
    | _ n ih =>
      by_cases more : code = []
      · rw [forLines, dif_pos more]
        trivial
      · have shorter := moveUntilNextLine_length more
        obtain ⟨line, left, next⟩ : ∃ line left, moveUntilNextLine code = (line, left) := ⟨_, _, rfl⟩
        rw [next] at shorter
        dsimp only at shorter
        rw [forLines_pass more next]
        split
        · trivial
        · rename_i other
          split
          · rename_i blank
            subst blank
            exact ih _ (by omega) (fun s' line' left' meets => each _ _ _ (.emptyLine more next other meets)) rfl
          · rename_i visible
            have here := each _ _ _ (.here more next other visible)
            cases read : body.run s line left with
            | error failure =>
              rw [read] at here
              exact here
            | ok read' =>
              have advanced := body.advances read
              exact ih _ (by omega) (fun s' line' left' meets =>
                each _ _ _ (.later more next other visible read meets)) rfl

end Loop

/-- A text that `stoull` takes. -/
def NumberFits (text : Text) : Prop := ∃ negative magnitude, readNumeral text = .ok (negative, magnitude) ∧ magnitude < 2 ^ 64

/-- A constant that `get_const_value_as_string` finds. -/
def Readable (constValues : List ConstValue) (k : Nat) : Prop :=
  ∃ value, constValues[k]? = some value ∧ value.byteSize ≤ value.payload.bytes.length

def Check.Passes (constValues : List ConstValue) : Check → Prop
  | number text => NumberFits text
  | constant text => ∃ k, stoull text = .ok k ∧ Readable constValues k
  | word known => known = true
  | operand given => given = true
  | vector provided => provided = true

/-- The first check that does not pass is an unknown word. -/
def InOrder (constValues : List ConstValue) (checks : List Check) : Prop :=
  ∀ before check after, checks = before ++ check :: after → (∀ earlier ∈ before, earlier.Passes constValues) →
    check.Passes constValues ∨ check = .word false

section Checks
variable {constValues : List ConstValue} {checks : List Check} {E : ParseFailure → Prop}

theorem numberFits_iff {text : Text} : NumberFits text ↔ ∃ n, stoull text = .ok n := by
  unfold NumberFits stoull
  cases readNumeral text with
  | error failure => simp
  | ok read =>
    obtain ⟨negative, magnitude⟩ := read
    rw [ok_bind]
    dsimp only
    by_cases large : 2 ^ 64 ≤ magnitude
    · rw [if_pos large]
      refine iff_of_false ?_ (by simp)
      rintro ⟨_, _, same, small⟩
      cases same
      omega
    · rw [if_neg large]
      exact iff_of_true ⟨_, _, rfl, Nat.lt_of_not_le large⟩ ⟨_, rfl⟩

theorem readable_iff {k : Nat} : Readable constValues k ↔ ∃ name, getConstValueAsString constValues k = .ok name := by
  unfold Readable getConstValueAsString
  cases constValues[k]? with
  | none => simp
  | some value => by_cases inside : value.byteSize ≤ value.payload.bytes.length <;> simp [inside]

theorem run_ok {check : Check} : check.run constValues = .ok () ↔ check.Passes constValues := by
  cases check with
  | number text => simp [Check.run, Check.Passes, numberFits_iff, map_eq_ok]
  | constant text =>
    simp only [Check.run, Check.Passes, readable_iff, map_eq_ok, bind_eq_ok, and_true]
    constructor
    · rintro ⟨name, k, read, found⟩
      exact ⟨k, read, name, found⟩
    · rintro ⟨k, read, name, found⟩
      exact ⟨name, k, read, found⟩
  | word known => cases known <;> simp [Check.run, Check.Passes]
  | operand given => cases given <;> simp [Check.run, Check.Passes]
  | vector provided => cases provided <;> simp [Check.run, Check.Passes]

theorem run_refused {check : Check} : check.run constValues = .error .parseException ↔ check = .word false := by
  cases check with
  | number text =>
    refine iff_of_false (fun refused => ?_) (by simp)
    rw [Check.run] at refused
    cases read : stoull text with
    | ok n =>
      rw [read] at refused
      exact absurd refused (by simp [Except.map])
    | error failure =>
      rw [read] at refused
      exact stoull_error read (Except.error.inj refused)
  | constant text =>
    refine iff_of_false (fun refused => ?_) (by simp)
    rw [Check.run] at refused
    cases read : stoull text with
    | ok k =>
      rw [read, ok_bind, getConstValueAsString] at refused
      split at refused
      · split at refused <;> exact absurd refused (by simp [Except.map])
      · exact absurd refused (by simp [Except.map])
    | error failure =>
      rw [read] at refused
      exact stoull_error read (Except.error.inj refused)
  | word known => cases known <;> simp [Check.run]
  | operand given => cases given <;> simp [Check.run]
  | vector provided => cases provided <;> simp [Check.run]

theorem checked_ok : checked constValues checks = .ok () ↔ ∀ check ∈ checks, check.Passes constValues := by
  induction checks with
  | nil => simp [checked]
  | cons check checks ih =>
    rw [checked, bind_eq_ok, List.forall_mem_cons, ← run_ok, ← ih]
    exact ⟨fun both => both.choose_spec, fun both => ⟨(), both⟩⟩

/-- What a list of checks ends with is the outcome of the first that fails. -/
theorem checked_ends : Ends E (fun _ => True) (checked constValues checks) ↔
    ∀ before check after, checks = before ++ check :: after → (∀ earlier ∈ before, earlier.Passes constValues) →
      Ends E (fun _ => True) (check.run constValues) := by
  constructor
  · rintro run before check after rfl passes
    rw [checked_append, checked_ok.mpr passes, ok_bind, checked] at run
    exact Ends.of_bind run
  · intro each
    induction checks with
    | nil => trivial
    | cons check checks ih =>
      have first := each [] check checks rfl (by simp)
      rw [checked]
      cases run : check.run constValues with
      | error failure =>
        rw [run] at first
        exact first
      | ok _ =>
        refine ih fun before check' after split passes => each (check :: before) check' after (by rw [split]; rfl) ?_
        exact List.forall_mem_cons.mpr ⟨run_ok.mp run, passes⟩

theorem orderly_iff : Ends (· = .parseException) (fun _ => True) (checked constValues checks) ↔ InOrder constValues checks := by
  refine checked_ends.trans (forall₃_congr fun before check after => forall₂_congr fun _ _ => ?_)
  rw [← run_ok, ← @run_refused constValues]
  cases check.run constValues <;> simp [Ends]

end Checks
section Lines
variable (library : StandardLibrary) (constValues : List ConstValue)

/-- The bodies of the loops over functions, label blocks and orders. -/
def functionBody : LineBody (List (Nat × VMFunction)) := ⟨readFunction library constValues, readFunction_length library constValues⟩

def labelBody : LineBody (List LabelBlock) := ⟨readLabelBlock constValues, readLabelBlock_length constValues⟩

def orderBody : LineBody (List Order) :=
  .ofLine fun orders line => (parseOrderLine constValues line).map fun order => orders ++ [order]

/-- The lines that `parse_orders` comes to. -/
inductive OrderLine (code : Text) : LineKind → Text → Prop
  | order {orders line left} : Meets labelEnd (orderBody constValues) [] code orders line left → OrderLine code .order line

/-- The lines that `parse_label_blocks` comes to. -/
inductive BlockLine (code : Text) : LineKind → Text → Prop
  | label {blocks line left} : Meets ['\x7d'] (labelBody constValues) [] code blocks line left → BlockLine code .label line
  | inside {blocks header left kind line} : Meets ['\x7d'] (labelBody constValues) [] code blocks header left →
      (∀ check ∈ labelChecks header, check.Passes constValues) → OrderLine constValues left kind line →
      BlockLine code kind line

/-- The lines that a section comes to, under the title of the section. -/
inductive SectionLine (name : Text) (code : Text) : Text → LineKind → Text → Prop
  | importLine {map line left} : Meets END (.ofLine (readImport name constValues)) [] code map line left →
      SectionLine name code ['$', 'i', 'm', 'p', 'o', 'r', 't'] .importLine line
  | typeDefine {types line left} : Meets END (.ofLine (readTypeDefine constValues)) [] code types line left →
      SectionLine name code ['$', 't', 'y', 'p', 'e', 'd', 'e', 'f'] .typeDefine line
  | usingType {map line left} : Meets END (.ofLine readUsingType) [] code map line left →
      SectionLine name code ['$', 't', 'y', 'p', 'e'] .usingType line
  | function {map line left} : Meets END (functionBody library constValues) [] code map line left →
      SectionLine name code ['$', 'f', 'u', 'n', 'c', 't', 'i', 'o', 'n'] .function line
  | inside {map header left kind line} : Meets END (functionBody library constValues) [] code map header left →
      (∀ check ∈ functionChecks library header, check.Passes constValues) → BlockLine constValues left kind line →
      SectionLine name code ['$', 'f', 'u', 'n', 'c', 't', 'i', 'o', 'n'] kind line

/-- The vectors that a section makes behind its lines: the size of an element, and
the indices of the entries. -/
inductive SectionTable (name : Text) (code : Text) : Text → Nat → List Nat → Prop
  | imports {map left} : forLines END (.ofLine (readImport name constValues)) [] code = .ok (map, left) →
      SectionTable name code ['$', 'i', 'm', 'p', 'o', 'r', 't'] sizeofString (map.map Prod.fst)
  | usingTypes {map left} : forLines END (.ofLine readUsingType) [] code = .ok (map, left) →
      SectionTable name code ['$', 't', 'y', 'p', 'e'] sizeofTypeInfo (map.map Prod.fst)
  | functions {map left} : forLines END (functionBody library constValues) [] code = .ok (map, left) →
      SectionTable name code ['$', 'f', 'u', 'n', 'c', 't', 'i', 'o', 'n'] sizeofPointer (map.map Prod.fst)

variable {library constValues} {code : Text}

theorem orders_ends : Ends (· = .parseException) (fun _ => True) (parseOrders constValues code) ↔
    ∀ kind line, OrderLine constValues code kind line → InOrder constValues (kind.checks library line) := by
  refine forLines_ends.trans ⟨fun each kind line meets => ?_, fun each orders line left meets => ?_⟩
  · obtain ⟨meets⟩ := meets
    have run := each _ _ _ meets
    exact orderly_iff.mp ((((makes_orderLine line).map _).map _).ends.mp run)
  · exact (((makes_orderLine line).map _).map _).ends.mpr (orderly_iff.mpr (each .order line (.order meets)))

/-- What stands behind checks is read where they pass. -/
theorem ends_behind {α : Type} {checks : List Check} {m : Except ParseFailure α} :
    Ends (· = .parseException) (fun _ => True) (checked constValues checks >>= fun _ => m) ↔
      InOrder constValues checks ∧
        ((∀ check ∈ checks, check.Passes constValues) → Ends (· = .parseException) (fun _ => True) m) := by
  rw [← orderly_iff, ← checked_ok]
  cases checked constValues checks with
  | ok _ => simp [Ends]
  | error failure => simp [Ends]

theorem readLabelBlock_agrees (blocks : List LabelBlock) (line : Text) :
    Agree (fun _ _ => True) (readLabelBlock constValues blocks line code)
      (checked constValues (labelChecks line) >>= fun _ => parseOrders constValues code) := by
  unfold labelChecks readLabelBlock
  generalize fullMatch _ line = matched
  rcases matched with _ | _ | ⟨labelName, _ | _⟩
  case some.cons.nil =>
    rw [checked, ok_bind]
    cases parseOrders constValues code <;> trivial
  all_goals rfl

theorem blocks_ends : Ends (· = .parseException) (fun _ => True) (parseLabelBlocks constValues code) ↔
    ∀ kind line, BlockLine constValues code kind line → InOrder constValues (kind.checks library line) := by
  refine forLines_ends.trans ⟨fun each kind line meets => ?_, fun each blocks line left meets => ?_⟩
  · cases meets with
    | label meets => exact (ends_behind.mp ((readLabelBlock_agrees _ line).ends.mp (each _ _ _ meets))).1
    | inside meets passes inside =>
      have block := ends_behind.mp ((readLabelBlock_agrees _ _).ends.mp (each _ _ _ meets))
      exact orders_ends.mp (block.2 passes) kind line inside
  · refine (readLabelBlock_agrees blocks line).ends.mpr (ends_behind.mpr ⟨each .label line (.label meets), fun passes => ?_⟩)
    exact orders_ends.mpr fun kind line' inside => each kind line' (.inside meets passes inside)

theorem functions_end : Ends (· = .parseException) (fun _ => True) (forLines END (functionBody library constValues) [] code) ↔
    (∀ map line left, Meets END (functionBody library constValues) [] code map line left →
      InOrder constValues (functionChecks library line)) ∧
      ∀ map header left kind line, Meets END (functionBody library constValues) [] code map header left →
        (∀ check ∈ functionChecks library header, check.Passes constValues) → BlockLine constValues left kind line →
        InOrder constValues (kind.checks library line) := by
  refine forLines_ends.trans ⟨fun each => ?_, fun each map line left meets => ?_⟩
  · have block {map line left} (meets : Meets END (functionBody library constValues) [] code map line left) :=
      ends_behind.mp ((readFunction_agrees map line left).ends.mp (each map line left meets))
    exact ⟨fun map line left meets => (block meets).1, fun map header left kind line meets passes inside =>
      blocks_ends.mp ((block meets).2 passes) kind line inside⟩
  · refine (readFunction_agrees map line left).ends.mpr (ends_behind.mpr ⟨each.1 map line left meets, fun passes => ?_⟩)
    exact blocks_ends.mpr fun kind line' inside => each.2 map line left kind line' meets passes inside

end Lines
section Sections
variable {library : StandardLibrary} {name : Text} {sections : Sections} {title code : Text}
  {E : ParseFailure → Prop}

theorem ends_ok {α β : Type} {m : Except ParseFailure α} {g : α → β} :
    Ends E (fun _ => True) (m >>= fun a => .ok (g a)) ↔ Ends E (fun _ => True) m := by
  cases m <;> exact Iff.rfl

theorem ends_table {π : Type} {sizeofElement : Nat} {loop : Except ParseFailure (List (Nat × π) × Text)} :
    Ends (· = .parseException) (fun _ => True)
        (loop >>= fun read => tableOf library sizeofElement read.1 >>= fun values => .ok (values, read.2)) ↔
      Ends (· = .parseException) (fun _ => True) loop ∧
        ∀ map left, loop = .ok (map, left) → vectorProvided library sizeofElement (map.map Prod.fst) = true := by
  cases loop with
  | error failure => simp [Ends]
  | ok read =>
    rw [ok_bind, ends_ok, tableOf_ends]
    refine ⟨fun provided => ⟨trivial, fun map left same => ?_⟩, fun each => each.2 _ _ rfl⟩
    cases same
    exact provided

/-- The lines of a section pass their checks in order, and its vectors are
constructed. -/
def SectionOrderly (library : StandardLibrary) (constValues : List ConstValue) (name code title : Text) : Prop :=
  (∀ kind line, SectionLine library constValues name code title kind line → InOrder constValues (kind.checks library line)) ∧
    ∀ size indices, SectionTable library constValues name code title size indices → vectorProvided library size indices = true

section Titles
variable {constValues : List ConstValue}

theorem parseConst_ends : Ends (· = .parseException) (fun _ => True) (parseConst library code) ↔ Entries library [] code := by
  refine Iff.trans ?_ (readConsts_ends [])
  rw [parseConst]
  cases readConsts library [] code with
  | error failure => exact Iff.rfl
  | ok read => exact ends_ok

theorem parseImport_ends : Ends (· = .parseException) (fun _ => True) (parseImport library name constValues code) ↔
    SectionOrderly library constValues name code ['$', 'i', 'm', 'p', 'o', 'r', 't'] := by
  refine ends_table.trans (and_congr (forLines_ends.trans ⟨fun each kind line meets => ?_, fun each map line left meets => ?_⟩)
    ⟨fun each size indices table => ?_, fun each map left run => each _ _ (.imports run)⟩)
  · cases meets with
    | importLine meets => exact orderly_iff.mp (((makes_import name _ line).map _).ends.mp (each _ _ _ meets))
  · exact ((makes_import name map line).map _).ends.mpr (orderly_iff.mpr (each _ _ (.importLine meets)))
  · cases table with
    | imports run => exact each _ _ run

theorem parseTypeDefine_ends : Ends (· = .parseException) (fun _ => True) (parseTypeDefine constValues code) ↔
    SectionOrderly library constValues name code ['$', 't', 'y', 'p', 'e', 'd', 'e', 'f'] := by
  -- the section makes no vector
  refine forLines_ends.trans ⟨fun each => ⟨fun kind line meets => ?_, fun size indices table => by cases table⟩,
    fun orderly types line left meets => ?_⟩
  · cases meets with
    | typeDefine meets => exact orderly_iff.mp (((makes_typeDefine _ line).map _).ends.mp (each _ _ _ meets))
  · exact ((makes_typeDefine types line).map _).ends.mpr (orderly_iff.mpr (orderly.1 _ _ (.typeDefine meets)))

theorem parseType_ends : Ends (· = .parseException) (fun _ => True) (parseType library code) ↔
    SectionOrderly library constValues name code ['$', 't', 'y', 'p', 'e'] := by
  refine ends_table.trans (and_congr (forLines_ends.trans ⟨fun each kind line meets => ?_, fun each map line left meets => ?_⟩)
    ⟨fun each size indices table => ?_, fun each map left run => each _ _ (.usingTypes run)⟩)
  · cases meets with
    | usingType meets => exact orderly_iff.mp (((makes_usingType _ line).map _).ends.mp (each _ _ _ meets))
  · exact ((makes_usingType map line).map _).ends.mpr (orderly_iff.mpr (each _ _ (.usingType meets)))
  · cases table with
    | usingTypes run => exact each _ _ run

theorem parseFunction_ends : Ends (· = .parseException) (fun _ => True) (parseFunction library constValues code) ↔
    SectionOrderly library constValues name code ['$', 'f', 'u', 'n', 'c', 't', 'i', 'o', 'n'] := by
  refine ends_table.trans (and_congr (functions_end.trans ⟨fun each kind line meets => ?_, fun each => ?_⟩)
    ⟨fun each size indices table => ?_, fun each map left run => each _ _ (.functions run)⟩)
  · cases meets with
    | function meets => exact each.1 _ _ _ meets
    | inside meets passes inside => exact each.2 _ _ _ _ _ meets passes inside
  · exact ⟨fun map line left meets => each _ _ (.function meets),
      fun map header left kind line meets passes inside => each _ _ (.inside meets passes inside)⟩
  · cases table with
    | functions run => exact each _ _ run

end Titles

/-- A section is read, or refused, exactly if its entries are in order and its
vector is constructed. -/
theorem section_ends : Ends (· = .parseException) (fun _ => True) (readSection library name sections title code) ↔
    (title = '$' :: constName → Entries library [] code) ∧ SectionOrderly library sections.constValues name code title := by
  unfold readSection
  by_cases const : title = '$' :: constName
  · subst const
    rw [if_pos rfl]
    refine (ends_ok.trans parseConst_ends).trans ⟨fun entries => ⟨fun _ => entries, fun kind line meets => ?_,
      fun size indices table => ?_⟩, fun orderly => orderly.1 rfl⟩
    · cases meets
    · cases table
  · rw [if_neg const, and_iff_right fun same => absurd same const]
    split
    · subst title
      exact ends_ok.trans parseImport_ends
    · split
      · subst title
        exact ends_ok.trans parseTypeDefine_ends
      · split
        · subst title
          exact ends_ok.trans parseType_ends
        · split
          · subst title
            exact ends_ok.trans parseFunction_ends
          · rename_i notImport notTypeDefine notType notFunction
            refine iff_of_true trivial ⟨fun kind line meets => ?_, fun size indices table => ?_⟩
            · cases meets with
              | importLine => exact absurd rfl notImport
              | typeDefine => exact absurd rfl notTypeDefine
              | usingType => exact absurd rfl notType
              | function | inside => exact absurd rfl notFunction
            · cases table with
              | imports => exact absurd rfl notImport
              | usingTypes => exact absurd rfl notType
              | functions => exact absurd rfl notFunction

end Sections
/-- The loop of `parse` comes to this line, with `rest` behind it. -/
inductive Opens (library : StandardLibrary) (name : Text) : Sections → Text → Sections → Text → Text → Prop
  | here {sections code line rest} : code ≠ [] → moveUntilNextLine code = (line, rest) → Opens library name sections code sections line rest
  | later {sections code first behind sections₁ code₁ sections' line rest} : code ≠ [] →
      moveUntilNextLine code = (first, behind) → readSection library name sections first behind = .ok (sections₁, code₁) →
      Opens library name sections₁ code₁ sections' line rest → Opens library name sections code sections' line rest

/-- The parser comes to this line, with these constants. -/
def MeetsLine (library : StandardLibrary) (name code : Text) (constValues : List ConstValue) (kind : LineKind)
    (line : Text) : Prop :=
  ∃ sections title rest, Opens library name ⟨[], [], [], [], []⟩ code sections title rest ∧
    sections.constValues = constValues ∧ SectionLine library constValues name rest title kind line

/-- The parser constructs a vector of elements of this size for entries with these
indices. -/
def MeetsTable (library : StandardLibrary) (name code : Text) (size : Nat) (indices : List Nat) : Prop :=
  ∃ sections title rest, Opens library name ⟨[], [], [], [], []⟩ code sections title rest ∧
    SectionTable library sections.constValues name rest title size indices

section Parse
variable {library : StandardLibrary} {name : Text} {sections : Sections} {code : Text}
  {E : ParseFailure → Prop}

/-- One pass of the loop of `parse`. -/
theorem readSections_pass {line rest : Text} (more : code ≠ []) (next : moveUntilNextLine code = (line, rest)) :
    readSections library name sections code =
      readSection library name sections line rest >>= fun read => readSections library name read.1 read.2 := by
  rw [readSections]
  simp only [dif_neg more]
  split <;> rename_i run <;> rw [next] at run <;> rw [run] <;> rfl

theorem readSections_ends : Ends E (fun _ => True) (readSections library name sections code) ↔
    ∀ sections' line rest, Opens library name sections code sections' line rest →
      Ends E (fun _ => True) (readSection library name sections' line rest) := by
  constructor
  · intro run sections' line rest opens
    induction opens with
    | here more next =>
      rw [readSections_pass more next] at run
      exact Ends.of_bind run
    | later more next read _ ih =>
      rw [readSections_pass more next, read, ok_bind] at run
      exact ih run
  · intro each
    induction length : code.length using Nat.strongRecOn generalizing sections code with
    | _ n ih =>
      by_cases more : code = []
      · rw [readSections, dif_pos more]
        trivial
      · have shorter := moveUntilNextLine_length more
        obtain ⟨line, rest, next⟩ : ∃ line rest, moveUntilNextLine code = (line, rest) := ⟨_, _, rfl⟩
        rw [next] at shorter
        dsimp only at shorter
        have here := each _ _ _ (.here more next)
        rw [readSections_pass more next]
        cases read : readSection library name sections line rest with
        | error failure =>
          rw [read] at here
          exact here
        | ok read' =>
          have advanced := readSection_length read
          exact ih _ (by omega) (fun sections' line' rest' opens => each _ _ _ (.later more next read opens)) rfl

theorem parse_ends : (∃ result, parse library name code = .ok result) ↔
    Ends (· = .parseException) (fun _ => True) (readSections library name ⟨[], [], [], [], []⟩ code) := by
  unfold parse
  cases readSections library name ⟨[], [], [], [], []⟩ code with
  | ok sections => simp [Ends]
  | error failure => cases failure <;> simp [Ends]

/-- `parse` returns, a module or none, exactly if its constants are entries, the
first check of every line that does not pass is an unknown word, and there is
memory for the vectors. -/
theorem parse_returns (library : StandardLibrary) (name code : Text) :
    (∃ result, parse library name code = .ok result) ↔
      (∀ sections rest, Opens library name ⟨[], [], [], [], []⟩ code sections ('$' :: constName) rest →
        Entries library [] rest) ∧
        (∀ constValues kind line, MeetsLine library name code constValues kind line →
          InOrder constValues (kind.checks library line)) ∧
        ∀ size indices, MeetsTable library name code size indices → vectorProvided library size indices = true := by
  refine parse_ends.trans (readSections_ends.trans ⟨fun each => ⟨fun sections rest opens => ?_, ?_, ?_⟩, fun orderly => ?_⟩)
  · exact (section_ends.mp (each _ _ _ opens)).1 rfl
  · rintro _ kind line ⟨sections, title, rest, opens, rfl, meets⟩
    exact (section_ends.mp (each _ _ _ opens)).2.1 kind line meets
  · rintro size indices ⟨sections, title, rest, opens, table⟩
    exact (section_ends.mp (each _ _ _ opens)).2.2 size indices table
  · rintro sections title rest opens
    refine section_ends.mpr ⟨?_, fun kind line meets => orderly.2.1 _ kind line ⟨sections, title, rest, opens, rfl, meets⟩,
      fun size indices table => orderly.2.2 size indices ⟨sections, title, rest, opens, table⟩⟩
    rintro rfl
    exact orderly.1 sections rest opens

/-- An index of twenty-one digits. -/
theorem parse_throws :
    parse plainLibrary ['m'] "$type\n100000000000000000000:0:1\n$end\n".toList = .error .outOfRange ∧
      ¬∃ result, parse plainLibrary ['m'] "$type\n100000000000000000000:0:1\n$end\n".toList =
        .ok result := by
  have thrown : (parse plainLibrary ['m'] "$type\n100000000000000000000:0:1\n$end\n".toList).map
      (fun _ => ()) = .error .outOfRange := by decide +kernel
  cases run : parse plainLibrary ['m'] "$type\n100000000000000000000:0:1\n$end\n".toList with
  | ok result =>
    rw [run] at thrown
    exact absurd thrown (by simp [Except.map])
  | error failure =>
    rw [run] at thrown
    exact ⟨congrArg Except.error (Except.error.inj thrown), by simp⟩

end Parse
end CatLa
