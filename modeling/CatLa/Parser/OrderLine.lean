import CatLa.Parser.LineLoop

namespace CatLa
open Outcome Pattern

def SIZE_MAX : Nat := 2 ^ 64 - 1

namespace PrimitiveType

def name : PrimitiveType → Text
  | void => ['v', 'o', 'i', 'd']
  | i8 => ['i', '8']
  | i16 => ['i', '1', '6']
  | i32 => ['i', '3', '2']
  | i64 => ['i', '6', '4']
  | u8 => ['u', '8']
  | u16 => ['u', '1', '6']
  | u32 => ['u', '3', '2']
  | u64 => ['u', '6', '4']

end PrimitiveType

def allTypes : List PrimitiveType := [.void, .i8, .i16, .i32, .i64, .u8, .u16, .u32, .u64]

/-- `c_str`, as `strcmp` reads it. -/
def cString (text : Text) : Text := text.takeWhile (· ≠ '\x00')

/-- `parse_primitive_type`. -/
def parsePrimitiveType (type : Text) : Except ParseFailure PrimitiveType :=
  match allTypes.find? (·.name = cString type) with
  | some type => .ok type
  | none => .error .parseException

/-- The bytes behind `value_reference`, numbers in little endian. -/
def ConstPayload.bytes : ConstPayload → Text
  | .string bytes => bytes
  | .integer value => (List.range 8).map fun i => Char.ofNat ((BitVec.ofInt 64 value).toNat / 256 ^ i % 256)
  | .double bits => (List.range 8).map fun i => Char.ofNat (bits.toNat / 256 ^ i % 256)

/-- `get_const_value_as_string`. -/
def getConstValueAsString (constValues : List ConstValue) (index : Nat) : Except ParseFailure Text :=
  match constValues[index]? with
  | some constValue =>
    if constValue.byteSize ≤ constValue.payload.bytes.length then .ok (constValue.payload.bytes.take constValue.byteSize)
    else .error .undefined
  | none => .error .undefined

/-- `parse_register_or_variable_number`. -/
def parseRegisterOrVariableNumber (str : Text) : Except ParseFailure Nat :=
  match fullMatch [.group (.either [['r', 'e', 'g'], ['v', 'a', 'r']]), .literal ['#'], digits] str with
  | some [_, number] => stoull number
  | _ => if str = ['@', 'v', 'o', 'i', 'd'] then .ok SIZE_MAX else .error .parseException

/-- An index that is written with or without the word before it. -/
def parseIndex (word : Text) (str : Text) : Except ParseFailure Nat :=
  match fullMatch [.literal (word ++ ['#']), digits] str, fullMatch [digits] str with
  | some [number], _ => stoull number
  | none, some [number] => stoull number
  | _, _ => .error .parseException

/-- `parse_using_type_index`. -/
def parseUsingTypeIndex (str : Text) : Except ParseFailure Nat := parseIndex ['t', 'y', 'p', 'e'] str

/-- `parse_const_value_index`. -/
def parseConstValueIndex (str : Text) : Except ParseFailure Nat := parseIndex ['c', 'o', 'n', 's', 't'] str

/-- `parse_bool`. -/
def parseBool (str : Text) : Except ParseFailure Bool :=
  if str = ['t', 'r', 'u', 'e'] then .ok true
  else if str = ['f', 'a', 'l', 's', 'e'] then .ok false
  else .error .parseException

def jumpToName : Text := ['j', 'u', 'm', 'p', '_', 't', 'o']
def retName : Text := ['r', 'e', 't']
def setFieldName : Text := ['s', 'e', 't', '_', 'f', 'i', 'e', 'l', 'd']
def constName : Text := ['c', 'o', 'n', 's', 't']
def argName : Text := ['a', 'r', 'g']
def iaddName : Text := ['i', 'a', 'd', 'd']

/-- `parse_order`. With two arguments `iadd` reads past the last one. -/
def parseOrder (constValues : List ConstValue) (assignmentRegister : Nat) (orderName : Text) (args : List Text) :
    Except ParseFailure Order :=
  if assignmentRegister = SIZE_MAX then
    if orderName = jumpToName then
      match args with
      | labelName :: _ => .ok (.jumpToLabel labelName none)
      | [] => .error .parseException
    else if orderName = retName then
      match args with
      | register :: _ => do
        let resultRegister ← parseRegisterOrVariableNumber register
        .ok (.returnFunction resultRegister)
      | [] => .error .parseException
    else if orderName = setFieldName then
      match args with
      | parent :: fieldObject :: lock :: type :: const :: _ => do
        let parentObjectRegisterIndex ← parseRegisterOrVariableNumber parent
        let fieldObjectRegisterIndex ← parseRegisterOrVariableNumber fieldObject
        let borrowLock ← parseBool lock
        let usingTypeIndex ← parseUsingTypeIndex type
        let fieldNameConstValueIndex ← parseConstValueIndex const
        let fieldName ← getConstValueAsString constValues fieldNameConstValueIndex
        .ok (.setObjectFieldOwnership parentObjectRegisterIndex fieldObjectRegisterIndex usingTypeIndex fieldName 0 borrowLock)
      | _ => .error .parseException
    else .error .parseException
  else if orderName = constName then
    match args with
    | type :: index :: _ => do
      let type ← parsePrimitiveType type
      let constIndex ← stoull index
      .ok (.getConstInteger type assignmentRegister constIndex)
    | _ => .error .parseException
  else if orderName = argName then
    match args with
    | index :: _ => do
      let argumentIndex ← stoull index
      .ok (.getArgument assignmentRegister argumentIndex)
    | [] => .error .parseException
  else if orderName = iaddName then
    match args with
    | type :: leftRegister :: more => do
      let type ← parsePrimitiveType type
      let left ← parseRegisterOrVariableNumber leftRegister
      match more with
      | rightRegister :: _ => do
        let right ← parseRegisterOrVariableNumber rightRegister
        .ok (.addInteger type assignmentRegister left right)
      | [] => .error .undefined
    | _ => .error .parseException
  else .error .parseException

/-- What `parse_order` returns, without and with an assignment. Nothing has been
looked up yet. -/
theorem parseOrder_cases {constValues : List ConstValue} {assignmentRegister : Nat} {orderName : Text} {args : List Text}
    {order : Order} (run : parseOrder constValues assignmentRegister orderName args = .ok order) :
    (assignmentRegister = SIZE_MAX ∧ ((∃ labelName, order = .jumpToLabel labelName none) ∨
        (∃ resultRegister, order = .returnFunction resultRegister) ∨
        ∃ targetRegister fieldObjectRegisterIndex usingTypeIndex fieldName borrowLock,
          order = .setObjectFieldOwnership targetRegister fieldObjectRegisterIndex usingTypeIndex fieldName 0 borrowLock)) ∨
      (assignmentRegister ≠ SIZE_MAX ∧ ((∃ type constIndex, order = .getConstInteger type assignmentRegister constIndex) ∨
        (∃ argumentIndex, order = .getArgument assignmentRegister argumentIndex) ∨
        ∃ type left right, order = .addInteger type assignmentRegister left right)) := by
  unfold parseOrder at run
  split at run
  · rename_i void
    refine .inl ⟨void, ?_⟩
    split at run
    · split at run
      · exact .inl ⟨_, (Except.ok.inj run).symm⟩
      · exact absurd run (by simp)
    · split at run
      · split at run
        · obtain ⟨_, _, same⟩ := bind_eq_ok.mp run
          exact .inr (.inl ⟨_, (Except.ok.inj same).symm⟩)
        · exact absurd run (by simp)
      · split at run
        · split at run
          · obtain ⟨_, _, run⟩ := bind_eq_ok.mp run
            obtain ⟨_, _, run⟩ := bind_eq_ok.mp run
            obtain ⟨_, _, run⟩ := bind_eq_ok.mp run
            obtain ⟨_, _, run⟩ := bind_eq_ok.mp run
            obtain ⟨_, _, run⟩ := bind_eq_ok.mp run
            obtain ⟨_, _, same⟩ := bind_eq_ok.mp run
            exact .inr (.inr ⟨_, _, _, _, _, (Except.ok.inj same).symm⟩)
          · exact absurd run (by simp)
        · exact absurd run (by simp)
  · rename_i register
    refine .inr ⟨register, ?_⟩
    split at run
    · split at run
      · obtain ⟨_, _, run⟩ := bind_eq_ok.mp run
        obtain ⟨_, _, same⟩ := bind_eq_ok.mp run
        exact .inl ⟨_, _, (Except.ok.inj same).symm⟩
      · exact absurd run (by simp)
    · split at run
      · split at run
        · obtain ⟨_, _, same⟩ := bind_eq_ok.mp run
          exact .inr (.inl ⟨_, (Except.ok.inj same).symm⟩)
        · exact absurd run (by simp)
      · split at run
        · split at run
          · obtain ⟨_, _, run⟩ := bind_eq_ok.mp run
            obtain ⟨_, _, run⟩ := bind_eq_ok.mp run
            split at run
            · obtain ⟨_, _, same⟩ := bind_eq_ok.mp run
              exact .inr (.inr ⟨_, _, _, (Except.ok.inj same).symm⟩)
            · exact absurd run (by simp)
          · exact absurd run (by simp)
        · exact absurd run (by simp)

/-- `ASSIGNMENT_REG`. -/
def assignment : List (Piece Char) :=
  [.group (.repeated 1 LineCharacter), .literal ['='], .group (.repeated 1 LineCharacter)]

/-- The order name and the arguments of an order. -/
def parseOrderText (constValues : List ConstValue) (assignmentRegister : Nat) (orderText : Text) :
    Except ParseFailure Order :=
  parseOrder constValues assignmentRegister ((commaTokens orderText).headD []) ((commaTokens orderText).drop 1)

/-- A line of `parse_orders`. -/
def parseOrderLine (constValues : List ConstValue) (line : Text) : Except ParseFailure Order :=
  match fullMatch assignment line with
  | some [register, orderText] => do
    let assignmentRegister ← parseRegisterOrVariableNumber register
    parseOrderText constValues assignmentRegister orderText
  | _ => parseOrderText constValues SIZE_MAX line

/-- An order with its operands, before it is written down. The name of a field
is written as the index of its constant. -/
inductive OrderSource
  | jumpTo (labelName : Text)
  | ret (resultRegister : Nat)
  | setField (parentRegister fieldObjectRegister : Nat) (borrowLock : Bool) (usingTypeIndex fieldNameIndex : Nat)
      (fieldName : Text)
  | const (assignedRegister : Nat) (type : PrimitiveType) (constIndex : Nat)
  | arg (assignedRegister argumentIndex : Nat)
  | iadd (assignedRegister : Nat) (type : PrimitiveType) (leftRegister rightRegister : Nat)
  deriving DecidableEq

/-- `word#n` -/
def indexText (word : Text) (n : Nat) : Text := word ++ '#' :: numeral n

def registerText (n : Nat) : Text := indexText ['r', 'e', 'g'] n

def boolText : Bool → Text
  | true => ['t', 'r', 'u', 'e']
  | false => ['f', 'a', 'l', 's', 'e']

namespace OrderSource

def assigned : OrderSource → Option Nat
  | jumpTo _ => none
  | ret _ => none
  | setField _ _ _ _ _ _ => none
  | const assignedRegister _ _ => some assignedRegister
  | arg assignedRegister _ => some assignedRegister
  | iadd assignedRegister _ _ _ => some assignedRegister

def orderName : OrderSource → Text
  | jumpTo _ => jumpToName
  | ret _ => retName
  | setField _ _ _ _ _ _ => setFieldName
  | const _ _ _ => constName
  | arg _ _ => argName
  | iadd _ _ _ _ => iaddName

def args : OrderSource → List Text
  | jumpTo labelName => [labelName]
  | ret resultRegister => [registerText resultRegister]
  | setField parentRegister fieldObjectRegister borrowLock usingTypeIndex fieldNameIndex _ =>
    [registerText parentRegister, registerText fieldObjectRegister, boolText borrowLock,
      indexText ['t', 'y', 'p', 'e'] usingTypeIndex, indexText ['c', 'o', 'n', 's', 't'] fieldNameIndex]
  | const _ type constIndex => [type.name, numeral constIndex]
  | arg _ argumentIndex => [numeral argumentIndex]
  | iadd _ type leftRegister rightRegister => [type.name, registerText leftRegister, registerText rightRegister]

def print (order : OrderSource) : Text :=
  let text := [','].intercalate (order.orderName :: order.args)
  match order.assigned with
  | some assignedRegister => registerText assignedRegister ++ '=' :: text
  | none => text

/-- The order as the virtual machine has it, before `link`. -/
def order : OrderSource → Order
  | jumpTo labelName => .jumpToLabel labelName none
  | ret resultRegister => .returnFunction resultRegister
  | setField parentRegister fieldObjectRegister borrowLock usingTypeIndex _ fieldName =>
    .setObjectFieldOwnership parentRegister fieldObjectRegister usingTypeIndex fieldName 0 borrowLock
  | const assignedRegister type constIndex => .getConstInteger type assignedRegister constIndex
  | arg assignedRegister argumentIndex => .getArgument assignedRegister argumentIndex
  | iadd assignedRegister type leftRegister rightRegister => .addInteger type assignedRegister leftRegister rightRegister

end OrderSource

/-- A name of word characters. -/
def IsWord (name : Text) : Prop := name ≠ [] ∧ ∀ c ∈ name, WordCharacter c = true

instance (name : Text) : Decidable (IsWord name) :=
  decidable_of_iff (name ≠ [] ∧ name.all WordCharacter = true) (by simp [IsWord])

/-- The constant under the index is this string. -/
def NamesString (constValues : List ConstValue) (index : Nat) (name : Text) : Prop :=
  constValues[index]? = some ⟨name.length, .string name⟩

/-- The numbers of an order are below `SIZE_MAX`, which stands for `@void`, and
its names are names. -/
def OrderSource.Written (constValues : List ConstValue) : OrderSource → Prop
  | jumpTo labelName => IsWord labelName
  | ret resultRegister => resultRegister < SIZE_MAX
  | setField parentRegister fieldObjectRegister _ usingTypeIndex fieldNameIndex fieldName =>
    parentRegister < SIZE_MAX ∧ fieldObjectRegister < SIZE_MAX ∧ usingTypeIndex < SIZE_MAX ∧
      fieldNameIndex < SIZE_MAX ∧ NamesString constValues fieldNameIndex fieldName
  | const assignedRegister _ constIndex => assignedRegister < SIZE_MAX ∧ constIndex < SIZE_MAX
  | arg assignedRegister argumentIndex => assignedRegister < SIZE_MAX ∧ argumentIndex < SIZE_MAX
  | iadd assignedRegister _ leftRegister rightRegister =>
    assignedRegister < SIZE_MAX ∧ leftRegister < SIZE_MAX ∧ rightRegister < SIZE_MAX

section Operands
variable {constValues : List ConstValue} {n : Nat}

theorem digit_word {c : Char} (digit : Digit c = true) : WordCharacter c = true := by
  simp only [Digit] at digit
  simp [WordCharacter, Char.isAlphanum, digit]

theorem stoull_written (fits : n < SIZE_MAX) : stoull (numeral n) = .ok n :=
  stoull_numeral (by unfold SIZE_MAX at fits; omega)

theorem digits_numeral (n : Nat) : fullMatch [digits] (numeral n) = some [numeral n] :=
  fullMatch_repeated_end (fun _ member => digit_numeral member) (numeral_length n)

theorem parsePrimitiveType_name (type : PrimitiveType) : parsePrimitiveType type.name = .ok type := by
  cases type <;> rfl

theorem getConstValueAsString_named {name : Text} (named : NamesString constValues n name) :
    getConstValueAsString constValues n = .ok name := by
  rw [getConstValueAsString, named]
  simp [ConstPayload.bytes]

theorem parseRegister_text (fits : n < SIZE_MAX) : parseRegisterOrVariableNumber (registerText n) = .ok n := by
  have register : fullMatch [.group (.either [['r', 'e', 'g'], ['v', 'a', 'r']]), .literal ['#'], digits] (registerText n) =
      some [['r', 'e', 'g'], numeral n] := by
    have shape : registerText n = ['r', 'e', 'g'] ++ (['#'] ++ numeral n) := rfl
    rw [shape, fullMatch_either (by simp) (by simp), fullMatch_literal, digits_numeral]
    rfl
  rw [parseRegisterOrVariableNumber, register]
  exact stoull_written fits

theorem parseIndex_word (word : Text) (fits : n < SIZE_MAX) : parseIndex word (indexText word n) = .ok n := by
  have shape : indexText word n = (word ++ ['#']) ++ numeral n := by simp [indexText]
  rw [parseIndex, shape, fullMatch_literal, digits_numeral]
  exact stoull_written fits

theorem parseBool_text (b : Bool) : parseBool (boolText b) = .ok b := by
  cases b <;> rfl

end Operands

section RoundTrip
variable {constValues : List ConstValue} {source : OrderSource}

theorem parseOrder_source (written : source.Written constValues) :
    parseOrder constValues (source.assigned.getD SIZE_MAX) source.orderName source.args = .ok source.order := by
  cases source with
  | jumpTo labelName => rfl
  | ret resultRegister =>
    simp only [OrderSource.Written] at written
    simp only [OrderSource.assigned, OrderSource.orderName, OrderSource.args, parseOrder, Option.getD_none, if_true]
    rw [if_neg (by decide), parseRegister_text written]
    rfl
  | setField parentRegister fieldObjectRegister borrowLock usingTypeIndex fieldNameIndex fieldName =>
    obtain ⟨parent, fieldObject, usingType, fieldIndex, named⟩ := written
    simp only [OrderSource.assigned, OrderSource.orderName, OrderSource.args, parseOrder, Option.getD_none, if_true]
    rw [if_neg (by decide), if_neg (by decide), parseRegister_text parent, parseRegister_text fieldObject, parseBool_text]
    simp only [ok_bind]
    rw [parseUsingTypeIndex, parseIndex_word _ usingType, parseConstValueIndex, parseIndex_word _ fieldIndex,
      ok_bind, ok_bind, getConstValueAsString_named named]
    rfl
  | const assignedRegister type constIndex =>
    simp only [OrderSource.assigned, OrderSource.orderName, OrderSource.args, parseOrder, Option.getD_some,
      if_neg (Nat.ne_of_lt written.1), if_true, parsePrimitiveType_name, ok_bind, stoull_written written.2, OrderSource.order]
  | arg assignedRegister argumentIndex =>
    simp only [OrderSource.assigned, OrderSource.orderName, OrderSource.args, parseOrder, Option.getD_some,
      if_neg (Nat.ne_of_lt written.1), if_true, ok_bind, stoull_written written.2, OrderSource.order]
    rw [if_neg (by decide)]
  | iadd assignedRegister type leftRegister rightRegister =>
    simp only [OrderSource.assigned, OrderSource.orderName, OrderSource.args, parseOrder, Option.getD_some,
      if_neg (Nat.ne_of_lt written.1), if_true, parsePrimitiveType_name, parseRegister_text written.2.1,
      parseRegister_text written.2.2, ok_bind, OrderSource.order]
    rw [if_neg (by decide), if_neg (by decide)]

/-- The characters between the commas. -/
def TokenCharacter (c : Char) : Bool := WordCharacter c || c == '#'

def IsToken (token : Text) : Prop := token ≠ [] ∧ ∀ c ∈ token, TokenCharacter c = true

instance (token : Text) : Decidable (IsToken token) :=
  decidable_of_iff (token ≠ [] ∧ token.all TokenCharacter = true) (by simp [IsToken])

theorem IsWord.isToken {name : Text} (word : IsWord name) : IsToken name :=
  ⟨word.1, fun c member => by simp [TokenCharacter, word.2 c member]⟩

theorem isToken_numeral (n : Nat) : IsToken (numeral n) :=
  IsWord.isToken ⟨numeral_ne_nil n, fun _ member => digit_word (digit_numeral member)⟩

theorem IsToken.append {left right : Text} (first : IsToken left) (second : IsToken right) : IsToken (left ++ right) :=
  ⟨by simp [first.1], fun c member => (List.mem_append.mp member).elim (first.2 c) (second.2 c)⟩

theorem isToken_indexText {w : Text} (first : IsToken w) (n : Nat) : IsToken (indexText w n) := by
  have shape : indexText w n = w ++ (['#'] ++ numeral n) := rfl
  rw [shape]
  exact first.append (.append (by decide) (isToken_numeral n))

theorem isToken_register (n : Nat) : IsToken (registerText n) := isToken_indexText (by decide) n

theorem isToken_typeName (type : PrimitiveType) : IsToken type.name := by
  cases type <;> decide

theorem isToken_bool (b : Bool) : IsToken (boolText b) := by
  cases b <;> decide

theorem IsToken.ne {token : Text} (plain : IsToken token) {c b : Char} (delimiter : TokenCharacter b = false)
    (member : c ∈ token) : c ≠ b := fun same => by
  have fits := plain.2 c member
  rw [same, delimiter] at fits
  exact absurd fits (by simp)

theorem orderName_isToken (source : OrderSource) : IsToken source.orderName := by
  have names : ∀ name ∈ [jumpToName, retName, setFieldName, constName, argName, iaddName], IsToken name := by decide
  cases source <;> exact names _ (by simp [OrderSource.orderName])

theorem args_isToken (written : source.Written constValues) : ∀ arg ∈ source.args, IsToken arg := by
  cases source with
  | jumpTo labelName => simpa [OrderSource.args] using IsWord.isToken written
  | ret resultRegister => simpa [OrderSource.args] using isToken_register resultRegister
  | setField parentRegister fieldObjectRegister borrowLock usingTypeIndex fieldNameIndex fieldName =>
    have type := isToken_indexText (w := ['t', 'y', 'p', 'e']) (by decide) usingTypeIndex
    have const := isToken_indexText (w := ['c', 'o', 'n', 's', 't']) (by decide) fieldNameIndex
    simp only [OrderSource.args, List.mem_cons, List.not_mem_nil, or_false, forall_eq_or_imp, forall_eq]
    exact ⟨isToken_register _, isToken_register _, isToken_bool _, type, const⟩
  | const assignedRegister type constIndex =>
    simpa [OrderSource.args] using ⟨isToken_typeName type, isToken_numeral constIndex⟩
  | arg assignedRegister argumentIndex => simpa [OrderSource.args] using isToken_numeral argumentIndex
  | iadd assignedRegister type leftRegister rightRegister =>
    simpa [OrderSource.args] using ⟨isToken_typeName type, isToken_register leftRegister, isToken_register rightRegister⟩

theorem tokens_isToken (written : source.Written constValues) : ∀ token ∈ source.orderName :: source.args, IsToken token := by
  rw [List.forall_mem_cons]
  exact ⟨orderName_isToken source, args_isToken written⟩

theorem not_mem_tokens {c : Char} (delimiter : TokenCharacter c = false) (other : c ≠ ',') {tokens : List Text}
    (plain : ∀ token ∈ tokens, IsToken token) : c ∉ [','].intercalate tokens := by
  intro member
  rcases mem_intercalate_comma member with comma | ⟨token, known, here⟩
  · exact other comma
  · exact (plain token known).ne delimiter here rfl

theorem parseOrderText_source (written : source.Written constValues) :
    parseOrderText constValues (source.assigned.getD SIZE_MAX) ([','].intercalate (source.orderName :: source.args)) =
      .ok source.order := by
  have plain := tokens_isToken written
  rw [parseOrderText, commaTokens_intercalate (by simp) (fun token member comma => (plain token member).ne (by decide) comma rfl)
    fun token member => (plain token member).1]
  exact parseOrder_source written

/-- A printed order has neither spaces nor line breaks in it. -/
theorem print_ne (written : source.Written constValues) {c b : Char}
    (outside : TokenCharacter b = false ∧ b ≠ ',' ∧ b ≠ '=') (member : c ∈ source.print) : c ≠ b := by
  rintro rfl
  have tokens := not_mem_tokens outside.1 outside.2.1 (tokens_isToken written)
  unfold OrderSource.print at member
  split at member
  · rcases List.mem_append.mp member with register | text
    · exact (isToken_register _).ne outside.1 register rfl
    · exact (List.mem_cons.mp text).elim outside.2.2 tokens
  · exact tokens member

theorem fullMatch_assignment {register text : Text} (line : ∀ c ∈ register ++ '=' :: text, LineCharacter c = true)
    (some_register : register ≠ []) (some_text : text ≠ []) (before : '=' ∉ register) (absent : '=' ∉ text) :
    fullMatch assignment (register ++ '=' :: text) = some [register, text] := by
  rw [assignment, fullMatch_repeated_absent (fun c member => line c (List.mem_append_left _ member))
    (List.length_pos_iff.mpr some_register) before absent, fullMatch_literal_cons, fullMatch_literal_nil,
    fullMatch_repeated_end (fun c member => line c (List.mem_append_right _ (List.mem_cons_of_mem _ member)))
      (List.length_pos_iff.mpr some_text)]
  rfl

theorem parseOrderLine_print (written : source.Written constValues) :
    parseOrderLine constValues source.print = .ok source.order := by
  have parsed := parseOrderText_source written
  have absent : '=' ∉ [','].intercalate (source.orderName :: source.args) :=
    not_mem_tokens (by decide) (by decide) (tokens_isToken written)
  cases assigned : source.assigned with
  | none =>
    have print : source.print = [','].intercalate (source.orderName :: source.args) := by
      rw [OrderSource.print, assigned]
    have plain : fullMatch assignment source.print = none := by
      cases matched : fullMatch assignment source.print with
      | none => rfl
      | some found =>
        have inside := fullMatch_literal_subset matched (w := ['=']) (by simp [assignment]) List.mem_cons_self
        exact absurd (print ▸ inside) absent
    rw [assigned] at parsed
    rw [parseOrderLine, plain, print]
    exact parsed
  | some assignedRegister =>
    have print : source.print = registerText assignedRegister ++ '=' :: [','].intercalate (source.orderName :: source.args) := by
      rw [OrderSource.print, assigned]
    have fits : assignedRegister < SIZE_MAX := by
      cases source with
      | jumpTo | ret | setField => exact absurd assigned (by simp [OrderSource.assigned])
      | const | arg | iadd =>
        obtain rfl := Option.some.inj assigned
        exact written.1
    have line : ∀ c ∈ source.print, LineCharacter c = true := by
      intro c member
      have newline := print_ne written (b := '\n') (by decide) member
      have carriage := print_ne written (b := '\r') (by decide) member
      simp [LineCharacter, newline, carriage]
    have matched : fullMatch assignment source.print =
        some [registerText assignedRegister, [','].intercalate (source.orderName :: source.args)] := by
      rw [print] at line ⊢
      refine fullMatch_assignment line (isToken_register assignedRegister).1 ?_ (fun member =>
        (isToken_register assignedRegister).ne (by decide) member rfl) absent
      have more : source.args ≠ [] := by cases source <;> simp [OrderSource.args]
      rw [List.intercalate_cons_of_ne_nil more]
      exact List.append_ne_nil_of_left_ne_nil (by simp) _
    rw [assigned] at parsed
    rw [parseOrderLine, matched]
    simp only [parseRegister_text fits, ok_bind]
    exact parsed

end RoundTrip

example : parseOrderLine [] "reg#2=iadd,i64,reg#0,var#1".toList = .ok (.addInteger .i64 2 0 1) := by decide +kernel
end CatLa
