import CatLa.Parser.FunctionSection
import CatLa.Vm.ControlFlow
import CatLa.Vm.LinkPasses

namespace CatLa
open FuelLoop Outcome Pattern

inductive OperandKind
  | reg
  | var
  deriving DecidableEq

def OperandKind.word : OperandKind → Text
  | reg => ['r', 'e', 'g']
  | var => ['v', 'a', 'r']

/-- `reg#n` or `var#n`. -/
structure Operand where
  kind : OperandKind
  number : Nat
  deriving DecidableEq

namespace Operand

def text (operand : Operand) : Text := indexText operand.kind.word operand.number

/-- The operand that a text stands for. -/
def read (str : Text) : Option Operand :=
  match fullMatch [.group (.either [['r', 'e', 'g'], ['v', 'a', 'r']]), .literal ['#'], digits] str with
  | some [word, number] =>
    match stoull number with
    | .ok n => some ⟨if word = ['r', 'e', 'g'] then .reg else .var, n⟩
    | .error _ => none
  | _ => none

/-- The operand before the `=` of a line. -/
def assignedIn (line : Text) : Option Operand :=
  match fullMatch assignment line with
  | some [register, _] => read register
  | _ => none

/-- The value that an order reads through the operand. -/
def valueIn (data : VMData) (operand : Operand) : Option Word :=
  match parseRegisterOrVariableNumber operand.text with
  | .ok n => data.register n
  | .error _ => none

theorem fullMatch_text (operand : Operand) :
    fullMatch [.group (.either [['r', 'e', 'g'], ['v', 'a', 'r']]), .literal ['#'], digits] operand.text =
      some [operand.kind.word, numeral operand.number] := by
  have shape : operand.text = operand.kind.word ++ (['#'] ++ numeral operand.number) := rfl
  rw [shape]
  cases operand.kind <;>
    rw [OperandKind.word, fullMatch_either (by simp) (by simp), fullMatch_literal, digits_numeral] <;> rfl

theorem read_text {operand : Operand} (fits : operand.number < SIZE_MAX) : read operand.text = some operand := by
  rw [read, fullMatch_text]
  dsimp only
  rw [stoull_written fits]
  obtain ⟨kind, n⟩ := operand
  cases kind <;> rfl

/-- The number is all that the parser keeps. -/
theorem parseRegister_operand {operand : Operand} (fits : operand.number < SIZE_MAX) :
    parseRegisterOrVariableNumber operand.text = .ok operand.number := by
  rw [parseRegisterOrVariableNumber, fullMatch_text]
  exact stoull_written fits

theorem valueIn_eq {operand : Operand} (fits : operand.number < SIZE_MAX) (data : VMData) :
    operand.valueIn data = data.register operand.number := by
  rw [valueIn, parseRegister_operand fits]

theorem parseRegister_read {str : Text} {n : Nat} (run : parseRegisterOrVariableNumber str = .ok n) :
    n = ((read str).map (·.number)).getD SIZE_MAX := by
  unfold parseRegisterOrVariableNumber at run
  unfold read
  have noOperand {n : Nat}
      (run : (if str = ['@', 'v', 'o', 'i', 'd'] then .ok SIZE_MAX else .error ParseFailure.parseException) = Except.ok n) :
      n = SIZE_MAX := by
    split at run
    · exact (Except.ok.inj run).symm
    · exact absurd run (by simp)
  generalize fullMatch _ str = matched at run ⊢
  rcases matched with _ | _ | ⟨word, _ | ⟨number, _ | _⟩⟩
  case some.cons.cons.nil =>
    dsimp only at run ⊢
    rw [run]
    rfl
  all_goals exact noOperand run

end Operand

namespace Order

/-- The register that an order writes its value to. -/
def assigned : Order → Option Nat
  | .getConstInteger _ resultRegister _ => some resultRegister
  | .getArgument resultRegister _ => some resultRegister
  | .addInteger _ resultRegister _ _ => some resultRegister
  | .getObjectFieldOwnership _ resultRegister _ _ _ _ => some resultRegister
  | .newClassObject resultRegister _ _ _ => some resultRegister
  | _ => none

/-- The value that an order assigns. -/
def value (rt : Runtime) (constValues : List ConstValue) (arguments : List Word) (data : VMData) : Order → Option Word
  | .getConstInteger _ _ constIndex => (constValues[constIndex]?).bind fun const => const.payload.word
  | .getArgument _ argumentIndex => arguments[argumentIndex]?
  | .addInteger type _ leftRegisterIndex rightRegisterIndex =>
    (data.register leftRegisterIndex).bind fun left =>
    (data.register rightRegisterIndex).bind fun right => addWords (rt.stackAbove data) left right type
  | .getObjectFieldOwnership targetRegister _ _ _ fieldIndex ownershipOrder =>
    (data.register targetRegister).bind fun parent =>
    (getObjectField data.memory.heap parent.toNat fieldIndex ownershipOrder).map fun got => BitVec.ofNat 64 got.2
  | .newClassObject _ _ usingType fieldLength =>
    usingType.map fun type => BitVec.ofNat 64 (rt.malloc data.memory type fieldLength)
  | _ => none

variable {rt : Runtime} {constValues : List ConstValue} {arguments : List Word} {thread thread' : VMThread}
  {data data' : VMData} {order : Order} {r k : Nat} {w : Word}

theorem setRegister_other (run : data.setRegister r w = some data') (other : k ≠ r) :
    data'.register k = data.register k := by
  unfold VMData.setRegister at run
  split at run
  · rw [← Option.some.inj run]
    exact List.getElem?_set_ne (Ne.symm other)
  · exact absurd run (by simp)

theorem setRegister_self (run : data.setRegister r w = some data') : data'.register r = some w := by
  unfold VMData.setRegister at run
  split at run
  · rename_i bound
    rw [← Option.some.inj run]
    exact List.getElem?_set_self bound
  · exact absurd run (by simp)

/-- An order that assigns writes its value, if it has one, and no other
register. -/
theorem eval_assigns (assigns : order.assigned = some r)
    (run : order.eval rt constValues arguments thread data = some (thread', data')) :
    (data'.registers = data.registers ∧ order.value rt constValues arguments data = none) ∨
      ∃ w, ∃ data₀ : VMData, order.value rt constValues arguments data = some w ∧ data₀.registers = data.registers ∧
        data₀.setRegister r w = some data' := by
  cases order with
  | jumpToLabel | returnFunction | setObjectFieldOwnership => exact absurd assigns (by simp [assigned])
  | getConstInteger type resultRegister constIndex =>
    obtain rfl := Option.some.inj assigns
    simp only [eval, Option.bind_eq_some_iff, Option.map_eq_some_iff, Prod.mk.injEq] at run
    obtain ⟨const, atIndex, w, word, _, written, _, rfl⟩ := run
    exact .inr ⟨w, data, by rw [value, atIndex, Option.bind_some, word], rfl, written⟩
  | getArgument resultRegister argumentIndex =>
    obtain rfl := Option.some.inj assigns
    simp only [eval, Option.bind_eq_some_iff, Option.map_eq_some_iff, Prod.mk.injEq] at run
    obtain ⟨w, atIndex, _, written, _, rfl⟩ := run
    exact .inr ⟨w, data, by rw [value, atIndex], rfl, written⟩
  | addInteger type resultRegister leftRegisterIndex rightRegisterIndex =>
    obtain rfl := Option.some.inj assigns
    rw [eval] at run
    split at run
    · rename_i void
      obtain ⟨_, rfl⟩ := Prod.mk.inj (Option.some.inj run)
      exact .inl ⟨rfl, by simp [value, void, addWords]⟩
    · simp only [Option.bind_eq_some_iff, Option.map_eq_some_iff, Prod.mk.injEq] at run
      obtain ⟨left, atLeft, right, atRight, w, sum, _, written, _, rfl⟩ := run
      exact .inr ⟨w, data, by rw [value, atLeft, Option.bind_some, atRight, Option.bind_some, sum], rfl, written⟩
  | getObjectFieldOwnership targetRegister resultRegister usingTypeIndex fieldName fieldIndex ownershipOrder =>
    obtain rfl := Option.some.inj assigns
    simp only [eval, Option.bind_eq_some_iff, Option.map_eq_some_iff, Prod.mk.injEq] at run
    obtain ⟨parent, atParent, got, field, _, written, _, rfl⟩ := run
    refine .inr ⟨_, _, ?_, ?_, written⟩
    · rw [value, atParent, Option.bind_some, field, Option.map_some]
    · rfl
  | newClassObject resultRegister usingTypeIndex usingType fieldLength =>
    obtain rfl := Option.some.inj assigns
    simp only [eval, Option.bind_eq_some_iff, Option.map_eq_some_iff, Prod.mk.injEq] at run
    obtain ⟨type, known, _, written, _, rfl⟩ := run
    refine .inr ⟨_, _, ?_, ?_, written⟩
    · rw [value, known, Option.map_some]
    · rfl

/-- The registers that an order does not write: a `ret` writes the slot of the
result. -/
theorem eval_frame (run : order.eval rt constValues arguments thread data = some (thread', data'))
    (other : order.assigned ≠ some k)
    (slot : ∀ r, order = .returnFunction r → k ≠ thread.currentFunction.registersSize) :
    data'.register k = data.register k := by
  cases assigns : order.assigned with
  | some r =>
    have apart : k ≠ r := fun same => other (same ▸ assigns)
    rcases eval_assigns assigns run with ⟨same, _⟩ | ⟨w, data₀, _, same, written⟩
    · rw [VMData.register, same, VMData.register]
    · rw [setRegister_other written apart, VMData.register, same, VMData.register]
  | none =>
    cases order with
    | jumpToLabel labelName label =>
      obtain ⟨_, rfl⟩ := Prod.mk.inj (Option.some.inj run)
      rfl
    | returnFunction resultRegister =>
      simp only [eval, Option.bind_eq_some_iff, Option.map_eq_some_iff, Prod.mk.injEq] at run
      obtain ⟨_, _, _, written, _, rfl⟩ := run
      exact setRegister_other written (slot resultRegister rfl)
    | setObjectFieldOwnership targetRegister fieldObjectRegisterIndex usingTypeIndex fieldName fieldIndex borrowLock =>
      simp only [eval, Option.bind_eq_some_iff, Option.map_eq_some_iff, Prod.mk.injEq] at run
      obtain ⟨_, _, _, _, _, _, _, rfl⟩ := run
      rfl
    | _ => exact absurd assigns (by simp [assigned])

@[simp] theorem assigned_linked (typeOf : TypePointer → Option VMType) (usingTypes : List (Option TypePointer))
    (label : Text → Option Nat) (order : Order) : (order.linked typeOf usingTypes label).assigned = order.assigned := by
  cases order <;> rfl

/-- A value is assigned where there is a register for it. -/
theorem eval_value (assigns : order.assigned = some r) (has : order.value rt constValues arguments data = some w)
    (bound : r < data.registers.length) :
    ∃ data', order.eval rt constValues arguments thread data = some (thread, data') ∧ data'.register r = some w := by
  have writes (data₀ : VMData) (same : data₀.registers = data.registers) :
      ∃ data', data₀.setRegister r w = some data' ∧ data'.register r = some w := by
    refine ⟨{ data₀ with registers := data₀.registers.set r w }, ?_, ?_⟩
    · rw [VMData.setRegister, if_pos (by rwa [same])]
    · exact List.getElem?_set_self (by rwa [same])
  cases order with
  | jumpToLabel | returnFunction | setObjectFieldOwnership => exact absurd assigns (by simp [assigned])
  | getConstInteger type resultRegister constIndex =>
    obtain rfl := Option.some.inj assigns
    obtain ⟨const, atIndex, word⟩ := Option.bind_eq_some_iff.mp has
    obtain ⟨data', written, result⟩ := writes data rfl
    exact ⟨data', by simp [eval, atIndex, word, written], result⟩
  | getArgument resultRegister argumentIndex =>
    obtain rfl := Option.some.inj assigns
    rw [value] at has
    obtain ⟨data', written, result⟩ := writes data rfl
    exact ⟨data', by simp [eval, has, written], result⟩
  | addInteger type resultRegister leftRegisterIndex rightRegisterIndex =>
    obtain rfl := Option.some.inj assigns
    obtain ⟨left, atLeft, has⟩ := Option.bind_eq_some_iff.mp has
    obtain ⟨right, atRight, sum⟩ := Option.bind_eq_some_iff.mp has
    have other : type ≠ .void := fun void => absurd sum (by simp [void, addWords])
    obtain ⟨data', written, result⟩ := writes data rfl
    exact ⟨data', by simp [eval, other, atLeft, atRight, sum, written], result⟩
  | getObjectFieldOwnership targetRegister resultRegister usingTypeIndex fieldName fieldIndex ownershipOrder =>
    obtain rfl := Option.some.inj assigns
    obtain ⟨parent, atParent, has⟩ := Option.bind_eq_some_iff.mp has
    obtain ⟨got, field, rfl⟩ := Option.map_eq_some_iff.mp has
    obtain ⟨data', written, result⟩ := writes { data with memory := { data.memory with heap := got.1 } } rfl
    exact ⟨data', by simp [eval, atParent, field, written], result⟩
  | newClassObject resultRegister usingTypeIndex usingType fieldLength =>
    obtain rfl := Option.some.inj assigns
    obtain ⟨type, rfl, rfl⟩ := Option.map_eq_some_iff.mp has
    let object := rt.malloc data.memory type fieldLength
    let memory :=
      if object = 0 then data.memory
      else data.memory.malloc object (rt.typeAddress type) (rt.isCyclingType type) fieldLength
    obtain ⟨data', written, result⟩ := writes { data with memory := memory } rfl
    refine ⟨data', ?_, result⟩
    rw [eval, Option.bind_some]
    show (({ data with memory := memory } : VMData).setRegister resultRegister _).map _ = _
    rw [written, Option.map_some]

theorem eval_keeps (run : order.eval rt constValues arguments thread data = some (thread', data')) :
    thread'.currentFunction = thread.currentFunction ∧ data'.registers.length = data.registers.length := by
  by_cases ordinary : order.Ordinary
  · rw [eval_ordinary (f := thread.currentFunction) ordinary] at run
    obtain ⟨data₁, ran, same⟩ := Option.map_eq_some_iff.mp run
    obtain ⟨rfl, rfl⟩ := Prod.mk.inj same
    exact ⟨rfl, evalData_length ordinary ran⟩
  · cases order with
    | jumpToLabel labelName label =>
      obtain ⟨rfl, rfl⟩ := Prod.mk.inj (Option.some.inj run)
      exact ⟨rfl, rfl⟩
    | returnFunction resultRegister =>
      simp only [eval, Option.bind_eq_some_iff, Option.map_eq_some_iff, Prod.mk.injEq] at run
      obtain ⟨_, _, _, written, rfl, rfl⟩ := run
      exact ⟨rfl, setRegister_length written⟩
    | _ => exact absurd trivial ordinary

theorem assigned_parseOrder {assignmentRegister : Nat} {orderName : Text} {args : List Text}
    (run : parseOrder constValues assignmentRegister orderName args = .ok order) :
    order.assigned = if assignmentRegister = SIZE_MAX then none else some assignmentRegister := by
  rcases parseOrder_cases run with ⟨void, outcome⟩ | ⟨register, outcome⟩
  · rw [if_pos void]
    rcases outcome with ⟨_, rfl⟩ | ⟨_, rfl⟩ | ⟨_, _, _, _, _, rfl⟩ <;> rfl
  · rw [if_neg register]
    rcases outcome with ⟨_, _, rfl⟩ | ⟨_, rfl⟩ | ⟨_, _, _, rfl⟩ <;> rfl

/-- What an order assigns is the number of its operand, whatever the kind. -/
theorem assigned_parseOrderLine {line : Text} (run : parseOrderLine constValues line = .ok order) :
    order.assigned = (Operand.assignedIn line).bind fun operand =>
      if operand.number = SIZE_MAX then none else some operand.number := by
  unfold parseOrderLine at run
  unfold Operand.assignedIn
  have noOperand (run : parseOrderText constValues SIZE_MAX line = .ok order) : order.assigned = none := by
    rw [assigned_parseOrder run, if_pos rfl]
  generalize fullMatch assignment line = matched at run ⊢
  rcases matched with _ | _ | ⟨register, _ | ⟨orderText, _ | _⟩⟩
  case some.cons.cons.nil =>
    obtain ⟨n, number, run⟩ := bind_eq_ok.mp run
    dsimp only
    rw [assigned_parseOrder run, Operand.parseRegister_read number]
    cases Operand.read register <;> simp
  all_goals exact noOperand run

end Order

/-- A call of a function with so many variables and registers. -/
structure Call (variablesSize registersSize : Nat) where
  rt : Runtime
  constValues : List ConstValue
  arguments : List Word
  thread : VMThread
  data : VMData
  declaredVariables : thread.currentFunction.variablesSize = variablesSize
  declaredRegisters : thread.currentFunction.registersSize = registersSize
  contents : data.registers.length = registersSize + 1

namespace Call
variable {variablesSize registersSize : Nat}

def eval (call : Call variablesSize registersSize) (order : Order) : Option (VMThread × VMData) :=
  order.eval call.rt call.constValues call.arguments call.thread call.data

def value (call : Call variablesSize registersSize) (order : Order) : Option Word :=
  order.value call.rt call.constValues call.arguments call.data

end Call

/-- `var#i` and `reg#j` are different places for every order that is accepted. -/
structure OperandsApart (variablesSize registersSize i j : Nat) : Prop where
  reg : ∀ (call : Call variablesSize registersSize) line order thread data,
    parseOrderLine call.constValues line = .ok order → Operand.assignedIn line = some ⟨.var, i⟩ →
    call.eval order = some (thread, data) → Operand.valueIn data ⟨.reg, j⟩ = Operand.valueIn call.data ⟨.reg, j⟩
  var : ∀ (call : Call variablesSize registersSize) line order thread data,
    parseOrderLine call.constValues line = .ok order → Operand.assignedIn line = some ⟨.reg, j⟩ →
    call.eval order = some (thread, data) → Operand.valueIn data ⟨.var, i⟩ = Operand.valueIn call.data ⟨.var, i⟩
  latest : ∀ (call : Call variablesSize registersSize) line order w,
    parseOrderLine call.constValues line = .ok order → Operand.assignedIn line = some ⟨.var, i⟩ →
    call.value order = some w →
    ∃ thread data, call.eval order = some (thread, data) ∧ Operand.valueIn data ⟨.var, i⟩ = some w

def lineAt (lines : List (List Text)) (place : Place) : Option Text := (lines[place.1]?).bind (·[place.2]?)

namespace CallState

def order (s : CallState) : Option Order := s.place.bind s.thread.currentFunction.orderAt

/-- The line of the order that is evaluated next. -/
def line (lines : List (List Text)) (s : CallState) : Option Text := s.place.bind (lineAt lines)

/-- The operand that the next order assigns. -/
def assigned (lines : List (List Text)) (s : CallState) : Option Operand := (s.line lines).bind Operand.assignedIn

end CallState

section Runs
variable (rt : Runtime) (constValues : List ConstValue) (arguments : List Word) (lines : List (List Text))

/-- The value that the passes of a run assigned to the operand last. -/
def lastAssigned (operand : Operand) : Nat → CallState → Option Word → Option Word
  | 0, _, last => last
  | pass + 1, s, last =>
    match runBody rt constValues arguments s with
    | some (.again s') =>
      lastAssigned operand pass s'
        (if s.assigned lines = some operand then
          (s.order.bind (·.value rt constValues arguments s.data)).or last
        else last)
    | _ => last

/-- `var#i` and `reg#j` are different places in a run, in which `var#i` is read
as it was assigned. -/
structure RunApart (start : CallState) (i j : Nat) : Prop where
  reg : ∀ n s order thread data, stateAt (runBody rt constValues arguments) n start = some s → s.order = some order →
    s.assigned lines = some ⟨.var, i⟩ → order.eval rt constValues arguments s.thread s.data = some (thread, data) →
    Operand.valueIn data ⟨.reg, j⟩ = Operand.valueIn s.data ⟨.reg, j⟩
  var : ∀ n s order thread data, stateAt (runBody rt constValues arguments) n start = some s → s.order = some order →
    s.assigned lines = some ⟨.reg, j⟩ → order.eval rt constValues arguments s.thread s.data = some (thread, data) →
    Operand.valueIn data ⟨.var, i⟩ = Operand.valueIn s.data ⟨.var, i⟩
  latest : ∀ n s w, stateAt (runBody rt constValues arguments) n start = some s →
    lastAssigned rt constValues arguments lines ⟨.var, i⟩ n start none = some w → Operand.valueIn s.data ⟨.var, i⟩ = some w

end Runs

theorem Order.assigned_operand {constValues : List ConstValue} {line : Text} {order : Order} {operand : Operand}
    (run : parseOrderLine constValues line = .ok order) (assigns : Operand.assignedIn line = some operand)
    (fits : operand.number < SIZE_MAX) : order.assigned = some operand.number := by
  rw [Order.assigned_parseOrderLine run, assigns, Option.bind_some, if_neg (Nat.ne_of_lt fits)]

/-- `operand=arg,0` -/
def argumentLine (operand : Operand) : Text := operand.text ++ '=' :: ['a', 'r', 'g', ',', '0']

theorem fullMatch_argumentLine (operand : Operand) :
    fullMatch assignment (argumentLine operand) = some [operand.text, ['a', 'r', 'g', ',', '0']] := by
  have token : IsToken operand.text := isToken_indexText (by cases operand.kind <;> decide) operand.number
  refine fullMatch_assignment (fun c member => ?_) token.1 (by simp) (fun member => token.ne (by decide) member rfl) (by decide)
  rcases List.mem_append.mp member with inside | after
  · have newline := token.ne (b := '\n') (by decide) inside
    have carriage := token.ne (b := '\r') (by decide) inside
    simp [LineCharacter, newline, carriage]
  · exact List.all_eq_true.mp (by decide : ['=', 'a', 'r', 'g', ',', '0'].all LineCharacter = true) c after

theorem parse_argumentLine (operand : Operand) (fits : operand.number < SIZE_MAX) (constValues : List ConstValue) :
    parseOrderLine constValues (argumentLine operand) = .ok (.getArgument operand.number 0) := by
  have tokens : commaTokens ['a', 'r', 'g', ',', '0'] = [argName, numeral 0] := by decide +kernel
  rw [parseOrderLine, fullMatch_argumentLine]
  dsimp only
  rw [Operand.parseRegister_operand fits, ok_bind, parseOrderText, tokens]
  simp only [parseOrder, List.headD_cons, List.drop_succ_cons, List.drop_zero, if_neg (Nat.ne_of_lt fits)]
  rw [if_neg (by decide), if_pos trivial, stoull_written (by decide)]
  rfl

/-- A call with one argument, which is not zero. -/
def argumentCall (variablesSize registersSize : Nat) : Call variablesSize registersSize where
  rt := idleRuntime
  constValues := []
  arguments := [1]
  thread := ⟨.make [] variablesSize registersSize [] ⟨some .u64, 0⟩ [⟨some .u64, 0⟩], some 0, 0, false⟩
  data := ⟨List.replicate (registersSize + 1) 0, emptyMemory⟩
  declaredVariables := rfl
  declaredRegisters := rfl
  contents := List.length_replicate

section Apart
variable {variablesSize registersSize i j : Nat}

theorem operandsApart_iff (manyVariables : variablesSize ≤ SIZE_MAX) (manyRegisters : registersSize ≤ SIZE_MAX)
    (declaredVar : i < variablesSize) (declaredReg : j < registersSize) :
    OperandsApart variablesSize registersSize i j ↔ i ≠ j ∧ i ≤ registersSize := by
  have fits : i < SIZE_MAX := declaredVar.trans_le manyVariables
  have fits' : j < SIZE_MAX := declaredReg.trans_le manyRegisters
  have assigns : Operand.assignedIn (argumentLine ⟨.var, i⟩) = some ⟨.var, i⟩ := by
    rw [Operand.assignedIn, fullMatch_argumentLine]
    exact Operand.read_text fits
  have parsed := parse_argumentLine ⟨.var, i⟩ fits []
  constructor
  · intro apart
    obtain ⟨thread, data, run, atVar⟩ := apart.latest (argumentCall variablesSize registersSize) _ _ 1 parsed assigns rfl
    rw [Operand.valueIn_eq fits] at atVar
    have length : data.registers.length = registersSize + 1 := by
      rw [(Order.eval_keeps run).2]
      exact List.length_replicate
    have bound : i < registersSize + 1 := by
      rw [← length]
      exact (List.getElem?_eq_some_iff.mp atVar).1
    refine ⟨?_, Nat.lt_succ_iff.mp bound⟩
    rintro rfl
    have kept := apart.reg (argumentCall variablesSize registersSize) _ _ thread data parsed assigns run
    rw [Operand.valueIn_eq fits', Operand.valueIn_eq fits', atVar] at kept
    have before : (argumentCall variablesSize registersSize).data.register i = some 0 :=
      List.getElem?_replicate_of_lt bound
    exact absurd (kept.trans before) (by simp)
  · rintro ⟨different, inside⟩
    refine ⟨fun call line order thread data parsed assigns run => ?_, fun call line order thread data parsed assigns run => ?_,
      fun call line order w parsed assigns has => ?_⟩
    · have target := Order.assigned_operand parsed assigns fits
      rw [Operand.valueIn_eq fits', Operand.valueIn_eq fits']
      refine Order.eval_frame run (fun same => different (Option.some.inj (target.symm.trans same))) fun r ret => ?_
      exact absurd target (by simp [ret, Order.assigned])
    · have target := Order.assigned_operand parsed assigns fits'
      rw [Operand.valueIn_eq fits, Operand.valueIn_eq fits]
      refine Order.eval_frame run (fun same => different (Option.some.inj (target.symm.trans same)).symm) fun r ret => ?_
      exact absurd target (by simp [ret, Order.assigned])
    · have target := Order.assigned_operand parsed assigns fits
      have room : i < call.data.registers.length := by
        rw [call.contents]
        exact Nat.lt_succ_iff.mpr inside
      obtain ⟨data, run, value⟩ : ∃ data, call.eval order = some (call.thread, data) ∧ data.register i = some w :=
        Order.eval_value target has room
      exact ⟨call.thread, data, run, by rw [Operand.valueIn_eq fits, value]⟩

end Apart

section Lines
variable {constValues : List ConstValue} {lines : List (List Text)} {f : VMFunction} {place : Place} {order : Order}

theorem line_of_order (read : ReadFrom constValues lines f.labelBlocks) (here : f.orderAt place = some order) :
    ∃ line, lineAt lines place = some line ∧ parseOrderLine constValues line = .ok order := by
  obtain ⟨block, atBlock, atOrder⟩ := Option.bind_eq_some_iff.mp here
  obtain ⟨inside, same⟩ := List.getElem?_eq_some_iff.mp atBlock
  subst same
  obtain ⟨length, blocks⟩ := List.forall₂_iff_get.mp read
  have shown := blocks place.1 (length ▸ inside) inside
  obtain ⟨within, same⟩ := List.getElem?_eq_some_iff.mp atOrder
  subst same
  obtain ⟨length', orders⟩ := List.forall₂_iff_get.mp shown
  have known : place.2 < (lines.get ⟨place.1, length ▸ inside⟩).length := by
    rw [length']
    exact within
  refine ⟨_, ?_, orders place.2 known within⟩
  rw [lineAt, List.getElem?_eq_getElem (length ▸ inside), Option.bind_some]
  exact List.getElem?_eq_getElem known

theorem orderAt_linked (typeOf : TypePointer → Option VMType) (usingTypes : List (Option TypePointer)) (place : Place) :
    (f.linked typeOf usingTypes).orderAt place =
      (f.orderAt place).map (·.linked typeOf usingTypes f.labelBlockMap.get) := by
  rw [VMFunction.orderAt, VMFunction.orderAt, VMFunction.linked, List.getElem?_map, Option.bind_map, Option.map_bind]
  exact Option.bind_congr fun _ _ => List.getElem?_map

end Lines

section Run
variable {rt : Runtime} {constValues : List ConstValue} {arguments : List Word} {lines : List (List Text)} {f : VMFunction}
  {typeOf : TypePointer → Option VMType} {usingTypes : List (Option TypePointer)} {s s' : CallState} {i j : Nat}

theorem place_of_order {order : Order} (here : s.order = some order) :
    ∃ place, s.place = some place ∧ s.thread.currentFunction.orderAt place = some order :=
  Option.bind_eq_some_iff.mp here

/-- What the orders of a run assign is what their lines say. -/
theorem assigned_of_line (read : ReadFrom constValues lines f.labelBlocks)
    (called : s.thread.currentFunction = f.linked typeOf usingTypes) {order : Order} (here : s.order = some order) :
    order.assigned = (s.assigned lines).bind fun operand =>
      if operand.number = SIZE_MAX then none else some operand.number := by
  obtain ⟨place, atPlace, found⟩ := place_of_order here
  rw [called, orderAt_linked] at found
  obtain ⟨source, atSource, rfl⟩ := Option.map_eq_some_iff.mp found
  obtain ⟨line, atLine, parsed⟩ := line_of_order read atSource
  rw [CallState.assigned, CallState.line, atPlace, Option.bind_some, atLine, Option.bind_some, Order.assigned_linked,
    Order.assigned_parseOrderLine parsed]

/-- A pass that goes on: the order did not return, and the next one is not the
end of the block, which is the block that the order went to. -/
theorem runBody_again_iff : runBody rt constValues arguments s = some (.again s') ↔
    ∃ order thread label block, s.order = some order ∧
      order.eval rt constValues arguments s.thread s.data = some (thread, s'.data) ∧
      s'.thread = { thread with currentOrderIndex := thread.currentOrderIndex + 1 } ∧
      thread.currentLabelBlock = some label ∧ thread.currentFunction.labelBlocks[label]? = some block ∧
      thread.currentOrderIndex + 1 ≠ block.orders.length ∧ thread.returnFunction = false := by
  constructor
  · intro run
    simp only [runBody, Option.bind_eq_some_iff, Option.map_eq_some_iff] at run
    obtain ⟨label, atLabel, order, found, ⟨thread, data⟩, eval, label', atLabel', block, atBlock, outcome⟩ := run
    split at outcome
    · exact absurd outcome (by simp)
    · rename_i runs
      injection outcome with outcome
      subst outcome
      obtain ⟨more, going⟩ := not_or.mp runs
      have place : s.place = some (label, s.thread.currentOrderIndex) := by
        rw [CallState.place, atLabel, Option.bind_some, found]
        rfl
      exact ⟨order, thread, label', block, by rw [CallState.order, place, Option.bind_some, found], eval, rfl, atLabel', atBlock,
        more, by simpa using going⟩
  · rintro ⟨order, thread, label, block, here, eval, same, atLabel, atBlock, more, going⟩
    obtain ⟨place, atPlace, found⟩ := place_of_order here
    obtain ⟨label', current, same'⟩ := Option.bind_eq_some_iff.mp atPlace
    split at same'
    · obtain rfl := Option.some.inj same'
      obtain ⟨thread', data'⟩ := s'
      dsimp only at same eval
      subst same
      rw [runBody, current, Option.bind_some, found, Option.bind_some, eval, Option.bind_some]
      dsimp only
      rw [atLabel, Option.bind_some, atBlock, Option.map_some, if_neg (not_or.mpr ⟨more, by simp [going]⟩)]
    · exact absurd same' (by simp)

/-- A pass that goes on has evaluated an order, which is no `ret`. -/
theorem runBody_again (run : runBody rt constValues arguments s = some (.again s')) :
    ∃ order thread, s.order = some order ∧ order.eval rt constValues arguments s.thread s.data = some (thread, s'.data) ∧
      s'.thread.currentFunction = thread.currentFunction ∧ ∀ r, order ≠ .returnFunction r := by
  obtain ⟨order, thread, _, _, here, eval, same, _, _, _, going⟩ := runBody_again_iff.mp run
  refine ⟨order, thread, here, eval, by rw [same], ?_⟩
  rintro r rfl
  simp only [Order.eval, Option.bind_eq_some_iff, Option.map_eq_some_iff, Prod.mk.injEq] at eval
  obtain ⟨_, _, _, _, rfl, _⟩ := eval
  exact absurd going (by simp)

theorem stateAt_function {n : Nat} (run : stateAt (runBody rt constValues arguments) n s = some s') :
    s'.thread.currentFunction = s.thread.currentFunction := by
  induction n generalizing s with
  | zero => rw [← Option.some.inj run]
  | succ n ih =>
    rw [stateAt] at run
    split at run
    · rename_i s₁ pass
      obtain ⟨order, thread, _, eval, same, _⟩ := runBody_again pass
      rw [ih run, same, (Order.eval_keeps eval).1]
    · exact absurd run (by simp)

/-- The register of a variable holds what was assigned to it, as long as the
register of that number is not assigned. -/
theorem lastAssigned_register (read : ReadFrom constValues lines f.labelBlocks) (fits : i < SIZE_MAX)
    (called : s.thread.currentFunction = f.linked typeOf usingTypes)
    (apart : ∀ n s', stateAt (runBody rt constValues arguments) n s = some s' → s'.assigned lines ≠ some ⟨.reg, i⟩)
    {n : Nat} {last : Option Word} {w : Word} (run : stateAt (runBody rt constValues arguments) n s = some s')
    (holds : ∀ w, last = some w → s.data.register i = some w)
    (assigned : lastAssigned rt constValues arguments lines ⟨.var, i⟩ n s last = some w) : s'.data.register i = some w := by
  induction n generalizing s last with
  | zero =>
    rw [← Option.some.inj run]
    exact holds w assigned
  | succ n ih =>
    rw [stateAt] at run
    rw [lastAssigned] at assigned
    split at run
    · rename_i s₁ pass
      rw [pass] at assigned
      obtain ⟨order, thread, here, eval, same, goesOn⟩ := runBody_again pass
      have target := assigned_of_line read called here
      refine ih (by rw [same, (Order.eval_keeps eval).1, called]) (fun m s₂ later => apart (m + 1) s₂ ?_) run ?_ assigned
      · rw [stateAt, pass]
        exact later
      · intro w newest
        split at newest
        · rename_i mine
          rw [mine, Option.bind_some, if_neg (Nat.ne_of_lt fits)] at target
          rw [here, Option.bind_some] at newest
          rcases Order.eval_assigns target eval with ⟨unchanged, nothing⟩ | ⟨w', data₀, has, _, written⟩
          · rw [nothing, Option.none_or] at newest
            rw [VMData.register, unchanged]
            exact holds w newest
          · rw [has, Option.some_or] at newest
            rw [Order.setRegister_self written, newest]
        · rename_i other
          rw [Order.eval_frame eval ?_ fun r ret => absurd ret (goesOn r)]
          · exact holds w newest
          · intro assigns
            rw [assigns] at target
            obtain ⟨operand, found, same⟩ := Option.bind_eq_some_iff.mp target.symm
            split at same
            · exact absurd same (by simp)
            · obtain rfl := Option.some.inj same
              obtain ⟨kind, number⟩ := operand
              cases kind with
              | reg => exact apart 0 s rfl found
              | var => exact other found
    · exact absurd run (by simp)

end Run

/-- Variables and registers of different numbers are apart. In a run `var#i`
is read as it was assigned, unless `reg#i` is assigned. -/
theorem operands_apart {variablesSize registersSize i j : Nat} (manyVariables : variablesSize ≤ SIZE_MAX)
    (manyRegisters : registersSize ≤ SIZE_MAX) (declaredVar : i < variablesSize) (declaredReg : j < registersSize) :
    (OperandsApart variablesSize registersSize i j ↔ i ≠ j ∧ i ≤ registersSize) ∧
      ∀ (rt : Runtime) (constValues : List ConstValue) (arguments : List Word) (lines : List (List Text)) (f : VMFunction)
        (typeOf : TypePointer → Option VMType) (usingTypes : List (Option TypePointer)) (thread : VMThread)
        (contents : Nat → Word) (memory : GcState),
        ReadFrom constValues lines f.labelBlocks → f.variablesSize = variablesSize → f.registersSize = registersSize →
        i ≠ j →
        let start := runStart thread (f.linked typeOf usingTypes) contents memory
        (∀ n s, stateAt (runBody rt constValues arguments) n start = some s → s.assigned lines ≠ some ⟨.reg, i⟩) →
        RunApart rt constValues arguments lines start i j := by
  have fits : i < SIZE_MAX := declaredVar.trans_le manyVariables
  have fits' : j < SIZE_MAX := declaredReg.trans_le manyRegisters
  refine ⟨operandsApart_iff manyVariables manyRegisters declaredVar declaredReg, ?_⟩
  intro rt constValues arguments lines f typeOf usingTypes thread contents memory read _ _ different start apart
  have called {n : Nat} {s : CallState} (run : stateAt (runBody rt constValues arguments) n start = some s) :
      s.thread.currentFunction = f.linked typeOf usingTypes := stateAt_function run
  -- an order that assigns one number keeps the others
  have keeps {n : Nat} {s : CallState} {order : Order} {thread : VMThread} {data : VMData} {operand other : Operand}
      (run : stateAt (runBody rt constValues arguments) n start = some s) (here : s.order = some order)
      (assigns : s.assigned lines = some operand) (small : operand.number < SIZE_MAX) (small' : other.number < SIZE_MAX)
      (apart : operand.number ≠ other.number)
      (eval : order.eval rt constValues arguments s.thread s.data = some (thread, data)) :
      other.valueIn data = other.valueIn s.data := by
    have target := assigned_of_line read (called run) here
    rw [assigns, Option.bind_some, if_neg (Nat.ne_of_lt small)] at target
    rw [Operand.valueIn_eq small', Operand.valueIn_eq small']
    refine Order.eval_frame eval (fun same => apart (Option.some.inj (target.symm.trans same))) fun r ret => ?_
    exact absurd target (by simp [ret, Order.assigned])
  refine ⟨fun n s order thread data run here assigns eval => ?_, fun n s order thread data run here assigns eval => ?_,
    fun n s w run assigned => ?_⟩
  · exact keeps run here assigns fits fits' different eval
  · exact keeps run here assigns fits' fits different.symm eval
  · rw [Operand.valueIn_eq fits]
    exact lastAssigned_register read fits rfl apart run (by simp) assigned

/-- A function that assigns `var#1` and `reg#0`, and returns the variable. -/
def assigningLines : List (List Text) := [["var#1=arg,0".toList, "reg#0=arg,1".toList, "ret,var#1".toList]]

def assigningFunction : VMFunction :=
  .make ['f'] 2 2 [⟨['a'], [.getArgument 1 0, .getArgument 0 1, .returnFunction 1]⟩] ⟨some .u64, 0⟩
    [⟨some .u64, 0⟩, ⟨some .u64, 0⟩]

theorem operands_apart_second : OperandsApart 2 2 1 0 ∧
    RunApart idleRuntime [] [7, 8] assigningLines
      (runStart ⟨assigningFunction, none, 0, false⟩ (assigningFunction.linked (fun _ => none) []) (fun _ => 0) emptyMemory) 1 0 := by
  have apart := @operands_apart 2 2 1 0 (by decide) (by decide) (by decide) (by decide)
  refine ⟨apart.1.mpr ⟨by decide, by decide⟩, ?_⟩
  have lines : parseOrderLine [] "var#1=arg,0".toList = .ok (.getArgument 1 0) ∧
      parseOrderLine [] "reg#0=arg,1".toList = .ok (.getArgument 0 1) ∧
      parseOrderLine [] "ret,var#1".toList = .ok (.returnFunction 1) := by
    decide +kernel
  have read : ReadFrom [] assigningLines assigningFunction.labelBlocks :=
    .cons (.cons lines.1 (.cons lines.2.1 (.cons lines.2.2 .nil))) .nil
  refine apart.2 idleRuntime [] [7, 8] assigningLines assigningFunction (fun _ => none) [] ⟨assigningFunction, none, 0, false⟩
    (fun _ => 0) emptyMemory read rfl rfl (by decide) fun n s _ assigned => ?_
  -- no line of the function assigns `reg#1`
  have none : ∀ block ∈ assigningLines, ∀ line ∈ block, Operand.assignedIn line ≠ some ⟨.reg, 1⟩ := by decide +kernel
  obtain ⟨line, atLine, assigns⟩ := Option.bind_eq_some_iff.mp assigned
  obtain ⟨place, _, found⟩ := Option.bind_eq_some_iff.mp atLine
  obtain ⟨block, atBlock, inside⟩ := Option.bind_eq_some_iff.mp found
  exact none block (List.mem_of_getElem? atBlock) line (List.mem_of_getElem? inside) assigns

/-- After `var#0=arg,0` an order that reads `reg#0` gets the argument. -/
theorem operands_shared : ∃ thread data,
    parseOrderLine [] "var#0=arg,0".toList = .ok (.getArgument 0 0) ∧
    Operand.assignedIn "var#0=arg,0".toList = some ⟨.var, 0⟩ ∧
    (argumentCall 1 1).eval (.getArgument 0 0) = some (thread, data) ∧
    Operand.valueIn (argumentCall 1 1).data ⟨.reg, 0⟩ = some 0 ∧ Operand.valueIn data ⟨.reg, 0⟩ = some 1 ∧
    ¬OperandsApart 1 1 0 0 := by
  refine ⟨_, _, by decide +kernel, by decide +kernel, rfl, by decide +kernel, by decide +kernel, fun apart => ?_⟩
  exact ((operandsApart_iff (by decide) (by decide) (by decide) (by decide)).mp apart).1 rfl

end CatLa
