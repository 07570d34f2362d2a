import Mathlib.Data.BitVec
import CatLa.Vm.ControlFlow

namespace CatLa
open FuelLoop

namespace PrimitiveType

/-- The bits of an integer type. -/
def width : PrimitiveType → Nat
  | .void => 0
  | .i8 | .u8 => 8
  | .i16 | .u16 => 16
  | .i32 | .u32 => 32
  | .i64 | .u64 => 64

def isSigned : PrimitiveType → Bool
  | .i8 | .i16 | .i32 | .i64 => true
  | _ => false

end PrimitiveType

/-- A value of some width in a register. -/
def extendWord {w : Nat} (isSigned : Bool) (x : BitVec w) : Word := if isSigned then x.signExtend 64 else x.setWidth 64

/-- The sum of two operands that are read at the width of their type, wrapped
to that width and extended to a register. -/
def wrappedSum (type : PrimitiveType) (left right : Word) : Word :=
  extendWord type.isSigned (left.setWidth type.width + right.setWidth type.width)

/-- The sum of two operands does not overflow when it is promoted, and the bytes
above a 32-bit sum are those of its extension. -/
structure SumExact {w : Nat} (isSigned : Bool) (above : BitVec 32) (left right : BitVec w) : Prop where
  promoted : w < 32 → (if isSigned then left.saddOverflow right else left.uaddOverflow right) = false
  upper : w ≤ 32 → above = if isSigned = true ∧ (left + right).msb = true then BitVec.allOnes 32 else 0

def AdditionExact (type : PrimitiveType) (above : BitVec 32) (left right : Word) : Prop :=
  SumExact type.isSigned above (left.setWidth type.width) (right.setWidth type.width)

section Words
variable {w : Nat} (above : BitVec 32) (left right : BitVec w)

theorem append_inj {high high' low low' : BitVec 32} : high ++ low = high' ++ low' ↔ high = high' ∧ low = low' := by
  constructor
  · intro same
    have upper := congrArg (·.extractLsb' 32 32) same
    have lower := congrArg (·.setWidth 32) same
    rw [BitVec.extractLsb'_append_eq_left, BitVec.extractLsb'_append_eq_left] at upper
    rw [BitVec.setWidth_append_eq_right, BitVec.setWidth_append_eq_right] at lower
    exact ⟨upper, lower⟩
  · rintro ⟨rfl, rfl⟩
    rfl

/-- A sign extension to a register, in halves. -/
theorem signExtend_halves (narrow : w ≤ 32) :
    left.signExtend 64 = (if left.msb then BitVec.allOnes 32 else 0) ++ left.signExtend 32 := by
  refine BitVec.eq_of_getLsbD_eq fun i inside => ?_
  simp only [BitVec.getLsbD_append, BitVec.getLsbD_signExtend, inside, decide_true, Bool.true_and]
  by_cases low : i < 32
  · simp [low]
  · rw [if_neg low, if_neg (by omega)]
    cases left.msb with
    | true => rw [if_pos rfl, BitVec.getLsbD_allOnes, decide_eq_true (by omega)]
    | false => simp

theorem setWidth_halves (narrow : w ≤ 32) : left.setWidth 64 = (0 : BitVec 32) ++ left.setWidth 32 := by
  refine BitVec.eq_of_getLsbD_eq fun i inside => ?_
  simp only [BitVec.getLsbD_append, BitVec.getLsbD_setWidth, inside, decide_true, Bool.true_and]
  by_cases low : i < 32
  · simp [low]
  · rw [if_neg low, BitVec.getLsbD_of_ge left i (by omega)]
    simp

/-- Signed operands that are promoted to 32 bits. -/
theorem signedWord_iff (narrow : w ≤ 32) :
    above ++ (left.signExtend 32 + right.signExtend 32) = extendWord true (left + right) ↔ SumExact true above left right := by
  have promoted : left.signExtend 32 + right.signExtend 32 = (left + right).signExtend 32 ↔
      (w < 32 → left.saddOverflow right = false) := by
    rcases Nat.lt_or_eq_of_le narrow with small | rfl
    · have power : (2 : Int) ^ w ≤ 2 ^ 31 := by
        exact_mod_cast Nat.pow_le_pow_right (by decide) (Nat.le_of_lt_succ small)
      have leftLow := left.le_two_mul_toInt
      have leftHigh := left.two_mul_toInt_lt
      have rightLow := right.le_two_mul_toInt
      have rightHigh := right.two_mul_toInt_lt
      have wide : (left.signExtend 32 + right.signExtend 32).toInt = left.toInt + right.toInt := by
        rw [BitVec.toInt_add_of_not_saddOverflow, BitVec.toInt_signExtend_of_le narrow, BitVec.toInt_signExtend_of_le narrow]
        rw [BitVec.saddOverflow, BitVec.toInt_signExtend_of_le narrow, BitVec.toInt_signExtend_of_le narrow]
        simp only [Bool.or_eq_true, decide_eq_true_eq, not_or]
        omega
      rw [← BitVec.toInt_inj, wide, BitVec.toInt_signExtend_of_le narrow]
      constructor
      · intro same _
        rw [BitVec.saddOverflow, same]
        simp only [Bool.or_eq_false_iff, decide_eq_false_iff_not]
        exact ⟨Int.not_le.mpr BitVec.toInt_lt, Int.not_lt.mpr (BitVec.le_toInt _)⟩
      · intro exact'
        rw [BitVec.toInt_add_of_not_saddOverflow (by simp [exact' small])]
    · simp
  rw [extendWord, if_pos rfl, signExtend_halves _ narrow, append_inj, promoted]
  constructor
  · rintro ⟨upper, inside⟩
    exact ⟨inside, fun _ => by simpa using upper⟩
  · rintro ⟨inside, upper⟩
    exact ⟨by simpa using upper narrow, inside⟩

/-- Unsigned operands that are promoted to 32 bits. -/
theorem unsignedWord_iff (narrow : w ≤ 32) :
    above ++ (left.setWidth 32 + right.setWidth 32) = extendWord false (left + right) ↔ SumExact false above left right := by
  have promoted : left.setWidth 32 + right.setWidth 32 = (left + right).setWidth 32 ↔
      (w < 32 → left.uaddOverflow right = false) := by
    rcases Nat.lt_or_eq_of_le narrow with small | rfl
    · have power : 2 ^ w ≤ 2 ^ 31 := Nat.pow_le_pow_right (by decide) (Nat.le_of_lt_succ small)
      have leftHigh := left.isLt
      have rightHigh := right.isLt
      have sumHigh := (left + right).isLt
      have wide : (left.setWidth 32 + right.setWidth 32).toNat = left.toNat + right.toNat := by
        rw [BitVec.toNat_add, BitVec.toNat_setWidth, BitVec.toNat_setWidth]
        omega
      rw [← BitVec.toNat_inj, wide, BitVec.toNat_setWidth, Nat.mod_eq_of_lt (by omega)]
      constructor
      · intro same _
        rw [BitVec.uaddOverflow, same]
        exact decide_eq_false (by omega)
      · intro exact'
        rw [BitVec.toNat_add_of_not_uaddOverflow (by simp [exact' small])]
    · simp
  rw [extendWord, if_neg Bool.false_ne_true, setWidth_halves _ narrow, append_inj, promoted]
  constructor
  · rintro ⟨upper, inside⟩
    exact ⟨inside, fun _ => by simpa using upper⟩
  · rintro ⟨inside, upper⟩
    exact ⟨by simpa using upper narrow, inside⟩

/-- Operands of full width are not promoted. -/
theorem sumExact_wide (isSigned : Bool) (wide : 32 < w) : SumExact isSigned above left right :=
  ⟨fun small => absurd small (Nat.lt_asymm wide), fun small => absurd small (Nat.not_le_of_lt wide)⟩

end Words

/-- The word that `AddInteger::eval` computes is the wrapped sum exactly when
nothing is lost in the promotion. -/
theorem addWords_iff {type : PrimitiveType} (integer : type ≠ .void) (above : BitVec 32) (left right : Word) :
    addWords above left right type = some (wrappedSum type left right) ↔ AdditionExact type above left right := by
  have signed (w : Nat) (narrow : w ≤ 32) := signedWord_iff above (left.setWidth w) (right.setWidth w) narrow
  have unsigned (w : Nat) (narrow : w ≤ 32) := unsignedWord_iff above (left.setWidth w) (right.setWidth w) narrow
  have full : left.setWidth 64 + right.setWidth 64 = left + right := by rw [BitVec.setWidth_eq, BitVec.setWidth_eq]
  have wide (isSigned : Bool) (sum : left + right = wrappedSum type left right) : some (left + right) = some (wrappedSum type left right) ↔
      SumExact isSigned above (left.setWidth 64) (right.setWidth 64) :=
    iff_of_true (congrArg some sum) (sumExact_wide above _ _ isSigned (by decide))
  cases type with
  | void => exact absurd rfl integer
  | i8 => exact Option.some_inj.trans (signed 8 (by decide))
  | i16 => exact Option.some_inj.trans (signed 16 (by decide))
  | i32 =>
    have word := signed 32 (by decide)
    rw [BitVec.signExtend_eq, BitVec.signExtend_eq] at word
    exact Option.some_inj.trans word
  | u8 => exact Option.some_inj.trans (unsigned 8 (by decide))
  | u16 => exact Option.some_inj.trans (unsigned 16 (by decide))
  | u32 =>
    have word := unsigned 32 (by decide)
    rw [BitVec.setWidth_eq, BitVec.setWidth_eq] at word
    exact Option.some_inj.trans word
  | i64 => exact wide true ((BitVec.signExtend_eq _).trans full).symm
  | u64 => exact wide false ((BitVec.setWidth_eq _).trans full).symm

theorem width_le (type : PrimitiveType) : type.width ≤ 64 := by
  cases type <;> decide

theorem setWidth_extendWord {w : Nat} (isSigned : Bool) (x : BitVec w) (narrow : w ≤ 64) : (extendWord isSigned x).setWidth w = x := by
  refine BitVec.eq_of_getLsbD_eq fun i inside => ?_
  have low : i < 64 := by omega
  cases isSigned <;> simp [extendWord, BitVec.getElem_signExtend, inside, low]

section Runs
variable (rt : Runtime) (constValues : List ConstValue) (arguments : List Word) (thread : VMThread) {f : VMFunction}
  {type : PrimitiveType}

/-- What `AddInteger::eval` does with operands that it can read. -/
theorem eval_addInteger (integer : type ≠ .void) {data : VMData} {result l r : Nat} {left right : Word}
    (leftRead : data.register l = some left) (rightRead : data.register r = some right) (bound : result < data.registers.length) :
    ∃ word, addWords (rt.stackAbove data) left right type = some word ∧
      (Order.addInteger type result l r).eval rt constValues arguments thread data =
        some (thread, { data with registers := data.registers.set result word }) := by
  obtain ⟨word, sum⟩ : ∃ word, addWords (rt.stackAbove data) left right type = some word := by
    cases type with
    | void => exact absurd rfl integer
    | _ => exact ⟨_, rfl⟩
  refine ⟨word, sum, ?_⟩
  rw [Order.eval, if_neg integer, leftRead, Option.bind_some, rightRead, Option.bind_some, sum, Option.bind_some,
    VMData.setRegister, if_pos bound, Option.map_some]

theorem eval_addInteger_iff (integer : type ≠ .void) {data : VMData} {result l r : Nat} {left right : Word}
    (leftRead : data.register l = some left) (rightRead : data.register r = some right) (bound : result < data.registers.length) :
    (Order.addInteger type result l r).eval rt constValues arguments thread data =
        some (thread, { data with registers := data.registers.set result (wrappedSum type left right) }) ↔
      AdditionExact type (rt.stackAbove data) left right := by
  obtain ⟨word, sum, run⟩ := eval_addInteger rt constValues arguments thread integer leftRead rightRead bound
  rw [← addWords_iff integer, sum, run]
  constructor
  · intro same
    have registers : data.registers.set result word = data.registers.set result (wrappedSum type left right) :=
      congrArg VMData.registers (Prod.mk.inj (Option.some.inj same)).2
    have written := congrArg (·[result]?) registers
    rwa [List.getElem?_set_self bound, List.getElem?_set_self bound] at written
  · intro same
    rw [Option.some.inj same]

/-- Additions of one type, each with its result and its operands. -/
abbrev Additions := List (Nat × Nat × Nat)

def Additions.orders (type : PrimitiveType) (chain : Additions) : List Order :=
  chain.map fun addition => .addInteger type addition.1 addition.2.1 addition.2.2

/-- The word that an addition of the chain should write. -/
def sumOf (type : PrimitiveType) (registers : List Word) (addition : Nat × Nat × Nat) : Word :=
  wrappedSum type (registers.getD addition.2.1 0) (registers.getD addition.2.2 0)

/-- The registers after wrapped additions. -/
def Additions.wrapped (type : PrimitiveType) (chain : Additions) (registers : List Word) : List Word :=
  chain.foldl (fun registers addition => registers.set addition.1 (sumOf type registers addition)) registers

/-- The sum of a register and of the registers that are added to it, at the width of the type. -/
def operandSum (type : PrimitiveType) (target : Nat) (operands : List Nat) (registers : List Word) : BitVec type.width :=
  (registers.getD target 0).setWidth type.width + (operands.map fun x => (registers.getD x 0).setWidth type.width).sum

/-- A register that other registers are added to holds the wrapped sum of them
all. -/
theorem wrapped_accumulate (type : PrimitiveType) {target : Nat} {operands : List Nat} (others : target ∉ operands)
    {registers : List Word} (bound : target < registers.length) :
    ((Additions.wrapped type (operands.map fun x => (target, target, x)) registers).getD target 0).setWidth type.width =
      operandSum type target operands registers := by
  unfold operandSum
  induction operands generalizing registers with
  | nil => simp [Additions.wrapped]
  | cons x operands ih =>
    obtain ⟨other, others⟩ := not_or.mp (List.mem_cons.not.mp others)
    have later := @ih others (registers.set target (sumOf type registers (target, target, x))) (by rwa [List.length_set])
    have unchanged : operands.map (fun y => ((registers.set target (sumOf type registers (target, target, x))).getD y 0).setWidth
        type.width) = operands.map fun y => (registers.getD y 0).setWidth type.width := by
      refine List.map_congr_left fun y member => ?_
      have different : target ≠ y := fun same => others (same ▸ member)
      rw [List.getD_eq_getElem?_getD, List.getElem?_set_ne different, ← List.getD_eq_getElem?_getD]
    have written : ((registers.set target (sumOf type registers (target, target, x))).getD target 0).setWidth type.width =
        (registers.getD target 0).setWidth type.width + (registers.getD x 0).setWidth type.width := by
      rw [List.getD_eq_getElem?_getD, List.getElem?_set_self bound, Option.getD_some, sumOf, wrappedSum,
        setWidth_extendWord _ _ (width_le type)]
    rw [unchanged, written] at later
    rw [List.map_cons, List.map_cons, List.sum_cons, ← BitVec.add_assoc]
    exact later

/-- What has been added to a register is there as the extension of its own width. -/
theorem wrapped_extended (type : PrimitiveType) {target : Nat} (x : Nat) (operands : List Nat) {registers : List Word}
    (bound : target < registers.length) {word : Word}
    (result : (Additions.wrapped type ((x :: operands).map fun x => (target, target, x)) registers).getD target 0 = word) :
    word = extendWord type.isSigned (word.setWidth type.width) := by
  induction operands generalizing x registers with
  | nil =>
    have written : (registers.set target (sumOf type registers (target, target, x))).getD target 0 = word := result
    rw [List.getD_eq_getElem?_getD, List.getElem?_set_self bound, Option.getD_some] at written
    rw [← written, sumOf, wrappedSum, setWidth_extendWord _ _ (width_le type)]
  | cons y operands ih =>
    exact @ih y (registers.set target (sumOf type registers (target, target, x))) (by rwa [List.length_set]) result

/-- Every addition of the chain is exact when it is evaluated. -/
def Additions.Exact (rt : Runtime) (type : PrimitiveType) (memory : GcState) : Additions → List Word → Prop
  | [], _ => True
  | addition :: chain, registers =>
    AdditionExact type (rt.stackAbove ⟨registers, memory⟩) (registers.getD addition.2.1 0) (registers.getD addition.2.2 0) ∧
      Additions.Exact rt type memory chain (registers.set addition.1 (sumOf type registers addition))

theorem read_register {registers : List Word} {size i : Nat} (length : registers.length = size + 1) (inside : i ≤ size)
    (memory : GcState) : (VMData.mk registers memory).register i = some (registers.getD i 0) := by
  have bound : i < registers.length := by omega
  rw [VMData.register, List.getElem?_eq_getElem bound, List.getD_eq_getElem _ _ bound]

/-- The loop of `run_function` over a block that adds and returns. -/
theorem whileTrue_additions (integer : type ≠ .void) {block : LabelBlock} (first : f.labelBlocks[0]? = some block)
    {result : Nat} (returned : result ≤ f.registersSize) {memory : GcState} {chain : Additions}
    (inside : ∀ addition ∈ chain, addition.1 ≤ f.registersSize ∧ addition.2.1 ≤ f.registersSize ∧
      addition.2.2 ≤ f.registersSize) {i : Nat}
    (here : block.orders.drop i = chain.orders type ++ [.returnFunction result]) {registers : List Word}
    (length : registers.length = f.registersSize + 1) (exact' : chain.Exact rt type memory registers) :
    ∃ s, (∀ extra, whileTrue (runBody rt constValues arguments) (chain.length + 1 + extra)
      ⟨⟨f, some 0, i, false⟩, ⟨registers, memory⟩⟩ = some s) ∧ s.data.register f.registersSize = some ((chain.wrapped type registers).getD result 0) := by
  have size : i + (chain.length + 1) = block.orders.length := by
    have count := congrArg List.length here
    rw [List.length_drop, List.length_append, Additions.orders, List.length_map, List.length_singleton] at count
    omega
  induction chain generalizing i registers with
  | nil =>
    have last : block.orders[i]? = some (.returnFunction result) := by
      rw [← List.head?_drop, here]
      rfl
    have bound : f.registersSize < registers.length := by omega
    have step : Order.eval rt constValues arguments ⟨f, some 0, i, false⟩ ⟨registers, memory⟩ (.returnFunction result) =
        some (⟨f, some 0, i, true⟩, ⟨registers.set f.registersSize (registers.getD result 0), memory⟩) := by
      rw [Order.eval, read_register length returned, Option.bind_some, VMData.setRegister, if_pos bound]
      rfl
    have body := Order.runBody_eval first rfl rfl last step ⟨rfl, rfl⟩
    rw [if_pos (.inr rfl)] at body
    refine ⟨_, fun extra => by rw [List.length_nil, Nat.zero_add, Nat.add_comm, whileTrue, body], ?_⟩
    rw [VMData.register, List.getElem?_set_self bound]
    rfl
  | cons addition chain ih =>
    obtain ⟨target, left, right⟩ := inside addition List.mem_cons_self
    have next : block.orders[i]? = some (.addInteger type addition.1 addition.2.1 addition.2.2) := by
      rw [← List.head?_drop, here]
      rfl
    have leftRead := read_register length left memory
    have rightRead := read_register length right memory
    have bound : addition.1 < registers.length := by omega
    have step := (eval_addInteger_iff rt constValues arguments ⟨f, some 0, i, false⟩ integer leftRead rightRead bound).mpr
      exact'.1
    have more : ¬(i + 1 = block.orders.length ∨ false = true) := by
      rw [List.length_cons] at size
      rintro (last | done)
      · omega
      · exact Bool.false_ne_true done
    have body := Order.runBody_eval first rfl rfl next step ⟨rfl, rfl⟩
    rw [if_neg more] at body
    have rest : block.orders.drop (i + 1) = Additions.orders type chain ++ [.returnFunction result] := by
      rw [← List.tail_drop, here]
      rfl
    obtain ⟨s, run, value⟩ := ih (fun later member => inside later (List.mem_cons_of_mem _ member)) rest
      (by rw [List.length_set, length]) exact'.2 (by rw [List.length_cons] at size; omega)
    refine ⟨s, fun extra => ?_, value⟩
    rw [List.length_cons, show chain.length + 1 + 1 + extra = chain.length + 1 + extra + 1 by omega, whileTrue, body]
    exact run extra

end Runs

/-- A block that adds exactly and returns. -/
theorem runFunction_additions {rt : Runtime} {constValues : List ConstValue} {arguments : List Word} {thread : VMThread}
    {type : PrimitiveType} (integer : type ≠ .void) {f : VMFunction} {name : Text} {chain : Additions} {result : Nat}
    {contents : Nat → Word} {memory : GcState} (framed : rt.Framed f) (ready : thread.returnFunction = false)
    (first : f.labelBlocks[0]? = some ⟨name, chain.orders type ++ [.returnFunction result]⟩) (returned : result ≤ f.registersSize)
    (inside : ∀ addition ∈ chain, addition.1 ≤ f.registersSize ∧ addition.2.1 ≤ f.registersSize ∧
      addition.2.2 ≤ f.registersSize)
    (exact' : chain.Exact rt type memory (runStart thread f contents memory).data.registers) :
    ∃ s, Returns (fun fuel => runFunction rt constValues arguments fuel thread f contents memory)
      (s, (chain.wrapped type (runStart thread f contents memory).data.registers).getD result 0) := by
  obtain ⟨s, run, value⟩ := whileTrue_additions rt constValues arguments integer first returned inside
    (i := 0) List.drop_zero framed.length exact'
  refine ⟨s, chain.length + 1, fun fuel enough => ?_⟩
  obtain ⟨extra, rfl⟩ := Nat.exists_eq_add_of_le enough
  show runFunction rt constValues arguments (chain.length + 1 + extra) thread f contents memory = _
  rw [runFunction, if_pos framed.served, runStart_ready ready, run extra, Option.bind_some, value, Option.map_some,
    ← runStart_ready ready]

/-- `AddInteger::eval` writes the wrapped sum exactly when the addition is exact,
and a chain of exact additions returns the wrapped sum: for a register that
others are added to, the sum of them all. -/
theorem addInteger_wraps {type : PrimitiveType} (integer : type ≠ .void) (rt : Runtime) (constValues : List ConstValue)
    (arguments : List Word) (thread : VMThread) :
    (∀ (data : VMData) (result l r : Nat) (left right : Word), data.register l = some left → data.register r = some right →
      result < data.registers.length →
      ((Order.addInteger type result l r).eval rt constValues arguments thread data =
          some (thread, { data with registers := data.registers.set result (wrappedSum type left right) }) ↔
        AdditionExact type (rt.stackAbove data) left right)) ∧
    ∀ (f : VMFunction) (name : Text) (chain : Additions) (result : Nat) (contents : Nat → Word) (memory : GcState),
      thread.returnFunction = false → f.labelBlocks[0]? = some ⟨name, chain.orders type ++ [.returnFunction result]⟩ →
      result ≤ f.registersSize →
      (∀ addition ∈ chain, addition.1 ≤ f.registersSize ∧ addition.2.1 ≤ f.registersSize ∧ addition.2.2 ≤ f.registersSize) →
      chain.Exact rt type memory (runStart thread f contents memory).data.registers → rt.Framed f →
      (∃ s, Returns (fun fuel => runFunction rt constValues arguments fuel thread f contents memory)
        (s, (chain.wrapped type (runStart thread f contents memory).data.registers).getD result 0)) ∧
      ∀ (x : Nat) (operands : List Nat), result ∉ x :: operands →
        chain = ((x :: operands).map fun x => (result, result, x)) →
        (chain.wrapped type (runStart thread f contents memory).data.registers).getD result 0 =
          extendWord type.isSigned
            (operandSum type result (x :: operands) (runStart thread f contents memory).data.registers) := by
  refine ⟨fun data result l r left right leftRead rightRead bound =>
    eval_addInteger_iff rt constValues arguments thread integer leftRead rightRead bound, ?_⟩
  intro f name chain result contents memory ready first returned inside exact' framed
  refine ⟨runFunction_additions integer framed ready first returned inside exact', fun x operands others same => ?_⟩
  subst same
  have bound : result < (runStart thread f contents memory).data.registers.length := by
    rw [framed.length]
    exact Nat.lt_succ_of_le returned
  rw [← wrapped_accumulate type others bound]
  exact wrapped_extended type x operands bound rfl

/-- Registers 1 and 2 are added to register 0. -/
def addingFunction (type : PrimitiveType) : VMFunction :=
  .make ['f'] 0 2 [⟨['a'], [.addInteger type 0 0 1, .addInteger type 0 0 2, .returnFunction 0]⟩] ⟨some type, 0⟩ []

/-- A sum of `u64` that wraps, and one of `u8` that does not, whatever is in the
unused bytes of the registers. -/
theorem addInteger_wraps_long :
    (∃ s, Returns (fun fuel => runFunction idleRuntime [] [] fuel ⟨addingFunction .u64, none, 0, false⟩ (addingFunction .u64)
      (fun _ => -2) emptyMemory) (s, -6)) ∧
    ∃ s, Returns (fun fuel => runFunction idleRuntime [] [] fuel ⟨addingFunction .u8, none, 0, false⟩ (addingFunction .u8)
      (fun i => BitVec.ofNat 64 (256 * (i + 1) + 80)) emptyMemory) (s, 240) := by
  have framed (type : PrimitiveType) : idleRuntime.Framed (addingFunction type) :=
    ⟨(by decide : 2 + 1 < 2 ^ 64), rfl⟩
  have wide (left right : BitVec 64) (above : BitVec 32) : SumExact false above left right :=
    sumExact_wide above left right false (by decide)
  constructor
  · obtain ⟨run, total⟩ := (@addInteger_wraps .u64 (by decide) idleRuntime [] [] ⟨addingFunction .u64, none, 0, false⟩).2
      (addingFunction .u64) ['a'] [(0, 0, 1), (0, 0, 2)] 0 (fun _ => -2) emptyMemory rfl rfl (by decide) (by decide)
      ⟨wide _ _ _, wide _ _ _, trivial⟩ (framed .u64)
    have value : extendWord PrimitiveType.u64.isSigned (operandSum .u64 0 [1, 2] [-2, -2, -2]) = -6 := by decide
    rwa [total 1 [2] (by decide) rfl, show (runStart ⟨addingFunction .u64, none, 0, false⟩ (addingFunction .u64) (fun _ => -2)
      emptyMemory).data.registers = [-2, -2, -2] from rfl, value] at run
  · obtain ⟨run, total⟩ := (@addInteger_wraps .u8 (by decide) idleRuntime [] [] ⟨addingFunction .u8, none, 0, false⟩).2
      (addingFunction .u8) ['a'] [(0, 0, 1), (0, 0, 2)] 0 (fun i => BitVec.ofNat 64 (256 * (i + 1) + 80)) emptyMemory rfl rfl
      (by decide) (by decide) ⟨⟨by decide, by decide⟩, ⟨by decide, by decide⟩, trivial⟩ (framed .u8)
    have value : extendWord PrimitiveType.u8.isSigned (operandSum .u8 0 [1, 2] [336, 592, 848]) = 240 := by decide
    rwa [total 1 [2] (by decide) rfl, show (runStart ⟨addingFunction .u8, none, 0, false⟩ (addingFunction .u8)
      (fun i => BitVec.ofNat 64 (256 * (i + 1) + 80)) emptyMemory).data.registers = [336, 592, 848] from rfl, value] at run

/-- The carry out of a `u8` stays in the register. -/
theorem addInteger_wraps_carry :
    (Order.addInteger .u8 0 0 1).eval idleRuntime [] [] ⟨straightFunction, none, 0, false⟩ ⟨[255, 1], emptyMemory⟩ =
        some (⟨straightFunction, none, 0, false⟩, ⟨[256, 1], emptyMemory⟩) ∧
      wrappedSum .u8 255 1 = 0 := by
  exact ⟨rfl, by decide⟩

end CatLa
