import CatLa.Gc.FieldOperations
import CatLa.Vm.Bytecode

namespace CatLa

/-- The content of a register. -/
abbrev Word := BitVec 64

/-- `VMThread`; the label block is an index into those of the function. -/
structure VMThread where
  currentFunction : VMFunction
  currentLabelBlock : Option Nat
  currentOrderIndex : Nat
  returnFunction : Bool

/-- What orders work on: the registers of the call and the memory. -/
structure VMData where
  registers : List Word
  memory : GcState

/-- What a call relies on outside the virtual machine: where the types are,
the cell that the thread's allocator returns (null is 0), the bytes above a
32-bit temporary on the C++ stack, and whether `operator new` has the bytes of
the registers and then those of the variables. -/
structure Runtime where
  typeAddress : TypePointer → Address
  isCyclingType : TypePointer → Bool
  malloc : GcState → TypePointer → Nat → Address
  stackAbove : VMData → BitVec 32
  operatorNew : Nat → Nat → Bool

namespace VMData

/-- Reads past the registers are undefined. -/
def register (d : VMData) (i : Nat) : Option Word := d.registers[i]?

def setRegister (d : VMData) (i : Nat) (w : Word) : Option VMData :=
  if i < d.registers.length then some { d with registers := d.registers.set i w } else none

end VMData

/-- The first eight bytes behind `value_reference`, little endian. -/
def ConstPayload.word : ConstPayload → Option Word
  | .string bytes =>
    if 8 ≤ bytes.length then
      some (BitVec.ofNat 64 ((bytes.take 8).foldr (fun c n => c.toNat % 256 + 256 * n) 0))
    else none
  | .integer value => some (BitVec.ofInt 64 value)
  | .double bits => some bits

/-- An `int` or `unsigned` temporary, read back through a `uint64_t*`. -/
def readTemporary (above : BitVec 32) (result : BitVec 32) : Word := above ++ result

/-- The sum that `AddInteger::eval` writes, if it writes one. Operands shorter
than 32 bits are promoted. -/
def addWords (above : BitVec 32) (left right : Word) : PrimitiveType → Option Word
  | .void => none
  | .i8 => some (readTemporary above ((left.setWidth 8).signExtend 32 + (right.setWidth 8).signExtend 32))
  | .i16 => some (readTemporary above ((left.setWidth 16).signExtend 32 + (right.setWidth 16).signExtend 32))
  | .i32 => some (readTemporary above (left.setWidth 32 + right.setWidth 32))
  | .i64 => some (left + right)
  | .u8 => some (readTemporary above ((left.setWidth 8).setWidth 32 + (right.setWidth 8).setWidth 32))
  | .u16 => some (readTemporary above ((left.setWidth 16).setWidth 32 + (right.setWidth 16).setWidth 32))
  | .u32 => some (readTemporary above (left.setWidth 32 + right.setWidth 32))
  | .u64 => some (left + right)

/-- `SetObjectFieldOwnership::eval` on the heap. A borrowed field is waited
for when `borrowLock` is set. -/
def setObjectField (heap : Heap) (parent : Address) (fieldIndex : Nat) (objectPtr : Address) (borrowLock : Bool) :
    Option Heap :=
  if fieldIndex < (heap parent).fields.length then
    (objectLock heap parent).bind fun heap =>
      if borrowLock = true ∧ (heap parent).field fieldIndex = 1 then none
      else some (objectUnlock (heap.modify parent (·.setField fieldIndex objectPtr)) parent)
  else none

/-- `GetObjectFieldOwnership::eval` on the heap. On a borrowed field the loop
goes round without an unlock, and then spins on its own lock. -/
def getObjectField (heap : Heap) (parent : Address) (fieldIndex : Nat) (ownershipOrder : OwnershipOrder) :
    Option (Heap × Address) :=
  if fieldIndex < (heap parent).fields.length then
    (objectLock heap parent).bind fun heap =>
      let fieldObject := (heap parent).field fieldIndex
      if fieldObject = 1 then none
      else
        let heap :=
          match ownershipOrder with
          | .clone => if fieldObject ≠ 0 then heap.modify fieldObject .fetchAdd else heap
          | .borrow => heap.modify parent (·.setField fieldIndex 1)
          | .move => heap.modify parent (·.setField fieldIndex 0)
        some (objectUnlock heap parent, fieldObject)
  else none

/-- `Order::eval`. An order that reads or writes out of bounds, or that never
returns, gives no result. -/
def Order.eval (rt : Runtime) (constValues : List ConstValue) (arguments : List Word) (thread : VMThread) (data : VMData) :
    Order → Option (VMThread × VMData)
  | .jumpToLabel _ label => some ({ thread with currentLabelBlock := label, currentOrderIndex := 0 }, data)
  | .returnFunction resultRegister =>
    (data.register resultRegister).bind fun value =>
    (data.setRegister thread.currentFunction.registersSize value).map fun data =>
      ({ thread with returnFunction := true }, data)
  | .setObjectFieldOwnership targetRegister fieldObjectRegisterIndex _ _ fieldIndex borrowLock =>
    (data.register targetRegister).bind fun parent =>
    (data.register fieldObjectRegisterIndex).bind fun objectPtr =>
    (setObjectField data.memory.heap parent.toNat fieldIndex objectPtr.toNat borrowLock).map fun heap =>
      (thread, { data with memory := { data.memory with heap := heap } })
  | .getConstInteger _ resultRegister constIndex =>
    (constValues[constIndex]?).bind fun const =>
    const.payload.word.bind fun value =>
    (data.setRegister resultRegister value).map fun data => (thread, data)
  | .getArgument resultRegister argumentIndex =>
    (arguments[argumentIndex]?).bind fun value =>
    (data.setRegister resultRegister value).map fun data => (thread, data)
  | .addInteger type resultRegister leftRegisterIndex rightRegisterIndex =>
    if type = .void then some (thread, data)
    else
      (data.register leftRegisterIndex).bind fun left =>
      (data.register rightRegisterIndex).bind fun right =>
      (addWords (rt.stackAbove data) left right type).bind fun result =>
      (data.setRegister resultRegister result).map fun data => (thread, data)
  | .getObjectFieldOwnership targetRegister resultRegister _ _ fieldIndex ownershipOrder =>
    (data.register targetRegister).bind fun parent =>
    (getObjectField data.memory.heap parent.toNat fieldIndex ownershipOrder).bind fun got =>
    ({ data with memory := { data.memory with heap := got.1 } }.setRegister resultRegister (BitVec.ofNat 64 got.2)).map
      fun data => (thread, data)
  | .newClassObject resultRegister _ usingType fieldLength =>
    usingType.bind fun type =>
    let object := rt.malloc data.memory type fieldLength
    let memory :=
      if object = 0 then data.memory
      else data.memory.malloc object (rt.typeAddress type) (rt.isCyclingType type) fieldLength
    ({ data with memory := memory }.setRegister resultRegister (BitVec.ofNat 64 object)).map fun data => (thread, data)

end CatLa
