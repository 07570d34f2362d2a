import Mathlib.Logic.Function.Basic

namespace CatLa

/-- A C++ string: each character is one byte. -/
abbrev Text := List Char

/-- `unordered_map<κ, π*>`: a key is absent, mapped to null, or mapped to a
pointer. -/
abbrev PointerMap (κ π : Type) := κ → Option (Option π)

namespace PointerMap
variable {κ π : Type} [DecidableEq κ]

def empty : PointerMap κ π := fun _ => none

def put (m : PointerMap κ π) (k : κ) (p : π) : PointerMap κ π := Function.update m k (some (some p))

/-- The value of `m[k]`. -/
def get (m : PointerMap κ π) (k : κ) : Option π := (m k).join

/-- The map after `m[k]`, which inserts null under an unknown key. -/
def access (m : PointerMap κ π) (k : κ) : PointerMap κ π :=
  match m k with
  | none => Function.update m k (some none)
  | some _ => m

omit [DecidableEq κ] in
@[simp] theorem get_empty (k : κ) : (empty : PointerMap κ π).get k = none := rfl

theorem get_put (m : PointerMap κ π) (k : κ) (p : π) (k' : κ) :
    (m.put k p).get k' = if k' = k then some p else m.get k' := by
  by_cases here : k' = k
  · subst here
    simp [get, put]
  · simp [get, put, here]

@[simp] theorem get_access (m : PointerMap κ π) (k k' : κ) : (m.access k).get k' = m.get k' := by
  unfold access
  cases atK : m k with
  | none =>
    by_cases here : k' = k
    · subst here
      simp [get, atK]
    · simp [get, here]
  | some p => rfl

end PointerMap

/-- `all_types`, in the order of their ids. -/
inductive PrimitiveType
  | void
  | i8
  | i16
  | i32
  | i64
  | u8
  | u16
  | u32
  | u64
  deriving DecidableEq, Repr

/-- `Type*`: the `Type` of a primitive, or an entry of a module's `type_defines`.
A module pointer is the name the module is loaded under. -/
inductive TypePointer
  | primitive (type : PrimitiveType)
  | defined (module : Text) (index : Nat)
  deriving DecidableEq, Repr

inductive OwnershipOrder
  | clone
  | borrow
  | move
  deriving DecidableEq, Repr

/-- The orders, with the fields that their constructors set and those that
`link` sets. `label` points into the label blocks of the order's function. -/
inductive Order
  | jumpToLabel (labelName : Text) (label : Option Nat)
  | returnFunction (resultRegister : Nat)
  | setObjectFieldOwnership (targetRegister fieldObjectRegisterIndex usingTypeIndex : Nat) (fieldName : Text)
      (fieldIndex : Nat) (borrowLock : Bool)
  | getConstInteger (type : PrimitiveType) (resultRegister constIndex : Nat)
  | getArgument (resultRegister argumentIndex : Nat)
  | addInteger (type : PrimitiveType) (resultRegister leftRegisterIndex rightRegisterIndex : Nat)
  | getObjectFieldOwnership (targetRegister resultRegister usingTypeIndex : Nat) (fieldName : Text) (fieldIndex : Nat)
      (ownershipOrder : OwnershipOrder)
  | newClassObject (resultRegister usingTypeIndex : Nat) (usingType : Option TypePointer) (fieldLength : Nat)
  deriving DecidableEq, Repr

structure LabelBlock where
  name : Text
  orders : List Order
  deriving DecidableEq, Repr

structure ArgumentInfo where
  primitiveType : Option PrimitiveType
  typeIndex : Nat
  deriving DecidableEq, Repr

structure VMFunction where
  name : Text
  variablesSize : Nat
  registersSize : Nat
  labelBlocks : List LabelBlock
  labelBlockMap : PointerMap Text Nat
  returnTypeInfo : ArgumentInfo
  returnType : Option TypePointer
  argumentTypeInfos : List ArgumentInfo
  argumentTypes : List (Option TypePointer)

/-- The loop of the constructor: a later block replaces an earlier one of the
same name. -/
def buildLabelBlockMap (labelBlocks : List LabelBlock) : PointerMap Text Nat :=
  labelBlocks.zipIdx.foldl (fun map block => map.put block.1.name block.2) .empty

/-- `Function::Function`. -/
def VMFunction.make (name : Text) (variablesSize registersSize : Nat) (labelBlocks : List LabelBlock)
    (returnTypeInfo : ArgumentInfo) (argumentTypeInfos : List ArgumentInfo) : VMFunction :=
  { name, variablesSize, registersSize, labelBlocks, labelBlockMap := buildLabelBlockMap labelBlocks,
    returnTypeInfo, returnType := none, argumentTypeInfos, argumentTypes := [] }

/-- `*value_reference` of a constant. -/
inductive ConstPayload
  | string (bytes : Text)
  | integer (value : Int)
  | double (bits : BitVec 64)
  deriving DecidableEq, Repr

structure ConstValue where
  byteSize : Nat
  payload : ConstPayload
  deriving DecidableEq, Repr

structure TypeInfo where
  importIndex : Nat
  typeName : Text
  deriving DecidableEq, Repr

structure FieldInfo where
  fieldName : Text
  primitiveType : Option PrimitiveType
  userDefType : TypeInfo
  deriving DecidableEq, Repr

structure Field where
  name : Text
  type : Option TypePointer
  deriving DecidableEq, Repr

/-- A `Type` that a module defines. Its text may declare a parent, by any name. -/
structure VMType where
  typeName : Text
  fieldInfos : List FieldInfo
  addFields : List Field
  allFields : List Field
  declaredParent : Option TypeInfo
  parent : Option TypePointer
  referenceFields : Option (List (BitVec 8))
  deriving DecidableEq, Repr

/-- `Type::Type`. -/
def VMType.make (typeName : Text) (fieldInfos : List FieldInfo) (declaredParent : Option TypeInfo) : VMType :=
  { typeName, fieldInfos, addFields := [], allFields := [], declaredParent, parent := none, referenceFields := none }

/-- `parent_info`. It does not tell a parent that is declared by an empty name
from none. -/
def VMType.parentInfo (type : VMType) : TypeInfo := type.declaredParent.getD ⟨0, []⟩

/-- What `load_module` keeps of the object it allocates for a module: the type
and the number of fields, not the address. -/
structure ModuleFields where
  type : TypePointer
  fieldLength : Nat
  deriving DecidableEq, Repr

structure VMModule where
  name : Text
  constValues : List ConstValue
  importModuleNames : List Text
  importModules : List Text
  typeDefineMap : PointerMap Text Nat
  typeDefines : List VMType
  usingTypeInfos : List TypeInfo
  usingTypes : List (Option TypePointer)
  functions : List VMFunction
  moduleFields : Option ModuleFields

/-- The loop of the constructor: a later type replaces an earlier one of the
same name. -/
def buildTypeDefineMap (typeDefines : List VMType) : PointerMap Text Nat :=
  typeDefines.zipIdx.foldl (fun map type => map.put type.1.typeName type.2) .empty

/-- `Module::Module`. -/
def VMModule.make (name : Text) (constValues : List ConstValue) (importModuleNames : List Text)
    (typeDefines : List VMType) (usingTypeInfos : List TypeInfo) (functions : List VMFunction) : VMModule :=
  { name, constValues, importModuleNames, importModules := [], typeDefineMap := buildTypeDefineMap typeDefines,
    typeDefines, usingTypeInfos, usingTypes := [], functions, moduleFields := none }

end CatLa
