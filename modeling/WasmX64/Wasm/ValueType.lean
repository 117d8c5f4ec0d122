/-!
# Value types and function types

The four numeric types of WebAssembly, and signatures made of them.  A type may
also carry a code outside the four, so that what was never validated can be shown
in a message.
-/

namespace WasmX64

/-- A WebAssembly numeric type, or a code that names none. -/
inductive ValueType where
  | i32
  | i64
  | f32
  | f64
  | unknown (code : UInt8)
deriving DecidableEq, Repr, Inhabited

namespace ValueType

def ofCode (code : UInt8) : ValueType :=
  if code = 1 then .i32
  else if code = 2 then .i64
  else if code = 3 then .f32
  else if code = 4 then .f64
  else .unknown code

def code : ValueType → UInt8
  | .i32 => 1
  | .i64 => 2
  | .f32 => 3
  | .f64 => 4
  | .unknown code => code

def name : ValueType → String
  | .i32 => "i32"
  | .i64 => "i64"
  | .f32 => "f32"
  | .f64 => "f64"
  | .unknown code => s!"ValueType({code.toNat})"

def isValid : ValueType → Bool
  | .unknown _ => false
  | _ => true

def isFloat : ValueType → Bool
  | .f32 | .f64 => true
  | _ => false

def isInteger : ValueType → Bool
  | .i32 | .i64 => true
  | _ => false

def is64 : ValueType → Bool
  | .i64 | .f64 => true
  | _ => false

/-- The width of a value in bytes. -/
def size (type : ValueType) : Nat :=
  if type.is64 then 8 else 4

def bits (type : ValueType) : Nat :=
  if type.is64 then 64 else 32

def ofName? (name : String) : Option ValueType :=
  if name = "i32" then some .i32
  else if name = "i64" then some .i64
  else if name = "f32" then some .f32
  else if name = "f64" then some .f64
  else none

theorem ofCode_code (type : ValueType) (valid : type.isValid = true) :
    ofCode type.code = type := by
  cases type <;> first | rfl | simp [isValid] at valid

end ValueType

def typeListText (types : List ValueType) : String :=
  ", ".intercalate (types.map ValueType.name)

structure FuncType where
  params : List ValueType
  results : List ValueType
deriving DecidableEq, Repr, Inhabited

def FuncType.text (type : FuncType) : String :=
  "(" ++ typeListText type.params ++ ") -> (" ++ typeListText type.results ++ ")"

end WasmX64
