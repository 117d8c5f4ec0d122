import WasmX64.Machine.Register

/-!
# Calling convention

Where the parameters and the result of a function are passed: the System V
argument registers in order, then stack slots above the return address.
-/

namespace WasmX64

inductive Passing where
  | reg (type : ValueType) (reg : Register)
  /-- In a stack slot, counted from the return address upwards. -/
  | stack (type : ValueType) (offset : Nat)
deriving DecidableEq, Repr, Inhabited

structure Signature where
  params : List Passing
  result : Option (ValueType × Register)
  stackParams : Nat
deriving DecidableEq, Repr, Inhabited

namespace Signature

/-- Places parameters one after the other, given the argument registers left and
the stack slots taken.  The number of stack slots comes last. -/
def assign (gp fp : List Register) (taken : Nat) : List ValueType → List Passing × Nat
  | [] => ([], taken)
  | type :: rest =>
    if type.isFloat then
      match fp with
      | reg :: fp =>
        let (places, total) := assign gp fp taken rest
        (.reg type reg :: places, total)
      | [] =>
        let (places, total) := assign gp [] (taken + 1) rest
        (.stack type taken :: places, total)
    else
      match gp with
      | reg :: gp =>
        let (places, total) := assign gp fp taken rest
        (.reg type reg :: places, total)
      | [] =>
        let (places, total) := assign [] fp (taken + 1) rest
        (.stack type taken :: places, total)

def ofType (type : FuncType) : Signature :=
  let (params, stackParams) :=
    assign Register.gpArguments Register.fpArguments 0 type.params
  { params, stackParams
    result := type.results.head?.map fun result => (result, Register.returned result) }

def registers (signature : Signature) : RegSet :=
  signature.params.foldl (fun set passing =>
    match passing with
    | .reg _ reg => set.insert reg
    | .stack _ _ => set) RegSet.empty

/-- Whether a caller pushes one more slot to keep the stack aligned. -/
def needsPadding (signature : Signature) : Bool := signature.stackParams % 2 = 1

end Signature

end WasmX64
