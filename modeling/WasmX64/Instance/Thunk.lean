import WasmX64.Compile.Signature
import WasmX64.Compile.Trap
import WasmX64.Sequence.Moves

/-!
# Entry thunks

The way from the host into a compiled function.  A thunk takes the address of an
array of raw arguments, places them where the callee looks for them and leaves the
raw result in `rax`.  The stack pointer and the address to resume at are recorded
in the trap cell, so that a trap returns straight to the host.
-/

namespace WasmX64

/-- The code of a thunk, where the address to resume at is missing and which offset
it has to point at. -/
structure Thunk where
  code : List UInt8
  resume : Int
  resumeAt : Nat
deriving DecidableEq, Repr, Inhabited

namespace Thunk

/-- The registers that the host expects to find unchanged. -/
def saved : List Register := [.rbx, .rbp, ⟨12⟩, ⟨13⟩, ⟨14⟩, ⟨15⟩]

def argument (index : Nat) : Address := .based .rbx (Int32.ofNat (8 * index))

/-- Saves the registers of the host and points `rbx` at the arguments.  Six pushes
above the return address leave the stack eight bytes off its alignment. -/
def enter : List Step :=
  saved.map (fun reg => .emit (.push reg)) ++
    [.emit (.aluImm .sub .i64 .rsp 8), .emit (.mov .i64 .rbx .rdi)]

def pushStackArguments (params : List (Passing × Nat)) : List Step :=
  params.reverse.flatMap fun (passing, index) =>
    match passing with
    | .stack _ _ => [.emit (.pushLoad (argument index))]
    | .reg _ _ => []

def loadRegisterArguments (params : List (Passing × Nat)) : List Step :=
  params.flatMap fun (passing, index) =>
    match passing with
    | .reg type reg =>
      if type.isFloat then [.emit (.floatLoad type reg (argument index))]
      else [.emit (.load type reg (argument index))]
    | .stack _ _ => []

def placeArguments (signature : Signature) : List Step :=
  let params := signature.params.zipIdx
  (if signature.needsPadding then [.emit (.pushImm 0)] else []) ++
    pushStackArguments params ++ loadRegisterArguments params

/-- Removes the arguments from the stack and brings a float result into `rax`. -/
def collectResult (signature : Signature) : List Step :=
  let slots := signature.stackParams + if signature.needsPadding then 1 else 0
  (if slots = 0 then []
    else [.emit (.aluImm .add .i64 .rsp (Int32.ofNat (8 * slots)))]) ++
    match signature.result with
    | some (.f32, _) => [.emit (.movFromFp .i32 .rax (.xmm 0))]
    | some (.f64, _) => [.emit (.movFromFp .i64 .rax (.xmm 0))]
    | _ => []

def leave : List Step :=
  .emit (.aluImm .add .i64 .rsp 8) :: saved.reverse.map (fun reg => .emit (.pop reg)) ++
    [.emit .ret]

def build (signature : Signature) (target cell : UInt64) : Except CodeError Thunk :=
  let code := Code.place {} enter
  let code := (code.loadWide .r10 cell).2
  let code := code.place [.emit (.store .i64 (.based .r10 trapCell.stackPointer) .rsp)]
  let (resume, code) := code.loadWide .r11 placeholder
  let code := code.place [.emit (.store .i64 (.based .r10 trapCell.resume) .r11)]
  let code := code.place (placeArguments signature)
  let code := (code.loadWide .rax target).2
  let code := code.place (.emit (.callReg .rax) :: collectResult signature)
  let resumeAt := code.size
  let code := code.place leave
  match code.error with
  | some error => .error error
  | none => .ok ⟨code.bytes.toList, resume, resumeAt⟩

def link (thunk : Thunk) (address : UInt64) : List UInt8 :=
  let resume := address + UInt64.ofNat thunk.resumeAt
  (Code.overwrite thunk.code.toArray thunk.resume.toNat (bytes64 resume)).toList

end Thunk

end WasmX64
