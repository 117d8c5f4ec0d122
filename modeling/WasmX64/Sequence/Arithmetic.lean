import WasmX64.Sequence.Moves

/-!
# Arithmetic sequences

Integer operations that take more than one machine instruction: comparisons,
divisions, shifts and bit counts.
-/

namespace WasmX64.Sequence

/-- Compares and writes the outcome of a condition as 0 or 1. -/
def setCondition (type : ValueType) (condition : Condition) (dst left right : Register) :
    List Step :=
  [.emit (.alu .cmp type left right), .emit (.setcc condition dst),
    .emit (.extend .zero8 .i32 dst dst)]

/-- Jumps when a comparison holds.  Without a right operand the left one is tested
against zero. -/
def compareAndJump (condition : Condition) (target : Target) (type : ValueType)
    (left right : Register) : List Step :=
  [if right = .absent then .emit (.test type left left) else .emit (.alu .cmp type left right),
    .jumpIf condition target .far]

inductive DivisionPart where
  | quotient
  | remainder
deriving DecidableEq, Repr, Inhabited

/-- The checks of a signed division: a divisor of -1 cannot overflow silently, and
its remainder is zero without dividing. -/
def signedDivisionChecks (part : DivisionPart) (type : ValueType) (dst left divisor : Register)
    (overflow : Target) : List Step :=
  [.emit (.aluImm .cmp type divisor (-1)), .jumpIf .notEqual (.inner 1) .near] ++
    (match part with
      | .quotient =>
        [.emit (.aluImm .cmp type left 1), .jumpIf .overflow overflow .far]
      | .remainder =>
        [.emit (.alu .xor .i32 dst dst), .jump (.inner 0) .near]) ++
    [.bind (.inner 1)]

/-- The machine division of `rdx:rax`. -/
def hardwareDivision (type : ValueType) (signed : Bool) (divisor : Register) : List Step :=
  if signed then
    [.emit (if type = .i32 then .cdq else .cqo), .emit (.unary .idiv type divisor)]
  else [.emit (.alu .xor .i32 .rdx .rdx), .emit (.unary .div type divisor)]

/-- An integer division with its traps.  `rax` and `rdx` are overwritten. -/
def division (part : DivisionPart) (type : ValueType) (signed : Bool)
    (dst left right : Register) (divideByZero overflow : Target) : List Step :=
  if !type.isInteger then [.fail (.notInteger "div" type)]
  else
    match [dst, left, right].find? (!·.isGp) with
    | some reg => [.fail (.notGp "div" reg)]
    | none =>
      let moved := right = .rax ∨ right = .rdx
      let divisor := if moved then .r10 else right
      (if moved then [.emit (.mov type .r10 right)] else []) ++
        [.emit (.test type divisor divisor), .jumpIf .equal divideByZero .far] ++
        (if signed then signedDivisionChecks part type dst left divisor overflow else []) ++
        move type .rax left ++
        hardwareDivision type signed divisor ++
        (match part with
          | .quotient => move type dst .rax
          | .remainder => move type dst .rdx) ++
        (if signed ∧ part = .remainder then [.bind (.inner 0)] else [])

/-- Scans for a bit; a zero operand gives the width instead. -/
def scanOr (width : Int64) (op : ScanOp) (type : ValueType) (dst src : Register)
    (adjust : List Step) : List Step :=
  [.emit (.test type src src), .jumpIf .notEqual (.inner 0) .near,
    .emit (.movImm .i32 dst width), .jump (.inner 1) .near, .bind (.inner 0),
    .emit (.scan op type dst src)] ++ adjust ++ [.bind (.inner 1)]

def leadingZeros (type : ValueType) (dst src : Register) : List Step :=
  if type = .i64 then scanOr 64 .bsr type dst src [.emit (.aluImm .xor type dst 63)]
  else scanOr 32 .bsr type dst src [.emit (.aluImm .xor type dst 31)]

def trailingZeroCount (type : ValueType) (dst src : Register) : List Step :=
  scanOr (if type = .i64 then 64 else 32) .bsf type dst src []

/-- Shifts or rotates.  The amount has to be in `rcx`, which is saved in a scratch
register when it holds the source or another live value. -/
def shift (op : ShiftOp) (type : ValueType) (dst src amount : Register) (rcxLive : Bool) :
    List Step :=
  let fetch := if amount = .rcx then [] else [Step.emit (.mov .i64 .rcx amount)]
  if dst = .rcx then
    move type .r10 src ++ fetch ++
      [.emit (.shiftCl op type .r10), .emit (.mov type .rcx .r10)]
  else
    let saved := amount ≠ .rcx ∧ (src = .rcx ∨ rcxLive)
    let source := if saved ∧ src = .rcx then .r10 else src
    (if saved then [.emit (.mov .i64 .r10 .rcx)] else []) ++ fetch ++
      move type dst source ++ [.emit (.shiftCl op type dst)] ++
      (if saved then [.emit (.mov .i64 .rcx .r10)] else [])

end WasmX64.Sequence
