import WasmX64.Code.Buffer
import WasmX64.Machine.Instruction

/-!
# Jumps and labels

Uses of a label that has no position yet are chained through their own
placeholders: a four-byte placeholder holds the offset of the use before it and
the first one its own offset; a one-byte placeholder holds the distance back to
the use before it, zero ending the chain.  Binding walks both chains and fills in
the displacements.
-/

namespace WasmX64

/-- The displacement a jump to an unbound label makes room for. -/
inductive Distance where
  /-- Four bytes, or one when the label is bound and close. -/
  | far
  | near
deriving DecidableEq, Repr, Inhabited

namespace Code

/-- Appends a four-byte placeholder for a label. -/
def linkFar (code : Code) (target : Label) : Code :=
  let info := code.label target
  let site := code.size
  match info.state with
  | .bound position => code.fail (.linkAfterBind position)
  | .linked before =>
    (code.append (bytes32 (wordOf before))).setLabel target { info with state := .linked site }
  | .unused =>
    (code.append (bytes32 (wordOf site))).setLabel target { info with state := .linked site }

/-- Appends a one-byte placeholder for a label.  A use too far behind the one
before it cannot be chained. -/
def linkNear (code : Code) (target : Label) : Code :=
  let info := code.label target
  let site := code.size
  match info.state, info.near with
  | .bound position, _ => code.fail (.linkAfterBind position)
  | _, some before =>
    if (before : Int) - site < -128 then code.fail .nearRange
    else
      (code.append [byteOf ((before : Int) - site)]).setLabel target
        { info with near := some site }
  | _, none => (code.append [0]).setLabel target { info with near := some site }

/-- Fills in the four-byte displacements of a chain of uses. -/
def fillFar (position : Nat) : Nat → Int → Code → Code
  | 0, _, code => code
  | fuel + 1, site, code =>
    let (next, code) := code.readWord site
    let next : Int := next.toInt32.toInt
    let code := code.patch site (bytes32 (wordOf (position - (site + 4))))
    if next = site ∨ code.error.isSome then code else fillFar position fuel next code

/-- Fills in the one-byte displacements of a chain of uses. -/
def fillNear (position : Nat) : Nat → Int → Code → Code
  | 0, _, code => code
  | fuel + 1, site, code =>
    let back : Int := (code.byteAt site).toInt8.toInt
    let distance : Int := position - (site + 1)
    if 127 < distance then code.fail .nearRange
    else
      let code := code.patch site [byteOf distance]
      if back = 0 ∨ code.error.isSome then code else fillNear position fuel (site + back) code

def chainBound (code : Code) : Nat := 8 * code.size + 64

/-- Fixes a label at the end of the code and fills in its uses. -/
def bind (code : Code) (target : Label) : Code :=
  let info := code.label target
  let position := code.size
  match info.state with
  | .bound _ => code.fail .labelBound
  | state =>
    let code :=
      match state with
      | .linked site => code.fillFar position code.chainBound site
      | _ => code
    let code :=
      match info.near with
      | some site => code.fillNear position code.chainBound site
      | none => code
    code.setLabel target { state := .bound position, near := none }

/-- A jump instruction: `short` before a one-byte displacement, `long` before a
four-byte one.  Bound labels are reached by the shorter form that fits. -/
def jumpWith (code : Code) (short long : List UInt8) (target : Label) (distance : Distance) :
    Code :=
  match (code.label target).state with
  | .bound position =>
    let offset : Int := (position : Int) - code.size
    let shortOffset := offset - (short.length + 1)
    if fitsInt8 shortOffset then code.append (short ++ [byteOf shortOffset])
    else if distance = .near then code.fail .nearRange
    else code.append (long ++ bytes32 (wordOf (offset - (long.length + 4))))
  | _ =>
    if distance = .near then (code.append short).linkNear target
    else (code.append long).linkFar target

def jump (code : Code) (target : Label) (distance : Distance) : Code :=
  code.jumpWith [0xeb] [0xe9] target distance

def jumpIf (code : Code) (condition : Condition) (target : Label) (distance : Distance) :
    Code :=
  code.jumpWith [0x70 ||| condition.code] [0x0f, 0x80 ||| condition.code] target distance

/-- Appends an instruction, or records why it has no encoding. -/
def emit (code : Code) (instruction : Instruction) : Code :=
  match instruction.encode with
  | .ok bytes => code.append bytes
  | .error error => code.fail error

end Code

end WasmX64
