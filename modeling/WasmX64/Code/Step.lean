import WasmX64.Code.Label

/-!
# Instruction sequences

A sequence of steps: instructions, jumps and the places jumps lead to.  A jump
goes to a label of the buffer or to a place of the sequence itself, which gets a
label for as long as the sequence is being placed.
-/

namespace WasmX64

inductive Target where
  | label (label : Label)
  /-- A place inside the same sequence. -/
  | inner (number : Nat)
  | missing
deriving DecidableEq, Repr, Inhabited

inductive Step where
  | emit (instruction : Instruction)
  | jump (target : Target) (distance : Distance)
  | jumpIf (condition : Condition) (target : Target) (distance : Distance)
  | bind (target : Target)
  /-- A request that has no instruction sequence. -/
  | fail (error : CodeError)
deriving DecidableEq, Repr

instance : Coe Instruction Step := ⟨.emit⟩

instance : Coe Label Target := ⟨.label⟩

def Target.ofLabel? : Option Label → Target
  | some given => .label given
  | none => .missing

namespace Step

def target? : Step → Option Target
  | .jump target _ => some target
  | .jumpIf _ target _ => some target
  | .bind target => some target
  | _ => none

/-- Whether a step can be placed: its target, if it has one, was given. -/
def isComplete (step : Step) : Bool :=
  step.target? ≠ some .missing

def innerPlaces (step : Step) : Nat :=
  match step.target? with
  | some (.inner number) => number + 1
  | _ => 0

end Step

namespace Code

def resolve (base : Nat) : Target → Label
  | .label label => label
  | .inner number => ⟨base + number⟩
  | .missing => ⟨base⟩

def placeStep (base : Nat) (code : Code) : Step → Code
  | .emit instruction => code.emit instruction
  | .jump target distance => code.jump (resolve base target) distance
  | .jumpIf condition target distance => code.jumpIf condition (resolve base target) distance
  | .bind target => code.bind (resolve base target)
  | .fail error => code.fail error

/-- Places a sequence of steps, up to the first one whose target is missing. -/
def place (code : Code) (steps : List Step) : Code :=
  let steps := steps.takeWhile Step.isComplete
  let base := code.labels.size
  let inner := steps.foldl (fun count step => max count step.innerPlaces) 0
  let code := { code with labels := code.labels ++ Array.replicate inner {} }
  let code := steps.foldl (placeStep base) code
  { code with labels := code.labels.shrink base }

end Code

end WasmX64
