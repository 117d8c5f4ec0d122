import WasmX64.Document.Flaw
import WasmX64.Document.Tree
import WasmX64.Float.Arithmetic

/-!
# Decoding trees

What a tree says in the place of a text, a number, a list or a record.  A part that
does not fit is noted and passed over, so that all of them can be reported at once.
Null says nothing: it leaves a field as it is and an item of a list out.
-/

namespace WasmX64

namespace Scalar

/-- Words that stand for truth values where one is asked for. -/
def switch? (text : String) : Option Bool :=
  if text ∈ ["y", "Y", "yes", "on"] then some true
  else if text ∈ ["n", "N", "no", "off"] then some false
  else none

def toBool? : Scalar → Option Bool
  | .bool value => some value
  | .text value => switch? value
  | _ => none

/-- The 32-bit number that a scalar stands for; a fraction is dropped. -/
def toWord? (scalar : Scalar) : Option UInt32 :=
  let whole :=
    match scalar with
    | .int _ value => some value
    | .float _ bits => FloatFormat.double.wholePart? bits
    | _ => none
  match whole with
  | some value =>
    if 0 ≤ value ∧ value < 4294967296 then some (UInt32.ofNat value.toNat) else none
  | none => none

/-- The signed 64-bit number that a scalar stands for; a fraction is dropped. -/
def toInt? : Scalar → Option Int
  | .int _ value => if value < -FloatFormat.leastInt64 then some value else none
  | .float _ bits =>
    if (FloatFormat.double.wholePart? bits).any (-FloatFormat.leastInt64 < ·) then none
    else some (FloatFormat.double.toInt64 bits)
  | _ => none

end Scalar

/-- Decoding steps; the state is what did not fit so far. -/
abbrev Decode := StateM (Array Document.Mismatch)

namespace Decode

def refuse {α : Type} (wanted : String) (tree : Tree) : Decode (Option α) := do
  let mismatch : Document.Mismatch :=
    match tree with
    | .scalar line value => ⟨line, value.tag, some value.written, wanted⟩
    | .list line _ => ⟨line, "!!seq", none, wanted⟩
    | .map line _ => ⟨line, "!!map", none, wanted⟩
  modify (·.push mismatch)
  return none

def scalar {α : Type} (wanted : String) (read? : Scalar → Option α) (tree : Tree) :
    Decode (Option α) :=
  match tree with
  | .scalar _ .null => return none
  | .scalar _ value =>
    match read? value with
    | some result => return some result
    | none => refuse wanted tree
  | _ => refuse wanted tree

def text : Tree → Decode (Option String) := scalar "string" fun value => some value.written

def bool : Tree → Decode (Option Bool) := scalar "bool" Scalar.toBool?

def word : Tree → Decode (Option UInt32) := scalar "uint32" Scalar.toWord?

def int : Tree → Decode (Option Int) := scalar "int" Scalar.toInt?

def list {α : Type} (wanted : String) (item : Tree → Decode (Option α)) (tree : Tree) :
    Decode (Option (List α)) :=
  match tree with
  | .scalar _ .null => return none
  | .list _ items => return some (← items.filterMapM item)
  | _ => refuse ("[]" ++ wanted) tree

def texts : Tree → Decode (Option (List String)) := list "string" text

def record {α : Type} (wanted : String) (empty : α) (field : α → String → Tree → Decode α)
    (tree : Tree) : Decode (Option α) :=
  match tree with
  | .scalar _ .null => return none
  | .map _ entries =>
    return some (← entries.foldlM (fun value (key, tree) => field value key tree) empty)
  | _ => refuse wanted tree

/-- What a field holds when a tree stands in its place. -/
def orElse {α : Type} (before : α) (decode : Tree → Decode (Option α)) (tree : Tree) :
    Decode α := return (← decode tree).getD before

def whole {α : Type} (empty : α) (decode : Tree → Decode (Option α)) (tree : Tree) :
    Except Document.Flaw α :=
  let (result, mismatches) := (decode tree).run #[]
  if mismatches.isEmpty then .ok (result.getD empty) else .error (.mismatches mismatches.toList)

end Decode

end WasmX64
