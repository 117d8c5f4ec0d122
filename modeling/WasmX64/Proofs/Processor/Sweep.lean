import WasmX64.Proofs.Processor.Bytes

/-!
# The one reading of code

A processor that starts at the beginning of code and takes what it finds, one item behind the
other, meets the items of every listing of the code.  So all listings have the same jumps at the
same offsets: which bytes are instructions and which are jumps is not up to the listing.
-/

namespace WasmX64

open Decode

/-- The condition and the width of a jump. -/
def Item.jump? : Item → Option (Option Condition × Distance)
  | .plain _ => none
  | .jump condition distance => some (condition, distance)

/-- The condition of the jump at an offset, if there is one, and where the item there ends. -/
def Code.sight (code : Code) (offset : Nat) : Option (Option (Option Condition) × Nat) :=
  match decode (code.bytes.toList.drop offset) with
  | some (_, rest) => some (none, code.size - rest.length)
  | none => (readJump (code.bytes.toList.drop offset)).map fun (condition, _, rest) =>
      (some condition, code.size - rest.length)

namespace Placed

variable {code : Code} {placed other : Placed} {finish : Nat}

/-- An item is seen for what it is, up to its end. -/
theorem Stands.sighted (stands : placed.Stands code finish) (inside : finish ≤ code.size) :
    code.sight placed.offset = some (placed.item.jump?.map Prod.fst, finish) := by
  have behind : code.size - (code.bytes.toList.drop finish).length = finish := by
    rw [List.length_drop]
    exact Nat.sub_sub_self inside
  cases stands with
  | plain declared encodes holds =>
    have valid := Instruction.valid_of_encode encodes
    obtain ⟨decoded, ⟨found, same, decodes⟩, _⟩ := Instruction.decodes_asked declared valid
    cases same.symm.trans encodes
    rw [Code.sight, holds.drop, decodes]
    dsimp only
    rw [behind]
    rfl
  | @jump offset condition distance declared holds =>
    have read := @readDistance_field condition code
      ⟨distance, offset + (Item.jumpOpcode condition distance).length⟩ inside
    rw [Code.sight, holds.drop, decode_jumpOpcode declared, readJump_jumpOpcode declared, read]
    simp only [Option.map_some]
    exact congrArg (fun ends => some (some condition, ends)) behind

theorem field?_eq_map (placed : Placed) : placed.field? = placed.item.jump?.map fun jump =>
    ⟨jump.2, placed.offset + (Item.jumpOpcode jump.1 jump.2).length⟩ := by
  unfold field?
  cases placed.item with
  | plain => rfl
  | jump => rfl

/-- The width of a jump is known from its length. -/
theorem Stands.jump_unique {first second : Nat} (one : placed.Stands code first)
    (again : other.Stands code second) (ends : first = second)
    (offset : placed.offset = other.offset)
    (condition : placed.item.jump?.map Prod.fst = other.item.jump?.map Prod.fst) :
    placed.item.jump? = other.item.jump? := by
  cases one with
  | plain =>
    cases again with
    | plain => rfl
    | jump => cases condition
  | @jump start given distance _ _ =>
    cases again with
    | plain => cases condition
    | @jump other _ wide =>
      cases condition
      obtain rfl : start = other := offset
      have width : distance = wide := by
        cases given <;> cases distance <;> cases wide <;>
          simp [Item.jumpOpcode, Code.opcode, Distance.width] at ends ⊢
      rw [width]

end Placed

/-- Items one behind the other between two offsets, earliest first. -/
inductive Code.Sweeps (code : Code) (finish : Nat) : Nat → List Placed → Prop
  | done : Sweeps code finish finish []
  | next {placed : Placed} {rest : List Placed} {middle : Nat}
      (stands : placed.Stands code middle) (behind : Sweeps code finish middle rest) :
      Sweeps code finish placed.offset (placed :: rest)

namespace Code

variable {code : Code} {one other : List Placed} {start finish : Nat}

theorem Sweeps.le (sweeps : code.Sweeps finish start one) : start ≤ finish := by
  induction sweeps with
  | done => exact Nat.le_refl _
  | next stands _ ih => exact Nat.le_trans (Nat.le_of_lt (Placed.offset_lt stands)) ih

theorem Listed.sweeps {listing : List Placed} (listed : code.Listed listing start)
    (behind : code.Sweeps finish start one) :
    code.Sweeps finish 0 (listing.reverse ++ one) := by
  induction listed generalizing one with
  | nil => exact behind
  | @cons placed rest middle before stands ih =>
    rw [List.reverse_cons, List.append_assoc]
    exact ih (.next stands behind)

theorem Sweeps.unique (first : code.Sweeps code.size start one)
    (second : code.Sweeps code.size start other) :
    one.map (fun placed => (placed.offset, placed.item.jump?)) =
      other.map fun placed => (placed.offset, placed.item.jump?) := by
  induction first generalizing other with
  | done =>
    generalize ends : code.size = last at second
    cases second with
    | done => rfl
    | next stands behind =>
      have below := Placed.offset_lt stands
      have := behind.le
      omega
  | @next placed rest middle stands behind ih =>
    generalize begins : placed.offset = offset at second
    cases second with
    | done =>
      have below := Placed.offset_lt stands
      have := behind.le
      omega
    | @next twin more further again after =>
      have sight := stands.sighted behind.le
      rw [begins, again.sighted after.le] at sight
      obtain ⟨condition, rfl⟩ := Prod.mk.inj (Option.some.inj sight)
      rw [List.map_cons, List.map_cons, ih after, begins,
        stands.jump_unique again rfl begins condition.symm]

/-- Any two listings of the whole of a code have the same jumps at the same offsets. -/
theorem Listed.unique (first : code.Listed one code.size) (second : code.Listed other code.size) :
    one.map (fun placed => (placed.offset, placed.item.jump?)) =
      other.map fun placed => (placed.offset, placed.item.jump?) := by
  have same := (first.sweeps .done).unique (second.sweeps .done)
  simpa only [List.append_nil, List.map_reverse, List.reverse_inj] using same

theorem Listed.twin (first : code.Listed one code.size) (second : code.Listed other code.size)
    {placed : Placed} (member : placed ∈ one) :
    ∃ twin ∈ other, twin.offset = placed.offset ∧ twin.field? = placed.field? := by
  have among : (placed.offset, placed.item.jump?) ∈
      other.map fun placed => (placed.offset, placed.item.jump?) :=
    first.unique second ▸ List.mem_map_of_mem member
  obtain ⟨twin, there, same⟩ := List.mem_map.mp among
  obtain ⟨offset, jump⟩ := Prod.mk.inj same
  refine ⟨twin, there, offset, ?_⟩
  rw [Placed.field?_eq_map, Placed.field?_eq_map, offset, jump]

end Code

end WasmX64
