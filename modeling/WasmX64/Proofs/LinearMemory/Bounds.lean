import WasmX64.Proofs.LinearMemory.Growth
import WasmX64.Proofs.Processor.Integers
import WasmX64.Semantics.Step

/-!
# Accesses to memory

What the code of a load or store does once its operands are in registers: where it finds the
bytes, whatever the static offset is, and how a narrow number fills a register.
-/

namespace WasmX64

namespace Processor

end Processor

/-! ## Bounds

With dynamic checks the code of a load or store leaves for its trap exactly if the access reaches
beyond the current size of memory.  Otherwise it touches the bytes it names and no others.
-/

/-- Code overwrites the scratch registers. -/
theorem Layout.Persists.of_scratch {changed : BitVec 64 → Prop} {count : Nat} {layout : Layout}
    {old new : Processor} (sound : layout.Sound) (memory : new.memory = old.memory)
    (regs : ∀ other, other ≠ .r10 → other ≠ .r11 → new.regs other = old.regs other) :
    Persists changed count layout layout old new := by
  apply of_loose memory
  intro other tight
  apply regs
  · rintro rfl
    exact tight (sound.loose_of_reserved (by decide) (by decide) (by decide))
  · rintro rfl
    exact tight (sound.loose_of_reserved (by decide) (by decide) (by decide))

namespace Processor

/-- Memory as a function may rely on it: no larger than what is reserved, and apart from the frame
like the cell with its size. -/
structure Serves (machine : Processor) (addresses : RefKind → UInt32 → BitVec 64)
    (count limit : Nat) : Prop where
  size : (machine.memorySize addresses).toNat ≤ limit
  cell : machine.Aside count (addresses .memorySize 0) 8
  bytes : machine.Aside count (addresses .memory 0) (machine.memorySize addresses).toNat

theorem Aside.mono {machine : Processor} {count fewer : Nat} {address : BitVec 64} {bytes : Nat}
    (aside : machine.Aside count address bytes) (below : fewer ≤ count) :
    machine.Aside fewer address bytes := by
  intro offset inside index small
  exact aside offset inside index (Nat.lt_of_lt_of_le small below)

theorem Aside.part {machine : Processor} {count : Nat} {address : BitVec 64} {bytes : Nat}
    (aside : machine.Aside count address bytes) {start width : Nat} (inside : start + width ≤ bytes) :
    machine.Aside count (address + BitVec.ofNat 64 start) width := by
  intro offset here index small
  have place := aside (start + offset) (by omega) index small
  rw [BitVec.ofNat_add, ← BitVec.add_assoc] at place
  exact place

end Processor

namespace Compile

variable {subject : Subject} {state after : Compilation}

/-- What is left of a compilation that has guarded an access. -/
structure Checked (subject : Subject) (before : Compilation) (index : Register) (finish : Nat)
    (trap : Label) (after : Compilation) (parts : List Part) : Prop where
  orderly : Orderly subject after
  layout : after.layout = before.layout
  stubs : after.stubs = before.stubs.push ⟨trap, .outOfBounds, before.instr⟩
  follows : ∀ addresses (machine : Processor) start, start < 2 ^ 32 →
    machine.regs index = BitVec.ofNat 64 start →
    (machine.memorySize addresses).toNat ≤ subject.host.memoryLimit →
    ∃ next, machine.followParts addresses parts =
        some (if (machine.memorySize addresses).toNat < start + finish then .leaves trap next
          else .falls next) ∧
      next.memory = machine.memory ∧
      ∀ other, other ≠ .r10 → other ≠ .r11 → next.regs other = machine.regs other

theorem Checked.based {popped checked based : Compilation} {index base : Register} {finish : Nat}
    {trap : Label} {checking basing : List Part} {pinned : RegSet} {events : Array Event}
    (check : Checked subject popped index finish trap checked checking)
    (taken : Taken .gp pinned subject { checked with events } base based basing)
    (sound : popped.layout.Sound) (addresses : RefKind → UInt32 → BitVec 64)
    {first second : Processor} (memory : second.memory = first.memory)
    (others : ∀ other, other ≠ .r10 → other ≠ .r11 → second.regs other = first.regs other) :
    ∃ next, second.followParts addresses (basing ++ [.address base .memory 0]) =
        some (.falls next) ∧
      next.regs base = addresses .memory 0 ∧
      (∀ {bank : RegClass} {other : Register}, Suits bank other → other ≠ base →
        next.regs other = first.regs other) ∧
      based.layout.height = popped.layout.height ∧
      Layout.Persists nowhere popped.layout.height popped.layout based.layout first next := by
  obtain ⟨next, runs, holds, rest, persists⟩ := taken.addressed addresses second .memory 0
  have height : based.layout.height = checked.layout.height := taken.spills.height
  change Layout.Persists nowhere checked.layout.height checked.layout _ _ _ at persists
  rw [check.layout] at height persists
  refine ⟨next, runs, holds, ?_, height, .trans (.of_scratch sound memory others) persists⟩
  intro bank other suits different
  rw [rest other different, others other (suits.ne (by decide)) (suits.ne (by decide))]

end Compile

open Compile

theorem Compile.Offers.first {state : Compilation} {type : ValueType} {types : List ValueType}
    (offers : Offers state (type :: types)) : Offers state [type] := by
  obtain ⟨block, outer, blocks, above⟩ := offers.opened
  rw [List.length_cons] at above
  refine ⟨⟨block, outer, blocks, ?_⟩, ?_⟩
  · rw [List.length_singleton]
    omega
  · intro depth other found
    obtain ⟨rfl, rfl⟩ : depth = 0 ∧ type = other := by
      simpa [List.getElem?_singleton] using found
    exact offers.slots 0 type rfl

/-- Linear memory lies above the cells of the other objects. -/
def spread (kind : RefKind) (_ : UInt32) : BitVec 64 :=
  if kind = .memory then 0x100000000 else 0x1000

/-- A function whose memory may grow beyond 2^31 bytes. -/
def roomy : Subject := serving ⟨1, none⟩ { bounds := .dynamic, maxPages := 0x9000 }

end WasmX64
