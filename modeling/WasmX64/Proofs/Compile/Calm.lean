import WasmX64.Proofs.Compile.Lawful

/-!
# Calm invariants

Register allocation, transfers between layouts and the preparation of calls add straight
code and frame slots and change the layout, nothing else.  An invariant that these three
kinds of change preserve is preserved by all of them.
-/

namespace WasmX64

open Sequence

namespace Compile

/-- An invariant that straight code, frame slots and changes of the layout preserve. -/
class Calm (invariant : Subject → Compilation → Prop) : Prop where
  emit : ∀ {steps}, Straight steps → Keeps invariant (emit steps) anything
  needSlot : ∀ index, Keeps invariant (needSlot index) anything
  modifyLayout : ∀ change, Keeps invariant (modifyLayout change) anything

/-- An action preserves an invariant, whatever it records. -/
def Kept (invariant : Subject → Compilation → Prop) ⦃α : Type⦄ (_ : Recording)
    (action : Compile α) : Prop :=
  Keeps invariant action anything

namespace Calm

variable {invariant : Subject → Compilation → Prop} (calm : Calm invariant)

include calm

/-- The output grows by straight code and frame slots. -/
theorem adds {subject : Subject} {state : Compilation} {output : Output}
    (holds : invariant subject state) (adds : state.output.Adds output) :
    invariant subject { state with output } := by
  induction adds with
  | none => exact holds
  | code _ straight ih => exact (calm.emit straight subject _ ih () _ rfl).1
  | slot _ index ih => exact (calm.needSlot index subject _ ih () _ rfl).1

theorem transfer (source : Layout) {action : TransferM Unit} (quiet : action.Calm) :
    Keeps invariant (Compile.transfer source action) anything := by
  intro subject state holds
  refine (transfer_adds source quiet).mono ?_
  rintro _ _ ⟨output, adds, rfl⟩
  exact ⟨calm.adds holds adds, trivial⟩

end Calm

variable {invariant : Subject → Compilation → Prop}

instance : Plain (Unbounded (Kept invariant)) False where
  pure _ := Keeps.pure trivial
  throw _ := Keeps.throw
  bind := Keeps.andThen
  mono kept _ := kept
  look each _ := Keeps.get.andThen fun state => each state False.elim
  ask each _ := Keeps.read.andThen each

instance [calm : Calm invariant] : Mild (Unbounded (Kept invariant)) False where
  straight := calm.emit
  needSlot _ := calm.needSlot _
  relay _ _ := calm.modifyLayout _
  transfer _ within := calm.transfer _ within.calm

/-- What goes through for all plain properties preserves any invariant, and what goes through for
all mild properties preserves calm invariants. -/
theorem Keeps.through {α : Type} {high : Nat} {action : Compile α}
    (obeys : Obeys (Unbounded (Kept invariant)) .machine 0 high action) :
    Keeps invariant action anything :=
  obeys

/-- A calm invariant that jumps, addresses and stubs preserve as well goes along with the books
through every plain instruction. -/
theorem routine_of_calm {faults : List TrapKind}
    {invariant : List Label → Subject → Compilation → Prop}
    [calm : ∀ labels, Calm (invariant labels)]
    (emit : ∀ {labels steps}, Closed labels steps →
      Keeps (invariant labels) (emit steps) anything)
    (record : ∀ {labels} what, Keeps (invariant labels) (record what) anything)
    (loadRef : ∀ {labels} target kind index,
      Keeps (invariant labels) (loadRef target kind index) anything)
    (addTrap : ∀ {labels kind}, kind ∈ faults → ∀ subject state, invariant labels subject state →
      Ensures (addTrap kind) subject state fun label after =>
        invariant (label :: labels) subject after)
    (forget : ∀ {label labels subject state}, invariant (label :: labels) subject state →
      invariant labels subject state) :
    Routine False faults fun labels subject state =>
      Books subject state ∧ invariant labels subject state := by
  constructor
  · intro labels steps closed _
    exact (Books.idle (.emit steps)).and (emit closed)
  · intro labels what
    exact (Books.idle (.record what)).and (record what)
  · intro labels target _ kind index
    exact (Books.idle (.loadRef target kind index)).and (loadRef target kind index)
  · intro labels kind raised subject state holds label after ends
    exact ⟨(Books.idle (.addTrap kind) subject state holds.1 label after ends).1,
      addTrap raised subject state holds.2 label after ends⟩
  · intro label labels subject state holds
    exact ⟨holds.1, forget holds.2⟩
  · intro labels bank wishes pinned
    exact (Books.keeps (stays_takeRegister bank wishes pinned)).and
      (.through (.takeRegister bank wishes pinned))
  · intro labels pinned
    exact (keeps_popRegister pinned).and (.through (.popRegister pinned))
  · intro labels
    exact keeps_dropOperand.and (.through .dropOperand)
  · intro labels depth
    exact (Books.idle (.operandType depth)).and (.through (.operandType depth))
  · intro labels type reg suits
    exact (keeps_pushRegister suits).and ((calm labels).modifyLayout _)
  · intro labels type value
    exact (keeps_pushConst type value).and ((calm labels).modifyLayout _)
  · intro labels reg allocable
    exact (Books.keeps (stays_vacate allocable)).and (.through (.vacate reg))
  · intro labels index
    exact (keeps_localGet index).and (.through (.lowerLocalGet index))
  · intro labels index keep
    exact (keeps_localSet index keep).and (.through (.lowerLocalSet index keep))
  · intro _ labels type signature target
    exact (keeps_prepareCall type signature target).and
      (.through (.prepareCall type signature target))

/-! ## Branches

A branch adds code in which no place is fixed and frame slots, is recorded, and marks the block
that it leads to.
-/

/-- An invariant that these preserve for branches to a depth. -/
structure Branching (depth : Nat) (invariant : Subject → Compilation → Prop) : Prop where
  emit : ∀ {steps}, (∀ target, .bind target ∉ steps) → Keeps invariant (emit steps) anything
  needSlot : ∀ index, Keeps invariant (needSlot index) anything
  record : ∀ what, Keeps invariant (record what) anything
  modifyBlock : ∀ change, Keeps invariant (modifyBlock depth change) anything

namespace Branching

variable {depth : Nat} {invariant : Subject → Compilation → Prop}
  (branching : Branching depth invariant)

include branching

theorem straight {steps : List Step} (straight : Straight steps) :
    Keeps invariant (Compile.emit steps) anything :=
  branching.emit fun _ member => nomatch straight _ member

theorem transfer (source : Layout) {action : TransferM Unit} (quiet : action.Calm) :
    Keeps invariant (Compile.transfer source action) anything := by
  intro subject state holds
  refine (transfer_adds source quiet).mono ?_
  rintro _ _ ⟨output, adds, rfl⟩
  refine ⟨?_, trivial⟩
  induction adds with
  | none => exact holds
  | code _ straight ih => exact (branching.straight straight subject _ ih () _ rfl).1
  | slot _ index ih => exact (branching.needSlot index subject _ ih () _ rfl).1

theorem returnFromFunction : Keeps invariant Compile.returnFromFunction anything := by
  have leave : Keeps invariant (machine { kind := .ret } (Compile.emit epilogue)) anything :=
    .machine branching.record (branching.straight straight_epilogue)
  refine Keeps.read.andThen fun subject => Keeps.get.andThen fun state => ?_
  refine (Keeps.through .innermost).andThen fun block => Keeps.demand ?_
  split
  · exact leave
  · refine (Keeps.through (.expect 0 _)).andThen fun _ => ?_
    split
    · exact .throw
    · refine (branching.transfer _ ?_).andThen fun _ => leave
      exact .bind (.loadInto _ _ _) fun _ => .execute

theorem branchTo : Keeps invariant (Compile.branchTo depth) anything := by
  have leads : ∀ (block : Block) (source join : Layout),
      Keeps invariant (lead depth block source join) anything := by
    intro block source join
    refine (branching.modifyBlock _).andThen fun _ => ?_
    refine (Keeps.demand (branching.transfer source ?_)).andThen fun _ => ?_
    · exact .branch _ _ _ _ _ False.elim
    refine Keeps.andThen (.machine branching.record (branching.emit ?_)) fun _ =>
      branching.modifyBlock _
    intro target member
    cases List.mem_singleton.mp member
  rw [branchTo_eq]
  refine (Keeps.through (.target _)).andThen fun block => Keeps.get.andThen fun state => .ite ?_ ?_
  · exact (Keeps.pure trivial).andThen (leads block state.layout)
  · exact (Keeps.through (.initJoin _ _ _)).andThen (leads block state.layout)

theorem branchOrReturn : Keeps invariant (Compile.branchOrReturn depth) anything :=
  (Keeps.through (.leavesFunction _)).andThen fun _ =>
    .ite branching.returnFromFunction branching.branchTo

end Branching

end Compile

end WasmX64
