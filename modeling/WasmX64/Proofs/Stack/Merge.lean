import WasmX64.Proofs.Instance.Thunk
import WasmX64.Proofs.Stack.Transfer
import WasmX64.Proofs.Transfer.Merge

/-!
# Layouts inside the frame

A layout whose frame slots the frame provides can be merged into a join, and the frame provides
the slots of the join afterwards.  Passing arguments pushes one word for every argument on the
stack.
-/

namespace WasmX64

/-- Every slot has a place that the compiler recognises, and those that are in the frame lie below
a number of slots. -/
structure Layout.Stored (slots : Int) (layout : Layout) : Prop where
  known : layout.Known
  below : ∀ (index : Nat) (slot : Slot), layout.slots[index]? = some slot → slot.place = .frame →
    (index : Int) < slots

namespace Layout.Stored

variable {slots : Int} {layout other : Layout} {slot : Slot} {index : Nat}

theorem empty (base : Int) : ({ base } : Layout).Stored slots :=
  ⟨fun _ member => absurd member (Array.not_mem_empty _), fun _ _ found => by simp at found⟩

theorem mono {more : Int} (stored : layout.Stored slots) (fewer : slots ≤ more) :
    layout.Stored more :=
  ⟨stored.known, fun index slot found place =>
    Int.lt_of_lt_of_le (stored.below index slot found place) fewer⟩

theorem congr (stored : layout.Stored slots) (same : other.slots = layout.slots) :
    other.Stored slots :=
  ⟨stored.known.congr same, fun index slot found =>
    stored.below index slot (same ▸ found)⟩

theorem evolve {more : Int} (stored : layout.Stored slots) (fewer : slots ≤ more)
    (evolves : ∀ (index : Nat) (slot : Slot), other.slots[index]? = some slot →
      layout.slots[index]? = some slot ∨ (∀ code, slot.place ≠ .unknown code) ∧
        (slot.place = .frame → (index : Int) < more)) : other.Stored more := by
  constructor
  · intro slot member
    obtain ⟨index, inside, same⟩ := Array.mem_iff_getElem.mp member
    cases evolves index slot (Array.getElem?_eq_some_iff.mpr ⟨inside, same⟩) with
    | inl old => exact stored.known slot (Array.mem_of_getElem? old)
    | inr fresh => exact fresh.1
  · intro index slot found place
    cases evolves index slot found with
    | inl old => exact Int.lt_of_lt_of_le (stored.below index slot old place) fewer
    | inr fresh => exact fresh.2 place

theorem push (stored : layout.Stored slots) (known : ∀ code, slot.place ≠ .unknown code)
    (inside : slot.place = .frame → (layout.height : Int) < slots) :
    (layout.push slot).Stored slots := by
  refine ⟨stored.known.push known, ?_⟩
  intro index other found place
  rw [slots_push, Array.getElem?_push] at found
  split at found
  · rename_i last
    cases found
    rw [last]
    exact inside place
  · exact stored.below index other found place

theorem pop (stored : layout.Stored slots) : layout.pop.Stored slots := by
  refine ⟨stored.known.pop, ?_⟩
  intro index slot found
  refine stored.below index slot ?_
  simp only [Layout.pop, Array.getElem?_pop] at found
  split at found
  · exact found
  · cases found

theorem drop (stored : layout.Stored slots) : layout.drop.Stored slots := by
  unfold Layout.drop
  split
  · exact stored.pop.congr slots_release
  · exact stored.pop

theorem dropTo (stored : layout.Stored slots) (height fuel : Nat) :
    (Layout.dropTo height fuel layout).Stored slots := by
  induction fuel generalizing layout with
  | zero => exact stored
  | succ fuel ih =>
    rw [Layout.dropTo]
    split
    · exact ih stored.drop
    · exact stored

theorem setSlot (stored : layout.Stored slots) (index : Nat)
    (known : ∀ code, slot.place ≠ .unknown code)
    (inside : slot.place = .frame → (index : Int) < slots) :
    (layout.setSlot index slot).Stored slots := by
  refine ⟨stored.known.setSlot index known, ?_⟩
  intro place other found framed
  rw [getElem?_setSlot] at found
  split at found
  · rename_i here
    cases found
    rw [← here.1]
    exact inside framed
  · exact stored.below place other found framed

theorem extract (stored : layout.Stored slots) (count : Nat) :
    ({ layout.forgetAll with slots := layout.slots.extract 0 count } : Layout).Stored slots := by
  constructor
  · intro slot member
    obtain ⟨index, inside, found⟩ := Array.mem_iff_getElem.mp member
    rw [Array.getElem_extract] at found
    exact stored.known slot (found ▸ Array.getElem_mem _)
  · intro index slot found
    refine stored.below index slot ?_
    simp only [Array.getElem?_extract, Nat.zero_add] at found
    split at found
    · exact found
    · cases found

theorem held (stored : layout.Stored slots) (found : layout.slots[index]? = some slot) :
    slot.Provided slots index :=
  fun place => ⟨Int.natCast_nonneg index, stored.below index slot found place⟩

end Layout.Stored

theorem Layout.Sound.ordinary {layout : Layout} (sound : layout.Sound) {slot : Slot}
    (member : slot ∈ layout.slots) (reg : Register) (place : slot.place = .reg reg) :
    reg.Ordinary :=
  Compile.Suits.ordinary (sound.fits slot member reg place)

namespace TransferM

open Transfer

variable {first : Output} {words pushed : Nat} {slots : Int} {join arriving : Layout}
  {passages : List Passage}

/-- What a passage needs to stay inside a frame of a number of slots. -/
structure Carries (slots : Int) (passage : Passage) : Prop where
  ordinary : ∀ reg, passage.target.place = .reg reg → reg.Ordinary
  provided : passage.source.Provided slots passage.sourceIndex

theorem Carries.mono {passage : Passage} {more : Int} (carries : Carries slots passage)
    (fewer : slots ≤ more) : Carries more passage := by
  refine ⟨carries.ordinary, fun place => ?_⟩
  obtain ⟨positive, below⟩ := carries.provided place
  exact ⟨positive, Int.lt_of_lt_of_le below fewer⟩

theorem leads_transferAll (carries : ∀ passage ∈ passages, Carries slots passage) :
    Leads (Fenced first words pushed slots) (transferAll passages)
      fun _ transfer => transfer.Fenced first words pushed slots ∧
        ∀ passage ∈ passages, passage.target.place = .frame →
          (passage.targetIndex : Int) < transfer.output.frameSlots := by
  induction passages generalizing slots with
  | nil => exact Leads.pure fun _ fenced => ⟨fenced, by simp⟩
  | cons passage rest ih =>
    obtain ⟨here, others⟩ := List.forall_mem_cons.mp carries
    have grows : slots ≤ (if passage.target.place = .frame then
        max slots (passage.targetIndex + 1) else slots) := by
      split
      · exact Int.le_max_left _ _
      · exact Int.le_refl _
    refine (leads_transferSlot here.ordinary (Int.natCast_nonneg _) here.provided).bind
      fun _ => (ih fun other member => (others other member).mono grows).mono ?_
    rintro _ transfer ⟨fenced, later⟩
    refine ⟨fenced.mono grows, List.forall_mem_cons.mpr ⟨fun place => ?_, later⟩⟩
    have room := fenced.room
    rw [if_pos place] at room
    omega

theorem carries_passages {arity : Nat} (sound : join.Sound) (stored : arriving.Stored slots)
    (tall : join.height ≤ arriving.height) :
    ∀ passage ∈ join.passages arriving arity, Carries slots passage := by
  intro passage member
  obtain ⟨index, inside, rfl⟩ := List.mem_map.mp member
  obtain ⟨targetFound, found⟩ := Layout.passage_slots tall (List.mem_range.mp inside)
  exact ⟨sound.ordinary (Array.mem_of_getElem? targetFound), stored.held found⟩

section Arguments

open Sequence

theorem through_pushArgument {slot : Slot} (known : ∀ code, slot.place ≠ .unknown code)
    (index : Nat) (words : Nat) :
    (Stage.body words).through (Compile.pushArgument slot index) = some (.body (words + 1)) := by
  unfold Compile.pushArgument
  cases place : slot.place with
  | frame =>
    dsimp only
    split
    · have apart : (Address.slot index).base ≠ .rsp := (by decide : Register.rbp ≠ .rsp)
      have loads : Instruction.steady (.load .i32 .r10 (.slot index)) = true := by
        simp [Instruction.steady, apart]
      refine Stage.through_cons.mpr ⟨_, Stage.inside_of_steady loads words, ?_⟩
      exact Stage.through_cons.mpr ⟨_, rfl, rfl⟩
    · exact Stage.through_cons.mpr ⟨_, rfl, rfl⟩
  | reg reg =>
    dsimp only [pushValue]
    split
    · refine Stage.through_cons.mpr ⟨_, rfl, Stage.through_cons.mpr ⟨.body (words + 1), ?_, rfl⟩⟩
      simp [Stage.pass, Stage.after, Stage.inside, Instruction.steady, Stage.stir, Address.based]
    · exact Stage.through_cons.mpr ⟨_, rfl, rfl⟩
  | const value => exact Stage.through_cons.mpr ⟨_, rfl, rfl⟩
  | unknown code => exact absurd place (known code)

theorem inside_pushArgument {slot : Slot} {index : Nat} (provided : slot.Provided slots index) :
    ∀ step ∈ Compile.pushArgument slot index, step.Inside slots := by
  unfold Compile.pushArgument
  cases place : slot.place with
  | frame =>
    obtain ⟨positive, below⟩ := provided place
    have within := (inside_frame positive below).2
    dsimp only
    split
    · simpa [Step.Inside, Instruction.Inside] using within
    · simpa [Step.Inside, Instruction.Inside] using within
  | reg reg =>
    have outside : (Address.based .rsp 0).Within slots := fun based => absurd based (by decide)
    dsimp only [pushValue]
    split
    · simpa [Step.Inside, Instruction.Inside] using outside
    · simp [Step.Inside, Instruction.Inside]
  | const value => simp [Step.Inside, Instruction.Inside]
  | unknown code => simp

/-- What an argument needs to be passed: its register is not one of those that delimit the frame,
and its value is in a place that the frame provides. -/
structure Passes (slots : Int) (argument : Passing × Slot × Nat) : Prop where
  ordinary : ∀ type reg, argument.1 = .reg type reg → reg.Ordinary
  known : ∀ code, argument.2.1.place ≠ .unknown code
  provided : argument.2.1.Provided slots argument.2.2

theorem leads_passArguments {arguments : List (Passing × Slot × Nat)}
    (passes : ∀ argument ∈ arguments, Passes slots argument) :
    Leads (Fenced first words pushed slots) (Compile.passArguments arguments)
      fun _ => Fenced first words (pushed + arguments.countP (·.1.onStack)) slots := by
  induction arguments generalizing pushed with
  | nil => exact Leads.pure fun _ => id
  | cons argument rest ih =>
    obtain ⟨here, others⟩ := List.forall_mem_cons.mp passes
    obtain ⟨passing, slot, index⟩ := argument
    cases passing with
    | reg type reg =>
      rw [Compile.passArguments]
      refine (leads_loadInto (here.ordinary type reg rfl) here.provided).bind fun _ => ?_
      rw [List.countP_cons_of_neg (by simp [Passing.onStack])]
      exact ih others
    | stack type offset =>
      have pushes : Leads (Fenced first words pushed slots)
          (modify (·.emit (Compile.pushArgument slot index)))
          fun _ => Fenced first words (pushed + 1) slots := by
        refine Leads.change fun transfer fenced => fenced.grow ?_
        refine Output.Lays.none.code (Compile.straight_pushArgument slot index) ?_
          (through_pushArgument here.known index pushed)
        intro step member
        exact (inside_pushArgument here.provided step member).mono fenced.room
      rw [Compile.passArguments]
      refine pushes.bind fun _ => ?_
      rw [List.countP_cons_of_pos (by simp [Passing.onStack]), Nat.add_comm (List.countP _ _),
        ← Nat.add_assoc]
      exact ih others

end Arguments

end TransferM

namespace Compile

open TransferM Transfer

variable {subject : Subject} {state : Compilation} {words pushed : Nat} {join arriving : Layout}

theorem transfer_lays {action : TransferM Unit} {reached : Transfer → Prop}
    (leads : Leads (Fenced state.output words words state.output.frameSlots) action
      fun _ => reached) :
    Ensures (transfer arriving action) subject state fun _ after =>
      ∃ done, reached done ∧ after = { state with output := done.output } := by
  have starts : Fenced state.output words words state.output.frameSlots
      (.start state.output state.layout arriving) := by
    refine ⟨.none, ⟨?_, ?_, ?_, ?_⟩, Int.le_refl _⟩
    · exact Int.le_trans (Int.natCast_nonneg _) (Int.le_max_left _ _)
    all_goals simp [Transfer.start]
  unfold transfer
  rw [ensures_bind, ensures_get]
  split
  · rename_i value done ends
    exact ensures_modify.mpr ⟨done, leads _ _ _ starts ends, rfl⟩
  · exact ensures_bind.mpr (ensures_modify.mpr ensures_throw)

/-- A layout was merged into a join: the code stays inside the frame, which provides the slots of
the join. -/
structure Adapts (join : Layout) (words : Nat) (state after : Compilation) : Prop where
  unchanged : after = { state with output := after.output }
  lays : state.output.Lays words after.output words
  stored : join.Stored after.output.frameSlots

theorem carry_joins {arity : Nat} (sound : join.Sound) (known : join.Known)
    (stored : arriving.Stored state.output.frameSlots) (tall : join.height ≤ arriving.height) :
    Ensures (carry arriving (join.passages arriving arity)) subject state fun _ after =>
      Adapts join words state after := by
  have leads : Leads (Fenced state.output words words state.output.frameSlots) (do
      transferAll (join.passages arriving arity)
      execute) fun _ transfer =>
        state.output.Lays words transfer.output words ∧ join.Stored transfer.output.frameSlots := by
    intro transfer value result fenced ends
    obtain ⟨_, middle, carried, executed⟩ := EStateM.bind_inv ends
    obtain ⟨between, reached⟩ := leads_transferAll (carries_passages sound stored tall)
      _ _ _ fenced carried
    -- the frame only grows while the transfer is executed
    have final := leads_execute _ _ _ { between with room := Int.le_refl _ } executed
    refine ⟨final.lays, known, ?_⟩
    intro index slot found place
    have inside : index < join.height := (Array.getElem?_eq_some_iff.mp found).1
    have member := List.mem_map_of_mem (f := join.passage arriving arity) (List.mem_range.mpr inside)
    have target := (@Layout.passage_slots _ _ arity tall _ inside).1
    rw [found] at target
    cases target
    exact Int.lt_of_lt_of_le (reached _ member place) final.room
  refine (transfer_lays leads).mono ?_
  rintro _ after ⟨done, ⟨lays, provides⟩, rfl⟩
  exact ⟨rfl, lays, provides⟩

theorem mergeAll_joins (sound : join.Sound) (known : join.Known)
    (stored : arriving.Stored state.output.frameSlots) :
    Ensures (mergeAll join arriving) subject state fun _ after => Adapts join words state after := by
  by_cases level : join.height = arriving.height
  · rw [@mergeAll_eq _ _ 0 level]
    exact carry_joins sound known stored (Nat.le_of_eq level)
  · exact ensures_ite.mpr ⟨fun _ => ensures_bind.mpr ensures_throw, fun same =>
      absurd (Decidable.not_not.mp same) level⟩

theorem mergeBranch_joins {arity : Nat} (sound : join.Sound) (known : join.Known)
    (stored : arriving.Stored state.output.frameSlots) :
    Ensures (mergeBranch join arriving arity) subject state fun _ after =>
      Adapts join words state after := by
  by_cases heights : join.height ≤ arriving.height ∧ arity ≤ join.height
  · rw [mergeBranch_eq heights.1 heights.2]
    exact carry_joins sound known stored heights.1
  · refine ensures_ite.mpr ⟨fun _ => ensures_bind.mpr ensures_throw, fun enough => ?_⟩
    omega

end Compile

end WasmX64
