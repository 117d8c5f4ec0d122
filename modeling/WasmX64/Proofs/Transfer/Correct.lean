import WasmX64.Proofs.Transfer.Merge

/-!
# Transfers into a join are correct

A join laid out for one branch takes every branch whose layout it accepts, that of
the first branch included.  The code of the merge leaves each slot of the join with the
value that the slot of the arriving layout had.
-/

namespace WasmX64

namespace Layout

/-- Slots of a join below the carried value hold what the slots of the arriving layout
with the same index held before, and the carried slot what the top slot held. -/
structure HoldsSame (base arity : Nat) (join arriving : Layout)
    (before after : Processor) : Prop where
  below : ∀ index target slot, index < base → join.slots[index]? = some target →
    arriving.slots[index]? = some slot →
    after.slotValue target index = before.slotValue slot index
  carried : ∀ target slot, arity = 1 → join.slots[base]? = some target →
    arriving.slots[arriving.height - 1]? = some slot →
    after.slotValue target base = before.slotValue slot (arriving.height - 1)

variable {locals base arity : Nat} {source join arriving : Layout}

theorem Joins.origin_of_lt (joins : Joins locals base arity source join) {index : Nat}
    (below : index < base) (arriving : Layout) :
    join.origin arriving arity index = index := by
  unfold origin
  rw [joins.height, if_pos (by omega)]

theorem Joins.origin_of_le (joins : Joins locals base arity source join) {index : Nat}
    (above : base ≤ index) (enough : base + arity ≤ arriving.height) :
    join.origin arriving arity index = arriving.height - arity + (index - base) := by
  unfold origin
  rw [joins.height, if_neg (by omega)]
  omega

theorem Joins.laidOut (joins : Joins locals base arity source join)
    (enough : base + arity ≤ source.height) {index : Nat} (inside : index < base + arity) :
    ∃ rule slot placed, source.slots[join.origin source arity index]? = some slot ∧
      join.slots[index]? = some placed ∧ LaidOut rule slot placed := by
  by_cases above : base ≤ index
  · obtain ⟨place, rfl⟩ := Nat.exists_eq_add_of_le above
    rw [joins.origin_of_le above enough, Nat.add_sub_cancel_left]
    exact ⟨_, joins.carriedSlot place (by omega)⟩
  · rw [joins.origin_of_lt (by omega)]
    by_cases below : index < locals
    · exact ⟨_, joins.localSlot index below⟩
    · exact ⟨_, joins.operandSlot index (by omega) (by omega)⟩

theorem LaidOut.const_of_const {rule : RegionRule} {slot placed : Slot}
    (laidOut : LaidOut rule slot placed) {value : Int32}
    (place : placed.place = .const value) : slot.place = .const value := by
  cases keeps : rule.keeps slot.place with
  | true => rw [← laidOut.kept keeps, place]
  | false =>
    rcases laidOut.moved keeps with frame | ⟨reg, held⟩
    · rw [frame] at place
      cases place
    · rw [held] at place
      cases place

theorem LaidOut.known {rule : RegionRule} {slot placed : Slot}
    (laidOut : LaidOut rule slot placed) (code : UInt8) : placed.place ≠ .unknown code := by
  intro place
  cases keeps : rule.keeps slot.place with
  | true =>
    rw [← laidOut.kept keeps, place] at keeps
    cases keeps
  | false =>
    rcases laidOut.moved keeps with frame | ⟨reg, held⟩
    · rw [frame] at place
      cases place
    · rw [held] at place
      cases place

theorem Joins.known (joins : Joins locals base arity source join)
    (enough : base + arity ≤ source.height) :
    ∀ slot ∈ join.slots, ∀ code, slot.place ≠ .unknown code := by
  intro slot member code
  obtain ⟨index, inside, rfl⟩ := Array.mem_iff_getElem.mp member
  have small : index < base + arity := by
    rw [← joins.height]
    exact inside
  obtain ⟨rule, old, placed, _, found, laidOut⟩ := joins.laidOut enough small
  rw [Array.getElem?_eq_getElem inside] at found
  cases found
  exact laidOut.known code

theorem Joins.accepts_source (joins : Joins locals base arity source join)
    (checked : source.problem? = none)
    (typed : ∀ slot ∈ source.slots, slot.isWellTyped = true)
    (enough : base + arity ≤ source.height) (machine : Processor) :
    join.Accepts machine arity source := by
  have inside : ∀ {index target}, join.slots[index]? = some target →
      index < base + arity := by
    intro index target found
    rw [← joins.height]
    exact (Array.getElem?_eq_some_iff.mp found).1
  have stands : ∀ index target slot, join.slots[index]? = some target →
      source.slots[join.origin source arity index]? = some slot →
      ∃ rule, LaidOut rule slot target := by
    intro index target slot targetFound slotFound
    obtain ⟨rule, old, placed, oldFound, placedFound, laidOut⟩ :=
      joins.laidOut enough (inside targetFound)
    rw [targetFound] at placedFound
    rw [slotFound] at oldFound
    cases placedFound
    cases oldFound
    exact ⟨rule, laidOut⟩
  constructor
  case tall =>
    rw [joins.height]
    exact enough
  case checked => exact checked
  case typed => exact typed
  case types =>
    intro index target slot targetFound slotFound
    obtain ⟨rule, laidOut⟩ := stands index target slot targetFound slotFound
    exact laidOut.type
  case constants =>
    intro index target slot value targetFound slotFound place
    obtain ⟨rule, laidOut⟩ := stands index target slot targetFound slotFound
    exact laidOut.const_of_const place
  case shared =>
    intro left right leftTarget rightTarget leftSlot rightSlot reg different leftFound
      leftHeld rightFound rightHeld leftSource rightSource
    obtain ⟨leftBetween, rightBetween, leftOld, rightOld, own, leftOldFound, leftOldHeld,
        rightOldFound, rightOldHeld⟩ :=
      joins.apart left right leftTarget rightTarget reg different leftFound leftHeld
        rightFound rightHeld
    rw [joins.origin_of_lt leftBetween.2, leftOldFound] at leftSource
    rw [joins.origin_of_lt rightBetween.2, rightOldFound] at rightSource
    cases leftSource
    cases rightSource
    exact .inl ⟨own, leftOldHeld, rightOldHeld⟩

theorem Joins.holdsSame (joins : Joins locals base arity source join)
    (tall : join.height ≤ arriving.height) {limit : Nat} {before after : Processor}
    (delivered : Delivered (join.passages arriving arity) limit before after) :
    HoldsSame base arity join arriving before after := by
  have reaches : ∀ index target slot, join.slots[index]? = some target →
      arriving.slots[join.origin arriving arity index]? = some slot →
      after.slotValue target index =
        before.slotValue slot (join.origin arriving arity index) := by
    intro index target slot targetFound slotFound
    have small : index < join.height := (Array.getElem?_eq_some_iff.mp targetFound).1
    obtain ⟨targetSame, slotSame⟩ := passage_slots tall small
    have value := delivered.value (join.passage arriving arity index)
      (List.mem_map.mpr ⟨index, List.mem_range.mpr small, rfl⟩)
    rw [targetFound] at targetSame
    rw [slotFound] at slotSame
    rw [← Option.some.inj targetSame, ← Option.some.inj slotSame] at value
    exact value
  have enough := tall
  rw [joins.height] at enough
  constructor
  case below =>
    intro index target slot small targetFound slotFound
    have same := reaches index target slot targetFound
    rw [joins.origin_of_lt small] at same
    exact same slotFound
  case carried =>
    rintro target slot rfl targetFound slotFound
    have same := reaches base target slot targetFound
    rw [joins.origin_of_le (Nat.le_refl base) enough, Nat.sub_self, Nat.add_zero] at same
    exact same slotFound

end Layout

/-- An action of the compiler succeeds, changes the code only, and what it adds to the
code makes the slots of a join hold the values of an arriving layout. -/
def Compile.Transfers (action : Compile Unit) (base arity : Nat) (join arriving : Layout)
    (machine : Processor) (subject : Subject) (state : Compilation) : Prop :=
  ∃ after, action subject state = .ok () after ∧
    after = { state with output := after.output } ∧
    ∃ instructions final, state.output.code.Grows instructions after.output.code ∧
      machine.run instructions = some final ∧
      Layout.HoldsSame base arity join arriving machine final

/-- Laying out a join never fails, the join is consistent and accepts the layout it was
made for, and merging any layout it accepts succeeds and preserves every value. -/
theorem join_transfer_correct {locals base arity : Nat} {source : Layout}
    (checked : source.problem? = none)
    (typed : ∀ slot ∈ source.slots, slot.isWellTyped = true)
    (localsBelow : locals ≤ base) (few : arity ≤ 1)
    (enough : base + arity ≤ source.height) :
    ∃ join, Layout.initJoin locals source arity { base := base } = .ok () join ∧
      join.problem? = none ∧ join.height = base + arity ∧
      (∀ machine, join.Accepts machine arity source) ∧
      ∀ machine arriving, join.Accepts machine arity arriving →
        arriving.height ≤ 2 ^ 27 → ∀ subject state, state.layout.height ≤ 2 ^ 27 →
        (Compile.mergeBranch join arriving arity).Transfers base arity join arriving machine
          subject state ∧
        (join.height = arriving.height →
          (Compile.mergeAll join arriving).Transfers base arity join arriving machine
            subject state) := by
  obtain ⟨join, made, joins⟩ :=
    Layout.initJoin_joins (Layout.problem?_eq_none_iff.mp checked) localsBelow enough
  have known := joins.known enough
  refine ⟨join, made, Layout.problem?_eq_none_iff.mpr joins.sound, joins.height,
    joins.accepts_source checked typed enough, ?_⟩
  intro machine arriving accepts small subject state liveSmall
  have limit : frameLimit = 2 ^ 28 := rfl
  have finish : ∀ {action : Compile Unit},
      (∃ after, action subject state = .ok () after ∧
        Compile.Merged join arriving arity machine state after) →
      action.Transfers base arity join arriving machine subject state := by
    rintro action ⟨after, runs, unchanged, instructions, final, grows, ran, delivered⟩
    exact ⟨after, runs, unchanged, instructions, final, grows, ran,
      joins.holdsSame accepts.tall delivered⟩
  constructor
  · exact finish (Compile.mergeBranch_merges accepts few joins.sound known
      (by rw [joins.height]; omega) (by omega) (by omega))
  · intro level
    exact finish (Compile.mergeAll_merges accepts few joins.sound known level (by omega)
      (by omega))

/-- A layout with a local and two operands in registers, one of them shared, and a
constant. -/
def crowdedLayout : Layout :=
  (((Layout.push {} (.inReg .i32 .rax)).push (.inReg .i64 .rcx)).push
    (.inReg .i64 .rcx)).push (.ofConst .i32 7)

theorem join_transfer_correct_crowded :
    ∃ join, Layout.initJoin 1 crowdedLayout 1 { base := 2 } = .ok () join ∧
      ∀ machine, (Compile.mergeBranch join crowdedLayout 1).Transfers 2 1 join crowdedLayout
        machine default { layout := crowdedLayout } := by
  obtain ⟨join, made, _, _, accepts, merges⟩ :=
    @join_transfer_correct 1 2 1 crowdedLayout (by decide) (by decide) (by decide)
      (by decide) (by decide)
  refine ⟨join, made, fun machine => ?_⟩
  exact (merges machine crowdedLayout (accepts machine) (by decide) default
    { layout := crowdedLayout } (by decide)).1

end WasmX64
