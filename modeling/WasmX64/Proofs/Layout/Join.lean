import WasmX64.Proofs.Layout.Region

/-!
# Laying out a join

`initJoin` lays out three regions: the values a branch carries, the locals and the
operands between them.  `Joins` says what comes of it: nothing fails, the join is
sound, every slot stands for the slot of the source it was made for, and only
operands that share a register in the source share one in the join.
-/

namespace WasmX64.Layout

theorem regionRegisters_done {source : Layout} {count index : Nat} (set : RegSet)
    (room : index + count ≤ source.height) (join : Layout) :
    ∃ after, regionRegisters source count index set join = .ok after join ∧
      ∀ reg, after.has reg = true → set.has reg = true ∨
        ∃ place < count, ∃ slot, source.slots[index + place]? = some slot ∧
          slot.place = .reg reg := by
  induction count generalizing index set with
  | zero =>
    refine ⟨set, ?_, fun reg member => .inl member⟩
    rw [regionRegisters, EStateM.pure_run]
  | succ count ih =>
    have inside : index < source.slots.size := by
      have := room
      unfold height at this
      omega
    have found := Array.getElem?_eq_getElem inside
    have rest : index + 1 + count ≤ source.height := by omega
    obtain ⟨after, runs, members⟩ := ih _ rest
    refine ⟨after, ?_, ?_⟩
    · rw [regionRegisters]
      simp only [demandSlot, slot?_ofNat, found, EStateM.bind_run, EStateM.pure_run]
      exact runs
    · intro reg member
      rcases members reg member with before | ⟨place, inRegion, slot, slotFound, held⟩
      · cases own : source.slots[index].reg? with
        | none =>
          rw [own] at before
          exact .inl before
        | some other =>
          rw [own] at before
          simp only [Option.elim_some, RegSet.has_insert, Bool.or_eq_true,
            Bool.and_eq_true, decide_eq_true_eq] at before
          rcases before with before | same
          · exact .inl before
          · refine .inr ⟨0, by omega, _, found, ?_⟩
            rw [Slot.reg?_eq_some_iff.mp own, same.2]
      · refine .inr ⟨place + 1, by omega, slot, ?_, held⟩
        rw [← slotFound]
        congr 1
        omega

/-- The rule for the values a branch carries; they stay in the frame if they do not
change their index. -/
def carriedRule (inPlace : Bool) : RegionRule := ⟨inPlace, false, false⟩

def localRule : RegionRule := ⟨true, false, false⟩

/-- The rule for the operands below a block. -/
def operandRule : RegionRule := ⟨true, true, true⟩

/-- A join whose operands start at `base`, laid out for control that arrives with a
source layout and `arity` values on top. -/
structure Joins (locals base arity : Nat) (source join : Layout) : Prop where
  sound : join.Sound
  height : join.height = base + arity
  startsAt : join.base = base
  carriedSlot : ∀ place < arity, ∃ slot placed,
    source.slots[source.height - arity + place]? = some slot ∧
    join.slots[base + place]? = some placed ∧
    LaidOut (carriedRule (source.height = base + arity)) slot placed
  localSlot : ∀ index < locals, ∃ slot placed,
    source.slots[index]? = some slot ∧ join.slots[index]? = some placed ∧
    LaidOut localRule slot placed
  operandSlot : ∀ index, locals ≤ index → index < base → ∃ slot placed,
    source.slots[index]? = some slot ∧ join.slots[index]? = some placed ∧
    LaidOut operandRule slot placed
  /-- Only operands below the block share registers, and only as in the source. -/
  apart : ∀ left right leftPlaced rightPlaced reg, left ≠ right →
    join.slots[left]? = some leftPlaced → leftPlaced.place = .reg reg →
    join.slots[right]? = some rightPlaced → rightPlaced.place = .reg reg →
    (locals ≤ left ∧ left < base) ∧ (locals ≤ right ∧ right < base) ∧
      ∃ leftSlot rightSlot own,
        source.slots[left]? = some leftSlot ∧ leftSlot.place = .reg own ∧
        source.slots[right]? = some rightSlot ∧ rightSlot.place = .reg own

/-- A join with no register handed out yet. -/
def blankJoin (base arity : Nat) : Layout :=
  { slots := Array.replicate (base + arity) ⟨.unknown 0, .frame⟩, base := base }

theorem blankJoin_sound (base arity : Nat) : (blankJoin base arity).Sound := by
  have frames : ∀ slot ∈ (blankJoin base arity).slots, slot.place = .frame := by
    intro slot member
    rw [(Array.mem_replicate.mp member).2]
  have nothing : (blankJoin base arity).registers = [] := by
    simp only [registers, List.filterMap_eq_nil_iff, Array.mem_toList_iff]
    intro slot member
    simp [Slot.reg?, frames slot member]
  refine ⟨?_, ?_⟩
  · intro slot member reg place
    rw [frames slot member] at place
    cases place
  · rw [nothing]
    exact (Balanced.forgetAll (blankJoin base arity)).congr rfl rfl

theorem used_of_held {layout : Layout} {index : Nat} {slot : Slot} {reg : Register}
    (sound : layout.Sound) (found : layout.slots[index]? = some slot)
    (held : slot.place = .reg reg) : layout.used.has reg = true := by
  have member : slot ∈ layout.slots := Array.mem_of_getElem? found
  refine (sound.balanced.inUse reg (sound.fits slot member reg held).1).mpr ?_
  exact List.mem_filterMap.mpr
    ⟨slot, Array.mem_toList_iff.mpr member, Slot.reg?_eq_some_iff.mpr held⟩

theorem initJoin_run {locals base arity : Nat} {source afterCarried afterLocals join : Layout}
    {mergedLocals merged : RegSet} (localsBelow : locals ≤ base)
    (enough : base + arity ≤ source.height)
    (gatherLocals : regionRegisters source locals 0 RegSet.reserved
      (blankJoin base arity) = .ok mergedLocals (blankJoin base arity))
    (gatherCarried : regionRegisters source arity (source.height - arity : Nat) mergedLocals
      (blankJoin base arity) = .ok merged (blankJoin base arity))
    (carried : joinRegion (carriedRule (source.height = base + arity)) merged source arity
      base (source.height - arity : Nat) [] (blankJoin base arity) = .ok () afterCarried)
    (laidLocals : joinRegion localRule merged source locals 0 0 [] afterCarried =
      .ok () afterLocals)
    (inUse : merged.subset afterLocals.used = true)
    (operands : joinRegion operandRule merged source (base - locals) locals locals []
      afterLocals = .ok () join) :
    initJoin locals source arity { base := base } = .ok () join := by
  have noShortage :
      ¬ ((source.height : Int) - (base + arity) < 0 ∨ (source.height : Int) < base) := by
    omega
  have positive : ¬ ((base : Int) + arity < 0) := by omega
  have size : ((base : Int) + arity).toNat = base + arity := by omega
  have index : (base : Int) + (source.height - (base + arity)) =
      (source.height - arity : Nat) := by
    omega
  have rest : ((base : Int) - locals).toNat = base - locals := by omega
  have inPlace : decide ((source.height : Int) - (base + arity) = 0) =
      decide (source.height = base + arity) := by
    rw [decide_eq_decide]
    omega
  have fresh : ¬ (({ base := base } : Layout).height ≠ 0) := by simp [Layout.height]
  unfold initJoin
  simp only [EStateM.bind_run, EStateM.get_run, EStateM.ite_run, EStateM.modify_run,
    noShortage, positive, fresh, if_false, size, index, rest, inPlace, Int.toNat_natCast]
  simp only [blankJoin] at gatherLocals gatherCarried carried
  simp only [carriedRule, localRule, operandRule] at carried laidLocals operands
  simp only [gatherLocals, gatherCarried, carried, laidLocals, inUse, operands,
    Bool.not_true, Bool.false_eq_true, if_false]

theorem joins_of_regions {locals base arity : Nat} {merged : RegSet}
    {source afterCarried afterLocals join : Layout} (localsBelow : locals ≤ base)
    (carried : RegionDone (carriedRule (source.height = base + arity)) merged source arity
      base (source.height - arity) [] (blankJoin base arity) afterCarried)
    (laidLocals : RegionDone localRule merged source locals 0 0 [] afterCarried afterLocals)
    (operands : RegionDone operandRule merged source (base - locals) locals locals []
      afterLocals join) :
    Joins locals base arity source join := by
  have height : join.height = base + arity := by
    rw [operands.height, laidLocals.height, carried.height]
    simp [blankJoin, Layout.height]
  have carriedSlots : ∀ index, base ≤ index →
      join.slots[index]? = afterCarried.slots[index]? := by
    intro index above
    rw [operands.outside index (.inr (by omega)), laidLocals.outside index (.inr (by omega))]
  have localSlots : ∀ index < locals, join.slots[index]? = afterLocals.slots[index]? :=
    fun index below => operands.outside index (.inl below)
  -- the stage at which a register was handed out shows in the sets of used registers
  have stages : ∀ index slot reg, join.slots[index]? = some slot → slot.place = .reg reg →
      (base ≤ index ∧ afterCarried.used.has reg = true ∧
        afterLocals.used.has reg = true) ∨
      (index < locals ∧ afterCarried.used.has reg = false ∧
        afterLocals.used.has reg = true) ∨
      ((locals ≤ index ∧ index < base) ∧ afterLocals.used.has reg = false) := by
    intro index slot reg found held
    by_cases above : base ≤ index
    · left
      rw [carriedSlots index above] at found
      have used := used_of_held carried.sound found held
      exact ⟨above, used, laidLocals.grows reg used⟩
    right
    by_cases below : index < locals
    · left
      rw [localSlots index below] at found
      obtain ⟨old, _, oldFound, _, _⟩ := laidLocals.laidOut index below
      have fresh := laidLocals.fresh index below old slot reg oldFound (by simpa using found)
        held
      rcases fresh with free | ⟨share, _⟩
      · exact ⟨below, free, used_of_held laidLocals.sound found held⟩
      · cases share
    · right
      obtain ⟨place, rfl⟩ := Nat.exists_eq_add_of_le (Nat.le_of_not_lt below)
      obtain ⟨old, _, oldFound, _, _⟩ := operands.laidOut place (by omega)
      rcases operands.fresh place (by omega) old slot reg oldFound found held
        with free | ⟨_, own, _, stands⟩
      · exact ⟨⟨by omega, by omega⟩, free⟩
      · cases stands
  constructor
  case sound => exact operands.sound
  case height => exact height
  case startsAt =>
    rw [operands.base, laidLocals.base, carried.base]
    rfl
  case carriedSlot =>
    intro place inRegion
    rw [carriedSlots _ (by omega)]
    exact carried.laidOut place inRegion
  case localSlot =>
    intro index below
    rw [localSlots index below]
    simpa using laidLocals.laidOut index below
  case operandSlot =>
    intro index above below
    obtain ⟨place, rfl⟩ := Nat.exists_eq_add_of_le above
    exact operands.laidOut place (by omega)
  case apart =>
    intro left right leftPlaced rightPlaced reg different leftFound leftHeld rightFound
      rightHeld
    have leftInside : left < base + arity := by
      have := (Array.getElem?_eq_some_iff.mp leftFound).1
      rw [← height]
      exact this
    have rightInside : right < base + arity := by
      have := (Array.getElem?_eq_some_iff.mp rightFound).1
      rw [← height]
      exact this
    rcases stages left leftPlaced reg leftFound leftHeld with
        ⟨leftAbove, leftUsed, leftLater⟩ | ⟨leftBelow, leftUsed, leftLater⟩ |
        ⟨leftBetween, leftLater⟩ <;>
      rcases stages right rightPlaced reg rightFound rightHeld with
        ⟨rightAbove, rightUsed, rightLater⟩ | ⟨rightBelow, rightUsed, rightLater⟩ |
        ⟨rightBetween, rightLater⟩
    case inl.inl =>
      rw [carriedSlots left leftAbove] at leftFound
      rw [carriedSlots right rightAbove] at rightFound
      obtain ⟨left, rfl⟩ := Nat.exists_eq_add_of_le leftAbove
      obtain ⟨right, rfl⟩ := Nat.exists_eq_add_of_le rightAbove
      rcases carried.apart left (by omega) right (by omega) leftPlaced rightPlaced reg
        leftFound leftHeld rightFound rightHeld with same | ⟨share, _⟩
      · omega
      · cases share
    case inr.inl.inr.inl =>
      rw [localSlots left leftBelow, ← Nat.zero_add left] at leftFound
      rw [localSlots right rightBelow, ← Nat.zero_add right] at rightFound
      rcases laidLocals.apart left leftBelow right rightBelow leftPlaced rightPlaced reg
        leftFound leftHeld rightFound rightHeld with same | ⟨share, _⟩
      · omega
      · cases share
    case inr.inr.inr.inr =>
      refine ⟨leftBetween, rightBetween, ?_⟩
      obtain ⟨left, rfl⟩ := Nat.exists_eq_add_of_le leftBetween.1
      obtain ⟨right, rfl⟩ := Nat.exists_eq_add_of_le rightBetween.1
      rcases operands.apart left (by omega) right (by omega) leftPlaced rightPlaced reg
        leftFound leftHeld rightFound rightHeld with same | ⟨_, sources⟩
      · omega
      · exact sources
    all_goals simp_all

/-- Laying out a join never fails for control that arrives with enough values. -/
theorem initJoin_joins {locals base arity : Nat} {source : Layout}
    (sourceSound : source.Sound) (localsBelow : locals ≤ base)
    (enough : base + arity ≤ source.height) :
    ∃ join, initJoin locals source arity { base := base } = .ok () join ∧
      Joins locals base arity source join := by
  have blank : ∀ (index : Nat) (old : Slot), (blankJoin base arity).slots[index]? = some old →
      old.place = .frame := by
    intro index old found
    rw [(Array.mem_replicate.mp (Array.mem_of_getElem? found)).2]
  have blankHeight : (blankJoin base arity).height = base + arity := by
    simp [blankJoin, Layout.height]
  have localsRoom : 0 + locals ≤ source.height := by omega
  have carriedRoom : source.height - arity + arity ≤ source.height := by omega
  obtain ⟨mergedLocals, gatherLocals, localMembers⟩ :=
    regionRegisters_done RegSet.reserved localsRoom (blankJoin base arity)
  obtain ⟨merged, gatherCarried, members⟩ :=
    regionRegisters_done mergedLocals carriedRoom (blankJoin base arity)
  obtain ⟨afterCarried, carried, carriedDone⟩ :=
    joinRegion_done (carriedRule (source.height = base + arity)) merged sourceSound.fits
      (blankJoin_sound base arity) (.nil _) carriedRoom (Nat.le_of_eq blankHeight.symm)
      (fun place _ old found => blank _ old found)
  have localsFit : 0 + locals ≤ afterCarried.height := by
    rw [carriedDone.height, blankHeight]
    omega
  have localsBlank : ∀ place < locals, ∀ old,
      afterCarried.slots[0 + place]? = some old → old.place = .frame := by
    intro place inRegion old found
    rw [carriedDone.outside _ (.inl (by omega))] at found
    exact blank _ old found
  obtain ⟨afterLocals, laidLocals, localsDone⟩ :=
    joinRegion_done localRule merged sourceSound.fits carriedDone.sound (.nil _) localsRoom
      localsFit localsBlank
  have operandsRoom : locals + (base - locals) ≤ source.height := by omega
  have operandsFit : locals + (base - locals) ≤ afterLocals.height := by
    rw [localsDone.height, carriedDone.height, blankHeight]
    omega
  have operandsBlank : ∀ place < base - locals, ∀ old,
      afterLocals.slots[locals + place]? = some old → old.place = .frame := by
    intro place inRegion old found
    rw [localsDone.outside _ (.inr (by omega)),
      carriedDone.outside _ (.inl (by omega))] at found
    exact blank _ old found
  obtain ⟨join, operands, operandsDone⟩ :=
    joinRegion_done operandRule merged sourceSound.fits localsDone.sound (.nil _)
      operandsRoom operandsFit operandsBlank
  have inUse : merged.subset afterLocals.used = true := by
    rw [RegSet.subset_iff]
    intro reg member
    rcases members reg member with known | ⟨place, inRegion, slot, found, held⟩
    · rcases localMembers reg known with reserved | ⟨place, inRegion, slot, found, held⟩
      · exact localsDone.sound.balanced.reserved reg reserved
      · exact localsDone.occupied place inRegion slot reg found held
    · exact localsDone.grows reg (carriedDone.occupied place inRegion slot reg found held)
  refine ⟨join, initJoin_run localsBelow enough gatherLocals gatherCarried carried laidLocals
    inUse operands, joins_of_regions localsBelow carriedDone localsDone operandsDone⟩

end WasmX64.Layout
