import WasmX64.Proofs.Layout.Join
import WasmX64.Proofs.Transfer.Pass

/-!
# Delivery and merging

Executing a recorded transfer leaves every target slot with the value its source
slot had at the start.  Merging a layout into a join is executing such a transfer.
-/

namespace WasmX64

section Delivery

variable {start machine final : Processor} {base : Nat} {passages : List Passage}
  {transfer : Transfer}

theorem Recorded.ready (recorded : Recorded start base passages transfer machine)
    (passable : Passable base start passages) (room : base + 32 ≤ frameLimit) :
    transfer.Ready base := by
  have unallocable : Register.rbp.isAllocable = false := by decide
  have allocable : ∀ passage ∈ passages, ∀ reg, passage.target.place = .reg reg →
      reg.isAllocable = true := fun passage member reg held =>
    ((passable.sound passage member).target.fits reg held).1
  constructor
  case target =>
    intro target has
    obtain ⟨passage, member, held, own, place, different⟩ := (recorded.moves target).mp has
    exact (recorded.move passage member target own held place different).2.1
  case source =>
    intro target has
    obtain ⟨passage, member, held, own, place, different⟩ := (recorded.moves target).mp has
    obtain ⟨source, suits, _⟩ :=
      recorded.move passage member target own held place different
    have sound := passable.sound passage member
    have sourceSuits := sound.source.suits place
    rw [source]
    refine ⟨suits.valid, sourceSuits.machine, ?_⟩
    rw [sourceSuits.bank, ← sound.type, ← (sound.target.suits held).bank, suits.bank]
  case proper =>
    intro target has
    obtain ⟨passage, member, held, own, place, different⟩ := (recorded.moves target).mp has
    rw [(recorded.move passage member target own held place different).1]
    exact different
  case counted => exact recorded.counted
  case loads =>
    intro target has
    obtain ⟨passage, member, held, asked⟩ := recorded.loads target has
    have sound := passable.sound passage member
    have suits : Suits passage.source.type target := by
      rw [← sound.type]
      exact sound.target.suits held
    unfold Passage.load? at asked
    split at asked
    case h_1 =>
      rw [← Option.some.inj asked]
      exact ⟨suits, passage.sourceIndex, rfl, (passable.below passage member).2 ‹_›⟩
    case h_2 value place =>
      rw [← Option.some.inj asked]
      exact ⟨suits, sound.source.integer value place⟩
    case h_3 => cases asked
  case apart =>
    intro target has
    obtain ⟨passage, member, held, own, place, _⟩ := (recorded.moves target).mp has
    cases loaded : transfer.loadTargets.has target with
    | false => rfl
    | true =>
      obtain ⟨other, otherMember, otherHeld, asked⟩ := recorded.loads target loaded
      have unasked : ∀ reg, other.source.place ≠ .reg reg := by
        intro reg otherPlace
        simp [Passage.load?, otherPlace] at asked
      rcases passable.shared passage member other otherMember target held otherHeld with
        rfl | ⟨_, _, common⟩ | ⟨framed, _⟩
      · exact absurd place (unasked own)
      · exact absurd common (unasked _)
      · rw [place] at framed
        cases framed
  case framePointer =>
    constructor
    · cases has : transfer.moveTargets.has .rbp with
      | false => rfl
      | true =>
        obtain ⟨passage, member, held, _⟩ := (recorded.moves .rbp).mp has
        rw [allocable passage member .rbp held] at unallocable
        cases unallocable
    · cases has : transfer.loadTargets.has .rbp with
      | false => rfl
      | true =>
        obtain ⟨passage, member, held, _⟩ := recorded.loads .rbp has
        rw [allocable passage member .rbp held] at unallocable
        cases unallocable
  case spillBase => exact recorded.spillBase
  case written =>
    intro index member
    obtain ⟨passage, inside, writes, rfl⟩ := recorded.slotWrites index member
    have := (passable.below passage inside).1 writes.1
    omega
  case room => exact room

theorem clip_of_wider {narrowType wideType : ValueType}
    (wider : narrowType.is64 = true → wideType.is64 = true) (value : BitVec 64) :
    narrowType.clip (wideType.clip value) = narrowType.clip value := by
  apply narrow_narrow
  unfold ValueType.size
  cases narrows : narrowType.is64 with
  | false => cases wideType.is64 <;> decide
  | true => simp [wider narrows]

theorem clip_copied_of_wider {narrowType wideType : ValueType}
    (wider : narrowType.is64 = true → wideType.is64 = true) (value : BitVec 64) :
    narrowType.clip (Sequence.copied wideType value) = narrowType.clip value := by
  unfold Sequence.copied
  split
  · rfl
  · exact clip_of_wider wider value

theorem ValueType.clip_zero (type : ValueType) : type.clip 0 = 0 := by
  simp [clip, narrow]

theorem Recorded.load_value (recorded : Recorded start base passages transfer machine)
    (passable : Passable base start passages) (room : base + 32 ≤ frameLimit)
    {passage : Passage} (member : passage ∈ passages) {reg : Register}
    (held : passage.target.place = .reg reg) {load : Load}
    (asked : passage.load? = some load) :
    Load.value machine load = start.slotValue passage.source passage.sourceIndex := by
  unfold Passage.load? at asked
  split at asked
  case h_1 place =>
    have below := (passable.below passage member).2 place
    have same : machine.slotWord passage.sourceIndex =
        start.slotWord passage.sourceIndex := by
      refine recorded.slotWord_eq (by omega) fun other inside writes => ⟨?_, ?_⟩
      · have := (passable.below other inside).1 writes.1
        omega
      · intro equality
        have framed := writes.1
        rw [passable.apart other inside passage member framed (.inr equality), held] at framed
        cases framed
    rw [← Option.some.inj asked]
    simp [Load.value, Processor.slotValue, place, same]
  case h_2 value place =>
    rw [← Option.some.inj asked]
    simp [Load.value, Processor.slotValue, place]
  case h_3 => cases asked

theorem Passable.source_eq (passable : Passable base start passages)
    {left right : Passage} (leftMember : left ∈ passages) (rightMember : right ∈ passages)
    {reg own : Register} (leftHeld : left.target.place = .reg reg)
    (rightHeld : right.target.place = .reg reg) (source : left.source.place = .reg own) :
    right.source.place = .reg own := by
  rcases passable.shared left leftMember right rightMember reg leftHeld rightHeld with
    rfl | ⟨other, leftPlace, rightPlace⟩ | ⟨framed, _⟩
  · exact source
  · rw [source] at leftPlace
    cases leftPlace
    exact rightPlace
  · rw [source] at framed
    cases framed

theorem Recorded.unmoved (recorded : Recorded start base passages transfer machine)
    (passable : Passable base start passages) {passage : Passage}
    (member : passage ∈ passages) {reg : Register}
    (held : passage.target.place = .reg reg) (source : passage.source.place = .reg reg) :
    transfer.moveTargets.has reg = false := by
  cases has : transfer.moveTargets.has reg with
  | false => rfl
  | true =>
    obtain ⟨other, otherMember, otherHeld, own, place, different⟩ :=
      (recorded.moves reg).mp has
    rw [passable.source_eq member otherMember held otherHeld source] at place
    cases place
    exact absurd rfl different

theorem Recorded.unloaded (recorded : Recorded start base passages transfer machine)
    (passable : Passable base start passages) {passage : Passage}
    (member : passage ∈ passages) {reg own : Register}
    (held : passage.target.place = .reg reg) (source : passage.source.place = .reg own) :
    transfer.loadTargets.has reg = false := by
  cases has : transfer.loadTargets.has reg with
  | false => rfl
  | true =>
    obtain ⟨other, otherMember, otherHeld, asked⟩ := recorded.loads reg has
    have place := passable.source_eq member otherMember held otherHeld source
    simp [Passage.load?, place] at asked

theorem Processor.clip_slotValue (machine : Processor) (slot : Slot) (index : Nat) :
    slot.type.clip (machine.slotValue slot index) = machine.slotValue slot index := by
  unfold slotValue
  split
  · exact slot.type.clip_clip _
  · exact slot.type.clip_clip _
  · exact slot.type.clip_clip _
  · exact slot.type.clip_zero

theorem Recorded.loaded_value (recorded : Recorded start base passages transfer machine)
    (passable : Passable base start passages) (room : base + 32 ≤ frameLimit)
    (executed : TransferM.Executed transfer base machine final) {passage : Passage}
    (member : passage ∈ passages) {reg : Register}
    (held : passage.target.place = .reg reg) (loads : passage.load?.isSome) :
    passage.source.type.clip (final.regs reg) =
      start.slotValue passage.source passage.sourceIndex := by
  have has := recorded.loaded passage member reg held loads
  obtain ⟨other, otherMember, otherHeld, asked⟩ := recorded.loads reg has
  rw [executed.loaded reg has,
    recorded.load_value passable room otherMember otherHeld asked]
  rcases passable.shared passage member other otherMember reg held otherHeld with
    rfl | ⟨own, place, _⟩ | ⟨_, _, ⟨sameType, sameValue⟩ | ⟨zero, otherZero⟩⟩
  · exact start.clip_slotValue _ _
  · simp [Passage.load?, place] at loads
  · rw [← sameValue]
    exact start.clip_slotValue _ _
  · rw [zero, otherZero]
    exact ValueType.clip_zero _

theorem Recorded.delivers (recorded : Recorded start base passages transfer machine)
    (passable : Passable base start passages) (room : base + 32 ≤ frameLimit)
    (executed : TransferM.Executed transfer base machine final) {passage : Passage}
    (member : passage ∈ passages) :
    final.slotValue passage.target passage.targetIndex =
      start.slotValue passage.source passage.sourceIndex := by
  have sound := passable.sound passage member
  have ready := recorded.ready passable room
  have pointer : final.regs .rbp = machine.regs .rbp :=
    executed.others .rbp ready.framePointer.1 ready.framePointer.2
  cases place : passage.target.place with
  | unknown c => exact absurd place (sound.target.known c)
  | const value =>
    have same := sound.const value place
    simp only [Processor.slotValue, place, same, sound.type]
  | frame =>
    have below := (passable.below passage member).1 place
    have untouched : final.slotWord passage.targetIndex =
        machine.slotWord passage.targetIndex :=
      Processor.slotWord_of_untouched pointer below room (by omega) executed.memory
    have written := recorded.written passage member place
    rw [← written, ← untouched]
    simp only [Processor.slotValue, place]
  | reg reg =>
    have allocable := (sound.target.fits reg place).1
    have goal : ∀ value, passage.source.type.clip (final.regs reg) = value →
        final.slotValue passage.target passage.targetIndex = value := by
      intro value equality
      simpa only [Processor.slotValue, place, sound.type] using equality
    apply goal
    cases source : passage.source.place with
    | unknown c => exact absurd source (sound.source.known c)
    | reg own =>
      have value : start.slotValue passage.source passage.sourceIndex =
          passage.source.type.clip (start.regs own) := by
        simp only [Processor.slotValue, source]
      rw [value, ← TransferM.value_of_reg recorded sound.source source]
      by_cases same : reg = own
      · subst same
        rw [executed.others reg (recorded.unmoved passable member place source)
          (recorded.unloaded passable member place source)]
      · have has : transfer.moveTargets.has reg = true :=
          (recorded.moves reg).mpr ⟨passage, member, place, own, source, same⟩
        obtain ⟨from_, _, wider⟩ :=
          recorded.move passage member reg own place source same
        rcases executed.moved reg has with copied | clipped
        · rw [copied, from_, clip_copied_of_wider wider]
        · rw [clipped, from_, clip_of_wider wider]
    | frame =>
      exact recorded.loaded_value passable room executed member place
        (by simp [Passage.load?, source])
    | const value =>
      exact recorded.loaded_value passable room executed member place
        (by simp [Passage.load?, source])

/-- What a whole transfer does to the processor. -/
structure Delivered (passages : List Passage) (base : Nat) (start final : Processor) :
    Prop where
  value : ∀ passage ∈ passages,
    final.slotValue passage.target passage.targetIndex =
      start.slotValue passage.source passage.sourceIndex
  others : ∀ reg, reg ≠ .r10 → reg ≠ .xmm15 →
    (∀ passage ∈ passages, passage.target.place ≠ .reg reg) →
    final.regs reg = start.regs reg
  memory : ∀ address, (∀ index < base + 32, 8 ≤ (address - start.slotAt index).toNat) →
    final.memory address = start.memory address

theorem transfer_delivers (passable : Passable base start passages)
    (room : base + 32 ≤ frameLimit) {code : Code} {entry : Processor}
    (recorded : Recorded start base [] transfer start)
    (reached : transfer.Reached code entry start) :
    ∃ after final, (do TransferM.transferAll passages; TransferM.execute) transfer =
        .ok () after ∧
      after.Reached code entry final ∧ Delivered passages base start final := by
  obtain ⟨middle, between, records, middleReached, middleRecorded⟩ :=
    TransferM.transferAll_records (List.nil_append passages ▸ passable) room recorded reached
  rw [List.nil_append] at middleRecorded
  have ready := middleRecorded.ready passable room
  obtain ⟨after, final, runs, afterReached, executed, _⟩ :=
    TransferM.execute_executes ready middleReached
  refine ⟨after, final, ?_, afterReached, ?_⟩
  · rw [EStateM.bind_ok records]
    exact runs
  constructor
  case value =>
    exact fun passage member => middleRecorded.delivers passable room executed member
  case others =>
    intro reg notGeneral notVector elsewhere
    rw [executed.others reg]
    · exact middleRecorded.regs reg notGeneral notVector
    · cases has : middle.moveTargets.has reg with
      | false => rfl
      | true =>
        obtain ⟨passage, member, held, _⟩ := (middleRecorded.moves reg).mp has
        exact absurd held (elsewhere passage member)
    · cases has : middle.loadTargets.has reg with
      | false => rfl
      | true =>
        obtain ⟨passage, member, held, _⟩ := middleRecorded.loads reg has
        exact absurd held (elsewhere passage member)
  case memory =>
    intro address apart
    rw [executed.memory address fun index _ below => ?_]
    · refine middleRecorded.memory address fun passage member writes => ?_
      have below := (passable.below passage member).1 writes.1
      exact apart passage.targetIndex (by omega)
    · rw [middleRecorded.slotAt_eq]
      exact apart index below

end Delivery
end WasmX64

/-!
## Merging a layout into a join

`mergeBranch` and `mergeAll` as lists of passages, and what an arriving layout has to
satisfy for them to work: `Layout.Accepts`.
-/

namespace WasmX64

/-- A slot of one of the four types, in a known place, constant only if an integer. -/
def Slot.isWellTyped (slot : Slot) : Bool :=
  slot.type.isValid &&
    match slot.place with
    | .const _ => slot.type.isInteger
    | .unknown _ => false
    | _ => true

theorem Slot.proper_of_isWellTyped {slot : Slot} (typed : slot.isWellTyped = true)
    (fits : slot.Fits) : slot.Proper := by
  simp only [isWellTyped, Bool.and_eq_true] at typed
  refine ⟨typed.1, fits, ?_, ?_⟩
  · intro value place
    simpa [place] using typed.2
  · intro code place
    simp [place] at typed

namespace Layout

/-- The index in an arriving layout of the value for a slot of the join: the carried
values lie on top, all others where they are in the join. -/
def origin (join arriving : Layout) (arity index : Nat) : Nat :=
  if index + arity < join.height then index
  else index + (arriving.height - join.height)

/-- The passage into a slot of a join. -/
def passage (join arriving : Layout) (arity index : Nat) : Passage :=
  ⟨join.slots[index]?.getD default,
    arriving.slots[join.origin arriving arity index]?.getD default,
    index, join.origin arriving arity index⟩

/-- The passages of a merge. -/
def passages (join arriving : Layout) (arity : Nat) : List Passage :=
  (List.range join.height).map (join.passage arriving arity)

/-- An arriving layout can be merged into a join: the types agree, constants of the
join are the same there, and slots that share a register in the join share one there
or lie in frame slots that hold the same value or zeros. -/
structure Accepts (machine : Processor) (arity : Nat) (join arriving : Layout) : Prop where
  tall : join.height ≤ arriving.height
  checked : arriving.problem? = none
  typed : ∀ slot ∈ arriving.slots, slot.isWellTyped = true
  types : ∀ index target slot, join.slots[index]? = some target →
    arriving.slots[join.origin arriving arity index]? = some slot → target.type = slot.type
  constants : ∀ index target slot value, join.slots[index]? = some target →
    arriving.slots[join.origin arriving arity index]? = some slot →
    target.place = .const value → slot.place = .const value
  shared : ∀ left right leftTarget rightTarget leftSlot rightSlot reg, left ≠ right →
    join.slots[left]? = some leftTarget → leftTarget.place = .reg reg →
    join.slots[right]? = some rightTarget → rightTarget.place = .reg reg →
    arriving.slots[join.origin arriving arity left]? = some leftSlot →
    arriving.slots[join.origin arriving arity right]? = some rightSlot →
    (∃ own, leftSlot.place = .reg own ∧ rightSlot.place = .reg own) ∨
    (leftSlot.place = .frame ∧ rightSlot.place = .frame ∧
      ((leftSlot.type = rightSlot.type ∧
        machine.slotValue leftSlot (join.origin arriving arity left) =
          machine.slotValue rightSlot (join.origin arriving arity right)) ∨
      (machine.slotValue leftSlot (join.origin arriving arity left) = 0 ∧
        machine.slotValue rightSlot (join.origin arriving arity right) = 0)))

variable {join arriving : Layout} {arity : Nat} {machine : Processor}

theorem origin_lt (tall : join.height ≤ arriving.height) {index : Nat}
    (inside : index < join.height) : join.origin arriving arity index < arriving.height := by
  unfold origin
  split <;> omega

theorem passage_slots (tall : join.height ≤ arriving.height) {index : Nat}
    (inside : index < join.height) :
    join.slots[index]? = some (join.passage arriving arity index).target ∧
      arriving.slots[join.origin arriving arity index]? =
        some (join.passage arriving arity index).source := by
  have joinInside : index < join.slots.size := inside
  have arrivingInside : join.origin arriving arity index < arriving.slots.size :=
    origin_lt tall inside
  constructor
  · simp [passage, Array.getElem?_eq_getElem joinInside]
  · simp [passage, Array.getElem?_eq_getElem arrivingInside]

/-- The passages of a merge can be carried out in one transfer. -/
theorem Accepts.passable (accepts : join.Accepts machine arity arriving)
    (few : arity ≤ 1) (joinSound : join.Sound)
    (known : ∀ slot ∈ join.slots, ∀ code, slot.place ≠ .unknown code) {base : Nat}
    (bound : arriving.height ≤ base) :
    Passable base machine (join.passages arriving arity) := by
  have arrivingSound := problem?_eq_none_iff.mp accepts.checked
  have tall := accepts.tall
  have member : ∀ passage ∈ join.passages arriving arity,
      ∃ index < join.height, passage = join.passage arriving arity index := by
    intro passage inside
    obtain ⟨index, inRange, rfl⟩ := List.mem_map.mp inside
    exact ⟨index, List.mem_range.mp inRange, rfl⟩
  constructor
  case sound =>
    intro passage inside
    obtain ⟨index, small, rfl⟩ := member passage inside
    obtain ⟨targetFound, sourceFound⟩ := passage_slots tall small
    have targetMember := Array.mem_of_getElem? targetFound
    have sourceMember := Array.mem_of_getElem? sourceFound
    have proper := Slot.proper_of_isWellTyped (accepts.typed _ sourceMember)
      (arrivingSound.fits _ sourceMember)
    have type := accepts.types index _ _ targetFound sourceFound
    have constants := fun value =>
      accepts.constants index _ _ value targetFound sourceFound
    refine ⟨⟨?_, joinSound.fits _ targetMember, ?_, known _ targetMember⟩,
      proper, type, constants⟩
    · rw [type]
      exact proper.valid
    · intro value place
      rw [type]
      exact proper.integer value (constants value place)
  case below =>
    intro passage inside
    obtain ⟨index, small, rfl⟩ := member passage inside
    have originSmall : join.origin arriving arity index < arriving.height :=
      origin_lt tall small
    exact ⟨fun _ => show index < base by omega,
      fun _ => show join.origin arriving arity index < base by omega⟩
  case apart =>
    intro left leftInside right rightInside _ same
    obtain ⟨leftIndex, leftSmall, rfl⟩ := member left leftInside
    obtain ⟨rightIndex, rightSmall, rfl⟩ := member right rightInside
    have equality : leftIndex = rightIndex := by
      change leftIndex = rightIndex ∨ leftIndex = join.origin arriving arity rightIndex
        at same
      unfold origin at same
      split at same <;> omega
    rw [equality]
  case once =>
    refine List.Pairwise.map _ ?_ List.nodup_range
    intro left right different same
    exact different (congrArg Passage.targetIndex same)
  case shared =>
    intro left leftInside right rightInside reg leftHeld rightHeld
    obtain ⟨leftIndex, leftSmall, rfl⟩ := member left leftInside
    obtain ⟨rightIndex, rightSmall, rfl⟩ := member right rightInside
    by_cases same : leftIndex = rightIndex
    · exact .inl (by rw [same])
    · right
      obtain ⟨leftTarget, leftSource⟩ := passage_slots tall leftSmall
      obtain ⟨rightTarget, rightSource⟩ := passage_slots tall rightSmall
      exact accepts.shared leftIndex rightIndex _ _ _ _ reg same leftTarget leftHeld
        rightTarget rightHeld leftSource rightSource

end Layout

namespace TransferM

theorem transferAll_append (first second : List Passage) :
    transferAll (first ++ second) =
      (do transferAll first; transferAll second : TransferM Unit) := by
  induction first with
  | nil => simp [transferAll]
  | cons passage rest ih =>
    rw [List.cons_append, transferAll, transferAll, ih, bind_assoc]

end TransferM

namespace Compile

open Layout

variable {join arriving : Layout} {arity : Nat}

theorem transferRange_eq {count joinIndex sourceIndex : Nat} (tall : join.height ≤ arriving.height)
    (room : joinIndex + count ≤ join.height)
    (same : ∀ index, joinIndex ≤ index → index < joinIndex + count →
      join.origin arriving arity index = sourceIndex + (index - joinIndex))
    (transfer : Transfer) :
    transferRange join arriving count joinIndex sourceIndex transfer =
      TransferM.transferAll ((List.range' joinIndex count).map (join.passage arriving arity))
        transfer := by
  induction count generalizing joinIndex sourceIndex transfer with
  | zero => rfl
  | succ count ih =>
    have here : join.origin arriving arity joinIndex = sourceIndex := by
      rw [same joinIndex (by omega) (by omega)]
      omega
    obtain ⟨targetFound, sourceFound⟩ :=
      passage_slots tall (show joinIndex < join.height by omega)
    rw [here] at sourceFound
    have next : ∀ index, joinIndex + 1 ≤ index → index < joinIndex + 1 + count →
        join.origin arriving arity index = sourceIndex + 1 + (index - (joinIndex + 1)) := by
      intro index above below
      rw [same index (by omega) (by omega)]
      omega
    have rest := fun after => ih (by omega) next after
    rw [transferRange, List.range'_succ, List.map_cons, TransferM.transferAll]
    simp only [slot?_ofNat, targetFound, sourceFound]
    have index : (join.passage arriving arity joinIndex).sourceIndex = sourceIndex := here
    have target : (join.passage arriving arity joinIndex).targetIndex = joinIndex := rfl
    rw [index, target, EStateM.bind_run, EStateM.bind_run]
    cases TransferM.transferSlot (join.passage arriving arity joinIndex).target
      (join.passage arriving arity joinIndex).source joinIndex sourceIndex transfer with
    | error fault after => rfl
    | ok value after => exact rest after

theorem passages_split (few : arity ≤ join.height) :
    join.passages arriving arity =
      (List.range' 0 (join.height - arity)).map (join.passage arriving arity) ++
        (List.range' (join.height - arity) arity).map (join.passage arriving arity) := by
  have whole : join.height = join.height - arity + arity := by omega
  rw [passages, ← List.map_append, List.range_eq_range']
  conv =>
    lhs
    rw [whole, ← List.range'_append_1, Nat.zero_add]

/-- One round of the loop over all slots. -/
def mergeRound (entry : Slot × Slot × Nat) (_ : PUnit) : TransferM (ForInStep PUnit) :=
  match entry with
  | (target, slot, index) => do
    TransferM.transferSlot target slot index index
    return .yield PUnit.unit

theorem forIn_mergeRound (entries : List (Slot × Slot × Nat)) (transfer : Transfer) :
    forIn entries PUnit.unit mergeRound transfer =
      TransferM.transferAll
        (entries.map fun entry => ⟨entry.1, entry.2.1, entry.2.2, entry.2.2⟩) transfer := by
  induction entries generalizing transfer with
  | nil => rfl
  | cons entry rest ih =>
    obtain ⟨target, slot, index⟩ := entry
    rw [List.forIn_cons, List.map_cons, TransferM.transferAll, EStateM.bind_run,
      EStateM.bind_run, mergeRound, EStateM.bind_run]
    dsimp only
    cases TransferM.transferSlot target slot index index transfer with
    | error fault after => rfl
    | ok value after => exact ih after

theorem entries_eq_passages (level : join.height = arriving.height) :
    (join.slots.toList.zip arriving.slots.toList.zipIdx).map
        (fun entry => (⟨entry.1, entry.2.1, entry.2.2, entry.2.2⟩ : Passage)) =
      join.passages arriving arity := by
  have sizes : join.slots.size = arriving.slots.size := level
  apply List.ext_getElem
  · simp [passages, height, sizes]
  · intro index inList inPassages
    have small : index < join.slots.size := by
      simpa [passages, height] using inPassages
    have there : index < arriving.slots.size := by omega
    have still : join.origin arriving arity index = index := by
      unfold origin
      split <;> omega
    simp [passages, passage, still, small, there]

theorem transfer_run {source : Layout} {action : TransferM Unit} {subject : Subject}
    {state : Compilation} {done : Transfer}
    (runs : action (.start state.output state.layout source) = .ok () done) :
    transfer source action subject state =
      .ok () { state with output := done.output } := by
  unfold transfer
  rw [bind_run, get_run]
  dsimp only
  rw [runs]
  rfl

/-- The transfer of a list of passages. -/
def carry (arriving : Layout) (passages : List Passage) : Compile Unit :=
  transfer arriving do
    TransferM.transferAll passages
    TransferM.execute

theorem mergeBranch_eq (tall : join.height ≤ arriving.height) (room : arity ≤ join.height) :
    mergeBranch join arriving arity = carry arriving (join.passages arriving arity) := by
  have heights : ¬ (arriving.height < join.height ∨ (join.height : Int) < arity) := by omega
  have joinBase : ((join.height : Int) - arity) = (join.height - arity : Nat) := by omega
  have arrivingBase : ((arriving.height : Int) - arity) = (arriving.height - arity : Nat) := by
    omega
  have lower : transferRange join arriving (join.height - arity) (0 : Nat) (0 : Nat) =
      TransferM.transferAll
        ((List.range' 0 (join.height - arity)).map (join.passage arriving arity)) := by
    funext transfer
    refine transferRange_eq tall (by omega) ?_ transfer
    intro index _ below
    unfold origin
    split <;> omega
  have upper : transferRange join arriving arity (join.height - arity : Nat)
      (arriving.height - arity : Nat) =
      TransferM.transferAll
        ((List.range' (join.height - arity) arity).map (join.passage arriving arity)) := by
    funext transfer
    refine transferRange_eq tall (by omega) ?_ transfer
    intro index above below
    unfold origin
    split <;> omega
  unfold mergeBranch carry
  simp only [heights, if_false, joinBase, arrivingBase, Int.toNat_natCast]
  change transfer arriving (transferRange join arriving (join.height - arity)
    (0 : Nat) (0 : Nat) >>= _) = _
  rw [lower, upper, passages_split room, TransferM.transferAll_append, bind_assoc]

theorem mergeAll_eq (level : join.height = arriving.height) :
    mergeAll join arriving = carry arriving (join.passages arriving arity) := by
  have heights : ¬ (join.height ≠ arriving.height) := by simp [level]
  have loop : forIn (join.slots.toList.zip arriving.slots.toList.zipIdx) PUnit.unit
      mergeRound = TransferM.transferAll (join.passages arriving arity) := by
    funext transfer
    rw [forIn_mergeRound, entries_eq_passages level]
  unfold mergeAll carry
  simp only [heights, if_false]
  rw [← loop]
  rfl

/-- A merge makes the code grow by instructions that deliver every passage, and
changes nothing else. -/
structure Merged (join arriving : Layout) (arity : Nat) (machine : Processor)
    (before after : Compilation) : Prop where
  unchanged : after = { before with output := after.output }
  delivers : ∃ instructions final,
    before.output.code.Grows instructions after.output.code ∧
    machine.run instructions = some final ∧
    Delivered (join.passages arriving arity)
      (max before.layout.height arriving.height) machine final

section Merging

variable {machine : Processor} {subject : Subject} {state : Compilation}

theorem carry_merges (accepts : join.Accepts machine arity arriving) (few : arity ≤ 1)
    (joinSound : join.Sound)
    (known : ∀ slot ∈ join.slots, ∀ code, slot.place ≠ .unknown code)
    (small : arriving.height + 32 ≤ frameLimit)
    (liveSmall : state.layout.height + 32 ≤ frameLimit) :
    ∃ after, carry arriving (join.passages arriving arity) subject state = .ok () after ∧
      Merged join arriving arity machine state after := by
  have passable := accepts.passable few joinSound known
    (Nat.le_max_right state.layout.height arriving.height)
  have recorded : Recorded machine (max state.layout.height arriving.height) []
      (.start state.output state.layout arriving) machine :=
    Recorded.nil rfl rfl rfl rfl rfl (by simp only [Transfer.start]; omega)
  obtain ⟨done, final, runs, reached, delivered⟩ :=
    transfer_delivers passable (by omega) recorded (Transfer.Reached.refl _ machine)
  obtain ⟨instructions, grows, ran⟩ := reached
  exact ⟨{ state with output := done.output }, transfer_run runs,
    ⟨rfl, instructions, final, grows, ran, delivered⟩⟩

theorem mergeBranch_merges (accepts : join.Accepts machine arity arriving)
    (few : arity ≤ 1) (joinSound : join.Sound)
    (known : ∀ slot ∈ join.slots, ∀ code, slot.place ≠ .unknown code)
    (room : arity ≤ join.height) (small : arriving.height + 32 ≤ frameLimit)
    (liveSmall : state.layout.height + 32 ≤ frameLimit) :
    ∃ after, mergeBranch join arriving arity subject state = .ok () after ∧
      Merged join arriving arity machine state after := by
  rw [mergeBranch_eq accepts.tall room]
  exact carry_merges accepts few joinSound known small liveSmall

theorem mergeAll_merges (accepts : join.Accepts machine arity arriving)
    (few : arity ≤ 1) (joinSound : join.Sound)
    (known : ∀ slot ∈ join.slots, ∀ code, slot.place ≠ .unknown code)
    (level : join.height = arriving.height) (small : arriving.height + 32 ≤ frameLimit)
    (liveSmall : state.layout.height + 32 ≤ frameLimit) :
    ∃ after, mergeAll join arriving subject state = .ok () after ∧
      Merged join arriving arity machine state after := by
  rw [mergeAll_eq level]
  exact carry_merges accepts few joinSound known small liveSmall

end Merging

end Compile
end WasmX64
