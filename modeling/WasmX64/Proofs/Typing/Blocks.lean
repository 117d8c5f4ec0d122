import WasmX64.Proofs.Layout.Region
import WasmX64.Proofs.Typing.Frames
import WasmX64.Proofs.Typing.Plain

/-!
# The types of a join

Whatever the layout control arrives with, a join that can be laid out for it has the
types of that layout below the base of the block and the types of the carried values
above.
-/

namespace WasmX64.Layout

variable {source join after : Layout} {rule : RegionRule} {merged : RegSet}

theorem demandSlot_ok {layout : Layout} {index : Nat} {slot : Slot}
    (runs : demandSlot layout index join = .ok slot after) :
    layout.slots[index]? = some slot ∧ after = join := by
  unfold demandSlot at runs
  rw [slot?_natCast] at runs
  cases found : layout.slots[index]? with
  | some other =>
    rw [found] at runs
    cases runs
    exact ⟨rfl, rfl⟩
  | none =>
    rw [found] at runs
    cases runs

/-- A region of a join takes its types from the source and leaves the other slots. -/
structure RegionTyped (source : Layout) (count joinIndex sourceIndex : Nat)
    (join after : Layout) : Prop where
  base : after.base = join.base
  height : after.height = join.height
  known : join.Known → after.Known
  types : ∀ index, after.types[index]? =
    if joinIndex ≤ index ∧ index < joinIndex + count then
      source.types[sourceIndex + (index - joinIndex)]?
    else join.types[index]?

theorem RegionTyped.cons {count joinIndex sourceIndex : Nat} {middle : Layout}
    {slot placed : Slot}
    (rest : RegionTyped source count (joinIndex + 1) (sourceIndex + 1) middle after)
    (slots : middle.slots = (join.setSlot joinIndex placed).slots)
    (base : middle.base = join.base) (found : source.slots[sourceIndex]? = some slot)
    (inside : joinIndex < join.height) (type : placed.type = slot.type)
    (place : ∀ code, placed.place ≠ .unknown code) :
    RegionTyped source (count + 1) joinIndex sourceIndex join after := by
  have height : middle.height = join.height := by
    rw [Layout.height, slots]
    exact height_setSlot joinIndex placed
  refine ⟨rest.base.trans base, rest.height.trans height, ?_, ?_⟩
  · exact fun known => rest.known ((known.setSlot joinIndex place).congr slots)
  · intro index
    rw [rest.types]
    by_cases here : index = joinIndex
    · subst here
      rw [if_neg (by omega), if_pos (by omega), Nat.sub_self, Nat.add_zero, types_congr slots,
        getElem?_types, getElem?_setSlot, if_pos ⟨rfl, inside⟩, getElem?_types, found]
      simp [type]
    · by_cases later : joinIndex + 1 ≤ index ∧ index < joinIndex + 1 + count
      · rw [if_pos later, if_pos (by omega)]
        congr 1
        omega
      · rw [if_neg later, if_neg (by omega), types_congr slots, getElem?_types,
          getElem?_setSlot, if_neg (by omega), getElem?_types]

/-- Success shows that the slots on both sides exist. -/
theorem joinRegion_slots {count joinIndex sourceIndex : Nat}
    {shared : List (Register × Register)}
    (runs : joinRegion rule merged source (count + 1) joinIndex sourceIndex shared join =
      .ok () after) :
    (∃ slot, source.slots[sourceIndex]? = some slot) ∧
      ∃ old, join.slots[joinIndex]? = some old := by
  rw [joinRegion] at runs
  obtain ⟨slot, middle, demanded, next⟩ := EStateM.bind_inv runs
  obtain ⟨found, rfl⟩ := demandSlot_ok demanded
  obtain ⟨_, _, got, next⟩ := EStateM.bind_inv next
  cases got
  obtain ⟨old, _, demanded, _⟩ := EStateM.bind_inv next
  obtain ⟨present, _⟩ := demandSlot_ok demanded
  exact ⟨⟨slot, found⟩, old, present⟩

theorem joinRegion_typed {count joinIndex sourceIndex : Nat}
    {shared : List (Register × Register)}
    (runs : joinRegion rule merged source count joinIndex sourceIndex shared join =
      .ok () after) :
    RegionTyped source count joinIndex sourceIndex join after := by
  induction count generalizing joinIndex sourceIndex shared join with
  | zero =>
    cases runs
    refine ⟨rfl, rfl, id, fun index => ?_⟩
    rw [if_neg (by omega)]
  | succ count ih =>
    obtain ⟨⟨slot, found⟩, old, present⟩ := joinRegion_slots runs
    have inside : joinIndex < join.height := (Array.getElem?_eq_some_iff.mp present).1
    rw [joinRegion_succ found present] at runs
    split at runs
    · rename_i keeps
      refine (ih runs).cons rfl rfl found inside rfl ?_
      intro code place
      rw [place] at keeps
      cases keeps
    · split at runs
      · exact (ih runs).cons rfl rfl found inside rfl (by simp [Slot.inFrame])
      · exact (ih runs).cons rfl rfl found inside rfl (by simp [Slot.inReg])

theorem regionRegisters_keeps {count : Nat} {index : Int} {set result : RegSet}
    (runs : regionRegisters source count index set join = .ok result after) :
    after = join := by
  induction count generalizing index set with
  | zero =>
    cases runs
    rfl
  | succ count ih =>
    rw [regionRegisters] at runs
    obtain ⟨slot, middle, demanded, next⟩ := EStateM.bind_inv runs
    have same : middle = join := by
      unfold demandSlot at demanded
      cases found : source.slot? index with
      | some other =>
        rw [found] at demanded
        cases demanded
        rfl
      | none =>
        rw [found] at demanded
        cases demanded
    rw [same] at next
    exact ih next

theorem initJoin_typed {locals base arity : Nat} (localsBelow : locals ≤ base)
    (runs : initJoin locals source arity join = .ok () after) (startsAt : join.base = base) :
    after.base = base ∧ after.Known ∧ base + arity ≤ source.height ∧
      after.types = source.types.take base ++ source.types.drop (source.height - arity) := by
  unfold initJoin at runs
  obtain ⟨_, _, got, runs⟩ := EStateM.bind_inv runs
  cases got
  simp only [EStateM.ite_run, startsAt] at runs
  split at runs
  · obtain ⟨_, _, thrown, _⟩ := EStateM.bind_inv runs
    cases thrown
  split at runs
  · obtain ⟨_, _, thrown, _⟩ := EStateM.bind_inv runs
    cases thrown
  split at runs
  · obtain ⟨_, _, thrown, _⟩ := EStateM.bind_inv runs
    cases thrown
  rename_i enough _
  have room : base + arity ≤ source.height := by omega
  have size : ((base : Int) + arity).toNat = base + arity := by omega
  have index : (base : Int) + (source.height - (base + arity)) =
      (source.height - arity : Nat) := by
    omega
  have between : ((base : Int) - locals).toNat = base - locals := by omega
  obtain ⟨_, blank, cleared, runs⟩ := EStateM.bind_inv runs
  have height : blank.height = base + arity := by
    cases cleared
    simp [Layout.height, size]
  have known : blank.Known := by
    cases cleared
    intro slot member
    simp [(Array.mem_replicate.mp member).2]
  have starts : blank.base = base := by
    cases cleared
    exact startsAt
  obtain ⟨_, _, gathered, runs⟩ := EStateM.bind_inv runs
  cases regionRegisters_keeps gathered
  obtain ⟨merged, _, gathered, runs⟩ := EStateM.bind_inv runs
  cases regionRegisters_keeps gathered
  obtain ⟨_, withCarried, carried, runs⟩ := EStateM.bind_inv runs
  obtain ⟨_, withLocals, laid, runs⟩ := EStateM.bind_inv runs
  obtain ⟨_, _, got, runs⟩ := EStateM.bind_inv runs
  cases got
  simp only [EStateM.ite_run] at runs
  split at runs
  · obtain ⟨_, _, thrown, _⟩ := EStateM.bind_inv runs
    cases thrown
  rw [index, Int.toNat_natCast] at carried
  rw [between] at runs
  have first := joinRegion_typed carried
  have second := @joinRegion_typed _ _ _ _ _ locals 0 0 _ laid
  have third := joinRegion_typed runs
  refine ⟨?_, third.known (second.known (first.known known)), room, ?_⟩
  · rw [third.base, second.base, first.base, starts]
  · apply List.ext_getElem?
    intro place
    rw [third.types, second.types, first.types, List.getElem?_append]
    have below : (source.types.take base).length = base := by
      simp only [List.length_take, length_types]
      omega
    rw [below]
    by_cases operand : place < base
    · rw [if_pos operand, List.getElem?_take_of_lt operand]
      by_cases inLocals : place < locals
      · rw [if_neg (by omega), if_pos (by omega)]
        congr 1
        omega
      · rw [if_pos (by omega)]
        congr 1
        omega
    · rw [if_neg operand, if_neg (by omega), if_neg (by omega), List.getElem?_drop]
      by_cases inside : place < base + arity
      · rw [if_pos (by omega)]
      · rw [if_neg (by omega), List.getElem?_eq_none (by simp [height]; omega),
          List.getElem?_eq_none (by simp; omega)]

end WasmX64.Layout

/-! ## Open blocks as open constructs

Every open block of a compilation is read as an open construct of typing.  `Tracks`
says that a compilation is at a point that typing can be at too: the layouts saved
for the ends of blocks, the starts of loops and the else arms have the types that
are declared there.
-/

namespace WasmX64

namespace Block

/-- A block as an open construct. -/
def frame (block : Block) : Frame where
  label := if block.kind = .loop then [] else block.results
  results := block.results
  live := decide (block.reach ≠ .unreachable)
  floor := block.base.toNat
  pending := block.pending
  otherwise :=
    if block.kind = .ifThen then some (if block.hasElse then block.elseBody else []) else none

/-- The layouts saved in a block have the types that are declared for their places. -/
structure Saved (block : Block) (stack : List ValueType) : Prop where
  base : block.base = block.frame.floor
  joinBase : block.join.base = block.frame.floor
  ends : block.kind ≠ .loop → block.endReached = true →
    block.join.Known ∧ block.join.types = stack.take block.frame.floor ++ block.results
  starts : block.kind = .loop → block.startReached = true ∧ block.endReached = false ∧
    block.join.Known ∧ block.join.types = stack.take block.frame.floor
  arms : block.kind = .ifThen → ∃ layout, block.elseLayout = some layout ∧ layout.Known ∧
    layout.types = stack.take block.frame.floor

theorem Saved.congr {block : Block} {stack stack' : List ValueType}
    (saved : block.Saved stack)
    (below : stack'.take block.frame.floor = stack.take block.frame.floor) :
    block.Saved stack' :=
  ⟨saved.base, saved.joinBase, below ▸ saved.ends, below ▸ saved.starts, below ▸ saved.arms⟩

@[simp] theorem frame_outline (block : Block) : block.outline.frame = block.frame := by
  unfold frame outline
  by_cases dead : block.reach = .unreachable <;> simp [dead]

theorem saved_outline {block : Block} {stack : List ValueType} :
    block.outline.Saved stack ↔ block.Saved stack := by
  constructor <;> intro saved
  · exact ⟨saved.base, saved.joinBase, saved.ends, saved.starts, saved.arms⟩
  · exact ⟨saved.base, saved.joinBase, saved.ends, saved.starts, saved.arms⟩

end Block

namespace Compilation

/-- The open blocks as open constructs. -/
def frames (state : Compilation) : List Frame := state.blocks.map Block.frame

/-- The layouts saved in the open blocks have the declared types, and the compiler
recognises where its values are. -/
structure Saves (state : Compilation) : Prop where
  known : state.layout.Known
  blocks : ∀ block ∈ state.blocks, block.Saved state.types

/-- A compilation is at a point that typing can be at. -/
structure Tracks (subject : Subject) (state : Compilation) : Prop where
  nested : Nested subject state.frames state.types
  saves : state.Saves

/-- A step of a compilation is one of typing, or typing meets a fault that no
instruction shows. -/
def Advances (subject : Subject) (frames : List Frame) (stack : List ValueType)
    (after : Compilation) : Prop :=
  OpenSlips subject.scope frames stack ∨
    Moves subject.scope frames stack after.frames after.types ∧ after.Saves

variable {state before after : Compilation} {subject : Subject}

theorem frames_congr (same : after.outline = before.outline) : after.frames = before.frames := by
  have frames := congrArg (List.map Block.frame) same
  simpa only [outline, Compilation.frames, List.map_map, Function.comp_def,
    Block.frame_outline] using frames

theorem Saves.congr (saves : before.Saves) (same : after.outline = before.outline)
    (known : after.layout.Known)
    (below : ∀ block ∈ before.blocks,
      after.types.take block.frame.floor = before.types.take block.frame.floor) :
    after.Saves := by
  refine ⟨known, fun block member => ?_⟩
  have outlined : block.outline ∈ before.outline := by
    rw [← same]
    exact List.mem_map_of_mem member
  obtain ⟨other, found, equal⟩ := List.mem_map.mp outlined
  have sameFrame : other.frame = block.frame := by
    rw [← Block.frame_outline, equal, Block.frame_outline]
  have kept : other.Saved after.types := (saves.blocks other found).congr (below other found)
  rw [← Block.saved_outline, ← equal, Block.saved_outline]
  exact kept

theorem SameShape.frames (same : before.SameShape after) : after.frames = before.frames :=
  frames_congr same.outline

theorem SameShape.saves (same : before.SameShape after) (saves : before.Saves) :
    after.Saves :=
  saves.congr same.outline (same.known saves.known) fun _ _ => by rw [same.types]

theorem SameShape.tracks (same : before.SameShape after) (tracks : before.Tracks subject) :
    after.Tracks subject := by
  refine ⟨?_, same.saves tracks.saves⟩
  rw [same.frames, same.types]
  exact tracks.nested

theorem Advances.then_same {frames : List Frame} {stack : List ValueType}
    (advances : Advances subject frames stack before) (same : before.SameShape after) :
    Advances subject frames stack after := by
  refine advances.imp_right fun ⟨moves, saves⟩ => ⟨?_, same.saves saves⟩
  rw [same.frames, same.types]
  exact moves

/-- Two states have the same constructs open and the same types on the stack, and what
one saves the other does. -/
structure SameFrames (before after : Compilation) : Prop where
  frames : after.frames = before.frames
  types : after.types = before.types
  saves : before.Saves → after.Saves

theorem SameFrames.refl (state : Compilation) : state.SameFrames state := ⟨rfl, rfl, id⟩

theorem SameFrames.trans {first second third : Compilation} (before : first.SameFrames second)
    (after : second.SameFrames third) : first.SameFrames third :=
  ⟨after.frames.trans before.frames, after.types.trans before.types, after.saves ∘ before.saves⟩

theorem SameShape.sameFrames (same : before.SameShape after) : before.SameFrames after :=
  ⟨same.frames, same.types, same.saves⟩

end Compilation

/-- Code of the innermost block is being compiled. -/
structure At (subject : Subject) (state : Compilation) (block : Block) (outer : List Block) :
    Prop where
  tracks : state.Tracks subject
  opened : state.blocks = block :: outer

/-- Reachable code of the innermost block is being compiled. -/
structure AtLive (subject : Subject) (state : Compilation) (block : Block)
    (outer : List Block) : Prop extends At subject state block outer where
  live : block.reach ≠ .unreachable

/-- The construct of a block before an instruction was taken off it. -/
def Block.owes (block : Block) (instr : Instr) : Frame :=
  { block.frame with pending := instr :: block.pending }

namespace At

variable {subject : Subject} {state after : Compilation} {block : Block} {outer : List Block}
  {instr : Instr}

theorem frames (here : At subject state block outer) :
    state.frames = block.frame :: outer.map Block.frame := by
  simp [Compilation.frames, here.opened]

theorem nested (here : At subject state block outer) :
    Nested subject (block.frame :: outer.map Block.frame) state.types :=
  here.frames ▸ here.tracks.nested

theorem saved (here : At subject state block outer) : block.Saved state.types :=
  here.tracks.saves.blocks block (by simp [here.opened])

theorem floor_le (here : At subject state block outer) :
    block.frame.floor ≤ state.types.length :=
  (here.nested.floor _ List.mem_cons_self).2

theorem length_below (here : At subject state block outer) :
    block.frame.floor = (state.types.take block.frame.floor).length :=
  (here.nested.length_below List.mem_cons_self).symm

theorem floor_le_head (here : At subject state block outer) {other : Block}
    (member : other ∈ state.blocks) : other.frame.floor ≤ block.frame.floor := by
  refine here.nested.floor_le_head ?_
  rw [← here.frames]
  exact List.mem_map_of_mem member

theorem reaches (here : At subject state block outer) : state.Reaches state.types.length := by
  intro other found
  have floor := here.floor_le
  rw [here.opened] at found
  cases found
  rw [here.saved.base]
  omega

theorem describes (here : At subject state block outer) :
    Compile.Describes subject state (subject.scope.within state.frames) :=
  ⟨rfl, here.tracks.nested.locals (by simp [here.frames])⟩

theorem operands (here : At subject state block outer) {rest ins : List ValueType}
    (types : state.types = rest ++ ins) (reaches : state.Reaches rest.length) :
    ∃ stack, rest = state.types.take block.frame.floor ++ stack ∧
      state.types.drop block.frame.floor = stack ++ ins := by
  have base := reaches block (by simp [here.opened])
  rw [here.saved.base] at base
  have inside : block.frame.floor ≤ rest.length := by omega
  refine ⟨rest.drop block.frame.floor, ?_, ?_⟩
  · rw [types, List.take_append_of_le_length inside, List.take_append_drop]
  · rw [types, List.drop_append_of_le_length inside]

theorem saves (here : At subject state block outer) (same : after.outline = state.outline)
    (known : after.layout.Known)
    (below : after.types.take block.frame.floor = state.types.take block.frame.floor) :
    after.Saves := by
  refine here.tracks.saves.congr same known fun other member => ?_
  have lower := here.floor_le_head member
  rw [← Nat.min_eq_left lower, ← List.take_take, below, List.take_take]

end At

namespace AtLive

variable {subject : Subject} {state after : Compilation} {block : Block} {outer : List Block}
  {instr : Instr}

theorem isLive (here : AtLive subject state block outer) : (block.owes instr).live = true :=
  decide_eq_true here.live

/-- Typing meets a fault that the instruction does not show. -/
theorem slip (here : AtLive subject state block outer)
    (slips : Slips (subject.scope.within state.frames) (instr :: block.pending)
      (state.types.drop block.frame.floor) block.results) :
    after.Advances subject (block.owes instr :: outer.map Block.frame) state.types := by
  rw [here.frames] at slips
  exact .inl (.inl (.inl ⟨here.isLive, slips⟩))

theorem lower_plain (here : AtLive subject state block outer) (plain : instr.op.isPlain = true) :
    Compile.Ensures (Compile.lower instr.op instr) subject state fun _ after =>
      after.Advances subject (block.owes instr :: outer.map Block.frame) state.types := by
  refine (Compile.lower_plain instr here.describes here.reaches here.tracks.saves.known
    plain).mono ?_
  rintro _ after ⟨ins, outs, takes, shifts⟩
  obtain ⟨rest, taken, left, reaches⟩ := shifts.types
  obtain ⟨stack, rfl, above⟩ := here.operands taken reaches
  by_cases numeric : Numeric (ins ++ outs)
  · refine .inr ⟨?_, ?_⟩
    · have floor := here.length_below
      rw [here.frames] at takes
      rw [Compilation.frames_congr shifts.blocks, here.frames, left]
      generalize state.types.take block.frame.floor = below at taken floor
      rw [taken, List.append_assoc, List.append_assoc]
      exact @Moves.plain _ (block.owes instr) _ _ _ _ _ _ _ here.isLive rfl floor takes numeric
    · refine here.saves shifts.blocks (shifts.known here.tracks.saves.known) ?_
      rw [left, List.append_assoc, List.take_append_of_le_length, List.take_take, Nat.min_self]
      exact Nat.le_of_eq here.length_below
  · refine here.slip ?_
    rw [above]
    exact .alien takes numeric

end AtLive

end WasmX64
