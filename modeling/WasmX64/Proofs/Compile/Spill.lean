import WasmX64.Proofs.Compile.Discipline
import WasmX64.Proofs.Layout.Join
import WasmX64.Proofs.Typing.Stack

/-!
# Registers are handed out by the books

Emitting code leaves the layout and the open blocks alone.  Spilling moves slots to the
frame and frees their registers, and a register that is handed out is one that values can
be kept in.
-/

/-!
## Operations that keep a layout sound

Pushing a slot that fits, taking the top slot off together with its register, moving a
slot to the frame and giving all registers up leave a sound layout sound.
-/

namespace WasmX64.Layout

variable {layout other : Layout} {slot : Slot} {reg : Register} {index : Nat}

/-- Soundness does not depend on where operands start and what was spilled last. -/
theorem Sound.congr (sound : layout.Sound) (slots : other.slots = layout.slots)
    (used : other.used = layout.used) (counts : other.counts = layout.counts) : other.Sound := by
  constructor
  · intro slot member
    exact sound.fits slot (slots ▸ member)
  · rw [registers_congr slots]
    exact sound.balanced.congr used counts

theorem fits_plain (plain : ∀ reg, slot.place ≠ .reg reg) : slot.Fits :=
  fun reg held => absurd held (plain reg)

theorem plain_inFrame (type : ValueType) (reg : Register) :
    (Slot.inFrame type).place ≠ .reg reg := by
  simp [Slot.inFrame]

theorem fits_inFrame (type : ValueType) : (Slot.inFrame type).Fits :=
  fits_plain (plain_inFrame type)

theorem fits_ofConst (type : ValueType) (value : Int32) : (Slot.ofConst type value).Fits :=
  fits_plain (by simp [Slot.ofConst])

theorem reg?_plain (plain : ∀ reg, slot.place ≠ .reg reg) : slot.reg? = none := by
  cases held : slot.reg? with
  | none => rfl
  | some reg => exact absurd (Slot.reg?_eq_some_iff.mp held) (plain reg)

theorem sound_empty (base : Int) : ({ base } : Layout).Sound :=
  ⟨(by simp), (Balanced.forgetAll { base }).congr rfl rfl⟩

theorem sound_forgetAll {slots : Array Slot}
    (plain : ∀ slot ∈ slots, ∀ reg, slot.place ≠ .reg reg) :
    ({ layout.forgetAll with slots := slots } : Layout).Sound := by
  have empty : ({ layout.forgetAll with slots := slots } : Layout).registers = [] := by
    apply List.filterMap_eq_nil_iff.mpr
    intro slot member
    exact reg?_plain (plain slot (Array.mem_toList_iff.mp member))
  constructor
  · intro slot member
    exact fits_plain (plain slot member)
  · rw [empty]
    exact (Balanced.forgetAll layout).congr rfl rfl

theorem slots_push (layout : Layout) (slot : Slot) :
    (layout.push slot).slots = layout.slots.push slot := by
  unfold push
  cases slot.place with
  | frame => rfl
  | reg reg => rfl
  | const value => rfl
  | unknown code => rfl

theorem Sound.push (sound : layout.Sound) (fits : slot.Fits) : (layout.push slot).Sound := by
  constructor
  · intro other member
    rw [slots_push, Array.mem_push] at member
    cases member with
    | inl before => exact sound.fits other before
    | inr same => exact same ▸ fits
  · rw [registers_push]
    cases held : slot.reg? with
    | none =>
      rw [Option.toList_none, List.append_nil]
      apply sound.balanced.congr
      · unfold Layout.push
        split
        · rename_i place
          rw [Slot.reg?_eq_some_iff.mpr place] at held
          cases held
        · rfl
      · unfold Layout.push
        split
        · rename_i place
          rw [Slot.reg?_eq_some_iff.mpr place] at held
          cases held
        · rfl
    | some reg =>
      have place := Slot.reg?_eq_some_iff.mp held
      have retained := sound.balanced.retain (fits reg place).1
      rw [Option.toList_some]
      apply (retained.perm (List.perm_append_singleton _ _).symm).congr
      · simp [Layout.push, place]
      · simp [Layout.push, place]

theorem fits_setSlot {placed : Slot} (fits : ∀ slot ∈ layout.slots, slot.Fits)
    (placedFits : placed.Fits) : ∀ slot ∈ (layout.setSlot index placed).slots, slot.Fits := by
  intro slot member
  cases Array.mem_or_eq_of_mem_setIfInBounds member with
  | inl before => exact fits slot before
  | inr same => exact same ▸ placedFits

theorem fits_pop (fits : ∀ slot ∈ layout.slots, slot.Fits) : ∀ slot ∈ layout.pop.slots, slot.Fits := by
  intro slot member
  have listed : slot ∈ layout.slots.toList.dropLast := by
    simpa [Layout.pop] using Array.mem_toList_iff.mpr member
  exact fits slot (Array.mem_toList_iff.mp (List.dropLast_subset _ listed))

/-- The top slot is taken off and gives its register back. -/
theorem Sound.pop_release (sound : layout.Sound) (top : layout.top? = some slot)
    (held : slot.place = .reg reg) : (layout.pop.release reg).Sound := by
  have fits := sound.fits slot (Array.mem_of_back? top) reg held
  have balanced : layout.pop.Balanced (reg :: layout.pop.registers) := by
    have before := registers_pop top
    rw [Slot.reg?_eq_some_iff.mpr held, Option.toList_some] at before
    exact (sound.balanced.perm (before ▸ List.perm_append_singleton _ _)).congr rfl rfl
  constructor
  · rw [slots_release]
    exact fits_pop sound.fits
  · rw [registers_congr slots_release]
    exact balanced.release fits.1

theorem Sound.pop_plain (sound : layout.Sound) (top : layout.top? = some slot)
    (plain : ∀ reg, slot.place ≠ .reg reg) : layout.pop.Sound := by
  constructor
  · exact fits_pop sound.fits
  · have before := registers_pop top
    rw [reg?_plain plain, Option.toList_none, List.append_nil] at before
    exact (before ▸ sound.balanced).congr rfl rfl

theorem Sound.drop (sound : layout.Sound) : layout.drop.Sound := by
  unfold Layout.drop
  split
  · rename_i type reg top
    exact sound.pop_release top rfl
  · rename_i other
    cases top : layout.top? with
    | some slot =>
      apply sound.pop_plain top
      intro reg held
      exact other slot.type reg (by rw [top, ← held])
    | none =>
      have empty : layout.pop.slots = layout.slots := by
        have none : layout.slots = #[] := by simpa [top?] using top
        simp [Layout.pop, none]
      exact sound.congr empty rfl rfl

theorem Sound.dropTo (sound : layout.Sound) (height fuel : Nat) :
    (dropTo height fuel layout).Sound := by
  induction fuel generalizing layout with
  | zero => exact sound
  | succ fuel ih =>
    rw [Layout.dropTo]
    split
    · exact ih sound.drop
    · exact sound

theorem height_truncate (layout : Layout) (height : Nat) :
    (layout.truncate height).height = min height layout.height := by
  rw [← length_types, types_truncate, List.length_take, length_types]

theorem Sound.setSlot_plain {placed : Slot} (sound : layout.Sound)
    (found : layout.slots[index]? = some slot) (held : slot.reg? = none)
    (plain : ∀ reg, placed.place ≠ .reg reg) : (layout.setSlot index placed).Sound := by
  apply Sound.setSlot sound.fits sound.balanced found (fits_plain plain)
  rw [reg?_plain plain, held]

/-- A slot gives its register back and goes to the frame. -/
theorem Sound.release_setSlot {placed : Slot} (sound : layout.Sound)
    (found : layout.slots[index]? = some slot) (held : slot.place = .reg reg)
    (plain : ∀ reg, placed.place ≠ .reg reg) :
    ((layout.release reg).setSlot index placed).Sound := by
  have fits := sound.fits slot (Array.mem_of_getElem? found) reg held
  have exchanged := registers_setSlot placed found
  rw [reg?_plain plain, Slot.reg?_eq_some_iff.mpr held] at exchanged
  simp only [Option.toList_some, Option.toList_none, List.append_nil] at exchanged
  have listed : layout.registers.Perm (reg :: (layout.setSlot index placed).registers) :=
    exchanged.symm.trans (List.perm_append_singleton _ _)
  have balanced := (sound.balanced.perm listed).release fits.1
  constructor
  · apply fits_setSlot
    · rw [slots_release]
      exact sound.fits
    · exact fits_plain plain
  · have same : ((layout.release reg).setSlot index placed).registers =
        (layout.setSlot index placed).registers := by
      apply registers_congr
      simp [Layout.setSlot]
    rw [same]
    exact balanced.congr rfl rfl

/-- The registers of a layout with one slot replaced, by those of the layout with that slot
in the frame. -/
theorem registers_replace {old : Slot} (found : layout.slots[index]? = some old) (slot : Slot)
    (type : ValueType) :
    (layout.setSlot index slot).registers.Perm
      (slot.reg?.toList ++ (layout.setSlot index (.inFrame type)).registers) := by
  have replaced := registers_setSlot slot found
  have emptied := registers_setSlot (.inFrame type) found
  have plain : (Slot.inFrame type).reg? = none := rfl
  rw [plain, Option.toList_none, List.append_nil] at emptied
  have together := replaced.trans (emptied.symm.append_right slot.reg?.toList)
  rw [List.append_assoc] at together
  have swapped := together.trans
    (List.perm_append_comm.append_left (layout.setSlot index (.inFrame type)).registers)
  rw [← List.append_assoc] at swapped
  exact ((List.perm_append_right_iff _).mp swapped).trans List.perm_append_comm

section Replace

variable {released : Layout} {old top : Slot} {type : ValueType}

theorem Sound.replace_plain (sound : layout.Sound) (found : layout.slots[index]? = some old)
    (slots : released.slots = layout.slots)
    (balanced : released.Balanced (layout.setSlot index (.inFrame type)).registers)
    (plain : ∀ reg, top.place ≠ .reg reg) : (released.setSlot index top).Sound := by
  have same : (released.setSlot index top).registers = (layout.setSlot index top).registers := by
    apply registers_congr
    simp [Layout.setSlot, slots]
  constructor
  · exact fits_setSlot (slots ▸ sound.fits) (fits_plain plain)
  · have listed := registers_replace found top type
    rw [reg?_plain plain, Option.toList_none, List.nil_append] at listed
    rw [same]
    exact (balanced.perm listed.symm).congr rfl rfl

/-- A slot whose register was given back takes on the value on top, whose register both
hold from now on. -/
theorem Sound.shareTop (sound : layout.Sound) (found : layout.slots[index]? = some old)
    (slots : released.slots = layout.slots)
    (balanced : released.Balanced (layout.setSlot index (.inFrame type)).registers)
    (member : top ∈ layout.slots) (held : top.place = .reg reg) :
    ((released.setSlot index top).retain reg).Sound := by
  have fits := sound.fits top member
  have same : ((released.setSlot index top).retain reg).registers =
      (layout.setSlot index top).registers := by
    apply registers_congr
    simp [Layout.setSlot, slots]
  constructor
  · exact fits_setSlot (slots ▸ sound.fits) fits
  · have listed := registers_replace found top type
    rw [Slot.reg?_eq_some_iff.mpr held, Option.toList_some, List.singleton_append] at listed
    have moved : (released.setSlot index top).Balanced
        (layout.setSlot index (.inFrame type)).registers := balanced.congr rfl rfl
    rw [same]
    exact (moved.retain (fits reg held).1).perm listed.symm

/-- A slot whose register was given back takes over the value on top, which is taken
off. -/
theorem Sound.moveTop (sound : layout.Sound) (found : layout.slots[index]? = some old)
    (slots : released.slots = layout.slots)
    (balanced : released.Balanced (layout.setSlot index (.inFrame type)).registers)
    (isTop : layout.top? = some top) (below : index + 1 < layout.height) :
    ((released.setSlot index top).pop).Sound := by
  have fits := sound.fits top (Array.mem_of_back? isTop)
  have still : (layout.setSlot index top).top? = some top := by
    have last : layout.slots[layout.slots.size - 1]? = some top := by
      rw [← Array.back?_eq_getElem?]
      exact isTop
    rw [top?, Array.back?_eq_getElem?, getElem?_setSlot, ← last]
    have size : (layout.setSlot index top).slots.size = layout.slots.size := by
      simp [Layout.setSlot]
    rw [size, if_neg]
    rw [Layout.height] at below
    omega
  have same : (released.setSlot index top).pop.registers =
      (layout.setSlot index top).pop.registers := by
    apply registers_congr
    simp [Layout.setSlot, Layout.pop, slots]
  constructor
  · exact fits_pop (fits_setSlot (slots ▸ sound.fits) fits)
  · have listed := (registers_replace found top type).symm
    rw [registers_pop still] at listed
    have rest := (List.perm_append_left_iff _).mp (listed.trans List.perm_append_comm)
    rw [same]
    exact (balanced.perm rest).congr rfl rfl

end Replace

/-- A slot without a register takes a value in a register. -/
theorem Sound.setSlot_retain (sound : layout.Sound) (found : layout.slots[index]? = some slot)
    (held : slot.reg? = none) {placed : Slot} (fits : placed.Fits)
    (place : placed.place = .reg reg) : ((layout.setSlot index placed).retain reg).Sound := by
  have exchanged := registers_setSlot placed found
  rw [held, Slot.reg?_eq_some_iff.mpr place, Option.toList_none, List.append_nil,
    Option.toList_some] at exchanged
  have moved : (layout.setSlot index placed).Balanced layout.registers :=
    sound.balanced.congr rfl rfl
  constructor
  · exact fits_setSlot sound.fits fits
  · rw [registers_congr slots_retain]
    apply (moved.retain (fits reg place).1).perm
    exact ((List.perm_append_singleton _ _).symm).trans exchanged.symm

end WasmX64.Layout

namespace WasmX64

/-- No register holds the slot at an index. -/
def Layout.PlainAt (layout : Layout) (index : Nat) : Prop :=
  ∀ slot, layout.slots[index]? = some slot → slot.reg? = none

theorem Layout.PlainAt.setSlot {layout : Layout} {index : Nat} (plain : layout.PlainAt index)
    (other : Nat) (type : ValueType) : (layout.setSlot other (.inFrame type)).PlainAt index := by
  intro slot found
  rw [Layout.getElem?_setSlot] at found
  split at found
  · cases found
    rfl
  · exact plain slot found

namespace Compile

variable {α β : Type}

/-- The layout and the open blocks are given. -/
def Fixed (layout : Layout) (blocks : List Block) (_ : Subject) (state : Compilation) : Prop :=
  state.layout = layout ∧ state.blocks = blocks

/-- An action that changes neither the layout nor the open blocks. -/
def Idle (action : Compile α) : Prop :=
  ∀ layout blocks, Keeps (Fixed layout blocks) action anything

/-- The layout is sound and has a given height, the open blocks are given, and no register
holds the slots at some indices. -/
structure Held (blocks : List Block) (height : Nat) (plain : Nat → Prop) (_ : Subject)
    (state : Compilation) : Prop where
  sound : state.layout.Sound
  height : state.layout.height = height
  blocks : state.blocks = blocks
  plain : ∀ index, plain index → state.layout.PlainAt index

/-- An action that at most moves slots to the frame. -/
def Stays (action : Compile α) (post : α → Prop) : Prop :=
  ∀ blocks height plain, Keeps (Held blocks height plain) action post

namespace Idle

theorem keeps {invariant : Subject → Compilation → Prop} {action : Compile α}
    (idle : Idle action)
    (depends : ∀ {subject before after}, after.layout = before.layout →
      after.blocks = before.blocks → invariant subject before → invariant subject after) :
    Keeps invariant action anything := by
  intro subject state holds
  refine (idle state.layout state.blocks subject state ⟨rfl, rfl⟩).mono ?_
  intro value after same
  exact ⟨depends same.1.1 same.1.2 holds, trivial⟩

theorem stays {action : Compile α} (idle : Idle action) : Stays action anything := by
  intro blocks height plain
  apply idle.keeps
  intro subject before after layout same held
  constructor
  · rw [layout]
    exact held.sound
  · rw [layout]
    exact held.height
  · rw [same]
    exact held.blocks
  · rw [layout]
    exact held.plain

theorem andThen {action : Compile α} {next : α → Compile β} (first : Idle action)
    (second : ∀ value, Idle (next value)) : Idle (action >>= next) :=
  fun layout blocks => (first layout blocks).andThen fun value => second value layout blocks

theorem pure {value : α} : Idle (pure value) := fun _ _ => .pure trivial

theorem get : Idle get := fun _ _ => .get

theorem read : Idle read := fun _ _ => .read

theorem throw {fault : Fault} : Idle (throw fault : Compile α) := fun _ _ => .throw

theorem ite {condition : Prop} [Decidable condition] {yes no : Compile α}
    (first : Idle yes) (second : Idle no) : Idle (if condition then yes else no) :=
  fun layout blocks => .ite (first layout blocks) (second layout blocks)

theorem modify {change : Compilation → Compilation}
    (layouts : ∀ state, (change state).layout = state.layout)
    (blocks : ∀ state, (change state).blocks = state.blocks) : Idle (modify change) :=
  fun _ _ => .modify fun _ state fixed =>
    ⟨(layouts state).trans fixed.1, (blocks state).trans fixed.2⟩

theorem emit (steps : List Step) : Idle (emit steps) := modify (fun _ => rfl) fun _ => rfl

theorem needSlot (index : Int) : Idle (needSlot index) := modify (fun _ => rfl) fun _ => rfl

theorem newLabel : Idle newLabel := fun _ _ => .modifyGet fun _ _ fixed => fixed

theorem loadRef (target : Register) (kind : RefKind) (index : UInt32) :
    Idle (loadRef target kind index) := modify (fun _ => rfl) fun _ => rfl

theorem addTrap (kind : TrapKind) : Idle (addTrap kind) := by
  refine newLabel.andThen fun _ => Idle.andThen ?_ fun _ => pure
  exact modify (fun _ => rfl) fun _ => rfl

theorem record (what : Happening) : Idle (record what) :=
  read.andThen fun _ => modify (fun _ => rfl) fun _ => rfl

theorem machine {event : MachineEvent} {action : Compile Unit} (inside : Idle action) :
    Idle (machine event action) :=
  (record _).andThen fun _ => inside.andThen fun _ => record _

theorem innermost : Idle innermost := by
  refine get.andThen fun state => ?_
  split
  · exact pure
  · exact throw

theorem operandType (depth : Nat) : Idle (operandType depth) := by
  refine get.andThen fun state => innermost.andThen fun block => ?_
  refine ite (throw.andThen fun _ => ?_) ?_
  all_goals
    dsimp only
    split
    · exact pure
    · exact throw

theorem expect (depth : Nat) (type : ValueType) : Idle (expect depth type) :=
  (operandType depth).andThen fun _ => ite throw pure

theorem materialize (reg : Register) (slot : Slot) (index : Int) :
    Idle (materialize reg slot index) := by
  unfold Compile.materialize
  split
  · exact emit _
  · exact emit _
  · exact emit _
  · exact pure

theorem transfer (source : Layout) (action : TransferM Unit) : Idle (transfer source action) := by
  refine get.andThen fun state => ?_
  split
  · exact modify (fun _ => rfl) fun _ => rfl
  · refine Idle.andThen ?_ fun _ => throw
    exact modify (fun _ => rfl) fun _ => rfl

theorem mergeAll (join source : Layout) : Idle (mergeAll join source) :=
  ite (throw.andThen fun _ => transfer _ _) (transfer _ _)

theorem mergeBranch (join source : Layout) (arity : Int) : Idle (mergeBranch join source arity) :=
  ite (throw.andThen fun _ => transfer _ _) (transfer _ _)

theorem branch (label : Label) (depth : Nat) : Idle (branch label depth) := machine (emit _)

theorem branchIfZero (label : Label) (reg : Register) (depth : Nat) :
    Idle (branchIfZero label reg depth) := machine (emit _)

theorem branchIfAtLeast (label : Label) (value bound : Register) :
    Idle (branchIfAtLeast label value bound) := machine (emit _)

theorem bind (label : Label) (depth : Nat) : Idle (Compile.bind label depth) := machine (emit _)

end Idle

namespace Stays

theorem bind {action : Compile α} {next : α → Compile β} {post : α → Prop} {last : β → Prop}
    (first : Stays action post) (second : ∀ value, post value → Stays (next value) last) :
    Stays (action >>= next) last :=
  fun blocks height plain => (first blocks height plain).bind fun value meets =>
    second value meets blocks height plain

theorem andThen {action : Compile α} {next : α → Compile β} {last : β → Prop}
    (first : Stays action anything) (second : ∀ value, Stays (next value) last) :
    Stays (action >>= next) last :=
  first.bind fun value _ => second value

end Stays

structure Evicts (reg : Register) (before after : Layout) (spilled : Nat) : Prop where
  used : after.used = before.used
  counts : after.counts = before.counts
  height : after.height = before.height
  fits : (∀ slot ∈ before.slots, slot.Fits) → ∀ slot ∈ after.slots, slot.Fits
  plain : ∀ index, before.PlainAt index → after.PlainAt index
  registers : before.registers.Perm (List.replicate spilled reg ++ after.registers)

theorem Evicts.refl (reg : Register) (layout : Layout) : Evicts reg layout layout 0 :=
  ⟨rfl, rfl, rfl, id, fun _ => id, List.Perm.refl _⟩

theorem Evicts.next {reg : Register} {before after : Layout} {spilled index : Nat} {slot : Slot}
    (found : before.slots[index]? = some slot) (held : slot.place = .reg reg)
    (evicts : Evicts reg (before.setSlot index (.inFrame slot.type)) after spilled) :
    Evicts reg before after (spilled + 1) := by
  constructor
  · exact evicts.used
  · exact evicts.counts
  · exact evicts.height.trans (Layout.height_setSlot index _)
  · intro fits
    exact evicts.fits (Layout.fits_setSlot fits (Layout.fits_inFrame _))
  · intro place plain
    exact evicts.plain place (plain.setSlot index slot.type)
  · have exchanged := Layout.registers_setSlot (.inFrame slot.type) found
    rw [Slot.reg?_eq_some_iff.mpr held] at exchanged
    have first : before.registers.Perm
        (reg :: (before.setSlot index (.inFrame slot.type)).registers) := by
      refine List.Perm.trans ?_ (List.perm_append_singleton _ _)
      simpa [Slot.inFrame, Slot.reg?] using exchanged.symm
    rw [List.replicate_succ, List.cons_append]
    exact first.trans (List.Perm.cons reg evicts.registers)

theorem spillHolders_evicts (reg : Register) (index remaining : Nat) (subject : Subject)
    (state : Compilation) :
    Ensures (spillHolders reg index remaining) subject state fun left after =>
      after.blocks = state.blocks ∧ ∃ spilled, left + spilled = remaining ∧
        Evicts reg state.layout after.layout spilled := by
  induction index generalizing remaining state with
  | zero => exact ensures_pure.mpr ⟨rfl, 0, rfl, .refl reg _⟩
  | succ index ih =>
    rw [spillHolders]
    simp only [ensures_bind, ensures_ite, ensures_get]
    refine ⟨?_, ?_⟩
    · intro none
      exact ensures_pure.mpr ⟨rfl, 0, none.symm, .refl reg _⟩
    · intro some
      split
      · rename_i slot found
        rw [Layout.slot?_natCast] at found
        refine ensures_ite.mpr ⟨?_, fun _ => ih remaining state⟩
        intro held
        simp only [ensures_bind, ensures_emit, ensures_needSlot, ensures_modifyLayout]
        refine (ih (remaining - 1) _).mono ?_
        intro left after kept
        obtain ⟨blocks, spilled, total, evicts⟩ := kept
        exact ⟨blocks, spilled + 1, by omega, evicts.next found held⟩
      · exact ih remaining state

theorem Evicts.sound {reg : Register} {before after : Layout} (sound : before.Sound)
    (allocable : reg.isAllocable = true) (evicts : Evicts reg before after (before.count reg)) :
    (after.forget reg).Sound := by
  constructor
  · exact evicts.fits sound.fits
  · have balanced : after.Balanced before.registers :=
      sound.balanced.congr evicts.used evicts.counts
    apply (balanced.forget allocable).recount
    intro other otherAllocable
    have counted := evicts.registers.count_eq other
    rw [List.count_append, List.count_replicate] at counted
    rw [Layout.registers_congr Layout.slots_forget]
    by_cases same : other = reg
    · subst same
      have all := sound.balanced.counted other otherAllocable
      have gone : other ∉ before.registers.filter (· ≠ other) := by simp
      rw [List.count_eq_zero.mpr gone]
      simp only [beq_self_eq_true, if_true] at counted
      omega
    · have different : ¬ reg = other := fun equal => same equal.symm
      rw [List.count_filter (by simp [same])]
      simpa [different] using counted.symm

theorem stays_spillRegister {reg : Register} (allocable : reg.isAllocable = true) :
    Stays (spillRegister reg) anything := by
  intro blocks height plain subject state held
  unfold spillRegister
  refine ensures_ite.mpr ⟨fun _ => ensures_bind.mpr ensures_throw, fun _ => ?_⟩
  simp only [ensures_bind, ensures_get]
  refine (spillHolders_evicts reg _ _ subject state).mono ?_
  intro left after spilled
  obtain ⟨same, number, total, evicts⟩ := spilled
  refine ensures_ite.mpr ⟨fun _ => ensures_bind.mpr ensures_throw, fun none => ?_⟩
  have all : number = state.layout.count reg := by omega
  subst all
  refine ensures_modifyLayout.mpr ⟨?_, trivial⟩
  constructor
  · exact evicts.sound held.sound allocable
  · exact evicts.height.trans held.height
  · exact same.trans held.blocks
  · intro index wanted
    exact evicts.plain index (held.plain index wanted)

theorem stays_spillOne (bank : RegClass) (pinned : RegSet) :
    Stays (spillOne bank pinned) (Suits bank) := by
  intro blocks height plain subject state held
  unfold spillOne
  rw [ensures_bind, ensures_get]
  refine ensures_ite.mpr ⟨fun _ => ensures_bind.mpr ensures_throw, fun nonempty => ?_⟩
  generalize candidates : ((state.layout.used.inter (RegSet.ofClass bank)).diff pinned).diff
    RegSet.reserved = suitable at nonempty ⊢
  have suits : ∀ reg, suitable.has reg = true → Suits bank reg := by
    intro reg member
    rw [← candidates] at member
    simp only [RegSet.has_diff, RegSet.has_inter, RegSet.has_ofClass, Bool.and_eq_true,
      Bool.not_eq_true', decide_eq_true_eq] at member
    obtain ⟨⟨⟨_, machine, same⟩, _⟩, unreserved⟩ := member
    exact ⟨by simp [Register.isAllocable, machine, unreserved], same⟩
  have chosen : ∀ fresh : RegSet, (∀ reg, fresh.has reg = true → suitable.has reg = true) →
      suitable.has (if fresh.isEmpty then suitable else fresh).first = true := by
    intro fresh within
    cases empty : fresh.isEmpty with
    | true => exact RegSet.has_first (Bool.eq_false_iff.mpr nonempty)
    | false => exact within _ (RegSet.has_first empty)
  have fits := suits _ (chosen (suitable.diff state.layout.lastSpilled) (by
    intro reg member
    rw [RegSet.has_diff, Bool.and_eq_true] at member
    exact member.1))
  rw [ensures_bind, ensures_modifyLayout, ensures_bind]
  have spared : ∀ last : RegSet, Held blocks height plain subject
      { state with layout := { state.layout with lastSpilled := last } } :=
    fun last => ⟨held.sound.congr rfl rfl rfl, held.height, held.blocks, held.plain⟩
  refine (stays_spillRegister fits.1 blocks height plain subject _ (spared _)).mono ?_
  intro value after kept
  exact ensures_pure.mpr ⟨kept.1, fits⟩

theorem stays_takeRegister (bank : RegClass) (wishes : List Register) (pinned : RegSet) :
    Stays (takeRegister bank wishes pinned) (Suits bank) := by
  intro blocks height plain subject state held
  unfold takeRegister
  rw [ensures_bind, ensures_get]
  dsimp only
  split
  · rename_i reg found
    have suits := List.find?_some found
    simp only [Bool.and_eq_true, decide_eq_true_eq] at suits
    exact ensures_pure.mpr
      ⟨held, held.sound.balanced.isAllocable_of_isFree suits.1.2, suits.1.1.2⟩
  · split
    · rename_i reg first
      have free := Layout.isFree_of_unused first
      exact ensures_pure.mpr ⟨held, held.sound.balanced.isAllocable_of_isFree free.1, free.2⟩
    · exact stays_spillOne bank pinned blocks height plain subject state held

theorem stays_vacate {reg : Register} (allocable : reg.isAllocable = true) :
    Stays (vacate reg) anything :=
  Idle.get.stays.andThen fun _ blocks height plain =>
    .ite (stays_spillRegister allocable blocks height plain) .done

theorem stays_spillSlot (index : Int) : Stays (spillSlot index) anything := by
  intro blocks height plain subject state held
  unfold spillSlot
  simp only [ensures_bind, ensures_get]
  split
  · exact ensures_throw
  · rename_i slot found
    have here := Layout.getElem?_of_slot? found
    have inFrame := Layout.plain_inFrame slot.type
    split
    · rename_i reg place
      simp only [ensures_bind, ensures_emit, ensures_needSlot, ensures_modifyLayout]
      refine ⟨?_, trivial⟩
      constructor
      · exact held.sound.release_setSlot here place inFrame
      · rw [Layout.height_setSlot, Layout.height, Layout.slots_release]
        exact held.height
      · exact held.blocks
      · intro other wanted
        apply Layout.PlainAt.setSlot
        intro slot found
        rw [Layout.slots_release] at found
        exact held.plain other wanted slot found
    · rename_i value place
      simp only [ensures_bind, ensures_emit, ensures_needSlot, ensures_modifyLayout]
      refine ⟨?_, trivial⟩
      constructor
      · exact held.sound.setSlot_plain here (by simp [Slot.reg?, place]) inFrame
      · rw [Layout.height_setSlot]
        exact held.height
      · exact held.blocks
      · intro other wanted
        exact (held.plain other wanted).setSlot index.toNat slot.type
    · exact ensures_pure.mpr ⟨held, trivial⟩

theorem stays_spillLocals : Stays spillLocals anything := by
  intro blocks height plain
  refine Keeps.read.andThen fun subject => Keeps.andThen ?_ fun _ => .done
  apply Keeps.forIn
  intro index _
  exact (stays_spillSlot index blocks height plain).andThen fun _ => .pure rfl

end Compile

end WasmX64
