import Mathlib.Data.Finset.Range
import WasmX64.Proofs.Execution.Registers
import WasmX64.Proofs.Stack.Constructs
import WasmX64.Proofs.Wires.Function

/-!
# Functions inside the frame

Parameters that arrive on the stack are loaded one after the other.  There are not many registers
to hold the parameters before them, each of which has its own, so all but a few of those are in
the frame by then: the index of a parameter on the stack is hardly larger than the frame.  The
rounds of the driver go on from there.
-/

namespace WasmX64

open Sequence

namespace Layout

variable {before layout : Layout} {reg : Register} {slots : Int}

/-- No slot is in a register. -/
def Unheld (layout : Layout) (reg : Register) : Prop :=
  ∀ slot ∈ layout.slots, slot.place ≠ .reg reg

/-- Every slot is in the frame or has a register of its own. -/
structure Ranked (layout : Layout) : Prop where
  placed : ∀ slot ∈ layout.slots, slot.place = .frame ∨ ∃ reg, slot.place = .reg reg
  apart : ∀ (first second : Nat) (left right : Slot) (reg : Register),
    layout.slots[first]? = some left → layout.slots[second]? = some right →
      left.place = .reg reg → right.place = .reg reg → first = second

/-- The register that holds a slot, or else the index of the slot. -/
def rank (layout : Layout) (index : Nat) : Nat :=
  match layout.slots[index]?.bind Slot.reg? with
  | some reg => reg.code.toNat
  | none => 32 + index

theorem rank_reg {index : Nat} {slot : Slot} (found : layout.slots[index]? = some slot)
    (held : slot.place = .reg reg) : layout.rank index = reg.code.toNat := by
  have own : slot.reg? = some reg := Slot.reg?_eq_some_iff.mpr held
  simp [rank, found, own]

theorem rank_frame {index : Nat} {slot : Slot} (found : layout.slots[index]? = some slot)
    (framed : slot.place = .frame) : layout.rank index = 32 + index := by
  have none : slot.reg? = none := by simp [Slot.reg?, framed]
  simp [rank, found, none]

theorem Ranked.cases (ranked : layout.Ranked) (sound : layout.Sound)
    (stored : layout.Stored slots) {index : Nat} (inside : index < layout.height) :
    ∃ slot, layout.slots[index]? = some slot ∧
      (slot.place = .frame ∧ layout.rank index = 32 + index ∧ (index : Int) < slots ∨
        ∃ reg, slot.place = .reg reg ∧ layout.rank index = reg.code.toNat ∧
          reg.code.toNat < 32) := by
  have found : layout.slots[index]? = some layout.slots[index] := Array.getElem?_eq_getElem inside
  have member := Array.mem_of_getElem? found
  refine ⟨_, found, ?_⟩
  cases ranked.placed _ member with
  | inl framed => exact .inl ⟨framed, rank_frame found framed, stored.below index _ found framed⟩
  | inr held =>
    obtain ⟨reg, held⟩ := held
    have machine := Register.isMachine_of_isAllocable (sound.fits _ member reg held).1
    have below : reg.code < 32 := by simpa [Register.isMachine] using machine
    exact .inr ⟨reg, held, rank_reg found held, UInt8.lt_iff_toNat_lt.mp below⟩

/-- All but a few slots are in the frame. -/
theorem Ranked.height_le (ranked : layout.Ranked) (sound : layout.Sound)
    (stored : layout.Stored slots) (positive : 0 ≤ slots) : (layout.height : Int) ≤ slots + 32 := by
  have within : ∀ index ∈ Finset.range layout.height,
      layout.rank index ∈ Finset.range (32 + slots.toNat) := by
    intro index inside
    obtain ⟨_, _, framed | held⟩ := ranked.cases sound stored (Finset.mem_range.mp inside)
    · exact Finset.mem_range.mpr (by omega)
    · obtain ⟨reg, _, same, below⟩ := held
      exact Finset.mem_range.mpr (by omega)
  have injective : Set.InjOn layout.rank (Finset.range layout.height) := by
    intro first inside second within same
    obtain ⟨left, here, place⟩ := ranked.cases sound stored (Finset.mem_range.mp inside)
    obtain ⟨right, there, other⟩ := ranked.cases sound stored (Finset.mem_range.mp within)
    rcases place with ⟨_, rank, _⟩ | ⟨reg, held, rank, below⟩
    · rcases other with ⟨_, further, _⟩ | ⟨reg, held, further, below⟩
      · omega
      · omega
    · rcases other with ⟨_, further, _⟩ | ⟨own, holds, further, _⟩
      · omega
      · have codes : reg.code = own.code := UInt8.toNat_inj.mp (by omega)
        obtain rfl : reg = own := congrArg Register.mk codes
        exact ranked.apart first second left right reg here there held holds
  have counted := Finset.card_le_card_of_injOn layout.rank within injective
  simp only [Finset.card_range] at counted
  omega

theorem Ranked.push (ranked : layout.Ranked) (unheld : layout.Unheld reg) (type : ValueType) :
    (layout.push (.inReg type reg)).Ranked := by
  have fresh : ∀ (index : Nat) (slot : Slot) (own : Register), layout.slots[index]? = some slot →
      slot.place = .reg own → own ≠ reg := by
    rintro index slot own found held rfl
    exact unheld slot (Array.mem_of_getElem? found) held
  constructor
  · intro slot member
    rw [slots_push] at member
    cases Array.mem_push.mp member with
    | inl before => exact ranked.placed slot before
    | inr here => exact .inr ⟨reg, by rw [here, Slot.inReg]⟩
  · intro first second left right own here there held holds
    rw [slots_push, Array.getElem?_push] at here there
    split at here
    · rename_i last
      cases here
      cases held
      split at there
      · omega
      · exact absurd rfl (fresh second right reg there holds)
    · split at there
      · cases there
        cases holds
        exact absurd rfl (fresh first left reg here held)
      · exact ranked.apart first second left right own here there held holds

theorem Unheld.push {other : Register} (unheld : layout.Unheld reg) (different : other ≠ reg)
    (type : ValueType) : (layout.push (.inReg type other)).Unheld reg := by
  intro slot member
  rw [slots_push] at member
  cases Array.mem_push.mp member with
  | inl before => exact unheld slot before
  | inr here =>
    rw [here]
    simpa [Slot.inReg] using different

end Layout

namespace Compile

/-- What goes to the frame leaves its register. -/
theorem Spilled.ranked {before after : Layout} (spilled : Spilled before after)
    (ranked : before.Ranked) : after.Ranked := by
  constructor
  · intro slot member
    obtain ⟨index, found⟩ := Array.mem_iff_getElem?.mp member
    cases spilled index slot found with
    | inl same => exact ranked.placed slot (Array.mem_of_getElem? same)
    | inr framed => exact .inl framed
  · intro first second left right reg here there held holds
    have back : ∀ (index : Nat) (slot : Slot), after.slots[index]? = some slot →
        slot.place = .reg reg → before.slots[index]? = some slot := by
      intro index slot found own
      refine (spilled index slot found).resolve_right fun framed => ?_
      rw [framed] at own
      cases own
    exact ranked.apart first second left right reg (back first left here held)
      (back second right there holds) held holds

theorem Spilled.unheld {before after : Layout} {reg : Register} (spilled : Spilled before after)
    (unheld : before.Unheld reg) : after.Unheld reg := by
  intro slot member held
  obtain ⟨index, found⟩ := Array.mem_iff_getElem?.mp member
  cases spilled index slot found with
  | inl same => exact unheld slot (Array.mem_of_getElem? same) held
  | inr framed =>
    rw [framed] at held
    cases held

variable {origin : List Part} {floor : Int} {labels : List Label} {words : Nat}
  {subject : Subject} {state : Compilation}

theorem spillRegister_frees (reg : Register) :
    Ensures (spillRegister reg) subject state fun _ after => after.layout.isFree reg = true := by
  unfold spillRegister
  refine ensures_ite.mpr ⟨fun _ => ensures_bind.mpr ensures_throw, fun machine => ?_⟩
  rw [ensures_bind, ensures_get, ensures_bind]
  intro left spilled _
  refine ensures_ite.mpr ⟨fun _ => ensures_bind.mpr ensures_throw, fun _ => ?_⟩
  rw [ensures_modifyLayout]
  have real : reg.isMachine = true := by simpa using machine
  simp [Layout.isFree, Layout.forget, real]

theorem takeRegister_frees (bank : RegClass) (wishes : List Register) (pinned : RegSet) :
    Ensures (takeRegister bank wishes pinned) subject state fun reg after =>
      after.layout.isFree reg = true := by
  unfold takeRegister
  rw [ensures_bind, ensures_get]
  dsimp only
  split
  · rename_i reg found
    have suits := List.find?_some found
    simp only [Bool.and_eq_true] at suits
    exact ensures_pure.mpr suits.1.2
  · split
    · rename_i reg first
      exact ensures_pure.mpr (Layout.isFree_of_unused first).1
    · unfold spillOne
      rw [ensures_bind, ensures_get]
      refine ensures_ite.mpr ⟨fun _ => ensures_bind.mpr ensures_throw, fun _ => ?_⟩
      rw [ensures_bind, ensures_modifyLayout, ensures_bind]
      exact (spillRegister_frees _).mono fun _ _ free => ensures_pure.mpr free

/-- What holds of parameters that are passed one by one, from the registers of two banks that are
left. -/
theorem assign_induction {motive : List Register → Nat → List Passing → Prop}
    (nil : ∀ regs taken, motive regs taken [])
    (register : ∀ {regs others taken type reg rest}, motive others taken rest →
      Suits type.regClass reg → reg ∈ regs → (∀ other ∈ others, other ∈ regs ∧ other ≠ reg) →
      motive regs taken (.reg type reg :: rest))
    (stack : ∀ {regs taken type rest}, motive regs (taken + 1) rest →
      (∀ reg ∈ regs, reg.regClass ≠ type.regClass) →
      motive regs taken (.stack type taken :: rest))
    {gp fp : List Register} (gpSuits : ∀ reg ∈ gp, Suits .gp reg)
    (fpSuits : ∀ reg ∈ fp, Suits .fp reg) (distinct : (gp ++ fp).Nodup) (taken : Nat)
    (types : List ValueType) : motive (gp ++ fp) taken (Signature.assign gp fp taken types).1 := by
  induction types generalizing gp fp taken with
  | nil => exact nil _ _
  | cons type rest ih =>
    cases float : type.isFloat with
    | true =>
      have bank : type.regClass = .fp := by simp [ValueType.regClass, float]
      cases fp with
      | cons first others =>
        have moved := List.nodup_middle.mp distinct
        obtain ⟨absent, further⟩ := List.nodup_cons.mp moved
        have next := ih gpSuits (fun reg member => fpSuits reg (List.mem_cons_of_mem _ member))
          further taken
        simp only [Signature.assign, float, if_true]
        refine register next (bank ▸ fpSuits first List.mem_cons_self) (by simp) ?_
        intro other member
        refine ⟨?_, ?_⟩
        · exact List.mem_append.mpr ((List.mem_append.mp member).imp_right
            (List.mem_cons_of_mem _))
        · rintro rfl
          exact absent member
      | nil =>
        have next := ih gpSuits fpSuits distinct (taken + 1)
        simp only [Signature.assign, float, if_true]
        refine stack next fun reg member => ?_
        rw [List.append_nil] at member
        rw [bank, (gpSuits reg member).2]
        decide
    | false =>
      have bank : type.regClass = .gp := by simp [ValueType.regClass, float]
      cases gp with
      | cons first others =>
        obtain ⟨absent, further⟩ := List.nodup_cons.mp distinct
        have next := ih (fun reg member => gpSuits reg (List.mem_cons_of_mem _ member)) fpSuits
          further taken
        simp only [Signature.assign, float, Bool.false_eq_true, if_false]
        refine register next (bank ▸ gpSuits first List.mem_cons_self) (by simp) ?_
        intro other member
        refine ⟨List.mem_cons_of_mem _ member, ?_⟩
        rintro rfl
        exact absent member
      | nil =>
        have next := ih gpSuits fpSuits distinct (taken + 1)
        simp only [Signature.assign, float, Bool.false_eq_true, if_false]
        refine stack next fun reg member => ?_
        rw [bank, (fpSuits reg member).2]
        decide

/-- Parameters are placed: each has a place of its own, and registers of a pool are still to be
placed. -/
structure Placing (origin : List Part) (pool : List Register) (count : Nat) (subject : Subject)
    (state : Compilation) : Prop where
  sketched : Sketched origin 0 (.body 0) [] subject state
  sound : state.layout.Sound
  ranked : state.layout.Ranked
  tall : count ≤ state.layout.height
  apart : ∀ reg ∈ pool, state.layout.Unheld reg

namespace Placing

variable {pool others : List Register} {count : Nat} {type : ValueType} {reg : Register}

theorem push (placing : Placing origin pool count subject state) (suits : Suits type.regClass reg)
    (unheld : state.layout.Unheld reg) (others : List Register)
    (left : ∀ other ∈ others, other ∈ pool ∧ other ≠ reg) :
    Ensures (pushRegister type reg) subject state fun _ after =>
      Placing origin others (count + 1) subject after := by
  refine ensures_modifyLayout.mpr ⟨?_, placing.sound.push (fits_inReg suits), ?_, ?_, ?_⟩
  · exact placing.sketched.relayout
      (placing.sketched.layout.push (by simp [Slot.inReg]) (by simp [Slot.inReg]))
  · exact placing.ranked.push unheld type
  · have tall := placing.tall
    simp only [Layout.height, Layout.slots_push, Array.size_push] at tall ⊢
    omega
  · intro other member
    obtain ⟨inside, different⟩ := left other member
    exact (placing.apart other inside).push (Ne.symm different) type

end Placing

theorem loadArgument_places {pool : List Register} {count : Nat} {type : ValueType}
    (placing : Placing origin pool count subject state)
    (others : ∀ reg ∈ pool, reg.regClass ≠ type.regClass) :
    Ensures (do
      let reg ← takeRegister type.regClass [] RegSet.empty
      emit (loadArgument type reg count)
      pushRegister type reg) subject state fun _ after =>
        Placing origin pool (count + 1) subject after := by
  have held : Held state.blocks state.layout.height (fun _ => False) subject state :=
    ⟨placing.sound, rfl, rfl, (by simp)⟩
  refine (((stays_takeRegister type.regClass [] RegSet.empty _ _ _ subject state held).and
    (takeRegister_frees _ _ _)).and (spilled_of_spilling (fun _ _ _ _ =>
      spilling_takeRegister type.regClass [] RegSet.empty) placing.sketched)).andThen ?_
  rintro reg taken ⟨⟨⟨held, suits⟩, free⟩, sketched, spilled⟩
  have unheld : taken.layout.Unheld reg := (held.sound.loose_of_isFree free).unheld
  have ranked := spilled.ranked placing.ranked
  have positive := sketched.drafted.room
  have few := ranked.height_le held.sound sketched.layout positive
  have tall := placing.tall
  rw [ensures_bind]
  have loads : Tame taken.output.frameSlots (loadArgument type reg count) := by
    refine tame_loadFrom type suits.ordinary ⟨(by decide : Register.rbp ≠ .rsp), fun _ => ?_⟩
    refine .inr ⟨count, ?_, rfl⟩
    rw [← held.height] at tall
    omega
  rw [ensures_emit]
  have loaded := sketched.emit (straight_loadFrom _ _ _) (fun step member => (loads step member).inside)
    (Stage.through_emits loads (straight_loadFrom _ _ _) 0)
  have placed : Placing origin pool count subject
      { taken with output := taken.output.emit (loadArgument type reg count) } := by
    refine ⟨loaded, held.sound, ranked, ?_, fun other member => ?_⟩
    · rw [← held.height] at tall
      exact tall
    · exact spilled.unheld (placing.apart other member)
  refine placed.push suits unheld pool fun other member => ⟨member, ?_⟩
  rintro rfl
  exact others other member suits.2

def Places (origin : List Part) (pool : List Register) (count : Nat) (params : List Passing) :
    Prop :=
  ∀ subject state, Placing origin pool count subject state →
    Ensures (placeParams params) subject state fun _ after =>
      ∃ pool count, Placing origin pool count subject after

namespace Places

variable {pool others : List Register} {count : Nat} {type : ValueType} {reg : Register}
  {rest : List Passing}

theorem register (places : Places origin others count rest) (suits : Suits type.regClass reg)
    (pooled : reg ∈ pool) (left : ∀ other ∈ others, other ∈ pool ∧ other ≠ reg) :
    Places origin pool count (.reg type reg :: rest) := by
  intro subject state placing
  rw [placeParams, ensures_bind]
  refine (placing.push suits (placing.apart reg pooled) others left).mono fun _ after placed => ?_
  exact places subject after { placed with tall := Nat.le_of_succ_le placed.tall }

theorem stack (places : Places origin pool (count + 1) rest)
    (apart : ∀ reg ∈ pool, reg.regClass ≠ type.regClass) :
    Places origin pool count (.stack type count :: rest) := by
  intro subject state placing
  have loads := loadArgument_places placing apart
  have whole : Ensures ((do
      let reg ← takeRegister type.regClass [] RegSet.empty
      emit (loadArgument type reg count)
      pushRegister type reg) >>= fun _ => placeParams rest) subject state fun _ after =>
        ∃ pool count, Placing origin pool count subject after := by
    exact loads.andThen fun _ after placed => places subject after placed
  rw [placeParams]
  simpa only [bind_assoc] using whole

/-- Every parameter of a function is placed, from the registers of two banks that are left. -/
theorem assign (types : List ValueType) {gp fp : List Register} {taken : Nat}
    (gpSuits : ∀ reg ∈ gp, Suits .gp reg) (fpSuits : ∀ reg ∈ fp, Suits .fp reg)
    (distinct : (gp ++ fp).Nodup) :
    Places origin (gp ++ fp) taken (Signature.assign gp fp taken types).1 := by
  refine assign_induction ?_ ?_ ?_ gpSuits fpSuits distinct taken types
  · exact fun _ _ _ _ placing => ensures_pure.mpr ⟨_, _, placing⟩
  · exact fun places suits pooled left => places.register suits pooled left
  · exact fun places apart => places.stack apart

end Places

/-- A layout that is sound and that the frame provides. -/
def Provides (origin : List Part) (floor : Int) (labels : List Label) (subject : Subject)
    (state : Compilation) : Prop :=
  Sounds subject state ∧ Sketched origin floor (.body 0) labels subject state

theorem provides_push {slot : Slot} (fits : slot.Fits) (outside : slot.place ≠ .frame)
    (known : ∀ code, slot.place ≠ .unknown code) :
    Keeps (Provides origin floor labels) (modifyLayout (·.push slot)) anything :=
  (sounds_push fits).and (sketched_push outside known)

/-- Everything that a function declares is set to zero. -/
theorem provides_placeLocals (positive : 0 ≤ floor) (zero : Option Register)
    (types : List ValueType) (suits : ∀ reg, zero = some reg → Suits .fp reg) :
    Keeps (Provides origin floor labels) (placeLocals zero types) anything := by
  induction types generalizing zero with
  | nil => exact .done
  | cons type rest ih =>
    rw [placeLocals]
    apply Keeps.demand
    split
    · rename_i float
      have bank : type.regClass = .fp := by simp [ValueType.regClass, float]
      have place : ∀ reg, Suits .fp reg → Keeps (Provides origin floor labels) (do
          pushRegister type reg
          placeLocals (some reg) rest) anything := by
        intro reg suited
        refine Keeps.andThen (provides_push (fits_inReg (bank ▸ suited)) ?_ ?_) fun _ => ?_
        · simp [Slot.inReg]
        · simp [Slot.inReg]
        · refine ih (some reg) ?_
          rintro other ⟨⟩
          exact suited
      refine Keeps.get.andThen fun state => ?_
      dsimp only
      split
      · rename_i reg found
        rw [pure_bind]
        exact place reg (suits reg (Option.filter_eq_some_iff.mp found).1)
      · refine Keeps.bind ((stays_takeRegister .fp [] RegSet.empty).sounds.and
          (sketched_takeRegister .fp [] RegSet.empty)) fun reg suited => ?_
        have zeroes : Tame 0 (loadConstant .f64 reg 0) :=
          tame_loadConstant .f64 suited.ordinary 0
        refine Keeps.andThen ((Idle.emit _).stays.sounds.and
          (sketched_straight (straight_loadConstant _ _ _) zeroes positive)) fun _ => ?_
        rw [pure_bind]
        exact place reg suited
    · refine Keeps.andThen (provides_push (Layout.fits_ofConst type 0) ?_ ?_) fun _ => ih zero suits
      · simp [Slot.ofConst]
      · simp [Slot.ofConst]

end Compile

end WasmX64

/-!
## Functions inside the frame

The rounds of the driver keep books and sketch.  A function opens its frame before them, and the
stubs behind leave the stack to the host, so that the code of the whole function has a draft.
-/

namespace WasmX64

open Sequence

/-- The code of a compiled function is that of a draft with the size of the frame filled in. -/
structure Compiled.Composed (compiled : Compiled) (code : Code) (log : List Part) : Prop where
  opens : [.steps prologue] <:+ log
  draft : Draft compiled.program.frameSlots log (.body 0)
  fine : (Part.text log).1.error = none
  refs : compiled.program.refs = (Part.text log).2.toList
  text : code = (Part.text log).1.setFrame 7 compiled.program.frameSlots
  bytes : compiled.program.code = code.bytes

namespace Compile

variable {origin : List Part} {floor : Int} {stage : Stage} {labels : List Label}
  {subject : Subject} {state : Compilation}

section Rounds

theorem sketching_lower (positive : 0 ≤ floor) (op : Opcode) (instr : Instr) :
    Keeps (Sketching origin floor (.body 0) labels) (lower op instr) anything := by
  cases plain : op.isPlain with
  | true =>
    have rules := @sketching_regular origin floor positive op.faults
    refine rules.lower_plain_of_calls plain instr (fun _ => id) (fun _ _ => sketching_demoteBlock) ?_ ?_
    · exact fun _ => sketching_lowerCall _
    · exact fun _ => sketching_lowerCallIndirect positive _
  | false =>
    cases op
    case unreachable => exact sketching_lowerUnreachable positive
    case block => exact sketching_lowerBlock instr
    case loop => exact sketching_lowerLoop instr
    case branchIf => exact sketching_lowerIf instr
    case otherwise => exact sketching_lowerElse
    case finish => exact sketching_lowerEnd
    case br => exact sketching_lowerBr _
    case brIf => exact sketching_lowerBrIf _
    case brTable => exact sketching_lowerBrTable positive instr
    case ret => exact sketching_return.andThen fun _ => sketching_finishBlock
    all_goals cases plain

/-- What is neither code nor layout nor a block changes. -/
theorem sketching_modify {change : Compilation → Compilation}
    (output : ∀ state, (change state).output = state.output)
    (refs : ∀ state, (change state).refs = state.refs)
    (stubs : ∀ state, (change state).stubs = state.stubs)
    (layout : ∀ state, (change state).layout = state.layout)
    (blocks : ∀ state, (change state).blocks = state.blocks) :
    Keeps (Sketching origin floor stage labels) (modify change) anything := by
  refine Keeps.modify fun subject state sketching => ⟨sketching.signature, ?_, ?_, ?_, ?_⟩
  · refine ⟨?_, ?_, ?_⟩
    · rw [layout]
      exact sketching.books.sound
    · rw [layout]
      exact sketching.books.tall
    · rw [blocks]
      exact sketching.books.blocks
  · exact sketching.sketched.drafted.congr (output state) (refs state) (stubs state)
  · rw [layout, output]
    exact sketching.sketched.layout
  · rw [blocks, output]
    exact sketching.sketched.blocks

theorem sketching_record (what : Happening) :
    Keeps (Sketching origin floor stage labels) (record what) anything :=
  sketching_and (Books.idle (.record what)) (sketched_record what)

theorem keeps_demandSound {invariant : Subject → Compilation → Prop} :
    Keeps invariant demandSound anything := by
  refine Keeps.get.andThen fun state => ?_
  split
  · exact .throw
  · exact .pure trivial

theorem sketching_step (positive : 0 ≤ floor) (instr : Option Instr) (op : Opcode) :
    Keeps (Sketching origin floor (.body 0) labels) (step instr op) anything := by
  refine Keeps.andThen (sketching_modify ?_ ?_ ?_ ?_ ?_) fun _ =>
    sketching_innermost.andThen fun block => .ite (sketching_modify ?_ ?_ ?_ ?_ ?_) ?_
  case refine_11 =>
    refine Keeps.andThen (sketching_modify ?_ ?_ ?_ ?_ ?_) fun _ =>
      (sketching_record _).andThen fun _ => (sketching_lower positive op _).andThen fun _ =>
      keeps_demandSound.andThen fun _ =>
      Keeps.andThen (Keeps.get.andThen fun _ => .pure trivial) fun _ =>
      (sketching_record _).andThen fun _ => sketching_modify ?_ ?_ ?_ ?_ ?_
    all_goals exact fun _ => rfl
  all_goals exact fun _ => rfl

theorem sketching_next (block : Block) :
    Keeps (Sketching origin floor stage labels) (next block) anything := by
  refine sketching_and (keeps_next block) ?_
  unfold next
  split
  · refine Keeps.andThen (sketched_modifyBlock ?_) fun _ => .pure trivial
    exact fun _ _ drawn => ⟨drawn.label, drawn.elseLabel, drawn.join, drawn.saved⟩
  · exact .pure trivial

theorem sketching_steps (positive : 0 ≤ floor) (count : Nat) :
    Keeps (Sketching origin floor (.body 0) labels) (steps count) anything := by
  induction count with
  | zero => exact .done
  | succ count ih =>
    rw [steps]
    refine Keeps.get.andThen fun state => ?_
    split
    · exact .done
    · rename_i block outer opened
      refine (sketching_next block).andThen fun taken => ?_
      exact (sketching_step positive taken.1 taken.2).andThen fun _ => ih

end Rounds

section Begin

theorem openFrame_sketches (events : Array Event) :
    Sketched [.steps prologue] 0 (.body 0) [] subject
      { output := { code := ({} : Code).openFrame.2 }, events } := by
  have inside : ∀ step ∈ prologue, step.Inside 0 := by
    simp [prologue, Step.Inside, Instruction.Inside, Instruction.isWide]
  have opened : Draft 0 [.steps prologue] (.body 0) :=
    @Draft.steps 0 [] .entry (.body 0) [] prologue .nil straight_prologue.closed (by simp) inside rfl
  refine ⟨⟨Int.le_refl 0, ⟨_, rfl, opened, List.suffix_refl _⟩, ?_, ?_⟩, .empty 0, ?_⟩
  · simp
  · simp
  · simp

theorem begin_sketches (proper : subject.Proper) :
    Ensures begin subject {} fun frame after =>
      frame = 7 ∧ Sketching [.steps prologue] 0 (.body 0) [] subject after := by
  have gpSuits : ∀ reg ∈ Register.gpArguments, Suits .gp reg := by
    unfold Suits
    decide
  have fpSuits : ∀ reg ∈ Register.fpArguments, Suits .fp reg := by
    unfold Suits
    decide
  have places := @Places.assign [.steps prologue] subject.type.params _ _ 0 gpSuits fpSuits
    (by decide)
  have frames : Ensures begin subject {} fun frame after =>
      frame = 7 ∧ Sketched [.steps prologue] 0 (.body 0) [] subject after := by
    unfold begin
    rw [ensures_bind, ensures_read, ensures_bind]
    unfold record
    rw [ensures_bind, ensures_read, ensures_modify, ensures_bind, ensures_modifyGet, ensures_bind]
    rw [proper.signature]
    refine (places subject _ ?_).mono ?_
    · exact ⟨openFrame_sketches _, Layout.sound_empty 0, ⟨by simp, by simp⟩, Nat.zero_le _,
        by simp [Layout.Unheld]⟩
    · rintro _ passed ⟨pool, count, placing⟩
      refine (provides_placeLocals (Int.le_refl 0) none _ (by simp) subject passed
        ⟨placing.sound, placing.sketched⟩).andThen ?_
      rintro _ placed ⟨⟨_, sketched⟩, _⟩
      refine (openBlock_sketches .block _ ?_ sketched).andThen fun _ opened kept => ?_
      · exact fun _ _ drawn => ⟨drawn.label, drawn.elseLabel, drawn.join.congr rfl, drawn.saved⟩
      · rw [ensures_bind, ensures_modifyLayout, ensures_bind, ensures_modify, ensures_pure]
        exact ⟨rfl, kept.drafted.congr rfl rfl rfl, kept.layout.congr rfl, kept.blocks⟩
  refine ((begin_books proper).and frames).mono fun frame after both => ?_
  exact ⟨both.2.1, proper.signature, both.1, both.2.2⟩

end Begin

section Conclude

/-- What a stub does behind loading the address of the trap cell. -/
def stubSteps (kind instr func : Int32) : List Step := [
  .emit (.storeImm .i32 (.based .r10 trapCell.kind) kind),
  .emit (.storeImm .i32 (.based .r10 trapCell.instr) instr),
  .emit (.storeImm .i32 (.based .r10 trapCell.func) func),
  .emit (.load .i64 .rsp (.based .r10 trapCell.stackPointer)),
  .emit (.jmpLoad (.based .r10 trapCell.resume))]

/-- A stub leaves the stack to the host. -/
theorem stub_drafted {kind instr func : Int32}
    (drafted : Drafted origin floor (.body 0) labels subject state) :
    Drafted origin floor (.body 0) labels subject
      { state with output := state.output.emit (stubSteps kind instr func) } := by
  have closed : Closed [] (stubSteps kind instr func) :=
    ((straight_two ⟨by rfl, by rfl⟩).emit (by rfl) |>.emit (by rfl) |>.emit (by rfl)).closed
  have outside (offset : Int32) : (Address.based .r10 offset).Within state.output.frameSlots :=
    Address.within_of_ordinary (by decide : Register.r10.Ordinary)
  have inside : ∀ step ∈ stubSteps kind instr func, step.Inside state.output.frameSlots := by
    simp [stubSteps, Step.Inside, Instruction.Inside, Instruction.isWide, Instruction.operand?,
      outside]
  exact drafted.emit closed (fun _ member => absurd member List.not_mem_nil) inside rfl

theorem drafted_emitStubs {stubs : List TrapStub} (known : ∀ stub ∈ stubs, stub.label ∈ labels) :
    Keeps (Drafted origin floor (.body 0) labels) (emitStubs stubs) anything := by
  induction stubs with
  | nil => exact .pure trivial
  | cons stub rest ih =>
    obtain ⟨here, others⟩ := List.forall_mem_cons.mp known
    have later := ih others
    rw [emitStubs]
    refine Keeps.get.andThen fun seen => .ite later ?_
    refine Keeps.andThen (.modify fun _ _ drafted => drafted.bindLabel here) fun _ => ?_
    refine (drafted_loadRef (by decide) _ _).andThen fun _ => Keeps.read.andThen fun subject => ?_
    exact Keeps.andThen (.modify fun _ _ drafted => stub_drafted drafted) fun _ =>
      later.andThen fun _ => .pure trivial

theorem conclude_composed (opens : [.steps prologue] <:+ origin)
    (sketched : Sketched origin floor (.body 0) labels subject state) :
    Ensures (conclude 7) subject state fun compiled after =>
      ∃ log, origin <:+ log ∧ compiled.Composed after.output.code log := by
  have stubs : ∀ stub ∈ state.stubs.toList, stub.label ∈ state.stubs.toList.map TrapStub.label :=
    fun _ member => List.mem_map_of_mem member
  have drafted : Drafted origin floor (.body 0) (state.stubs.toList.map TrapStub.label) subject
      state := by
    refine { sketched.drafted with known := fun label member => ?_ }
    obtain ⟨stub, listed, rfl⟩ := List.mem_map.mp member
    exact sketched.drafted.stubs stub (Array.mem_toList_iff.mp listed)
  unfold conclude
  rw [ensures_bind, ensures_read, ensures_bind, ensures_get, ensures_bind]
  refine (drafted_emitStubs stubs subject state drafted).mono ?_
  rintro sites reported ⟨placed, _⟩
  obtain ⟨log, text, draft, continues⟩ := placed.draws
  have code : reported.output.code = (Part.text log).1 := congrArg Prod.fst text
  have refs : reported.refs = (Part.text log).2 := congrArg Prod.snd text
  rw [ensures_bind, ensures_modify, ensures_bind]
  unfold demandSound
  rw [ensures_bind, ensures_get]
  dsimp only
  split
  · exact ensures_throw
  · rename_i fine
    have sound := (Code.Extends.patch reported.output.code 7 _).error fine
    unfold record
    rw [ensures_pure, ensures_bind, ensures_modify, ensures_bind, ensures_bind, ensures_read,
      ensures_modify, ensures_bind, ensures_get, ensures_pure]
    exact ⟨log, continues, opens.trans continues, draft, code ▸ sound, congrArg Array.toList refs,
      congrArg (Code.setFrame · 7 reported.output.frameSlots) code, rfl⟩

end Conclude

theorem sketched_start (sketched : Sketched origin floor stage labels subject state) :
    ∃ log, origin <:+ log ∧ Draft state.output.frameSlots log stage ∧
      (Part.text log).1 = state.output.code ∧ Sketched log floor stage labels subject state := by
  obtain ⟨log, text, draft, continues⟩ := sketched.drafted.draws
  refine ⟨log, continues, draft, (congrArg Prod.fst text).symm, ?_, sketched.layout,
    sketched.blocks⟩
  exact { sketched.drafted with draws := ⟨log, text, draft, List.suffix_refl log⟩ }

/-- The code after any of the first rounds of the driver is that of an earlier draft. -/
def Recalls (subject : Subject) (start : Compilation) (count : Nat) (log : List Part) : Prop :=
  ∀ few ≤ count, ∀ middle, steps few subject start = .ok () middle →
    ∃ early, early <:+ log ∧ Draft middle.output.frameSlots early (.body 0) ∧
      (Part.text early).1 = middle.output.code

/-- The rounds of the driver go on with a draft that recalls them. -/
theorem steps_recall {start : Compilation}
    (starts : Sketching origin 0 (.body 0) [] subject start) (count : Nat) :
    Ensures (steps count) subject start fun _ state => ∃ log, Recalls subject start count log ∧
      origin <:+ log ∧ Sketching log 0 (.body 0) [] subject state := by
  induction count with
  | zero =>
    intro done state reached
    cases reached
    obtain ⟨log, follows, draft, same, sketched⟩ := sketched_start starts.sketched
    refine ⟨log, ?_, follows, starts.signature, starts.books, sketched⟩
    intro few none middle reached
    obtain rfl := Nat.le_zero.mp none
    cases reached
    exact ⟨log, List.suffix_refl log, draft, same⟩
  | succ count ih =>
    intro done state reached
    have split := reached
    rw [steps_add count 1, bind_run] at split
    cases before : steps count subject start with
    | error fault after =>
      rw [before] at split
      cases split
    | ok first between =>
      rw [before] at split
      obtain ⟨log, recalls, follows, sketching⟩ := ih first between before
      have goes := (sketching_steps (Int.le_refl 0) 1 subject between sketching () state split).1
      obtain ⟨later, continues, draft, same, sketched⟩ := sketched_start goes.sketched
      refine ⟨later, ?_, follows.trans continues, goes.signature, goes.books, sketched⟩
      intro few bound middle there
      cases Nat.le_succ_iff.mp bound with
      | inl earlier =>
        obtain ⟨early, within, drawn, text⟩ := recalls few earlier middle there
        exact ⟨early, within.trans continues, drawn, text⟩
      | inr last =>
        subst last
        cases reached.symm.trans there
        exact ⟨later, List.suffix_refl later, draft, same⟩

/-- The code of a compiled function is composed of parts, and those before any round of the
driver are earlier ones. -/
theorem function_composed {frame : Nat} {start : Compilation} {compiled : Compiled}
    {final : Compilation} (proper : subject.Proper) (begun : begin subject {} = .ok frame start)
    (ran : function subject {} = .ok compiled final) :
    ∃ log, compiled.Composed final.output.code log ∧
      Recalls subject start (rounds subject) log := by
  obtain ⟨rfl, starts⟩ := begin_sketches proper frame start begun
  rw [function_rounds (Nat.le_refl _), Nat.sub_self, bind_run, begun] at ran
  dsimp only at ran
  rw [bind_run] at ran
  cases reached : steps (rounds subject) subject start with
  | error fault middle =>
    rw [reached] at ran
    cases ran
  | ok done middle =>
    rw [reached] at ran
    obtain ⟨log, recalls, opens, sketching⟩ :=
      steps_recall starts (rounds subject) done middle reached
    obtain ⟨whole, continues, composed⟩ :=
      conclude_composed opens sketching.sketched compiled final ran
    refine ⟨whole, composed, fun few bound state there => ?_⟩
    obtain ⟨early, within, drawn, text⟩ := recalls few bound state there
    exact ⟨early, within.trans continues, drawn, text⟩

end Compile

end WasmX64
