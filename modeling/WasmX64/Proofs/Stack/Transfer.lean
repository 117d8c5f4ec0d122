import WasmX64.Proofs.Compile.Calm
import WasmX64.Proofs.Stack.Chart
import WasmX64.Proofs.Transfer.Record

/-!
# Transfers inside the frame

What a transfer adds to the code: straight sequences that stay inside the frame, and frame slots.
A transfer between layouts whose frame slots lie below a bound reads such slots only, and makes
sure that the slots it writes are there.
-/

namespace WasmX64

open Sequence

/-- Straight code that stays inside the frame, and frame slots, are added to an output, while the
number of words pushed goes from one number to another. -/
inductive Output.Lays (first : Output) (words : Nat) : Output → Nat → Prop
  | none : Lays first words first words
  | code {second : Output} {pushed next : Nat} {steps : List Step}
      (lays : Lays first words second pushed) (straight : Straight steps)
      (inside : ∀ step ∈ steps, step.Inside second.frameSlots)
      (goes : (Stage.body pushed).through steps = some (.body next)) :
      Lays first words (second.emit steps) next
  | slot {second : Output} {pushed : Nat} (lays : Lays first words second pushed) (index : Int) :
      Lays first words (second.needSlot index) pushed

namespace Output

variable {first second third : Output} {words pushed more : Nat} {index : Int} {steps : List Step}

theorem le_needSlot (output : Output) (index : Int) :
    output.frameSlots ≤ (output.needSlot index).frameSlots := by
  unfold needSlot
  split
  · dsimp only
    omega
  · exact Int.le_refl _

theorem lt_needSlot (output : Output) (index : Int) :
    index < (output.needSlot index).frameSlots := by
  unfold needSlot
  split
  · exact Int.lt_succ index
  · omega

/-- Code may be added before or after a slot. -/
theorem needSlot_emit (output : Output) (index : Int) (steps : List Step) :
    (output.emit steps).needSlot index = (output.needSlot index).emit steps := by
  unfold needSlot emit
  split
  · rfl
  · rfl

namespace Lays

theorem frameSlots_le (lays : first.Lays words second pushed) :
    first.frameSlots ≤ second.frameSlots := by
  induction lays with
  | none => exact Int.le_refl _
  | code _ _ _ _ ih => exact ih
  | slot _ index ih => exact Int.le_trans ih (le_needSlot _ index)

theorem trans (left : first.Lays words second pushed) (right : second.Lays pushed third more) :
    first.Lays words third more := by
  induction right with
  | none => exact left
  | code _ straight inside goes ih => exact ih.code straight inside goes
  | slot _ index ih => exact ih.slot index

theorem tame (lays : first.Lays words second pushed) (straight : Straight steps)
    (tame : Tame second.frameSlots steps) : first.Lays words (second.emit steps) pushed :=
  lays.code straight (fun step member => (tame step member).inside)
    (Stage.through_emits tame straight pushed)

end Lays

end Output

/-- The frame slot that a value comes from, if it comes from one, is inside the frame. -/
def Slot.Provided (slots : Int) (source : Slot) (index : Int) : Prop :=
  source.place = .frame → 0 ≤ index ∧ index < slots

/-- Everything that a transfer has recorded goes to registers other than stack and frame pointer,
and comes from slots of the frame. -/
structure Transfer.Bounded (transfer : Transfer) : Prop where
  base : 0 ≤ transfer.spillBase
  moves : ∀ target, transfer.moveTargets.has target = true → target.Ordinary
  targets : ∀ target, transfer.loadTargets.has target = true → target.Ordinary
  loads : ∀ target type index, transfer.loadTargets.has target = true →
    transfer.loadInto target = .slot type index → 0 ≤ index ∧ index < transfer.output.frameSlots

/-- A transfer that is bounded, and whose output has grown to at least a number of frame slots. -/
structure Transfer.Fenced (first : Output) (words pushed : Nat) (slots : Int)
    (transfer : Transfer) : Prop where
  lays : first.Lays words transfer.output pushed
  bounded : transfer.Bounded
  room : slots ≤ transfer.output.frameSlots

namespace Transfer

variable {first : Output} {words pushed : Nat} {slots : Int} {transfer : Transfer}
  {steps : List Step} {index : Int}

theorem Bounded.grow (bounded : transfer.Bounded) {output : Output}
    (grows : transfer.output.frameSlots ≤ output.frameSlots) :
    Bounded { transfer with output } := by
  refine { bounded with loads := ?_ }
  intro target type index has found
  obtain ⟨positive, below⟩ := bounded.loads target type index has found
  exact ⟨positive, Int.lt_of_lt_of_le below grows⟩

namespace Fenced

theorem grow (fenced : transfer.Fenced first words pushed slots) {output : Output} {next : Nat}
    (lays : transfer.output.Lays pushed output next) :
    Fenced first words next slots { transfer with output } :=
  ⟨fenced.lays.trans lays, fenced.bounded.grow lays.frameSlots_le,
    Int.le_trans fenced.room lays.frameSlots_le⟩

theorem emit (fenced : transfer.Fenced first words pushed slots) (straight : Straight steps)
    (tame : Tame slots steps) : (transfer.emit steps).Fenced first words pushed slots :=
  fenced.grow (Output.Lays.none.tame straight (tame.mono fenced.room))

theorem slot (fenced : transfer.Fenced first words pushed slots) (index : Int) :
    (transfer.needSlot index).Fenced first words pushed (max slots (index + 1)) := by
  have grown := fenced.grow (Output.Lays.none.slot index)
  exact { grown with room := Int.max_le.mpr ⟨grown.room, Output.lt_needSlot transfer.output index⟩ }

theorem store (fenced : transfer.Fenced first words pushed slots) (straight : Straight steps)
    (tame : Tame (index + 1) steps) :
    ((transfer.emit steps).needSlot index).Fenced first words pushed (max slots (index + 1)) := by
  have same : (transfer.emit steps).needSlot index = (transfer.needSlot index).emit steps := by
    simp only [Transfer.emit, Transfer.needSlot, Output.needSlot_emit]
  rw [same]
  exact (fenced.slot index).emit straight (tame.mono (Int.le_max_right _ _))

/-- What is neither output nor recorded does not count. -/
theorem note (fenced : transfer.Fenced first words pushed slots) {moves : Vector Move 32}
    {reads : Vector Int 32} {slotWrites slotReads : List Int} :
    Fenced first words pushed slots { transfer with moves, reads, slotWrites, slotReads } :=
  ⟨fenced.lays, ⟨fenced.bounded.base, fenced.bounded.moves, fenced.bounded.targets,
    fenced.bounded.loads⟩, fenced.room⟩

theorem aim (fenced : transfer.Fenced first words pushed slots) {target : Register}
    (ordinary : target.Ordinary) : Fenced first words pushed slots
      { transfer with moveTargets := transfer.moveTargets.insert target } := by
  refine ⟨fenced.lays, ⟨fenced.bounded.base, ?_, fenced.bounded.targets, fenced.bounded.loads⟩,
    fenced.room⟩
  intro other has
  rw [RegSet.has_insert, Bool.or_eq_true] at has
  cases has with
  | inl already => exact fenced.bounded.moves other already
  | inr here =>
    simp only [Bool.and_eq_true, decide_eq_true_eq] at here
    exact here.2 ▸ ordinary

/-- A move is taken off the list. -/
theorem retire (fenced : transfer.Fenced first words pushed slots) (target : Register) :
    (transfer.retire target).Fenced first words pushed slots := by
  refine ⟨fenced.lays, ⟨fenced.bounded.base, ?_, fenced.bounded.targets, fenced.bounded.loads⟩,
    fenced.room⟩
  intro other has
  have remains : (transfer.moveTargets.erase target).has other = true := has
  rw [RegSet.has_erase, Bool.and_eq_true] at remains
  exact fenced.bounded.moves other remains.1

theorem load (fenced : transfer.Fenced first words pushed slots) {target : Register}
    (machine : target.isMachine = true) (ordinary : target.Ordinary) {load : Load}
    (held : ∀ type index, load = .slot type index → 0 ≤ index ∧ index < slots)
    (slotReads : List Int) : Fenced first words pushed slots
      ({ transfer with
        loadTargets := transfer.loadTargets.insert target, slotReads }.setLoad target load) := by
  have cases {other : Register} (has : (transfer.loadTargets.insert target).has other = true) :
      transfer.loadTargets.has other = true ∨ other = target := by
    rw [RegSet.has_insert, Bool.or_eq_true, Bool.and_eq_true, decide_eq_true_eq] at has
    exact has.imp_right And.right
  refine ⟨fenced.lays, ⟨fenced.bounded.base, fenced.bounded.moves, ?_, ?_⟩, fenced.room⟩
  · intro other has
    cases cases has with
    | inl already => exact fenced.bounded.targets other already
    | inr here => exact here ▸ ordinary
  · intro other type index has found
    rw [loadInto_setLoad machine] at found
    split at found
    · obtain ⟨positive, below⟩ := held type index found
      exact ⟨positive, Int.lt_of_lt_of_le below fenced.room⟩
    · rename_i different
      exact fenced.bounded.loads other type index ((cases has).resolve_right different) found

theorem mono {fewer : Int} (fenced : transfer.Fenced first words pushed slots)
    (less : fewer ≤ slots) : transfer.Fenced first words pushed fewer :=
  { fenced with room := Int.le_trans less fenced.room }

end Fenced

end Transfer

namespace TransferM

variable {α β : Type}

/-- An action that ends without a fault leads from transfers of one kind to transfers of
another. -/
def Leads (before : Transfer → Prop) (action : TransferM α) (after : α → Transfer → Prop) : Prop :=
  ∀ transfer value result, before transfer → action transfer = .ok value result →
    after value result

namespace Leads

variable {before : Transfer → Prop} {after : α → Transfer → Prop}

theorem bind {action : TransferM α} {next : α → TransferM β} {last : β → Transfer → Prop}
    (first : Leads before action after) (second : ∀ value, Leads (after value) (next value) last) :
    Leads before (action >>= next) last := by
  intro transfer value result holds ends
  obtain ⟨middle, state, begins, goes⟩ := EStateM.bind_inv ends
  exact second middle state value result (first _ _ _ holds begins) goes

theorem mono {weaker : α → Transfer → Prop} {action : TransferM α}
    (leads : Leads before action after) (implies : ∀ value transfer, after value transfer →
      weaker value transfer) : Leads before action weaker :=
  fun transfer value result holds ends => implies _ _ (leads transfer value result holds ends)

theorem pure {value : α} (holds : ∀ transfer, before transfer → after value transfer) :
    Leads before (pure value) after := by
  intro transfer other result given ends
  cases ends
  exact holds transfer given

theorem throw {fault : Fault} : Leads before (throw fault : TransferM α) after := by
  intro transfer value result given ends
  cases ends

theorem change {change : Transfer → Transfer} {after : Transfer → Prop}
    (keeps : ∀ transfer, before transfer → after (change transfer)) :
    Leads before (modify change) fun _ => after := by
  intro transfer value result given ends
  cases ends
  exact keeps transfer given

theorem ite {condition : Prop} [Decidable condition] {yes no : TransferM α}
    (first : condition → Leads before yes after) (second : ¬ condition → Leads before no after) :
    Leads before (if condition then yes else no) after := by
  split
  · rename_i met
    exact first met
  · rename_i unmet
    exact second unmet

/-- A test that may end the transfer. -/
theorem demand {condition : Prop} [Decidable condition] {fault : Fault} {next : TransferM α}
    (rest : Leads before next after) :
    Leads before (do
      if condition then MonadExcept.throw fault
      next) after :=
  ite (fun _ => (throw : Leads before _ fun _ _ => False).bind fun _ _ _ _ none _ => none.elim)
    fun _ => rest

theorem look {next : Transfer → TransferM α}
    (rest : ∀ seen, before seen → Leads (fun transfer => before transfer ∧ seen = transfer)
      (next seen) after) : Leads before (MonadState.get >>= next) after := by
  intro transfer value result given ends
  exact rest transfer given transfer value result ⟨given, rfl⟩ ends

/-- A look at the transfer that nothing depends on. -/
theorem glance {next : Transfer → TransferM α}
    (rest : ∀ seen, before seen → Leads before (next seen) after) :
    Leads before (MonadState.get >>= next) after := by
  intro transfer value result given ends
  exact rest transfer given transfer value result given ends

/-- A loop keeps what every round keeps. -/
theorem forIn {list : List α} {body : α → PUnit → TransferM (ForInStep PUnit)}
    {invariant : Transfer → Prop}
    (round : ∀ value ∈ list, Leads invariant (body value PUnit.unit) fun step transfer =>
      step = .yield PUnit.unit ∧ invariant transfer) :
    Leads invariant (ForIn.forIn list PUnit.unit body) fun _ => invariant := by
  induction list with
  | nil => exact pure fun _ => id
  | cons value rest ih =>
    rw [List.forIn_cons]
    refine (round value List.mem_cons_self).bind fun step => ?_
    rintro transfer last result ⟨rfl, kept⟩ ends
    exact ih (fun other member => round other (List.mem_cons_of_mem _ member)) _ _ _ kept ends

end Leads

section Recording

open Transfer

variable {first : Output} {words pushed : Nat} {slots : Int} {target : Register}
  {type : ValueType} {index : Int}

theorem leads_demand (reg : Register) {before : Transfer → Prop} :
    Leads before (TransferM.demand reg) fun _ transfer =>
      before transfer ∧ reg.isMachine = true := by
  refine Leads.ite (fun _ => Leads.throw) fun machine => Leads.pure fun transfer given => ?_
  exact ⟨given, by simpa using machine⟩

theorem leads_moveRegister (ordinary : target.Ordinary) (source : Register) (type : ValueType) :
    Leads (Fenced first words pushed slots) (moveRegister target source type)
      fun _ => Fenced first words pushed slots := by
  refine Leads.glance fun transfer _ => Leads.ite (fun _ => Leads.demand (Leads.ite ?_ ?_)) ?_
  · intro _
    exact Leads.change fun _ fenced => fenced.note
  · intro _
    exact Leads.pure fun _ => id
  · intro _
    refine Leads.bind (Leads.change fun _ fenced => fenced.aim ordinary) fun _ => ?_
    refine (leads_demand source).bind fun _ => ?_
    refine Leads.bind (Leads.change fun _ given => given.1.note) fun _ => ?_
    refine (leads_demand target).bind fun _ => ?_
    exact Leads.change fun _ given => given.1.note

theorem leads_loadConst (ordinary : target.Ordinary) (type : ValueType) (value : Int32) :
    Leads (Fenced first words pushed slots) (loadConst target type value)
      fun _ => Fenced first words pushed slots := by
  have added : Leads (Fenced first words pushed slots)
      (modify fun transfer => { transfer with loadTargets := transfer.loadTargets.insert target })
      fun _ transfer => ∃ before : Transfer, before.Fenced first words pushed slots ∧
        transfer = { before with loadTargets := before.loadTargets.insert target } :=
    Leads.change fun before fenced => ⟨before, fenced, rfl⟩
  refine Leads.glance fun _ _ => Leads.demand ?_
  refine added.bind fun _ => (leads_demand target).bind fun _ => Leads.change ?_
  rintro _ ⟨⟨before, fenced, rfl⟩, machine⟩
  exact fenced.load machine ordinary (by simp) before.slotReads

theorem leads_loadSlot (ordinary : target.Ordinary) (type : ValueType) (positive : 0 ≤ index)
    (below : index < slots) :
    Leads (Fenced first words pushed slots) (loadSlot target index type)
      fun _ => Fenced first words pushed slots := by
  have added : Leads (Fenced first words pushed slots)
      (modify fun transfer => { transfer with loadTargets := transfer.loadTargets.insert target })
      fun _ transfer => ∃ before : Transfer, before.Fenced first words pushed slots ∧
        transfer = { before with loadTargets := before.loadTargets.insert target } :=
    Leads.change fun before fenced => ⟨before, fenced, rfl⟩
  refine Leads.glance fun _ _ => Leads.demand ?_
  refine Leads.bind (Leads.change fun _ fenced => fenced.note) fun _ => ?_
  refine Leads.glance fun _ _ => Leads.ite (fun _ => Leads.pure fun _ => id) fun _ => ?_
  refine added.bind fun _ => (leads_demand target).bind fun _ => Leads.change ?_
  rintro _ ⟨⟨before, fenced, rfl⟩, machine⟩
  refine fenced.load machine ordinary ?_ before.slotReads
  intro type index same
  cases same
  exact ⟨positive, below⟩

theorem leads_loadInto (ordinary : target.Ordinary) {source : Slot}
    (held : source.Provided slots index) :
    Leads (Fenced first words pushed slots) (loadInto target source index)
      fun _ => Fenced first words pushed slots := by
  unfold TransferM.loadInto
  split
  · rename_i place
    obtain ⟨positive, below⟩ := held place
    exact leads_loadSlot ordinary _ positive below
  · exact Leads.demand (Leads.ite (fun _ => leads_moveRegister ordinary _ _)
      fun _ => Leads.pure fun _ => id)
  · exact leads_loadConst ordinary _ _
  · exact Leads.pure fun _ => id

theorem leads_writeSlot {source : Slot} {targetIndex : Int} (positive : 0 ≤ targetIndex)
    (held : source.Provided slots index) :
    Leads (Fenced first words pushed slots) (writeSlot source targetIndex index)
      fun _ => Fenced first words pushed (max slots (targetIndex + 1)) := by
  have stores {steps : List Step} (straight : Straight steps) (tame : Tame (targetIndex + 1) steps) :
      Leads (Fenced first words pushed slots) (do
        modify (·.emit steps)
        modify (·.needSlot targetIndex)
        modify fun transfer => { transfer with slotWrites := targetIndex :: transfer.slotWrites })
        fun _ => Fenced first words pushed (max slots (targetIndex + 1)) := by
    have emitted : Leads (Fenced first words pushed slots) (modify (·.emit steps))
        fun _ transfer => ∃ before : Transfer, before.Fenced first words pushed slots ∧
          transfer = before.emit steps :=
      Leads.change fun before fenced => ⟨before, fenced, rfl⟩
    have provided : Leads (fun transfer => ∃ before : Transfer,
        before.Fenced first words pushed slots ∧ transfer = before.emit steps)
        (modify (·.needSlot targetIndex))
        fun _ => Fenced first words pushed (max slots (targetIndex + 1)) := by
      refine Leads.change ?_
      rintro _ ⟨before, fenced, rfl⟩
      exact fenced.store straight tame
    exact emitted.bind fun _ => provided.bind fun _ => Leads.change fun _ fenced => fenced.note
  have below := Int.lt_succ targetIndex
  refine Leads.glance fun _ _ => Leads.demand ?_
  split
  · rename_i place
    obtain ⟨sourcePositive, sourceBelow⟩ := held place
    refine Leads.glance fun _ _ => Leads.demand ?_
    have scratch : (if source.type.isFloat then Register.xmm15 else .r10).Ordinary := by
      split
      · exact Register.ordinary_xmm15
      · exact Register.ordinary_r10
    refine Leads.bind (Leads.change fun _ fenced =>
      fenced.emit (straight_loadFrom _ _ _) (tame_fill _ scratch sourcePositive sourceBelow))
      fun _ => ?_
    exact stores (straight_spill _ _ _) (tame_spill _ positive below _)
  · exact stores (straight_spill _ _ _) (tame_spill _ positive below _)
  · exact stores (straight_spillConstant _ _ _) (tame_spillConstant _ positive below _)
  · refine Leads.bind (Leads.change fun _ fenced => fenced.slot targetIndex) fun _ => ?_
    exact Leads.change fun _ fenced => fenced.note

theorem leads_transferSlot {target source : Slot} {targetIndex : Int}
    (fits : ∀ reg, target.place = .reg reg → reg.Ordinary) (positive : 0 ≤ targetIndex)
    (held : source.Provided slots index) :
    Leads (Fenced first words pushed slots) (transferSlot target source targetIndex index)
      fun _ => Fenced first words pushed
        (if target.place = .frame then max slots (targetIndex + 1) else slots) := by
  unfold TransferM.transferSlot
  cases place : target.place with
  | frame =>
    rw [if_pos rfl]
    refine Leads.ite (fun stays => Leads.pure fun _ fenced => ?_) fun _ =>
      leads_writeSlot positive held
    obtain ⟨_, below⟩ := held stays.1
    exact fenced.mono (Int.max_le.mpr ⟨Int.le_refl _, by omega⟩)
  | reg reg => exact leads_loadInto (fits reg place) held
  | const value => exact Leads.ite (fun _ => Leads.pure fun _ => id) fun _ => Leads.throw
  | unknown code => exact Leads.pure fun _ => id

end Recording

section Running

open Transfer

variable {first : Output} {words pushed : Nat} {slots : Int}

theorem leads_emit {steps : List Step} (straight : Straight steps) (tame : Tame slots steps) :
    Leads (Fenced first words pushed slots) (modify (·.emit steps))
      fun _ => Fenced first words pushed slots :=
  Leads.change fun _ fenced => fenced.emit straight tame

theorem leads_finishMove (fuel : Nat) (target : Register) :
    Leads (Fenced first words pushed slots) (finishMove fuel target)
      fun _ => Fenced first words pushed slots := by
  induction fuel generalizing target with
  | zero => exact Leads.pure fun _ => id
  | succ fuel ih =>
    intro transfer value result fenced ends
    rw [finishMove_succ] at ends
    dsimp only at ends
    have retired := fenced.retire target
    split at ends
    · rename_i ready
      have ordinary := retired.bounded.moves _ ready.2
      refine ih _ _ _ _ (retired.emit (straight_move _ _ _) ?_) ends
      exact tame_move _ ordinary _
    · cases ends
      exact retired

theorem leads_runMove {target : Register} (ordinary : target.Ordinary) :
    Leads (Fenced first words pushed slots) (runMove target)
      fun _ => Fenced first words pushed slots :=
  Leads.glance fun _ _ => (leads_emit (straight_move _ _ _) (tame_move _ ordinary _)).bind
    fun _ => leads_finishMove _ _

theorem leads_breakCycles (fuel : Nat) {slot : Int} (positive : 0 ≤ slot) :
    Leads (Fenced first words pushed slots) (breakCycles fuel slot)
      fun _ => Fenced first words pushed slots := by
  induction fuel generalizing slot slots with
  | zero => exact Leads.pure fun _ => id
  | succ fuel ih =>
    intro transfer value result fenced ends
    cases found : transfer.moveTargets.first? with
    | none =>
      rw [breakCycles, EStateM.bind_ok (EStateM.get_run _), found] at ends
      cases ends
      exact fenced
    | some target =>
      rw [breakCycles_some found] at ends
      have ordinary := fenced.bounded.moves target (RegSet.has_of_first? found)
      have stored := fenced.store (straight_spill (transfer.moveInto target).type slot
        (transfer.moveInto target).source)
        (tame_spill _ positive (Int.lt_succ slot) _)
      have below : slot < max slots (slot + 1) := by omega
      have rest : Leads (Fenced first words pushed (max slots (slot + 1))) (do
          loadSlot target slot (transfer.moveInto target).type
          finishMove 33 target
          breakCycles fuel (slot + 1)) fun _ => Fenced first words pushed (max slots (slot + 1)) :=
        (leads_loadSlot ordinary _ positive below).bind fun _ =>
          (leads_finishMove _ _).bind fun _ => ih (by omega)
      exact (rest _ _ _ stored ends).mono (Int.le_max_left _ _)

theorem leads_runMoves :
    Leads (Fenced first words pushed slots) runMoves
      fun _ => Fenced first words pushed slots := by
  refine Leads.glance fun seen _ => Leads.bind (Leads.forIn fun target _ => ?_) fun _ => ?_
  · intro transfer step result fenced ends
    rw [EStateM.bind_ok (EStateM.get_run _)] at ends
    split at ends
    · rename_i ready
      have ordinary := fenced.bounded.moves target (Bool.and_eq_true_iff.mp ready).1
      obtain ⟨_, middle, moved, rest⟩ := EStateM.bind_inv ends
      cases rest
      exact ⟨rfl, leads_runMove ordinary _ _ _ fenced moved⟩
    · cases ends
      exact ⟨rfl, fenced⟩
  · intro transfer value result fenced ends
    rw [EStateM.bind_ok (EStateM.get_run _)] at ends
    exact leads_breakCycles _ fenced.bounded.base _ _ _ fenced ends

/-- A bounded transfer with loads into given registers. -/
def Fetching (first : Output) (words pushed : Nat) (slots : Int) (targets : RegSet)
    (transfer : Transfer) : Prop :=
  transfer.Fenced first words pushed slots ∧ transfer.loadTargets = targets

theorem leads_runLoads :
    Leads (Fenced first words pushed slots) runLoads
      fun _ => Fenced first words pushed slots := by
  refine Leads.look fun seen _ => ?_
  have round : ∀ target ∈ seen.loadTargets.toList,
      Leads (Fetching first words pushed slots seen.loadTargets) (loadRound target PUnit.unit)
        fun step transfer => step = .yield PUnit.unit ∧
          Fetching first words pushed slots seen.loadTargets transfer := by
    rintro target member transfer step result ⟨fenced, same⟩ ends
    have has : transfer.loadTargets.has target = true := same ▸ RegSet.mem_toList.mp member
    have ordinary := fenced.bounded.targets target has
    rw [loadRound, EStateM.bind_ok (EStateM.get_run _)] at ends
    cases found : transfer.loadInto target with
    | const type value =>
      rw [found] at ends
      cases ends
      exact ⟨rfl, fenced.emit (straight_loadConstant _ _ _) (tame_loadConstant _ ordinary _), same⟩
    | slot type index =>
      obtain ⟨positive, below⟩ := fenced.bounded.loads target type index has found
      rw [found] at ends
      cases ends
      refine ⟨rfl, fenced.grow ?_, same⟩
      exact Output.Lays.none.tame (straight_loadFrom _ _ _) (tame_fill _ ordinary positive below)
  have loop := Leads.forIn round
  have clear : Leads (Fetching first words pushed slots seen.loadTargets)
      (modify fun transfer => { transfer with loadTargets := RegSet.empty })
      fun _ => Fenced first words pushed slots := by
    refine Leads.change ?_
    rintro transfer ⟨fenced, _⟩
    refine ⟨fenced.lays, ⟨fenced.bounded.base, fenced.bounded.moves, ?_, ?_⟩, fenced.room⟩
    · intro target has
      simp at has
    · intro target type index has
      simp at has
  refine Leads.bind ?_ fun _ => clear
  rintro transfer value result ⟨fenced, rfl⟩ ends
  exact loop _ _ _ ⟨fenced, rfl⟩ ends

theorem leads_execute :
    Leads (Fenced first words pushed slots) execute
      fun _ => Fenced first words pushed slots :=
  leads_runMoves.bind fun _ => leads_runLoads

end Running

end TransferM

end WasmX64
