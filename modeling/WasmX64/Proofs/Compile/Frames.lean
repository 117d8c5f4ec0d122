import WasmX64.Proofs.Compile.Lawful

/-!
# The size of frames

Joins are no higher than the layouts that lead to them, so the ceiling holds across branches and
constructs.  After every round of the driver it has risen by one at most, and a compiled function
has a frame that its locals and instructions bound.
-/

namespace WasmX64

namespace Compile

variable {α β : Type} {recording : Recording} {low middle high : Nat}

/-- An action that ends without a fault leads from below one ceiling to below another. -/
def Rises ⦃α : Type⦄ (_ : Recording) (low high : Nat) (action : Compile α) : Prop :=
  ∀ subject state, state.Under low → Ensures action subject state fun _ after => after.Under high

namespace Rises

theorem bind {action : Compile α} {next : α → Compile β} (first : Rises recording low middle action)
    (second : ∀ value, Rises recording middle high (next value)) :
    Rises recording low high (action >>= next) :=
  fun subject state under => (first subject state under).andThen fun value after =>
    second value subject after

theorem modify {change : Compilation → Compilation}
    (keeps : ∀ state : Compilation, state.Under low → (change state).Under high) :
    Rises recording low high (modify change) :=
  fun _ state under => ensures_modify.mpr (keeps state under)

/-- An address within the code is asked for. -/
theorem loadRef (target : Register) {kind : RefKind} (known : kind ∈ RefKind.list)
    (index : UInt32) : Rises recording low low (loadRef target kind index) := by
  apply modify
  intro state under
  have grows : state.output.code.Extends (state.output.code.loadWide target placeholder).2 := by
    rw [Code.loadWide_eq]
    exact .emit ..
  refine ⟨under.height, under.frame, under.blocks, ?_, under.sources⟩
  intro ref member
  cases Array.mem_push.mp member with
  | inl old => exact (under.refs ref old).grow grows
  | inr new =>
    subst new
    exact ⟨known, Code.loadWide_within⟩

theorem record (what : Happening) : Rises recording low low (record what) := by
  intro subject state under
  unfold Compile.record
  simp only [ensures_bind, ensures_read, ensures_modify]
  exact ⟨under.height, under.frame, under.blocks, under.refs, under.sources⟩

theorem transfer {source : Layout} {action : TransferM Unit} (lower : source.height ≤ low)
    (within : action.Within True (low + 33)) :
    Rises recording low low (transfer source action) := by
  intro subject state under
  unfold Compile.transfer
  rw [ensures_bind, ensures_get]
  split
  · rename_i value done ends
    have fits : (Transfer.start state.output state.layout source).Fits (low + 33) := by
      refine ⟨under.frame, ?_⟩
      have tall := under.height
      change max (state.layout.height : Int) source.height + 33 ≤ _
      omega
    obtain ⟨adds, kept⟩ := within _ _ _ ends fun _ => fits
    exact ensures_modify.mpr (under.output adds.extends (kept trivial).frame)
  · rw [ensures_bind, ensures_modify]
    exact ensures_throw

end Rises

instance : Law Rises (fun kind _ => kind ∈ RefKind.list) (fun _ => True) True where
  pure _ := fun _ _ under => ensures_pure.mpr under
  throw _ := fun _ _ _ => ensures_throw
  bind := Rises.bind
  mono rises lower := fun subject state under =>
    (rises subject state under).mono fun _ _ kept => kept.mono (lower trivial)
  look each _ := fun subject state under => by
    rw [ensures_bind, ensures_get]
    exact each state (fun _ => under) subject state under
  askNames each _ := fun subject state under => by
    rw [ensures_bind, ensures_read]
    refine each subject (fun kind index named => ?_) subject state under
    cases kind with
    | unknown code => exact named.elim
    | _ => decide
  emit _ := .modify fun _ under => under.output (.place _ _) under.frame
  lone {kind} _ lone := by
    cases kind with
    | unknown code => cases lone
    | _ => decide
  loadRef target _ index known := Rises.loadRef target known index
  newLabel := fun _ _ under => ensures_modifyGet.mpr (under.output (.newLabel _) under.frame)
  note _ _ keeps := .modify (keeps trivial)
  transfer lower within := .transfer (lower trivial) within
  machine _ _ _ inside := (Rises.record _).bind fun _ => Rises.bind inside fun _ => Rises.record _
  block _ := .record _

theorem rises_addSource {entry : Compilation → SourceEntry}
    (known : ∀ state, (entry state).op.isValid = true) :
    Rises recording low low (modify fun state =>
      { state with sources := state.sources.insert (entry state) }) := by
  refine .modify fun state under => ⟨under.height, under.frame, under.blocks, under.refs, ?_⟩
  intro other member
  cases SourceMap.mem_insertInto member with
  | inl new => exact new ▸ known state
  | inr old => exact under.sources other old

theorem rises_step (instr : Option Instr) (op : Opcode) :
    Obeys Rises .blocks low (low + 1) (step instr op) := by
  have renumbers : ∀ {low : Nat} {change : Compilation → Compilation},
      (∀ state, (change state).layout = state.layout ∧ (change state).output = state.output ∧
        (change state).blocks = state.blocks ∧ (change state).refs = state.refs ∧
        (change state).sources = state.sources) →
      Obeys Rises .blocks low low (modify change) := by
    refine fun same => Rises.modify fun state under => ?_
    obtain ⟨layout, output, blocks, refs, sources⟩ := same state
    exact ⟨layout ▸ under.height, output ▸ under.frame, blocks ▸ under.blocks,
      refs ▸ output ▸ under.refs, sources ▸ under.sources⟩
  have records : ∀ {low : Nat} (what : Happening), Obeys Rises .blocks low low (record what) :=
    fun what => Rises.record what
  refine (renumbers (by intro _; exact ⟨rfl, rfl, rfl, rfl, rfl⟩)).andThen fun _ => ?_
  refine Obeys.innermost.andThen fun block => .ite ?_ ?_
  · exact (renumbers (by intro _; exact ⟨rfl, rfl, rfl, rfl, rfl⟩)).up
  · cases known : op.isValid with
    | false =>
      cases op
      case unknown code =>
        intro subject state _
        unfold Compile.record
        simp only [ensures_bind, ensures_modify, ensures_read]
        exact ensures_throw
      all_goals cases known
    | true =>
      have adds : Obeys Rises .blocks low low (modify fun state : Compilation =>
          { state with
            sources := state.sources.insert ⟨state.output.code.size, state.instr, op⟩ }) :=
        rises_addSource fun _ => known
      refine adds.andThen fun _ => (records _).andThen fun _ => ?_
      refine (Obeys.lower Recording.blocks_loud op _ (fun _ _ => trivial) (.inl rfl)).andThen
        fun _ => ?_
      refine Obeys.demandSound.andThen fun _ => ?_
      refine .andThen (.look (fun _ _ => rfl) fun _ _ => .pure) fun _ => (records _).andThen fun _ => ?_
      exact renumbers (by intro _; exact ⟨rfl, rfl, rfl, rfl, rfl⟩)

/-- Every round adds at most one slot. -/
theorem rises_steps (count : Nat) : Obeys Rises .blocks low (low + count) (steps count) := by
  induction count generalizing low with
  | zero => exact .pure
  | succ count ih =>
    rw [Compile.steps]
    refine .look (fun _ _ => rfl) fun state _ => ?_
    split
    · exact .mono .pure fun _ => by omega
    · refine (Obeys.next _).andThen fun taken => (rises_step taken.1 taken.2).andThen fun _ => ?_
      exact ih.mono fun _ => by omega

variable {subject : Subject} {state : Compilation}

theorem begin_under (proper : subject.Proper) :
    Ensures begin subject {} fun _ start => start.Under subject.locals := by
  have params := congrArg List.length (Signature.ofType_types subject.type)
  rw [List.length_map, ← proper.signature] at params
  have count : subject.locals =
      0 + subject.signature.params.length + subject.function.locals.length := by
    rw [proper.locals, params]
    simp [Subject.scope]
  have empty : ({} : Compilation).Under 0 :=
    ⟨Nat.le_refl 0, ⟨Int.le_refl 0, by decide⟩, by simp, by simp, by simp⟩
  have places : Obeys Rises .nothing 0 subject.locals (do
      let frame ← openFrame
      placeParams subject.signature.params
      placeLocals none subject.function.locals
      let base : Int := subject.locals
      openBlock .block subject.type.results fun block =>
        { block with base, join := { block.join with base }, pending := subject.function.body }
      modifyLayout ({ · with base })
      modify ({ · with instr := 0 })
      return frame) := by
    have frames : Obeys Rises .nothing 0 0 openFrame :=
      fun _ _ under => ensures_modifyGet.mpr (under.output (.place _ _) under.frame)
    refine frames.andThen fun frame => (Obeys.placeParams _).andThen fun _ => ?_
    refine (Obeys.placeLocals _ _).andThen fun _ => ?_
    rw [← count]
    refine (Obeys.openBlock _ fun _ block results join saved => ?_).andThen fun _ => ?_
    · refine ⟨Int.le_refl _, results ▸ proper.few, ?_, ?_⟩
      · dsimp only
        rw [join]
        exact Nat.zero_le _
      · dsimp only
        rw [saved]
        simp
    refine (Obeys.modifyLayout (by intro _; exact Nat.le_refl _)).andThen fun _ => ?_
    refine .andThen (Rises.modify fun _ under => ?_) fun _ => .pure
    exact ⟨under.height, under.frame, under.blocks, under.refs, under.sources⟩
  unfold begin
  rw [ensures_bind, ensures_read]
  exact Rises.bind (Rises.record _) (fun _ => places) subject {} empty

end Compile

/-- The numbers of a compiled function but for those of its trap sites: a frame that is hardly
larger than its locals and instructions are many, references within the code, and entries of
known instructions. -/
structure Compiled.Bounded (subject : Subject) (compiled : Compiled) : Prop where
  signature : compiled.signature = subject.signature
  frame : 0 ≤ compiled.program.frameSlots ∧
    compiled.program.frameSlots ≤ subject.locals + Compile.rounds subject + 33
  refs : ∀ ref ∈ compiled.program.refs, ref.kind ∈ RefKind.list ∧
    0 ≤ ref.offset ∧ ref.offset ≤ compiled.program.code.size
  sources : ∀ entry ∈ compiled.sources.descending, entry.op.isValid = true

namespace Compile

variable {subject : Subject}

theorem conclude_bounded {frame : Nat} {state : Compilation}
    (under : state.Under (subject.locals + rounds subject)) :
    Ensures (conclude frame) subject state fun compiled _ => compiled.Bounded subject := by
  have stubs : Obeys Rises .nothing (subject.locals + rounds subject)
      (subject.locals + rounds subject) (emitStubs state.stubs.toList) := .emitStubs _
  unfold conclude
  rw [ensures_bind, ensures_read, ensures_bind, ensures_get, ensures_bind]
  refine (stubs subject state under).mono fun traps stubbed under => ?_
  rw [ensures_bind, ensures_modify, ensures_bind]
  have patched := Code.Extends.patch stubbed.output.code frame
    (bytes32 (Program.frameSize stubbed.output.frameSlots))
  unfold demandSound
  rw [ensures_bind, ensures_get]
  dsimp only
  split
  · exact ensures_throw
  · rename_i fine
    unfold record
    simp only [ensures_bind, ensures_pure, ensures_modify, ensures_read, ensures_get]
    refine ⟨rfl, under.frame, fun ref member => ?_, under.sources⟩
    have within := (under.refs ref (Array.mem_toList_iff.mp member)).grow patched
    exact ⟨within.1, within.2 fine⟩

theorem function_bounded (proper : subject.Proper) :
    Ensures function subject {} fun compiled _ => compiled.Bounded subject := by
  intro compiled final ran
  rw [function_rounds (Nat.le_refl _), Nat.sub_self] at ran
  have bounded : Ensures (begin >>= fun frame => steps (rounds subject) >>= fun _ =>
      steps 0 >>= fun _ => conclude frame) subject {} fun compiled _ =>
      compiled.Bounded subject := by
    rw [ensures_bind]
    refine (begin_under proper).mono fun frame start under => ?_
    rw [ensures_bind]
    refine (rises_steps _ subject start under).mono fun _ reached under => ?_
    rw [ensures_bind, steps, ensures_pure]
    exact conclude_bounded under
  exact bounded compiled final ran

end Compile

end WasmX64
