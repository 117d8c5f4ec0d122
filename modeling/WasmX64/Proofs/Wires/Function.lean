import WasmX64.Proofs.Compile.Progress
import WasmX64.Proofs.Processor.Sweep
import WasmX64.Proofs.Wires.Constructs
import WasmX64.Proofs.Wires.Stubs

/-!
# Where the jumps of a function lead

The wires hold from the opening of the frame through every round of the driver.  Once all
blocks are closed only stubs are waited for, and those that are get their code.  So every
jump of a compiled function leads to an instruction of it.  The one exception is code
compiled for its types only, which is never executed: it may lead to the very end.
-/

namespace WasmX64

namespace Wires

variable {idle asleep : Nat → Prop} {extra gone : List Label} {lands further : Landing → Prop}
  {state : Compilation}

theorem rest (wires : Wires idle extra gone lands state)
    (more : ∀ offset, offset < state.output.code.size → idle offset → asleep offset)
    (weaker : ∀ landing : Landing, landing.site < state.output.code.size → lands landing →
      further landing) :
    Wires asleep extra gone further state := by
  constructor
  · exact wires.distinct
  · exact wires.known
  · exact wires.nested
  · intro fine small
    obtain ⟨listing, pending, settled, assembled, items, accepted, landed⟩ :=
      wires.wired fine small
    refine ⟨listing, pending, settled, assembled, items, ?_, ?_⟩
    · intro use member
      obtain ⟨far, stays, waits⟩ := accepted use member
      have inside : use.site < state.output.code.size :=
        Nat.lt_of_lt_of_le use.site_lt_finish (assembled.linked.waits use member)
      refine ⟨far, stays, waits.imp_right fun others => others.imp_right ?_⟩
      rintro ⟨index, inner, outer, here, there, awaits, used⟩
      refine ⟨index, inner, outer, here, there, awaits, ?_⟩
      intro awake
      exact used fun sleeps => awake (more _ inside sleeps)
    · intro landing member here
      have inside : landing.site < state.output.code.size :=
        Nat.lt_of_lt_of_le landing.site_lt_finish (assembled.linked.leads landing member)
      exact weaker landing inside (landed landing member here)
  · exact wires.loops

end Wires

namespace Compile

variable {idle : Nat → Prop} {subject : Subject} {state : Compilation}

/-- A round keeps the wires; what it adds to a block that is compiled for its types only is not
executed. -/
theorem round_between {block : Block} {outer : List Block} (books : Books subject state)
    (between : Between idle subject state) (opened : state.blocks = block :: outer)
    (asleep : block.reach = .specOnly → ∀ offset, state.output.code.size ≤ offset → idle offset) :
    Ensures (next block >>= fun (instr, op) => step instr op) subject state fun _ after =>
      Between idle subject after := by
  rw [ensures_bind]
  have keeps : Between idle subject
      { state with blocks := { block with pending := block.pending.tail } :: outer } := by
    have changed : Between idle subject
        { state with
          blocks := state.blocks.modify 0 ({ · with pending := block.pending.tail }) } :=
      between.modifyBlock (fun _ => .of_kind rfl rfl rfl id) fun _ => rfl
    rw [opened] at changed
    exact changed
  refine ((next_takes opened).and (keeps_next block subject state books)).mono ?_
  rintro ⟨instr, op⟩ middle ⟨⟨_, same⟩, books, _⟩
  have taken : middle.blocks = { block with pending := block.pending.tail } :: outer := by
    rw [same]
  have size : middle.output.code.size = state.output.code.size := by rw [same]
  rw [← same] at keeps
  dsimp only
  by_cases dead : block.reach = .unreachable ∧ op ≠ .finish ∧ op ≠ .otherwise
  · refine (step_dead taken dead).mono ?_
    rintro _ after rfl
    exact Wires.congr keeps rfl rfl rfl
  · apply step_alive taken dead
    intro events
    have noted : Between idle subject
        { middle with
          op
          sources := middle.sources.insert ⟨middle.output.code.size, middle.instr, op⟩
          events } := Wires.congr keeps rfl rfl rfl
    refine Ensures.mono (lower_between _ ?_ noted taken ?_ ?_) ?_
    · exact ⟨books.sound, books.tall, books.blocks⟩
    · intro unreachable
      by_cases marker : op = .finish
      · exact .inl marker
      · refine .inr (Decidable.not_not.mp fun other => dead ⟨unreachable, marker, other⟩)
    · rw [← size] at asleep
      exact asleep
    · intro _ lowered between _ events
      exact Wires.congr between rfl rfl rfl

/-- An offset of code that one round of the driver adds inside a block that is compiled for its
types only. -/
def Spare (subject : Subject) (start : Compilation) (offset : Nat) : Prop :=
  ∃ count before after block outer,
    steps count subject start = .ok () before ∧ steps (count + 1) subject start = .ok () after ∧
    before.blocks = block :: outer ∧ block.reach = .specOnly ∧
    before.output.code.size ≤ offset ∧ offset < after.output.code.size

/-- The wires hold after any number of rounds. -/
theorem steps_between {start : Compilation} (books : Books subject start)
    (spare : ∀ offset, Spare subject start offset → idle offset)
    (between : Between idle subject start) (count : Nat) :
    Ensures (steps count) subject start fun _ after => Between idle subject after := by
  refine steps_keep books between ?_ count
  intro count before after block outer reached last opened books held ran
  -- in this round all the code to come is idle if the block is there for its types only
  let asleep (offset : Nat) : Prop :=
    idle offset ∨ block.reach = .specOnly ∧ before.output.code.size ≤ offset
  have wider : Between asleep subject before :=
    held.rest (fun _ _ => .inl) fun landing _ ends => ends.imp_left .inl
  have kept : Between asleep subject after := by
    refine round_between books wider opened ?_ () after ran
    exact fun specOnly offset behind => .inr ⟨specOnly, behind⟩
  have narrow : ∀ offset, offset < after.output.code.size → asleep offset → idle offset := by
    intro offset inside sleeps
    rcases sleeps with earlier | ⟨specOnly, behind⟩
    · exact earlier
    · exact spare offset ⟨count, before, after, block, outer, reached, last, opened, specOnly,
        behind, inside⟩
  apply kept.rest narrow
  intro landing inside ends
  exact ends.imp_left (narrow landing.site inside)

section Begin

theorem wired_empty {accepts : Use → Prop} {lands : Landing → Prop} :
    ({} : Code).Wired [] accepts lands :=
  ⟨[], [], [], Code.assembled_empty, by simp, by simp, by simp⟩

theorem openFrame_eq : ({} : Code).openFrame =
    (7, ((({} : Code).emit (.push .rbp)).emit (.mov .i64 .rbp .rsp)).emit (.enterFrame 0)) := by
  rfl

theorem wired_openFrame {accepts : Use → Prop} :
    ({} : Code).openFrame.2.Wired [frameOpening] accepts Code.nowhere := by
  have empty : ({} : Code).Wired [] accepts Code.nowhere := wired_empty
  have saved : (({} : Code).emit (.push .rbp)).Wired [] accepts Code.nowhere :=
    (empty.emit (by rfl) rfl).fewer
  have framed : ((({} : Code).emit (.push .rbp)).emit (.mov .i64 .rbp .rsp)).Wired [] accepts
      Code.nowhere := (saved.emit (by rfl) rfl).fewer
  rw [openFrame_eq]
  exact framed.emit (by rfl) rfl

theorem wires_openFrame {lands : Landing → Prop} {events : Array Event} :
    Wires idle [] [] lands { output := { code := ({} : Code).openFrame.2 }, events } := by
  constructor
  · exact List.nodup_nil
  · intro label member
    cases member
  · intro index further inner outer _ found
    cases found
  · intro fine small
    exact wired_openFrame.anywhere
  · intro _ block member
    cases member

theorem begin_between :
    Ensures begin subject {} fun frame after =>
      frame = 7 ∧ Between idle subject after ∧
        after.courses = [⟨.block, subject.function.body, false, []⟩] := by
  unfold begin
  rw [ensures_bind, ensures_read, ensures_bind]
  unfold record
  rw [ensures_bind, ensures_read, ensures_modify, ensures_bind, ensures_modifyGet]
  have within : ∀ events, Within idle [] [] (Ending idle []) 0 [] subject
      { output := { code := ({} : Code).openFrame.2 }, events } := fun events =>
    ⟨wires_openFrame, Nat.zero_le _, rfl⟩
  refine (Keeps.through (.placeParams _) subject _ (within _)).andThen ?_
  rintro _ passed ⟨within, _⟩
  refine (Keeps.through (.placeLocals _ _) subject _ within).andThen ?_
  rintro _ placed ⟨within, _⟩
  refine Ensures.andThen ((openBlock_wires _ _ ?_ within.wires).and (openBlock_opens _ _ _)) ?_
  · intro block
    exact ⟨rfl, rfl, rfl, rfl⟩
  rintro _ opened ⟨⟨block, opens⟩, _, label, elseLabel, blocks⟩
  rw [ensures_bind, ensures_modifyLayout, ensures_bind, ensures_modify, ensures_pure]
  rw [within.blocks] at blocks
  refine ⟨rfl, Wires.congr ((opens.forget (by simp)).mono ?_) rfl rfl rfl, ?_⟩
  · intro landing ending
    dsimp only
    rw [opens.blocks, within.blocks]
    have inside := opens.ending (within.blocks.symm ▸ ending)
    rw [within.blocks] at inside
    exact inside
  · rw [Compilation.courses]
    dsimp only
    rw [blocks]
    rfl

end Begin

section Conclude

/-- How a function is concluded: its code is finished, the stubs that are jumped to have their
sites with references to the trap cell, and the sources stay. -/
structure Concluded (strays : Nat → Prop) (subject : Subject) (before after : Compilation)
    (compiled : Compiled) : Prop where
  index : compiled.index = subject.index
  bytes : after.output.code.bytes = compiled.program.code
  grows : before.output.code.size ≤ compiled.program.code.size
  finished : after.output.code.size < 2147483648 → ∃ listing,
    after.output.code.Finished strays listing ∧
      ∀ site ∈ compiled.traps, ∀ placed ∈ site.row subject.index, placed ∈ listing
  sources : compiled.sources = before.sources
  offsets : ∀ site ∈ compiled.traps, 0 ≤ site.offset
  refs : ∀ site ∈ compiled.traps, ⟨site.offset + 2, .trap, 0⟩ ∈ compiled.program.refs
  used : ∀ site ∈ compiled.traps, ∃ stub ∈ before.stubs.toList,
    stub.kind = site.kind ∧ stub.instr = site.instr ∧
      (before.output.code.label stub.label).state ≠ .unused

theorem stubbing_of_closed (between : Between idle subject state) (closed : state.blocks = []) :
    Stubbing state.stubs.toList [frameOpening] (fun landing => idle landing.site)
      state.output.code := by
  have owned : state.owned = state.stubs.toList.map TrapStub.label := by
    rw [Compilation.owned, closed]
    rfl
  constructor
  · rw [← owned]
    exact between.distinct
  · intro stub member
    apply between.known
    rw [List.nil_append, owned]
    exact List.mem_map_of_mem member
  · intro fine small
    apply (between.wired fine small).mono
    · rintro use ⟨far, _, waits⟩
      rcases waits with extra | ⟨stub, member, same⟩ | awaited
      · cases extra
      · exact ⟨far, stub, Array.mem_def.mp member, same⟩
      · obtain ⟨block, member, _⟩ := awaited.mem
        rw [closed] at member
        cases member
    · rintro landing (asleep | ⟨block, outer, opened, _⟩)
      · exact asleep
      · rw [closed] at opened
        cases opened

theorem conclude_concluded (between : Between idle subject state) (closed : state.blocks = []) :
    Ensures (conclude 7) subject state fun compiled after =>
      Concluded idle subject state after compiled := by
  unfold conclude
  rw [ensures_bind, ensures_read, ensures_bind, ensures_get, ensures_bind]
  refine (emitStubs_reported (stubbing_of_closed between closed)).mono ?_
  rintro sites reported ⟨placed, sources, _, refs⟩
  rw [ensures_bind, ensures_modify, ensures_bind]
  unfold demandSound
  rw [ensures_bind, ensures_get]
  dsimp only
  split
  · exact ensures_throw
  · rename_i fine
    have sound := (Code.Extends.patch reported.output.code 7 _).error fine
    unfold record
    rw [ensures_pure, ensures_bind, ensures_modify, ensures_bind, ensures_bind, ensures_read,
      ensures_modify, ensures_bind, ensures_get, ensures_pure]
    have size : (reported.output.code.setFrame 7 reported.output.frameSlots).size =
        reported.output.code.size := (Code.Rewrites.patch _ _ _).same.size
    constructor
    · rfl
    · rfl
    · exact le_of_le_of_eq placed.grows.size size.symm
    · intro small
      obtain ⟨listing, finished, within⟩ :=
        (placed.wired sound (lt_of_eq_of_lt size.symm small)).finished
      have opens := within frameOpening (by simp)
      refine ⟨_, finished.setFrame opens reported.output.frameSlots, ?_⟩
      intro site member item stands
      apply List.mem_map.mpr
      refine ⟨item, within item ?_, if_neg ?_⟩
      · exact List.mem_append_left _ (List.mem_flatMap.mpr ⟨site, member, stands⟩)
      · rintro rfl
        simp [TrapSite.row, trapReport, Placed.row, frameOpening] at stands
    · exact sources
    · exact placed.offsets
    · intro site member
      exact Array.mem_toList_iff.mpr (refs sound site member)
    · exact placed.used

/-- The driver closes all blocks of a function that is compiled, and what follows the body comes
last. -/
theorem function_closes {frame : Nat} {start : Compilation} {compiled : Compiled}
    {final : Compilation} (proper : subject.Proper) (begun : begin subject {} = .ok frame start)
    (ran : function subject {} = .ok compiled final) :
    ∃ before, steps (rounds subject) subject start = .ok () before ∧ before.blocks = [] ∧
      conclude frame subject before = .ok compiled final := by
  rw [function_rounds (Nat.le_refl _), Nat.sub_self, bind_run, begun] at ran
  dsimp only at ran
  rw [bind_run] at ran
  obtain ⟨_, _, courses⟩ := @begin_between (fun _ => False) _ frame start begun
  have books := begin_books proper _ start begun
  cases reached : steps (rounds subject) subject start with
  | error fault middle =>
    rw [reached] at ran
    cases ran
  | ok done middle =>
    rw [reached] at ran
    have enough : Course.weights start.courses ≤ rounds subject := by
      rw [courses]
      simp [Course.weights, Course.weight, rounds]
    exact ⟨middle, rfl, steps_close books enough done middle reached, ran⟩

theorem function_concluded {frame : Nat} {start : Compilation} {compiled : Compiled}
    {final : Compilation} (proper : subject.Proper) (begun : begin subject {} = .ok frame start)
    (ran : function subject {} = .ok compiled final) :
    ∃ before, steps (rounds subject) subject start = .ok () before ∧ before.blocks = [] ∧
      Concluded (Spare subject start) subject before final compiled := by
  obtain ⟨before, reached, closed, concludes⟩ := function_closes proper begun ran
  obtain ⟨rfl, between, _⟩ := begin_between frame start begun
  have books := begin_books proper _ start begun
  have held := steps_between books (fun _ => id) between (rounds subject) () before reached
  exact ⟨before, reached, closed, conclude_concluded held closed compiled final concludes⟩

end Conclude

end Compile

theorem compileFunction_ok {module : Option Module} {host : Host} {index : UInt32}
    {compiled : Compiled} (compiles : (compileFunction module host index).outcome = .ok compiled) :
    ∃ subject final frame start, Subject.of module host index = .ok subject ∧
      Compile.function subject {} = .ok compiled final ∧
      Compile.begin subject {} = .ok frame start := by
  unfold compileFunction at compiles
  split at compiles
  · cases compiles
  · rename_i subject made
    split at compiles
    · rename_i result final ran
      cases compiles
      have rounds := ran
      rw [Compile.function_rounds (Nat.zero_le _)] at rounds
      obtain ⟨frame, start, begun, _⟩ := EStateM.bind_inv rounds
      exact ⟨subject, final, frame, start, made, ran, begun⟩
    · cases compiles

/-- The rounds of a function are those behind the opening of its frame. -/
theorem compilingAfter_of_steps {module : Option Module} {host : Host} {index : UInt32}
    {subject : Subject} {frame : Nat} {start state : Compilation} {count : Nat}
    (made : Subject.of module host index = .ok subject)
    (begun : Compile.begin subject {} = .ok frame start)
    (reached : Compile.steps count subject start = .ok () state) :
    compilingAfter module host index count = .ok state := by
  unfold compilingAfter
  rw [made]
  dsimp only
  rw [Compile.bind_run, begun]
  dsimp only
  rw [reached]

/-- A division in a loop that is left on a condition. -/
def loopingDivision : Module where
  __ := Module.declaring #[⟨[.i32], [.i32]⟩]
  functions := #[
    { name := "divide", type := 0, locals := []
      body := [
        { op := .loop, body := [{ op := .localGet }, { op := .brIf }] },
        { op := .localGet },
        { op := .localGet },
        { op := .intBinary .w32 .divS }] }]

end WasmX64
