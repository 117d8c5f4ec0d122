import WasmX64.Proofs.Typing.Constructs

/-!
# Typing while compiling

Every step of the compiler is a step of typing until typing meets a fault that no
instruction shows.  A compilation that comes to its end has therefore typed the
whole body, or such a fault is in it.
-/

namespace WasmX64

namespace At

open Compile

variable {subject : Subject} {state middle : Compilation} {block : Block} {outer : List Block}

theorem congr (here : At subject state block outer) (same : state.SameShape middle) :
    At subject middle block outer :=
  ⟨same.tracks here.tracks, same.blocks.trans here.opened⟩

theorem take {instr : Instr} {rest : List Instr} (here : At subject state block outer)
    (pending : block.pending = instr :: rest) :
    At subject { state with blocks := state.blocks.modify 0 ({ · with pending := rest }) }
      { block with pending := rest } outer := by
  have blocks : state.blocks.modify 0 ({ · with pending := rest }) =
      { block with pending := rest } :: outer := by
    rw [here.opened]
    rfl
  refine ⟨⟨?_, here.tracks.saves.known, fun other member => ?_⟩, blocks⟩
  · rw [Compilation.frames, blocks]
    refine here.nested.replace rfl rfl rfl id (fun dead other member => ?_) rfl here.floor_le
    refine here.nested.unmarked _ List.mem_cons_self dead other ?_
    change other ∈ block.pending
    rw [pending]
    exact List.mem_cons_of_mem instr member
  · have listed : other ∈ { block with pending := rest } :: outer := blocks ▸ member
    rcases List.mem_cons.mp listed with rfl | listed
    · exact ⟨here.saved.base, here.saved.joinBase, here.saved.ends, here.saved.starts,
        here.saved.arms⟩
    · exact here.tracks.saves.blocks other (by simp [here.opened, listed])

end At

namespace AtLive

open Compile

variable {subject : Subject} {state middle : Compilation} {block : Block} {outer : List Block}

theorem congr (here : AtLive subject state block outer) (same : state.SameShape middle) :
    AtLive subject middle block outer :=
  ⟨here.toAt.congr same, here.live⟩

theorem lower (here : AtLive subject state block outer) (proper : subject.Proper)
    (instr : Instr) :
    Ensures (lower instr.op instr) subject state fun _ after =>
      after.Advances subject (block.owes instr :: outer.map Block.frame) state.types := by
  by_cases marks : instr.op.isMarker = true
  · exact fun _ _ _ => here.slip (.marker marks)
  by_cases plain : instr.op.isPlain = true
  · exact here.lower_plain plain
  cases op : instr.op
  case unreachable => exact here.lowerUnreachable op
  case block => exact here.lowerBlock op
  case loop => exact here.lowerLoop op
  case branchIf => exact here.lowerIf op
  case br => exact here.lowerBr proper op
  case brIf => exact here.lowerBrIf proper op
  case brTable => exact here.lowerBrTable proper op
  case ret => exact here.lowerReturn proper op
  all_goals simp [op, Opcode.isPlain, Opcode.isMarker] at plain marks

end AtLive

namespace Compile

variable {subject : Subject} {state : Compilation} {block : Block} {outer : List Block}

theorem Quiet.demandSound : Quiet demandSound := by
  refine get.bind fun state => ?_
  split
  · exact throw
  · exact pure

theorem Quiet.snapshot : Quiet snapshot := get.bind fun _ => pure

theorem step_lowers {post : Compilation → Prop} {instr : Option Instr} {op : Opcode}
    (opened : state.blocks = block :: outer)
    (alive : ¬ (block.reach = .unreachable ∧ op ≠ .finish ∧ op ≠ .otherwise))
    (closed : ∀ {before after : Compilation}, before.SameShape after → post before → post after)
    (lowers : ∀ middle, state.SameShape middle →
      Ensures (lower op (instr.getD { op })) subject middle fun _ after => post after) :
    Ensures (step instr op) subject state fun _ after => post after := by
  unfold step
  rw [ensures_bind, ensures_modify, ensures_bind]
  refine (@innermost_finds _ { state with op } _ _ opened).mono ?_
  rintro _ middle ⟨rfl, rfl⟩
  refine ensures_ite.mpr ⟨fun dead => absurd dead alive, fun _ => ?_⟩
  rw [ensures_bind, ensures_modify, ensures_bind]
  refine (Quiet.record _ subject _).mono fun _ recorded first => ?_
  refine (lowers recorded ?_).andThen fun _ lowered done => ?_
  · exact ⟨first.types, first.blocks, first.known⟩
  have leave : Quiet (do
      Compile.demandSound
      record (.instrEnd instr (← Compile.snapshot))
      modify fun state => { state with instr := state.instr + 1 }) :=
    Quiet.demandSound.bind fun _ => Quiet.snapshot.bind fun _ => (Quiet.record _).bind fun _ =>
      Quiet.modify fun _ => .of_slots rfl rfl
  exact (leave subject lowered).mono fun _ _ same => closed same done

theorem step_skips {instr : Option Instr} {op : Opcode} (opened : state.blocks = block :: outer)
    (dead : block.reach = .unreachable ∧ op ≠ .finish ∧ op ≠ .otherwise) :
    Ensures (step instr op) subject state fun _ after => state.SameShape after := by
  unfold step
  rw [ensures_bind, ensures_modify, ensures_bind]
  refine (@innermost_finds _ { state with op } _ _ opened).mono ?_
  rintro _ middle ⟨rfl, rfl⟩
  refine ensures_ite.mpr ⟨fun _ => ?_, fun alive => absurd dead alive⟩
  rw [ensures_modify]
  exact .of_slots rfl rfl

/-- A marker behind the last instruction of a body. -/
theorem next_marker (here : At subject state block outer) (proper : subject.Proper)
    (pending : block.pending = []) :
    Ensures (next block >>= fun (instr, op) => step instr op) subject state fun _ after =>
      after.Advances subject state.frames state.types := by
  unfold next
  rw [ensures_bind, pending, here.frames]
  rw [ensures_pure]
  refine step_lowers here.opened ?_ (fun same advances => advances.then_same same)
    fun middle same => ?_
  · split <;> simp
  · rw [← same.types]
    split
    · rename_i arms
      exact (here.congr same).lowerElse arms.1 arms.2 pending
    · rename_i arms
      refine (here.congr same).lowerEnd proper (fun kind => ?_) pending
      simpa [kind] using arms

theorem next_instr {instr : Instr} {rest : List Instr} (here : At subject state block outer)
    (proper : subject.Proper) (pending : block.pending = instr :: rest) :
    Ensures (next block >>= fun (instr, op) => step instr op) subject state fun _ after =>
      after.Advances subject state.frames state.types := by
  unfold next
  rw [ensures_bind, pending, here.frames]
  rw [ensures_bind, ensures_modifyBlock, ensures_pure]
  have there := here.take pending
  have owes : ({ block with pending := rest } : Block).owes instr = block.frame := by
    simp [Block.owes, Block.frame, pending]
  by_cases dead : block.reach = .unreachable
  · have isDead : block.frame.live = false := by simp [Block.frame, dead]
    have unmarked := here.nested.unmarked _ List.mem_cons_self isDead instr
      (by simp [Block.frame, pending])
    refine (step_skips there.opened ⟨dead, ?_, ?_⟩).mono fun _ after same => ?_
    · rintro op
      simp [op, Opcode.isMarker] at unmarked
    · rintro op
      simp [op, Opcode.isMarker] at unmarked
    · refine .inr ⟨?_, same.saves there.tracks.saves⟩
      rw [same.frames, same.types, there.frames]
      exact .skip isDead pending
  · have live : AtLive subject _ { block with pending := rest } outer := ⟨there, dead⟩
    refine step_lowers there.opened (by simp [dead])
      (fun same advances => advances.then_same same) fun middle same => ?_
    have lowered := (live.congr same).lower proper instr
    rw [owes, same.types] at lowered
    exact lowered

theorem round_advances (here : At subject state block outer) (proper : subject.Proper) :
    Ensures (next block >>= fun (instr, op) => step instr op) subject state fun _ after =>
      after.Advances subject state.frames state.types := by
  cases pending : block.pending with
  | nil => exact next_marker here proper pending
  | cons instr rest => exact next_instr here proper pending

theorem steps_types (proper : subject.Proper) (fuel : Nat) (tracks : state.Tracks subject)
    (enough : weight state.frames ≤ fuel) :
    Ensures (steps fuel) subject state fun _ _ =>
      OpenChecks subject.scope state.frames state.types ∨
        OpenSlips subject.scope state.frames state.types := by
  cases opened : state.blocks with
  | nil =>
    refine fun _ _ _ => .inl ?_
    rw [Compilation.frames, opened]
    trivial
  | cons block outer =>
    induction fuel generalizing state block outer with
    | zero =>
      simp [Compilation.frames, opened, weight, Frame.weight] at enough
    | succ fuel ih =>
      have here : At subject state block outer := ⟨tracks, opened⟩
      have round := round_advances here proper
      rw [ensures_bind] at round
      rw [steps, ensures_bind, ensures_get, opened]
      dsimp only
      refine round.andThen fun taken first second => ?_
      refine second.andThen ?_
      rintro _ after (slips | ⟨moves, saves⟩)
      · exact fun _ _ _ => .inr slips
      have less := moves.weight_lt
      have tracked : after.Tracks subject := ⟨tracks.nested.moves moves, saves⟩
      have back := moves.back
      cases others : after.blocks with
      | nil =>
        refine fun _ _ _ => .inl (back.1 ?_)
        rw [Compilation.frames, others]
        trivial
      | cons next around =>
        exact (ih tracked (by omega) next around others).mono fun _ _ typed =>
          typed.imp back.1 back.2

end Compile

end WasmX64

/-!
## Functions that compile

The compiler types the code it compiles, but not the places where values meet.  A
function that compiles is well typed exactly when no construct ends and no branch
goes with other types than the declared ones, nothing has a type outside the
language and no marker stands among the instructions.
-/

namespace WasmX64

/-- The type of a parameter. -/
def Passing.type : Passing → ValueType
  | .reg type _ => type
  | .stack type _ => type

theorem Signature.assign_types (gp fp : List Register) (taken : Nat) (types : List ValueType) :
    (assign gp fp taken types).1.map Passing.type = types := by
  induction types generalizing gp fp taken with
  | nil => rfl
  | cons type rest ih =>
    cases float : type.isFloat with
    | true => cases fp <;> simp [assign, float, Passing.type, ih]
    | false => cases gp <;> simp [assign, float, Passing.type, ih]

theorem Signature.ofType_types (type : FuncType) :
    (ofType type).params.map Passing.type = type.params :=
  assign_types _ _ _ _

/-- The body of a function as an open construct. -/
def Subject.body (subject : Subject) : Frame where
  label := subject.type.results
  results := subject.type.results
  live := true
  floor := subject.locals
  pending := subject.function.body
  otherwise := none

theorem Subject.types_body (subject : Subject) (proper : subject.Proper)
    (typed : OpenChecks subject.scope [subject.body] subject.scope.locals ∨
      OpenSlips subject.scope [subject.body] subject.scope.locals) :
    Checks false (subject.scope.enter subject.type.results) subject.function.body []
        subject.type.results ∨
      Slips (subject.scope.enter subject.type.results) subject.function.body []
        subject.type.results := by
  have empty : subject.scope.locals.drop subject.locals = [] := by
    rw [proper.locals, List.drop_length]
  rcases typed with ⟨⟨checks, _⟩, _⟩ | (⟨_, slips⟩ | ⟨arm, none, _⟩) | ⟨_, outside⟩
  · have body := checks rfl
    rw [show subject.body.floor = subject.locals from rfl, empty] at body
    exact .inl body
  · rw [show subject.body.floor = subject.locals from rfl, empty] at slips
    exact .inr slips
  · cases none
  · cases outside

namespace Compile

variable {subject : Subject} {before state : Compilation} {outs : List ValueType}

theorem placeParams_shifts (params : List Passing) (shifts : before.Shifts [] outs state) :
    Ensures (placeParams params) subject state fun _ after =>
      before.Shifts [] (outs ++ params.map Passing.type) after := by
  induction params generalizing state outs with
  | nil =>
    rw [placeParams, ensures_pure, List.map_nil, List.append_nil]
    exact shifts
  | cons param rest ih =>
    rw [List.map_cons, List.append_cons]
    cases param with
    | reg type reg =>
      rw [placeParams, ensures_bind]
      exact (shifts.pushRegister type reg).mono fun _ _ pushed => ih pushed
    | stack type offset =>
      rw [placeParams, ensures_bind]
      refine (shifts.quietly (Quiet.takeRegister _ _ _)).mono fun reg _ taken => ?_
      refine (taken.quietly (Quiet.emit _)).andThen fun _ _ loaded => ?_
      exact (loaded.pushRegister type reg).andThen fun _ _ pushed => ih pushed

theorem placeLocals_shifts (zero : Option Register) (locals : List ValueType)
    (shifts : before.Shifts [] outs state) :
    Ensures (placeLocals zero locals) subject state fun _ after =>
      before.Shifts [] (outs ++ locals) after := by
  induction locals generalizing zero state outs with
  | nil =>
    rw [placeLocals, ensures_pure, List.append_nil]
    exact shifts
  | cons type rest ih =>
    rw [List.append_cons, placeLocals]
    refine ensures_ite.mpr ⟨fun _ => ensures_bind.mpr ensures_throw, fun _ => ?_⟩
    refine ensures_ite.mpr ⟨fun _ => ?_, fun _ => ?_⟩
    · rw [ensures_bind, ensures_get]
      dsimp only
      split
      · rename_i reg _
        rw [ensures_bind, ensures_pure, ensures_bind]
        exact (shifts.pushRegister type reg).mono fun _ _ pushed => ih _ pushed
      · refine (shifts.quietly (Quiet.takeRegister _ _ _)).andThen fun reg _ taken => ?_
        refine (taken.quietly (Quiet.emit _)).andThen fun _ _ loaded => ?_
        rw [ensures_bind, ensures_pure, ensures_bind]
        exact (loaded.pushRegister type reg).mono fun _ _ pushed => ih _ pushed
    · exact (shifts.pushConst type 0).andThen fun _ _ pushed => ih zero pushed

theorem tracks_body {block : Block} (proper : subject.Proper)
    (types : state.types = subject.scope.locals) (known : state.layout.Known)
    (opened : state.blocks = [block]) (kind : block.kind = .block)
    (results : block.results = subject.type.results) (base : block.base = subject.locals)
    (joinBase : block.join.base = subject.locals) (fresh : block.endReached = false)
    (live : block.reach = .reachable) :
    state.Tracks subject := by
  have floor : block.frame.floor = subject.locals := by simp [Block.frame, base]
  have frames : state.frames = [block.frame] := by simp [Compilation.frames, opened]
  refine ⟨?_, known, fun other member => ?_⟩
  · rw [frames, types]
    refine ⟨fun _ => ?_, ?_, List.pairwise_singleton _ _, by simp, ?_, ?_⟩
    · rw [proper.locals, List.take_length]
    · intro frame member
      rw [List.mem_singleton.mp member, floor]
      exact ⟨Nat.le_refl _, Nat.le_of_eq proper.locals⟩
    · intro frame member dead
      rw [List.mem_singleton.mp member] at dead
      simp [Block.frame, live] at dead
    · intro frame last
      cases last
      refine ⟨?_, ?_, results⟩ <;> simp [Block.frame, kind]
  · rw [opened] at member
    rw [List.mem_singleton.mp member]
    refine ⟨by rw [base, floor], by rw [joinBase, floor], ?_, ?_, ?_⟩
    · simp [fresh]
    · simp [kind]
    · simp [kind]

/-- A function that compiles is well typed unless typing meets a fault that no
instruction shows. -/
theorem function_types (proper : subject.Proper) :
    Ensures function subject {} fun _ _ =>
      Checks false (subject.scope.enter subject.type.results) subject.function.body []
          subject.type.results ∨
        Slips (subject.scope.enter subject.type.results) subject.function.body []
          subject.type.results := by
  unfold function
  rw [ensures_bind, ensures_read, ensures_bind]
  refine (Quiet.record _ subject {}).mono fun _ started first => ?_
  rw [ensures_bind]
  refine (Quiet.modifyGet (fun _ => .of_slots rfl rfl) subject started).mono
    fun frame entered second => ?_
  have empty : ({} : Compilation).Shifts [] [] entered :=
    .of_same (first.trans second) (by simp [Compilation.Reaches])
  refine (placeParams_shifts _ empty).andThen fun _ _ params => ?_
  refine (placeLocals_shifts none _ params).andThen fun _ placed locals => ?_
  have noBlocks : placed.blocks = [] := by simpa [Compilation.outline] using locals.blocks
  have types : placed.types = subject.scope.locals := by
    obtain ⟨rest, start, left, _⟩ := locals.types
    have nothing : rest = [] := by simpa [Compilation.types, Layout.types] using start.symm
    rw [left, nothing, proper.signature, Signature.ofType_types]
    simp [Subject.scope]
  have known : placed.layout.Known := locals.known (by simp [Layout.Known])
  refine (openBlock_opens _ _ _).andThen ?_
  rintro _ opened ⟨layout, label, elseLabel, blocks⟩
  rw [noBlocks] at blocks
  have bases : Quiet (modifyLayout ({ · with base := (subject.locals : Int) })) :=
    .modifyLayout fun _ => rfl
  have numbers : Quiet (modify ({ · with instr := 0 })) := .modify fun _ => .of_slots rfl rfl
  refine (bases subject opened).andThen fun _ based third => ?_
  refine (numbers subject based).andThen fun _ ready fourth => ?_
  have same := third.trans fourth
  have height : opened.types = subject.scope.locals := by
    rw [Compilation.types, layout]
    exact types
  have frames : opened.frames = [subject.body] := by
    simp [Compilation.frames, blocks, Block.frame, Block.opened, Subject.body]
  have tracks := tracks_body proper height (layout ▸ known) blocks rfl rfl rfl rfl rfl rfl
  refine (steps_types proper _ (same.tracks tracks) ?_).andThen fun _ _ typed => ?_
  · rw [same.frames, frames]
    simp [weight, Frame.weight, Subject.body]
  · refine fun _ _ _ => subject.types_body proper ?_
    rw [same.frames, same.types, frames, height] at typed
    exact typed

end Compile

theorem Subject.of_ok {module : Module} {host : Host} {index : UInt32} {subject : Subject}
    (runs : Subject.of (some module) host index = .ok subject) :
    subject.Proper ∧ subject.module = module ∧
      module.functions[index.toNat]? = some subject.function ∧
      module.typeAt subject.function.type = .ok subject.type := by
  unfold Subject.of at runs
  dsimp only at runs
  cases found : module.functions[index.toNat]? with
  | none => simp [found] at runs
  | some function =>
    rw [found] at runs
    dsimp only at runs
    cases typed : module.typeAt function.type with
    | error cause => simp [typed] at runs
    | ok type =>
      rw [typed] at runs
      dsimp only at runs
      split at runs
      · cases runs
      · rename_i few
        cases runs
        exact ⟨⟨rfl, Nat.le_of_not_lt few, by simp [Subject.scope]⟩, rfl, rfl, typed⟩

/-- A function that compiles is well typed exactly when typing meets none of the faults
that the compiler does not look for. -/
theorem compiled_typed_iff {module : Module} {host : Host} {index : UInt32}
    (compiles : (compileFunction (some module) host index).outcome.isOk = true) :
    ∃ function type, module.functions[index.toNat]? = some function ∧
      module.typeAt function.type = .ok type ∧
      (Checks false (module.scope function type) function.body [] type.results ↔
        ¬ Slips (module.scope function type) function.body [] type.results) := by
  unfold compileFunction at compiles
  cases made : Subject.of (some module) host index with
  | error fault =>
    rw [made] at compiles
    cases compiles
  | ok subject =>
    rw [made] at compiles
    obtain ⟨proper, owner, found, typed⟩ := Subject.of_ok made
    have scope : subject.scope.enter subject.type.results =
        module.scope subject.function subject.type := by
      rw [← owner]
      rfl
    refine ⟨subject.function, subject.type, found, typed, Checks.not_slips, fun sound => ?_⟩
    dsimp only at compiles
    split at compiles
    · rename_i compiled state ran
      have types := Compile.function_types proper compiled state ran
      rw [scope] at types
      exact types.resolve_right sound
    · cases compiles

/-- A branch out of a construct whose arms join a value. -/
def joinsTyped : Module where
  types := #[⟨[.i32], [.i32]⟩]
  functions := #[
    { name := "select", type := 0, locals := []
      body := [
        { op := .localGet },
        { op := .branchIf, results := [.i32], hasElse := true
          body := [{ op := .intConst .w32, value := 1 }, { op := .br }]
          elseBody := [{ op := .intConst .w32, value := 2 }] }] }]

theorem compiled_typed_iff_joinsTyped :
    (compileFunction (some joinsTyped) {} 0).outcome.isOk = true ∧
      ∃ function type, joinsTyped.functions[(0 : UInt32).toNat]? = some function ∧
        joinsTyped.typeAt function.type = .ok type ∧
        (Checks false (joinsTyped.scope function type) function.body [] type.results ↔
          ¬ Slips (joinsTyped.scope function type) function.body [] type.results) :=
  ⟨by decide +kernel, @compiled_typed_iff joinsTyped {} 0 (by decide +kernel)⟩

/-- A block that is declared to leave a 32-bit integer and leaves a 64-bit one. -/
def joinsMixed : Module where
  types := #[⟨[], []⟩]
  functions := #[
    { name := "mixed", type := 0, locals := []
      body := [
        { op := .block, results := [.i32], body := [{ op := .intConst .w64, value := 1 }] },
        { op := .drop }] }]

/-- The compiler accepts the mixed block. -/
theorem joinsMixed_compiles :
    (compileFunction (some joinsMixed) {} 0).outcome.isOk = true ∧
      ∃ function type, joinsMixed.functions[(0 : UInt32).toNat]? = some function ∧
        joinsMixed.typeAt function.type = .ok type ∧
        ¬ Checks false (joinsMixed.scope function type) function.body [] type.results := by
  refine ⟨by decide +kernel, _, _, rfl, rfl, fun checks => checks.not_slips ?_⟩
  have numeric : Numeric ([] ++ [.i64]) := by simp [Numeric, ValueType.isValid]
  have differs : [] ++ [ValueType.i64] ≠ [.i32] := by decide
  refine @Slips.body _ _ _ _ [] _ rfl (List.mem_singleton.mpr rfl) ?_
  refine @Slips.afterPlain _ _ _ [] [] [.i64] _ ⟨rfl, rfl⟩ numeric (.fall differs)

end WasmX64
