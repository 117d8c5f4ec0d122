import WasmX64.Proofs.Typing.Blocks

/-!
# Branches by their types

A branch moves values into the layout saved in its target, or saves one.  If it
carries the declared types, every saved layout keeps having the types declared for
its place.
-/

namespace WasmX64

theorem Block.length_label (block : Block) : block.frame.label.length = block.branchArity := by
  unfold frame branchArity arity
  split <;> simp

namespace Compilation

variable {state : Compilation}

theorem SameFrames.modifyBlock {depth : Nat} {change : Block → Block}
    (frame : ∀ target, state.blocks[depth]? = some target →
      (change target).frame = target.frame)
    (saved : ∀ target, state.blocks[depth]? = some target →
      target.Saved state.types → (change target).Saved state.types) :
    state.SameFrames { state with blocks := state.blocks.modify depth change } := by
  refine ⟨?_, rfl, fun saves => ⟨saves.known, ?_⟩⟩
  · apply List.ext_getElem?
    intro index
    simp only [Compilation.frames, List.getElem?_map, List.getElem?_modify]
    cases found : state.blocks[index]? with
    | none => rfl
    | some target =>
      by_cases here : depth = index
      · subst here
        simp [frame target found]
      · simp [here]
  · intro block member
    obtain ⟨index, found⟩ := List.mem_iff_getElem?.mp member
    simp only [List.getElem?_modify] at found
    cases before : state.blocks[index]? with
    | none => simp [before] at found
    | some target =>
      have old := saves.blocks target (List.mem_of_getElem? before)
      by_cases here : depth = index
      · subst here
        simp only [before, if_pos, Option.map_eq_map, Option.map_some] at found
        cases found
        exact saved target before old
      · simp only [before, if_neg here, Option.map_eq_map, Option.map_some] at found
        cases found
        exact old

/-- The types a branch to an open block carries. -/
theorem label? {scope : Scope} {depth : UInt32} {frame : Frame}
    (found : state.frames[depth.toNat]? = some frame) :
    (scope.within state.frames).label? depth = some frame.label := by
  simp [Scope.within, Scope.label?, found]

theorem frames_of_blocks {depth : Nat} {target : Block}
    (found : state.blocks[depth]? = some target) : state.frames[depth]? = some target.frame := by
  simp [frames, found]

theorem SameFrames.reaches {before after : Compilation} {height : Nat}
    (same : before.SameFrames after) (saves : before.Saves) (reaches : before.Reaches height) :
    after.Reaches height := by
  intro block found
  have heads := congrArg List.head? same.frames
  rw [Compilation.frames, Compilation.frames, List.head?_map, List.head?_map, found] at heads
  obtain ⟨other, opened, frame⟩ := Option.map_eq_some_iff.mp heads.symm
  have base := ((same.saves saves).blocks block (List.mem_of_head? found)).base
  have bound := reaches other opened
  rw [(saves.blocks other (List.mem_of_head? opened)).base, frame, ← base] at bound
  exact bound

/-- The operand that is taken off is the one on top. -/
theorem Shifts.popped {before after : Compilation} {type top : ValueType}
    {rest : List ValueType} (shifts : before.Shifts [type] [] after)
    (types : before.types = rest ++ [top]) : after.types = rest := by
  obtain ⟨other, taken, left, _⟩ := shifts.types
  rw [types] at taken
  rw [left, List.append_nil, List.append_inj_left' taken rfl]

end Compilation

namespace Compile

variable {subject : Subject} {state : Compilation} {target : Block} {depth : Nat}

theorem target_finds (depth : Nat) :
    Ensures (Compile.target depth) subject state fun block after =>
      after = state ∧ state.blocks[depth]? = some block := by
  unfold Compile.target
  simp only [ensures_bind, ensures_get]
  split
  · rename_i block found
    exact ensures_pure.mpr ⟨rfl, found⟩
  · exact ensures_throw

theorem leavesFunction_keeps (depth : Nat) :
    Ensures (leavesFunction depth) subject state fun _ after => after = state := by
  unfold leavesFunction
  simp

theorem innermost_finds {block : Block} {outer : List Block}
    (opened : state.blocks = block :: outer) :
    Ensures innermost subject state fun found after => after = state ∧ found = block := by
  unfold innermost
  simp only [ensures_bind, ensures_get, opened]
  exact ensures_pure.mpr ⟨rfl, rfl⟩

theorem innermost_same :
    Ensures innermost subject state fun _ after => after = state := by
  unfold innermost
  simp only [ensures_bind, ensures_get]
  split
  · exact ensures_pure.mpr rfl
  · exact ensures_throw

theorem expect_top (type : ValueType) :
    Ensures (expect 0 type) subject state fun _ after =>
      after = state ∧ ∃ rest, state.types = rest ++ [type] ∧ state.Reaches rest.length := by
  refine (expect_finds 0 type).mono ?_
  rintro _ state ⟨rfl, top, above⟩
  rw [← List.head?_eq_getElem?, List.head?_reverse] at top
  obtain ⟨rest, types⟩ := List.getLast?_eq_some_iff.mp top
  refine ⟨rfl, rest, types, fun block found => ?_⟩
  have height := above block found
  rw [types, List.length_append, List.length_singleton] at height
  omega

theorem initJoin_finds (join source : Layout) (arity : Int) :
    Ensures (initJoin join source arity) subject state fun laid after =>
      after = state ∧ Layout.initJoin subject.locals source arity join = .ok () laid := by
  unfold Compile.initJoin
  simp only [ensures_bind, ensures_read]
  split
  · rename_i laid runs
    exact ensures_pure.mpr ⟨rfl, runs⟩
  · exact ensures_throw

theorem drop_shifts {type : ValueType} {rest : List ValueType}
    (types : state.types = rest ++ [type]) (reaches : state.Reaches rest.length) :
    Ensures (modifyLayout Layout.drop) subject state fun _ after =>
      state.Shifts [type] [] after := by
  rw [ensures_modifyLayout]
  refine ⟨rfl, ⟨rest, types, ?_, reaches⟩, Layout.Known.drop⟩
  change state.layout.drop.types = _
  rw [Layout.types_drop, ← Compilation.types, types]
  simp

/-- What a branch that carries the declared types saves in its target. -/
structure Joined (target : Block) (stack : List ValueType) (join : Layout) : Prop where
  base : join.base = target.frame.floor
  ends : target.kind ≠ .loop → join.Known ∧
    join.types = stack.take target.frame.floor ++ target.results
  starts : target.kind = .loop → join = target.join

namespace Joined

variable {stack : List ValueType} {join : Layout}

theorem of_saved (saved : target.Saved stack) (reached : target.targetReached = true) :
    Joined target stack target.join := by
  refine ⟨saved.joinBase, fun other => ?_, fun _ => rfl⟩
  rw [Block.targetReached, if_neg other] at reached
  exact saved.ends other reached

theorem of_initJoin (saved : target.Saved stack) (fresh : target.targetReached = false)
    {source : Layout} {rest : List ValueType} (stackOf : source.types = stack)
    (types : stack = rest ++ target.frame.label)
    (locals : subject.locals ≤ target.frame.floor)
    (runs : Layout.initJoin subject.locals source target.branchArity
      { base := target.join.base } = .ok () join) :
    Joined target stack join := by
  have typed := Layout.initJoin_typed locals runs saved.joinBase
  obtain ⟨base, known, _, joined⟩ := typed
  refine ⟨base, fun other => ⟨known, ?_⟩, fun loops => ?_⟩
  · have label : target.frame.label = target.results := by simp [Block.frame, other]
    have height : source.height - target.branchArity = rest.length := by
      rw [← Layout.length_types, stackOf, types, List.length_append, Block.length_label]
      omega
    rw [joined, stackOf, height, types, List.drop_left, label]
  · have reached := (saved.starts loops).1
    rw [Block.targetReached, if_pos loops, reached] at fresh
    cases fresh

theorem saved_join (joined : Joined target stack join) (saved : target.Saved stack) :
    ({ target with join := join } : Block).Saved stack := by
  refine ⟨saved.base, joined.base, fun other _ => joined.ends other, fun loops => ?_,
    saved.arms⟩
  rw [joined.starts loops]
  exact saved.starts loops

theorem frame_mark (target : Block) : target.markTarget.frame = target.frame := by
  unfold Block.markTarget
  split <;> rfl

theorem saved_mark (joined : Joined target stack target.join) (saved : target.Saved stack) :
    target.markTarget.Saved stack := by
  unfold Block.markTarget
  split
  · rename_i loops
    refine ⟨saved.base, saved.joinBase, saved.ends, fun _ => ?_, saved.arms⟩
    exact ⟨rfl, (saved.starts loops).2⟩
  · rename_i other
    exact ⟨saved.base, saved.joinBase, fun _ _ => joined.ends other,
      fun loops => absurd loops other, saved.arms⟩

end Joined

theorem branchTo_same {rest : List ValueType} (saves : state.Saves)
    (found : state.blocks[depth]? = some target)
    (types : state.types = rest ++ target.frame.label)
    (locals : subject.locals ≤ target.frame.floor) :
    Ensures (branchTo depth) subject state fun _ after => state.SameFrames after := by
  have saved := saves.blocks target (List.mem_of_getElem? found)
  have finish : ∀ join, Joined target state.types join →
      Ensures (do
        modifyBlock depth ({ · with join })
        mergeBranch join state.layout target.branchArity
        branch target.label depth
        modifyBlock depth Block.markTarget) subject state fun _ after =>
          state.SameFrames after := by
    intro join joined
    simp only [ensures_bind, ensures_modifyBlock]
    have first : state.SameFrames
        { state with blocks := state.blocks.modify depth ({ · with join }) } := by
      refine .modifyBlock (fun _ _ => rfl) fun other same old => ?_
      rw [found] at same
      cases same
      exact joined.saved_join old
    refine (Quiet.mergeBranch join state.layout target.branchArity subject _).mono
      fun _ merged mergedSame => ?_
    refine (Quiet.machine (Quiet.emit _) subject merged).mono fun _ jumped jumpedSame => ?_
    have second := first.trans (mergedSame.trans jumpedSame).sameFrames
    refine second.trans (.modifyBlock (fun other _ => Joined.frame_mark other) ?_)
    intro other same old
    rw [(mergedSame.trans jumpedSame).blocks, List.getElem?_modify] at same
    simp only [found, if_pos, Option.map_eq_map, Option.map_some] at same
    cases same
    rw [second.types] at old ⊢
    exact Joined.saved_mark ⟨joined.base, joined.ends, fun _ => rfl⟩ old
  unfold branchTo
  refine (target_finds depth).andThen ?_
  rintro block _ ⟨rfl, opened⟩
  rw [found] at opened
  cases opened
  simp only [ensures_bind, ensures_get]
  split
  · rename_i reached
    exact finish target.join (.of_saved saved reached)
  · rename_i fresh
    refine (initJoin_finds _ _ _).andThen ?_
    rintro join _ ⟨rfl, runs⟩
    exact finish join (.of_initJoin saved (by simpa using fresh) rfl types locals runs)

theorem returnFromFunction_finds (proper : subject.Proper)
    (reaches : state.Reaches state.types.length) :
    Ensures returnFromFunction subject state fun _ after =>
      state.SameShape after ∧ ∃ rest, state.types = rest ++ subject.scope.results ∧
        state.Reaches rest.length := by
  have leaves : Quiet (machine { kind := .ret } (emit Sequence.epilogue)) :=
    .machine (.emit _)
  have result : subject.signature.result =
      subject.type.results.head?.map fun type => (type, Register.returned type) := by
    rw [proper.signature]
    rfl
  unfold returnFromFunction
  simp only [ensures_bind, ensures_read, ensures_get]
  refine innermost_same.mono ?_
  rintro block state rfl
  refine ensures_ite.mpr ⟨fun _ => ensures_bind.mpr ensures_throw, fun _ => ?_⟩
  rw [result]
  cases results : subject.type.results with
  | nil =>
    refine (leaves subject state).mono fun _ _ same => ⟨same, state.types, ?_, reaches⟩
    simp [Subject.scope, results]
  | cons type others =>
    have few := proper.few
    rw [results, List.length_cons] at few
    obtain rfl : others = [] := List.eq_nil_of_length_eq_zero (by omega)
    simp only [List.head?_cons, Option.map_some, ensures_bind]
    refine (expect_top type).mono ?_
    rintro _ state ⟨rfl, rest, types, above⟩
    split
    · exact ensures_bind.mpr ensures_throw
    · refine ((Quiet.transfer _ _).bind fun _ => leaves) subject state |>.mono
        fun _ _ same => ⟨same, rest, ?_, above⟩
      simp [Subject.scope, results, types]

theorem branchOrReturn_same {frame : Frame} (proper : subject.Proper)
    (saves : state.Saves) (reaches : state.Reaches state.types.length)
    (found : state.frames[depth]? = some frame) (carries : frame.label <:+ state.types)
    (locals : subject.locals ≤ frame.floor) :
    Ensures (branchOrReturn depth) subject state fun _ after => state.SameFrames after := by
  unfold branchOrReturn
  refine (leavesFunction_keeps depth).andThen ?_
  rintro leaves state rfl
  split
  · exact (returnFromFunction_finds proper reaches).mono fun _ _ done => done.1.sameFrames
  · rw [Compilation.frames, List.getElem?_map] at found
    obtain ⟨target, opened, rfl⟩ := Option.map_eq_some_iff.mp found
    obtain ⟨rest, types⟩ := carries
    exact branchTo_same saves opened types.symm locals

/-- A branch of a depth carries values of the declared types. -/
def Carries (subject : Subject) (state : Compilation) (depth : Nat) : Prop :=
  ∃ frame, state.frames[depth]? = some frame ∧ frame.label <:+ state.types ∧
    subject.locals ≤ frame.floor

section Table

variable {start : Compilation} (proper : subject.Proper) (saves : start.Saves)
  (reaches : start.Reaches start.types.length)

include proper saves reaches

theorem branchOrReturn_keeps (carries : Carries subject start depth)
    (same : start.SameFrames state) :
    Ensures (branchOrReturn depth) subject state fun _ after => start.SameFrames after := by
  obtain ⟨frame, found, onTop, locals⟩ := carries
  have there : state.Reaches state.types.length := by
    rw [same.types]
    exact same.reaches saves reaches
  refine (branchOrReturn_same proper (same.saves saves) there ?_ ?_ locals).mono
    fun _ _ branched => same.trans branched
  · rw [same.frames, found]
  · rw [same.types]
    exact onTop

theorem lowerCase_keeps (cases : Array Label) (carries : Carries subject start depth)
    (same : start.SameFrames state) :
    Ensures (lowerCase cases depth) subject state fun _ after => start.SameFrames after := by
  unfold lowerCase
  split
  · exact ensures_throw
  · rename_i label _
    rw [ensures_bind, ensures_get]
    refine ensures_ite.mpr ⟨fun _ => ?_, fun _ => ?_⟩
    · exact (Quiet.machine (Quiet.emit _) subject state).mono fun _ _ after =>
        same.trans after.sameFrames
    · refine (Quiet.machine (Quiet.emit _) subject state).andThen fun _ middle bound => ?_
      exact branchOrReturn_keeps proper saves reaches carries (same.trans bound.sameFrames)

theorem lowerCases_keeps (cases : Array Label) {targets : Array UInt32}
    (carries : ∀ depth ∈ targets, Carries subject start depth.toNat) (value bound : Register)
    (fuel : Nat) {first last : Nat} (order : first < last) (inside : last ≤ targets.size)
    (same : start.SameFrames state) :
    Ensures (lowerCases cases targets value bound fuel first last) subject state
      fun _ after => start.SameFrames after := by
  induction fuel generalizing first last state with
  | zero => exact ensures_pure.mpr same
  | succ fuel ih =>
    rw [lowerCases]
    refine ensures_ite.mpr ⟨fun single => ?_, fun several => ?_⟩
    · obtain ⟨depth, found⟩ : ∃ depth, targets[first]? = some depth :=
        ⟨_, Array.getElem?_eq_getElem (by omega)⟩
      rw [found]
      exact lowerCase_keeps proper saves reaches cases
        (carries depth (Array.mem_of_getElem? found)) same
    · have low : first < first + (last - first) / 2 := by omega
      have high : first + (last - first) / 2 < last := by omega
      refine (Quiet.newLabel subject state).andThen fun upper labelled one => ?_
      refine (Quiet.emit _ subject labelled).andThen fun _ loaded two => ?_
      refine (Quiet.machine (Quiet.emit _) subject loaded).andThen fun _ tested three => ?_
      refine (ih low (by omega)
        (same.trans ((one.trans two).trans three).sameFrames)).andThen fun _ lower four => ?_
      refine (Quiet.machine (Quiet.emit _) subject lower).andThen fun _ placed five => ?_
      exact ih high inside (four.trans five.sameFrames)

end Table

theorem demandTargets_finds (wanted : Nat) (targets : List UInt32) :
    Ensures (demandTargets wanted targets) subject state fun _ after =>
      after = state ∧ ∀ depth ∈ targets, ∃ frame, state.frames[depth.toNat]? = some frame ∧
        frame.label.length = wanted := by
  induction targets with
  | nil => exact ensures_pure.mpr ⟨rfl, by simp⟩
  | cons depth rest ih =>
    rw [demandTargets, ensures_bind]
    refine (target_finds _).mono ?_
    rintro target state ⟨rfl, opened⟩
    refine ensures_ite.mpr ⟨fun _ => ensures_bind.mpr ensures_throw, fun arity => ?_⟩
    refine ih.mono ?_
    rintro _ state ⟨rfl, others⟩
    refine ⟨rfl, fun other member => ?_⟩
    rcases List.mem_cons.mp member with rfl | member
    · refine ⟨_, Compilation.frames_of_blocks opened, ?_⟩
      rw [Block.length_label]
      omega
    · exact others other member

end Compile

namespace At

open Compile

variable {subject : Subject} {state middle : Compilation} {block : Block} {outer : List Block}
  {instr : Instr}

theorem locals_le (here : At subject state block outer) {depth : Nat} {frame : Frame}
    (found : state.frames[depth]? = some frame) : subject.locals ≤ frame.floor :=
  (here.tracks.nested.floor frame (List.mem_of_getElem? found)).1

/-- An operand has been taken off. -/
theorem saves_popped (here : At subject state block outer) {type top : ValueType}
    {rest : List ValueType} (types : state.types = rest ++ [top])
    (reaches : state.Reaches rest.length) (shifts : state.Shifts [type] [] middle) :
    middle.Saves := by
  obtain ⟨stack, below, _⟩ := here.operands types reaches
  refine here.saves shifts.blocks (shifts.known here.tracks.saves.known) ?_
  rw [shifts.popped types, below, List.take_append_of_le_length, List.take_take, Nat.min_self]
  exact Nat.le_of_eq here.length_below

end At

namespace AtLive

open Compile

variable {subject : Subject} {state middle : Compilation} {block : Block} {outer : List Block}
  {instr : Instr}

/-- The rest of the block is dead once control has left. -/
theorem finishBlock {carried stack : List ValueType} (here : AtLive subject state block outer)
    (frames : middle.frames = state.frames) (saves : middle.Saves)
    (below : middle.types.take block.frame.floor = state.types.take block.frame.floor)
    (above : state.types.drop block.frame.floor = stack ++ carried)
    (leaves : instr.Leaves (subject.scope.within state.frames) carried) :
    Ensures finishBlock subject middle fun _ after =>
      after.Advances subject (block.owes instr :: outer.map Block.frame) state.types := by
  unfold Compile.finishBlock
  rw [ensures_modifyBlock]
  by_cases unmarked : ∀ other ∈ block.pending, other.op.isMarker = false
  · rw [here.frames, Compilation.frames] at frames
    obtain ⟨inner, around, opened, inside, outside⟩ := List.map_eq_cons_iff.mp frames
    refine .inr ⟨?_, saves.known, fun other member => ?_⟩
    · have floor := here.length_below
      have whole := List.take_append_drop block.frame.floor state.types
      have after := List.take_append_drop block.frame.floor middle.types
      rw [below] at after
      rw [above] at whole
      rw [here.frames] at leaves
      have result : ({ middle with blocks := middle.blocks.modify 0 Block.finish }).frames =
          { block.frame with live := false } :: outer.map Block.frame := by
        rw [← inside, ← outside, Compilation.frames, opened]
        rfl
      rw [result]
      generalize state.types.take block.frame.floor = lower at floor whole after
      rw [← whole]
      change Moves _ _ _ _ middle.types
      rw [← after]
      exact @Moves.leave _ (block.owes instr) _ _ _ _ _ _ _ here.isLive rfl floor leaves
        unmarked
    · rw [opened, List.modify_zero_cons] at member
      rcases List.mem_cons.mp member with rfl | member
      · have old := saves.blocks inner (by simp [opened])
        exact ⟨old.base, old.joinBase, old.ends, old.starts, old.arms⟩
      · exact saves.blocks other (by simp [opened, member])
  · obtain ⟨marker, member, marks⟩ : ∃ other ∈ block.pending, other.op.isMarker = true := by
      simpa using unmarked
    refine here.slip ?_
    rw [above]
    exact .deadMarker leaves member marks

theorem lowerUnreachable (here : AtLive subject state block outer)
    (op : instr.op = .unreachable) :
    Ensures lowerUnreachable subject state fun _ after =>
      after.Advances subject (block.owes instr :: outer.map Block.frame) state.types := by
  unfold Compile.lowerUnreachable
  refine (Quiet.addTrap .unreachable subject state).andThen fun label trapped first => ?_
  refine (Quiet.emit _ subject trapped).andThen fun _ middle second => ?_
  have same := (first.trans second).sameFrames
  refine here.finishBlock same.frames (same.saves here.tracks.saves) (by rw [same.types])
    (List.append_nil _).symm ?_
  simp [Instr.Leaves, op]

theorem lowerReturn (here : AtLive subject state block outer) (proper : subject.Proper)
    (op : instr.op = .ret) :
    Ensures (returnFromFunction >>= fun _ => Compile.finishBlock) subject state fun _ after =>
      after.Advances subject (block.owes instr :: outer.map Block.frame) state.types := by
  refine (returnFromFunction_finds proper here.reaches).andThen ?_
  rintro _ middle ⟨same, rest, types, reaches⟩
  obtain ⟨stack, _, above⟩ := here.operands types reaches
  refine here.finishBlock same.frames (same.saves here.tracks.saves) (by rw [same.types])
    above ?_
  simp [Instr.Leaves, op, Scope.within]

theorem lowerBr (here : AtLive subject state block outer) (proper : subject.Proper)
    (op : instr.op = .br) :
    Ensures (lowerBr instr.index.toNat) subject state fun _ after =>
      after.Advances subject (block.owes instr :: outer.map Block.frame) state.types := by
  unfold Compile.lowerBr
  refine (target_finds _).andThen ?_
  rintro target state ⟨rfl, opened⟩
  have found := Compilation.frames_of_blocks opened
  by_cases carries : target.frame.label <:+ state.types.drop block.frame.floor
  · obtain ⟨stack, above⟩ := carries
    have leaves : instr.Leaves (subject.scope.within state.frames) target.frame.label := by
      simpa [Instr.Leaves, op] using Compilation.label? found
    have finish : ∀ middle, state.SameFrames middle →
        Ensures Compile.finishBlock subject middle fun _ after =>
          after.Advances subject (block.owes instr :: outer.map Block.frame) state.types :=
      fun middle same => here.finishBlock same.frames (same.saves here.tracks.saves)
        (by rw [same.types]) above.symm leaves
    have onTop : target.frame.label <:+ state.types :=
      List.IsSuffix.trans ⟨stack, above⟩ (List.drop_suffix _ _)
    refine (innermost_finds here.opened).andThen ?_
    rintro block state ⟨rfl, rfl⟩
    refine (leavesFunction_keeps _).andThen ?_
    rintro leaving state rfl
    refine ensures_ite.mpr ⟨fun _ => ?_, fun _ => finish state (.refl state)⟩
    exact (branchOrReturn_same proper here.tracks.saves here.reaches found onTop
      (here.locals_le found)).andThen fun _ middle same => finish middle same
  · exact fun _ after _ => here.slip (.branch op (Compilation.label? found) carries)

theorem lowerBrIf (here : AtLive subject state block outer) (proper : subject.Proper)
    (op : instr.op = .brIf) :
    Ensures (lowerBrIf instr.index.toNat) subject state fun _ after =>
      after.Advances subject (block.owes instr :: outer.map Block.frame) state.types := by
  unfold Compile.lowerBrIf
  refine (target_finds _).andThen ?_
  rintro target state ⟨rfl, opened⟩
  have found := Compilation.frames_of_blocks opened
  refine (expect_top .i32).andThen ?_
  rintro _ state ⟨rfl, rest, types, reaches⟩
  obtain ⟨stack, whole, above⟩ := here.operands types reaches
  by_cases carries : target.frame.label <:+ stack
  · obtain ⟨left, rfl⟩ := carries
    have onTop : target.frame.label <:+ rest := by
      rw [whole, ← List.append_assoc]
      exact List.suffix_append _ _
    have finish : ∀ after : Compilation, after.frames = state.frames → after.types = rest →
        after.Saves →
        after.Advances subject (block.owes instr :: outer.map Block.frame) state.types := by
      intro after frames stays saves
      refine .inr ⟨?_, saves⟩
      have floor := here.length_below
      have label := @Compilation.label? _ subject.scope _ _ found
      rw [frames, stays]
      rw [here.frames] at label ⊢
      generalize state.types.take block.frame.floor = lower at whole floor
      rw [types, whole, List.append_assoc]
      exact @Moves.branchIf _ (block.owes instr) _ _ _ _ _ _ here.isLive rfl floor op label
    refine (innermost_finds here.opened).andThen ?_
    rintro block state ⟨rfl, rfl⟩
    refine ensures_ite.mpr ⟨fun _ => ?_, fun _ => ?_⟩
    · refine (drop_shifts types reaches).mono fun _ after shifts => ?_
      exact finish after (Compilation.frames_congr shifts.blocks) (shifts.popped types)
        (here.saves_popped types reaches shifts)
    · refine (popRegister_shifts _).andThen ?_
      rintro condition popped ⟨type, shifts⟩
      have frames := Compilation.frames_congr shifts.blocks
      have stays := shifts.popped types
      refine (Quiet.newLabel subject popped).andThen fun label labelled first => ?_
      refine (Quiet.machine (Quiet.emit _) subject labelled).andThen fun _ tested second => ?_
      have same := first.trans second
      have saves := same.saves (here.saves_popped types reaches shifts)
      have reaches' : tested.Reaches tested.types.length := by
        rw [same.types, stays]
        exact reaches.congr (same.outline.trans shifts.blocks)
      rw [ensures_bind]
      refine (branchOrReturn_same proper saves reaches' ?_ ?_ (here.locals_le found)).mono
        fun _ branched third => ?_
      · rw [same.frames, frames]
        exact found
      · rw [same.types, stays]
        exact onTop
      · refine (Quiet.machine (Quiet.emit _) subject branched).mono fun _ after fourth => ?_
        have total := (same.sameFrames.trans third).trans fourth.sameFrames
        exact finish after (total.frames.trans frames) (total.types.trans stays)
          (total.saves (here.saves_popped types reaches shifts))
  · refine fun _ after _ => here.slip ?_
    rw [above]
    exact .branchIf op (Compilation.label? found) carries

theorem lowerBrTable (here : AtLive subject state block outer) (proper : subject.Proper)
    (op : instr.op = .brTable) :
    Ensures (lowerBrTable instr) subject state fun _ after =>
      after.Advances subject (block.owes instr :: outer.map Block.frame) state.types := by
  unfold Compile.lowerBrTable
  refine (target_finds _).andThen ?_
  rintro default state ⟨rfl, opened⟩
  refine (demandTargets_finds _ _).andThen ?_
  rintro _ state ⟨rfl, arities⟩
  refine (expect_top .i32).andThen ?_
  rintro _ state ⟨rfl, rest, types, reaches⟩
  obtain ⟨stack, whole, above⟩ := here.operands types reaches
  have targets : ∀ depth ∈ instr.default :: instr.targets, ∃ frame,
      state.frames[depth.toNat]? = some frame ∧
        frame.label.length = default.frame.label.length := by
    intro depth member
    rcases List.mem_cons.mp member with rfl | member
    · exact ⟨_, Compilation.frames_of_blocks opened, rfl⟩
    · rw [Block.length_label]
      exact arities depth member
  by_cases carries : ∀ depth ∈ instr.default :: instr.targets, ∀ frame,
      state.frames[depth.toNat]? = some frame → frame.label <:+ stack
  · obtain ⟨left, joined⟩ := carries instr.default List.mem_cons_self _
      (Compilation.frames_of_blocks opened)
    have labels : ∀ depth ∈ instr.default :: instr.targets,
        (subject.scope.within state.frames).label? depth = some default.frame.label := by
      intro depth member
      obtain ⟨frame, found, length⟩ := targets depth member
      have same : frame.label = default.frame.label :=
        (List.suffix_of_suffix_length_le (carries depth member frame found) ⟨left, joined⟩
          (Nat.le_of_eq length)).eq_of_length length
      rw [← same]
      exact Compilation.label? found
    have leaves : instr.Leaves (subject.scope.within state.frames)
        (default.frame.label ++ [.i32]) := by
      simp only [Instr.Leaves, op]
      exact ⟨_, rfl, labels⟩
    have finish : ∀ {popped after : Compilation} {type : ValueType},
        state.Shifts [type] [] popped → popped.SameFrames after →
        Ensures Compile.finishBlock subject after fun _ done =>
          done.Advances subject (block.owes instr :: outer.map Block.frame) state.types := by
      intro popped after type shifts same
      have top : state.types.drop block.frame.floor =
          left ++ (default.frame.label ++ [.i32]) := by
        rw [above, ← joined, List.append_assoc]
      refine here.finishBlock (same.frames.trans (Compilation.frames_congr shifts.blocks))
        (same.saves (here.saves_popped types reaches shifts)) ?_ top leaves
      rw [same.types, shifts.popped types, whole, List.take_append_of_le_length,
        List.take_take, Nat.min_self]
      exact Nat.le_of_eq here.length_below
    refine (innermost_finds here.opened).andThen ?_
    rintro block state ⟨rfl, rfl⟩
    refine ensures_ite.mpr ⟨fun _ => ?_, fun _ => ?_⟩
    · exact (drop_shifts types reaches).andThen fun _ after shifts => finish shifts (.refl after)
    · refine (popRegister_shifts _).andThen ?_
      rintro value popped ⟨type, shifts⟩
      have frames := Compilation.frames_congr shifts.blocks
      have stays := shifts.popped types
      have saves := here.saves_popped types reaches shifts
      have reaches' : popped.Reaches popped.types.length := by
        rw [stays]
        exact reaches.congr shifts.blocks
      have carried : ∀ depth ∈ instr.default :: instr.targets,
          Carries subject popped depth.toNat := by
        intro depth member
        obtain ⟨frame, found, _⟩ := targets depth member
        refine ⟨frame, frames ▸ found, ?_, here.locals_le found⟩
        rw [stays, whole]
        exact (carries depth member frame found).trans (List.suffix_append _ _)
      rw [ensures_bind, ensures_get, ensures_bind]
      refine (Quiet.mapM (fun _ => Quiet.newLabel) _ subject popped).mono
        fun cases labelled first => ?_
      have last : ∀ middle, popped.SameFrames middle → Ensures (do
          lowerCase cases.toArray instr.default.toNat
          Compile.finishBlock) subject middle fun _ done =>
          done.Advances subject (block.owes instr :: outer.map Block.frame) state.types := by
        intro middle same
        exact (lowerCase_keeps proper saves reaches' _ (carried _ List.mem_cons_self)
          same).andThen fun _ _ kept => finish shifts kept
      refine ensures_ite.mpr ⟨fun some => ?_, fun _ => last labelled first.sameFrames⟩
      refine (Quiet.takeRegister _ _ _ subject labelled).andThen fun bound taken second => ?_
      refine (Quiet.newLabel subject taken).andThen fun beyond marked third => ?_
      refine (Quiet.emit _ subject marked).andThen fun _ loaded fourth => ?_
      refine (Quiet.machine (Quiet.emit _) subject loaded).andThen fun _ tested fifth => ?_
      have same := ((((first.trans second).trans third).trans fourth).trans fifth).sameFrames
      refine (lowerCases_keeps proper saves reaches' _ (fun depth member => ?_) value bound _
        some (by simp) same).andThen fun _ switched kept => ?_
      · exact carried depth (List.mem_cons_of_mem _ (by simpa using member))
      · refine (Quiet.machine (Quiet.emit _) subject switched).andThen fun _ placed bound => ?_
        exact last placed (kept.trans bound.sameFrames)
  · obtain ⟨depth, member, frame, found, differs⟩ : ∃ depth ∈ instr.default :: instr.targets,
        ∃ frame, state.frames[depth.toNat]? = some frame ∧ ¬ frame.label <:+ stack := by
      simpa only [Classical.not_forall, exists_prop] using carries
    refine fun _ after _ => here.slip ?_
    rw [above]
    exact .table op member (Compilation.label? found) differs

end AtLive

end WasmX64
