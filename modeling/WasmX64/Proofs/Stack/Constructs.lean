import WasmX64.Proofs.Stack.Plain

/-!
# Constructs inside the frame

Opening and ending blocks keeps books and sketch: the layouts that a block saves are ones that the
frame provides, and its labels are fixed where nothing is pushed.
-/

/-!
## Branches inside the frame

A branch merges the live layout into the join of its target, which the frame provides from then
on, and jumps where nothing is pushed.  Leaving the function closes the frame; the code behind
starts inside it again.
-/

namespace WasmX64

open Sequence

namespace Sketched

variable {origin : List Part} {floor : Int} {stage next : Stage} {labels : List Label}
  {subject : Subject} {state after : Compilation}

/-- A label of the table may be jumped to. -/
theorem learn (sketched : Sketched origin floor stage labels subject state) {label : Label}
    (known : label.index < state.output.code.labels.size) :
    Sketched origin floor stage (label :: labels) subject state := by
  refine { sketched with drafted := { sketched.drafted with known := ?_ } }
  exact List.forall_mem_cons.mpr ⟨known, sketched.drafted.known⟩

/-- The code goes on, and what is saved in the blocks stays. -/
theorem follow (sketched : Sketched origin floor stage labels subject state)
    (drafted : Drafted origin state.output.frameSlots next
      (labels ++ state.blocks.flatMap fun block => [block.label, block.elseLabel]) subject after)
    (layout : after.layout.Stored after.output.frameSlots)
    (blocks : ∀ block ∈ after.blocks, block.Drawn after.output) :
    Sketched origin floor next labels subject after :=
  ⟨(drafted.lower sketched.drafted.room).forget fun _ => List.mem_append_left _, layout, blocks⟩

end Sketched

theorem Block.drawn_modify {blocks : List Block} {output : Output} {depth : Nat}
    {change : Block → Block} (drawn : ∀ block ∈ blocks, block.Drawn output)
    (changed : ∀ block, blocks[depth]? = some block → block.Drawn output →
      (change block).Drawn output) :
    ∀ block ∈ blocks.modify depth change, block.Drawn output := by
  intro block member
  obtain ⟨index, found⟩ := List.mem_iff_getElem?.mp member
  rw [List.getElem?_modify] at found
  obtain ⟨old, before, rfl⟩ := Option.map_eq_some_iff.mp found
  have kept := drawn old (List.mem_of_getElem? before)
  split
  · rename_i same
    exact changed old (same ▸ before) kept
  · exact kept

/-- The labels of an open block are among those of all of them. -/
theorem Block.mem_labels {blocks : List Block} {block : Block} (member : block ∈ blocks)
    (labels : List Label) :
    block.label ∈ labels ++ blocks.flatMap (fun block => [block.label, block.elseLabel]) ∧
      block.elseLabel ∈ labels ++ blocks.flatMap fun block => [block.label, block.elseLabel] := by
  constructor
  · exact List.mem_append_right _ (List.mem_flatMap.mpr ⟨block, member, by simp⟩)
  · exact List.mem_append_right _ (List.mem_flatMap.mpr ⟨block, member, by simp⟩)

/-- In dead code the operand on top is dropped. -/
theorem Sketching.dropTop {origin : List Part} {floor : Int} {labels : List Label}
    {subject : Subject} {state : Compilation}
    (sketching : Sketching origin floor (.body 0) labels subject state)
    (above : subject.locals < state.layout.height) :
    Sketching origin floor (.body 0) labels subject
      { state with layout := state.layout.drop } :=
  ⟨sketching.signature, sketching.books.dropTop above,
    sketching.sketched.relayout sketching.sketched.layout.drop⟩

namespace Compile

open TransferM Transfer

variable {α : Type} {origin : List Part} {floor : Int} {stage : Stage} {labels : List Label}
  {subject : Subject} {state : Compilation} {label : Label} {join arriving : Layout}

section Jumps

theorem sketched_branch (depth : Nat) (known : label ∈ labels) :
    Keeps (Sketched origin floor (.body 0) labels) (branch label depth) anything :=
  sketched_of_drafted (.branch _ _) fun _ _ _ more => drafted_branch depth (more label known)

theorem sketched_bind (depth : Nat) (known : label ∈ labels) :
    Keeps (Sketched origin floor (.body 0) labels) (Compile.bind label depth) anything :=
  sketched_of_drafted (.bind _ _) fun _ _ _ more => drafted_bind depth (more label known)

theorem sketched_branchIfZero (reg : Register) (depth : Nat) (known : label ∈ labels) :
    Keeps (Sketched origin floor (.body 0) labels) (branchIfZero label reg depth) anything :=
  sketched_of_drafted (.branchIfZero _ _ _) fun _ _ _ more =>
    drafted_branchIfZero reg depth (more label known)

theorem sketched_branchIfAtLeast (value bound : Register) (known : label ∈ labels) :
    Keeps (Sketched origin floor (.body 0) labels) (branchIfAtLeast label value bound) anything :=
  sketched_of_drafted (.branchIfAtLeast _ _ _) fun _ _ _ more =>
    drafted_branchIfAtLeast value bound (more label known)

theorem sketched_reach (depth : Nat) {change : Block → Block}
    (reaches : ∀ block, ∃ reach, change block = { block with reach }) :
    Keeps (Sketched origin floor stage labels) (modifyBlock depth change) anything := by
  refine Keeps.modify fun subject state sketched => ?_
  refine ⟨sketched.drafted.congr rfl rfl rfl, sketched.layout, ?_⟩
  refine Block.drawn_modify sketched.blocks fun block _ drawn => ?_
  obtain ⟨reach, changed⟩ := reaches block
  rw [changed]
  exact ⟨drawn.label, drawn.elseLabel, drawn.join, drawn.saved⟩

theorem sketching_finishBlock :
    Keeps (Sketching origin floor stage labels) finishBlock anything :=
  sketching_and keeps_finishBlock (sketched_reach 0 fun _ => ⟨.unreachable, rfl⟩)

theorem sketching_demoteBlock :
    Keeps (Sketching origin floor stage labels) demoteBlock anything := by
  refine sketching_and keeps_demoteBlock (sketched_reach 0 fun block => ?_)
  split
  · exact ⟨.specOnly, rfl⟩
  · exact ⟨block.reach, rfl⟩

theorem sketching_fresh {next : Label → Compile α} {post : α → Prop}
    (rest : ∀ label, Keeps (Sketching origin floor stage (label :: labels)) (next label) post) :
    Keeps (Sketching origin floor stage labels) (newLabel >>= next) post := by
  intro subject state sketching
  refine ((Books.idle .newLabel subject state sketching.books).and
    (newLabel_sketches sketching.sketched)).andThen ?_
  rintro label made ⟨⟨books, _⟩, sketched⟩
  refine (rest label subject made ⟨sketching.signature, books, sketched⟩).mono ?_
  rintro value after ⟨kept, meets⟩
  have fewer := kept.sketched.forget fun _ => List.mem_cons_of_mem label
  exact ⟨{ kept with sketched := fewer }, meets⟩

end Jumps

section Merges

structure Arrives (join : Layout) (origin : List Part) (labels : List Label) (subject : Subject)
    (state after : Compilation) : Prop where
  drafted : Drafted origin state.output.frameSlots (.body 0) labels subject after
  stored : join.Stored after.output.frameSlots
  layout : after.layout = state.layout
  blocks : after.blocks = state.blocks

theorem Adapts.arrives {after : Compilation} (adapts : Adapts join 0 state after)
    (drafted : Drafted origin floor (.body 0) labels subject state) :
    Arrives join origin labels subject state after := by
  have laid := drafted.raise.lays adapts.lays
  rw [← adapts.unchanged] at laid
  exact ⟨laid, adapts.stored, by rw [adapts.unchanged], by rw [adapts.unchanged]⟩

theorem arrives_branch {merge : Compile Unit}
    (merges : Ensures merge subject state fun _ after => Adapts join 0 state after)
    (drafted : Drafted origin floor (.body 0) labels subject state) (known : label ∈ labels)
    (depth : Nat) : Ensures (do
      merge
      branch label depth) subject state fun _ after =>
        Arrives join origin labels subject state after := by
  refine merges.andThen fun _ merged adapts => ?_
  have arrives := adapts.arrives drafted
  have idle : Ensures (branch label depth) subject merged fun _ after =>
      after.layout = merged.layout ∧ after.blocks = merged.blocks :=
    (Idle.branch label depth).ensures fun _ _ => And.intro
  refine ((drafted_branch depth known subject merged arrives.drafted.raise).and idle).mono ?_
  rintro _ after ⟨⟨jumped, _⟩, layout, blocks⟩
  exact ⟨jumped.lower arrives.drafted.room, arrives.stored.mono jumped.room,
    layout.trans arrives.layout, blocks.trans arrives.blocks⟩

/-- The join that control arrives with has places the compiler recognises. -/
theorem initJoin_known (arity : Nat) {source : Layout} {base : Int}
    (floor : (subject.locals : Int) ≤ base) (fresh : join = { base }) (sound : source.Sound) :
    Ensures (initJoin join source arity) subject state fun laid after =>
      after = state ∧ laid.Sound ∧ laid.Known := by
  refine ((initJoin_lays arity floor fresh sound).and (initJoin_finds join source arity)).mono ?_
  rintro laid after ⟨⟨same, laidSound, _, _⟩, _, runs⟩
  obtain ⟨base, rfl⟩ := Int.eq_ofNat_of_zero_le (show 0 ≤ base by omega)
  have below : subject.locals ≤ base := by omega
  rw [fresh] at runs
  exact ⟨same, laidSound, (Layout.initJoin_typed below runs rfl).2.1⟩

end Merges

section Leaving

theorem through_epilogue : (Stage.body 0).through epilogue = some (.body 0) := rfl

/-- The value on top is moved into its register, and the frame is closed. -/
theorem returnFromFunction_sketches
    (sketching : Sketching origin floor (.body 0) labels subject state) :
    Ensures returnFromFunction subject state fun _ after =>
      Sketched origin floor (.body 0) labels subject after := by
  have leaves : ∀ middle, Sketched origin floor (.body 0) labels subject middle →
      Ensures (machine { kind := .ret } (emit epilogue)) subject middle fun _ after =>
        Sketched origin floor (.body 0) labels subject after := by
    have closes : Keeps (Sketched origin floor (.body 0) labels) (emit epilogue) anything := by
      intro subject middle sketched
      refine ensures_emit.mpr ⟨sketched.emit straight_epilogue ?_ through_epilogue, trivial⟩
      simp [epilogue, Step.Inside, Instruction.Inside]
    intro middle sketched
    exact (Keeps.machine sketched_record closes subject middle sketched).mono fun _ _ => And.left
  unfold returnFromFunction
  rw [ensures_bind, ensures_read, ensures_bind, ensures_get, ensures_bind]
  refine innermost_same.mono ?_
  rintro block _ rfl
  refine ensures_ite.mpr ⟨fun _ => ensures_bind.mpr ensures_throw, fun _ => ?_⟩
  split
  · exact leaves _ sketching.sketched
  · rename_i type reg returned
    rw [sketching.signature] at returned
    have ordinary : reg.Ordinary := by
      obtain ⟨result, _, same⟩ := Option.map_eq_some_iff.mp returned
      cases same
      exact (suits_returned type).ordinary
    refine (expect_above sketching.books 0 type).andThen ?_
    rintro _ after ⟨rfl, above⟩
    split
    · exact ensures_bind.mpr ensures_throw
    · rename_i slot top
      have index : (after.layout.height : Int) - 1 = after.layout.pop.height := by
        simp only [Layout.height, Layout.pop, Array.size_pop] at above ⊢
        omega
      have provided := provided_top sketching.sketched.layout top
      rw [ensures_bind, index]
      have leads : Leads (Fenced after.output 0 0 after.output.frameSlots) (do
          TransferM.loadInto reg slot after.layout.pop.height
          TransferM.execute) fun _ => Fenced after.output 0 0 after.output.frameSlots :=
        (leads_loadInto ordinary provided).bind fun _ => leads_execute
      refine (transfer_lays leads).mono ?_
      rintro _ _ ⟨done, reached, rfl⟩
      exact leaves _ (sketching.sketched.lays reached.lays)

end Leaving

section Targets

theorem drawn_markTarget {output : Output} {block : Block} (drawn : block.Drawn output) :
    block.markTarget.Drawn output := by
  unfold Block.markTarget
  split
  · exact ⟨drawn.label, drawn.elseLabel, drawn.join, drawn.saved⟩
  · exact ⟨drawn.label, drawn.elseLabel, drawn.join, drawn.saved⟩

theorem joinBlock_sketches {depth : Nat} {block : Block} {merge : Compile Unit}
    {mark : Block → Block}
    (sketched : Sketched origin floor (.body 0) labels subject state)
    (found : state.blocks[depth]? = some block)
    (merges : ∀ middle : Compilation, middle.output = state.output →
      Ensures merge subject middle fun _ after => Adapts join 0 middle after)
    (marks : ∀ (output : Output) (block : Block), block.Drawn output → (mark block).Drawn output) :
    Ensures (do
      modifyBlock depth ({ · with join })
      merge
      branch block.label depth
      modifyBlock depth mark) subject state fun _ after =>
        Sketched origin floor (.body 0) labels subject after ∧ join.Stored after.output.frameSlots := by
  have own := (Block.mem_labels (List.mem_of_getElem? found) labels).1
  have merged := merges { state with blocks := state.blocks.modify depth ({ · with join }) } rfl
  rw [ensures_bind, ensures_modifyBlock, ← bind_assoc, ensures_bind]
  refine (arrives_branch merged (sketched.whole.congr rfl rfl rfl) own depth).mono ?_
  rintro _ after ⟨drafted, stored, layout, blocks⟩
  refine ensures_modifyBlock.mpr ⟨sketched.follow (drafted.congr rfl rfl rfl) ?_ ?_, stored⟩
  · dsimp only
    rw [layout]
    exact sketched.layout.mono drafted.room
  · dsimp only
    rw [blocks, List.modify_modify_eq]
    refine Block.drawn_modify (sketched.drawn drafted) fun block _ drawn => marks _ _ ?_
    exact ⟨drawn.label, drawn.elseLabel, stored, drawn.saved⟩

theorem branchTo_sketches (depth : Nat)
    (sketching : Sketching origin floor (.body 0) labels subject state) :
    Ensures (branchTo depth) subject state fun _ after =>
      Sketched origin floor (.body 0) labels subject after := by
  have books := sketching.books
  have sketched := sketching.sketched
  unfold branchTo
  refine (target_finds depth).andThen ?_
  rintro block after ⟨rfl, found⟩
  have member := List.mem_of_getElem? found
  have kept := books.blocks block member
  have finish : ∀ join : Layout, join.Sound → join.Known → Ensures (do
      modifyBlock depth ({ · with join })
      mergeBranch join after.layout block.branchArity
      branch block.label depth
      modifyBlock depth Block.markTarget) subject after fun _ final =>
        Sketched origin floor (.body 0) labels subject final := by
    intro join sound known
    refine (joinBlock_sketches sketched found ?_ fun _ _ => drawn_markTarget).mono fun _ _ => And.left
    intro middle same
    exact mergeBranch_joins sound known (same ▸ sketched.layout)
  rw [ensures_bind, ensures_get]
  refine ensures_ite.mpr ⟨fun _ => ?_, fun _ => ?_⟩
  · exact ensures_bind.mpr (ensures_pure.mpr
      (finish block.join kept.sound (sketched.blocks block member).join.known))
  · refine (initJoin_known _ kept.floor (by rw [kept.startsAt]) books.sound).andThen ?_
    rintro join _ ⟨rfl, sound, known⟩
    exact finish join sound known

theorem sketching_branchTo (depth : Nat) :
    Keeps (Sketching origin floor (.body 0) labels) (branchTo depth) anything :=
  keeps_sketching (keeps_branchTo depth) fun _ _ => branchTo_sketches depth

theorem sketching_return :
    Keeps (Sketching origin floor (.body 0) labels) returnFromFunction anything :=
  keeps_sketching (Books.idle .returnFromFunction) fun _ _ => returnFromFunction_sketches

theorem sketching_look {action : Compile α} {post : α → Prop}
    (same : ∀ subject state, Ensures action subject state fun value after =>
      after = state ∧ post value) :
    Keeps (Sketching origin floor stage labels) action post := by
  intro subject state sketching
  refine (same subject state).mono ?_
  rintro value _ ⟨rfl, meets⟩
  exact ⟨sketching, meets⟩

theorem sketching_target (depth : Nat) :
    Keeps (Sketching origin floor stage labels) (target depth) anything :=
  sketching_look fun _ _ => (target_finds depth).mono fun _ _ found => ⟨found.1, trivial⟩

theorem sketching_innermost : Keeps (Sketching origin floor stage labels) innermost anything :=
  sketching_look fun _ _ => innermost_same.mono fun _ _ same => ⟨same, trivial⟩

theorem sketching_leavesFunction (depth : Nat) :
    Keeps (Sketching origin floor stage labels) (leavesFunction depth) anything :=
  sketching_look fun _ _ => (leavesFunction_keeps depth).mono fun _ _ same => ⟨same, trivial⟩

theorem sketching_branchOrReturn (depth : Nat) :
    Keeps (Sketching origin floor (.body 0) labels) (branchOrReturn depth) anything :=
  (sketching_leavesFunction depth).andThen fun _ => .ite sketching_return (sketching_branchTo depth)

end Targets

section Choices

theorem sketching_branch (depth : Nat) (known : label ∈ labels) :
    Keeps (Sketching origin floor (.body 0) labels) (branch label depth) anything :=
  sketching_and (Books.idle (.branch _ _)) (sketched_branch depth known)

theorem sketching_bind (depth : Nat) (known : label ∈ labels) :
    Keeps (Sketching origin floor (.body 0) labels) (Compile.bind label depth) anything :=
  sketching_and (Books.idle (.bind _ _)) (sketched_bind depth known)

theorem sketching_branchIfZero (reg : Register) (depth : Nat) (known : label ∈ labels) :
    Keeps (Sketching origin floor (.body 0) labels) (branchIfZero label reg depth) anything :=
  sketching_and (Books.idle (.branchIfZero _ _ _)) (sketched_branchIfZero reg depth known)

theorem sketching_branchIfAtLeast (value bound : Register) (known : label ∈ labels) :
    Keeps (Sketching origin floor (.body 0) labels) (branchIfAtLeast label value bound) anything :=
  sketching_and (Books.idle (.branchIfAtLeast _ _ _)) (sketched_branchIfAtLeast value bound known)

theorem sketching_popRegister (pinned : RegSet) :
    Keeps (Sketching origin floor (.body 0) labels) (popRegister pinned) anything :=
  keeps_sketching (keeps_popRegister pinned) fun _ _ sketching =>
    popRegister_sketches sketching.books sketching.sketched pinned

theorem sketching_takeRegister (bank : RegClass) (wishes : List Register) (pinned : RegSet) :
    Keeps (Sketching origin floor (.body 0) labels) (takeRegister bank wishes pinned) (Suits bank) :=
  sketching_and (Books.keeps (stays_takeRegister bank wishes pinned))
    (sketched_takeRegister bank wishes pinned)

theorem sketching_loadConstant {reg : Register} (ordinary : reg.Ordinary) (positive : 0 ≤ floor)
    (type : ValueType) (bits : UInt64) :
    Keeps (Sketching origin floor (.body 0) labels) (emit (loadConstant type reg bits)) anything :=
  sketching_and (Books.idle (.emit _))
    (sketched_straight (straight_loadConstant _ _ _) (tame_loadConstant _ ordinary _) positive)

theorem sketching_lowerBr (depth : Nat) :
    Keeps (Sketching origin floor (.body 0) labels) (lowerBr depth) anything := by
  refine (sketching_target depth).andThen fun _ => sketching_innermost.andThen fun _ => ?_
  refine (sketching_leavesFunction depth).andThen fun _ => .ite ?_ sketching_finishBlock
  exact (sketching_branchOrReturn depth).andThen fun _ => sketching_finishBlock

theorem sketching_choice {live dead : Compile Unit} {type : ValueType}
    (goes : Keeps (Sketching origin floor (.body 0) labels) live anything)
    (stops : Keeps (Sketching origin floor (.body 0) labels) dead anything) :
    Keeps (Sketching origin floor (.body 0) labels) (do
      expect 0 type
      if !(← innermost).isReached then
        modifyLayout Layout.drop
        dead
      else live) anything := by
  intro subject state sketching
  refine (expect_above sketching.books 0 type).andThen ?_
  rintro _ after ⟨rfl, above⟩
  refine innermost_same.andThen ?_
  rintro block after rfl
  refine ensures_ite.mpr ⟨fun _ => ?_, fun _ => goes subject after sketching⟩
  rw [ensures_bind, ensures_modifyLayout]
  exact stops subject _ (sketching.dropTop above)

theorem sketching_lowerBrIf (depth : Nat) :
    Keeps (Sketching origin floor (.body 0) labels) (lowerBrIf depth) anything := by
  have jumps : Keeps (Sketching origin floor (.body 0) labels) (do
      let condition ← popRegister RegSet.empty
      let beyond ← newLabel
      branchIfZero beyond condition depth
      branchOrReturn depth
      bind beyond depth) anything := by
    refine (sketching_popRegister _).andThen fun condition => sketching_fresh fun beyond => ?_
    refine (sketching_branchIfZero condition depth List.mem_cons_self).andThen fun _ => ?_
    refine (sketching_branchOrReturn depth).andThen fun _ => ?_
    exact sketching_bind depth List.mem_cons_self
  have choice := @sketching_choice origin floor labels _ (pure ()) .i32 jumps .done
  simp only [bind_pure_unit] at choice
  exact (sketching_target depth).andThen fun _ => choice

theorem sketching_demandTargets (wanted : Nat) (targets : List UInt32) :
    Keeps (Sketching origin floor (.body 0) labels) (demandTargets wanted targets) anything := by
  induction targets with
  | nil => exact .done
  | cons depth rest ih => exact (sketching_target _).andThen fun _ => .demand ih

theorem sketching_freshAll {item : Type} (list : List item) {next : List Label → Compile α}
    {post : α → Prop}
    (rest : ∀ made more, (∀ label ∈ labels, label ∈ more) → (∀ label ∈ made, label ∈ more) →
      Keeps (Sketching origin floor stage more) (next made) post) :
    Keeps (Sketching origin floor stage labels) (list.mapM (fun _ => newLabel) >>= next) post := by
  induction list generalizing labels next with
  | nil =>
    rw [List.mapM_nil, pure_bind]
    exact rest [] labels (fun _ => id) (by simp)
  | cons item others ih =>
    rw [List.mapM_cons, bind_assoc]
    refine sketching_fresh fun label => ?_
    rw [bind_assoc]
    refine ih fun made more old new => ?_
    rw [pure_bind]
    obtain ⟨here, before⟩ := List.forall_mem_cons.mp old
    exact rest _ more before (List.forall_mem_cons.mpr ⟨here, new⟩)

theorem sketching_lowerCase {cases : Array Label} (known : ∀ label ∈ cases, label ∈ labels)
    (depth : Nat) :
    Keeps (Sketching origin floor (.body 0) labels) (lowerCase cases depth) anything := by
  unfold lowerCase
  split
  · exact .throw
  · rename_i label found
    have listed := known label (Array.mem_of_getElem? found)
    refine Keeps.get.andThen fun state => .ite (sketching_branch depth listed) ?_
    exact (sketching_bind depth listed).andThen fun _ => sketching_branchOrReturn depth

theorem sketching_lowerCases {cases : Array Label} (positive : 0 ≤ floor)
    (targets : Array UInt32) (value : Register) {bound : Register} (ordinary : bound.Ordinary)
    (fuel first last : Nat) (known : ∀ label ∈ cases, label ∈ labels) :
    Keeps (Sketching origin floor (.body 0) labels)
      (lowerCases cases targets value bound fuel first last) anything := by
  induction fuel generalizing labels first last with
  | zero => exact .done
  | succ fuel ih =>
    rw [lowerCases]
    refine .ite (sketching_lowerCase known _) (sketching_fresh fun upper => ?_)
    have kept : ∀ label ∈ cases, label ∈ upper :: labels :=
      fun label member => List.mem_cons_of_mem _ (known label member)
    refine (sketching_loadConstant ordinary positive _ _).andThen fun _ => ?_
    refine (sketching_branchIfAtLeast value bound List.mem_cons_self).andThen fun _ => ?_
    refine (ih first _ kept).andThen fun _ => ?_
    exact (sketching_bind 0 List.mem_cons_self).andThen fun _ => ih _ last kept

theorem sketching_lowerBrTable (positive : 0 ≤ floor) (instr : Instr) :
    Keeps (Sketching origin floor (.body 0) labels) (lowerBrTable instr) anything := by
  refine (sketching_target _).andThen fun _ => (sketching_demandTargets _ _).andThen fun _ => ?_
  refine sketching_choice ?_ sketching_finishBlock
  refine (sketching_popRegister _).andThen fun value => Keeps.get.andThen fun state => ?_
  refine sketching_freshAll _ fun cases more _ made => ?_
  have known : ∀ label ∈ cases.toArray, label ∈ more := by simpa using made
  have last : Keeps (Sketching origin floor (.body 0) more) (do
      lowerCase cases.toArray instr.default.toNat
      finishBlock) anything :=
    (sketching_lowerCase known _).andThen fun _ => sketching_finishBlock
  refine .ite ?_ last
  refine (sketching_takeRegister _ _ _).bind fun bound suits => sketching_fresh fun beyond => ?_
  have kept : ∀ label ∈ cases.toArray, label ∈ beyond :: more :=
    fun label member => List.mem_cons_of_mem _ (known label member)
  refine (sketching_loadConstant suits.ordinary positive _ _).andThen fun _ => ?_
  refine (sketching_branchIfAtLeast value bound List.mem_cons_self).andThen fun _ => ?_
  refine (sketching_lowerCases positive _ _ suits.ordinary _ _ _ kept).andThen fun _ => ?_
  refine (sketching_bind _ List.mem_cons_self).andThen fun _ => ?_
  exact (sketching_lowerCase kept _).andThen fun _ => sketching_finishBlock

theorem sketching_lowerUnreachable (positive : 0 ≤ floor) :
    Keeps (Sketching origin floor (.body 0) labels) lowerUnreachable anything := by
  have rules := @sketching_regular origin floor positive Opcode.unreachable.faults
  refine rules.trap (by simp [Opcode.faults]) fun label => ?_
  refine (rules.emitTame ⟨[], ?_, (by simp)⟩ (by simp)).andThen fun _ => sketching_finishBlock
  simp [Step.Resolves, Target.Known]

end Choices


end Compile

end WasmX64

/-! ## Opening and ending blocks -/

namespace WasmX64

open Sequence

namespace Sketched

variable {α : Type} {origin : List Part} {floor : Int} {stage : Stage} {labels : List Label}
  {subject : Subject} {state : Compilation}

theorem along (sketched : Sketched origin floor stage labels subject state) {label : Label}
    (known : label.index < state.output.code.labels.size) {action : Compile α} {post : α → Prop}
    (keeps : Compile.Keeps (Sketched origin floor stage (label :: labels)) action post) :
    Compile.Ensures action subject state fun _ after => Sketched origin floor stage labels subject after :=
  (keeps subject state (sketched.learn known)).mono fun _ _ kept =>
    kept.1.forget fun _ => List.mem_cons_of_mem _

theorem modifyBlock (sketched : Sketched origin floor stage labels subject state) {depth : Nat}
    {change : Block → Block} (changed : ∀ block, state.blocks[depth]? = some block →
      block.Drawn state.output → (change block).Drawn state.output) :
    Sketched origin floor stage labels subject
      { state with blocks := state.blocks.modify depth change } :=
  ⟨sketched.drafted.congr rfl rfl rfl, sketched.layout, Block.drawn_modify sketched.blocks changed⟩

end Sketched

namespace Compile

variable {α : Type} {origin : List Part} {floor : Int} {stage : Stage} {labels : List Label}
  {subject : Subject} {state : Compilation} {label : Label} {join arm : Layout}

theorem keeps_look {invariant : Subject → Compilation → Prop} {action : Compile α}
    (same : ∀ subject state, Ensures action subject state fun _ after => after = state) :
    Keeps invariant action anything := by
  intro subject state holds
  refine (same subject state).mono ?_
  rintro value _ rfl
  exact ⟨holds, trivial⟩

theorem sketched_modifyBlock {depth : Nat} {change : Block → Block}
    (changed : ∀ (output : Output) (block : Block), block.Drawn output → (change block).Drawn output) :
    Keeps (Sketched origin floor stage labels) (modifyBlock depth change) anything :=
  Keeps.modify fun _ _ sketched => sketched.modifyBlock fun block _ => changed _ block

/-- The layout is replaced by one that the frame provides. -/
theorem sketched_replace (stored : arm.Stored floor) :
    Keeps (Sketched origin floor stage labels) (modifyLayout fun _ => arm) anything :=
  Keeps.modify fun _ _ sketched => sketched.relayout (stored.mono sketched.drafted.room)

section Openings

theorem openBlock_sketches (kind : BlockKind) (results : List ValueType) {setUp : Block → Block}
    (sets : ∀ (output : Output) (block : Block), block.Drawn output → (setUp block).Drawn output)
    (sketched : Sketched origin floor stage labels subject state) :
    Ensures (openBlock kind results setUp) subject state fun _ after =>
      Sketched origin floor stage labels subject after := by
  unfold openBlock
  refine (newLabel_sketches sketched).andThen fun label first sketched => ?_
  refine (newLabel_sketches sketched).andThen fun elseLabel second sketched => ?_
  rw [ensures_modify]
  have known := sketched.drafted.known
  have drawn : Block.Drawn second.output
      { Block.opened second.blocks kind results with label, elseLabel } :=
    ⟨known label (by simp), known elseLabel (by simp), .empty _, by simp [Block.opened]⟩
  refine ⟨(sketched.drafted.forget ?_).congr rfl rfl rfl, sketched.layout, ?_⟩
  · exact fun _ member => List.mem_cons_of_mem _ (List.mem_cons_of_mem _ member)
  · exact List.forall_mem_cons.mpr ⟨sets _ _ drawn, sketched.blocks⟩

theorem sketched_enter (kind : BlockKind) (instr : Instr) :
    Keeps (Sketched origin floor stage labels) (enter kind instr) anything := by
  refine Keeps.demand (Keeps.get.andThen fun seen subject state sketched => ?_)
  refine (openBlock_sketches kind _ ?_ sketched).mono fun _ _ kept => ⟨kept, trivial⟩
  exact fun _ _ drawn => ⟨drawn.label, drawn.elseLabel, drawn.join.congr rfl, drawn.saved⟩

theorem sketching_lowerBlock (instr : Instr) :
    Keeps (Sketching origin floor stage labels) (lowerBlock instr) anything :=
  sketching_and (keeps_lowerBlock instr)
    ((sketched_enter _ _).andThen fun _ => sketched_record _)

theorem innermost_heads : Ensures innermost subject state fun block after =>
    after = state ∧ state.blocks[0]? = some block := by
  unfold innermost
  rw [ensures_bind, ensures_get]
  split
  · rename_i block outer opened
    exact ensures_pure.mpr ⟨rfl, by rw [opened]; rfl⟩
  · exact ensures_throw

theorem headed {action : Block → Compile α} {post : α → Compilation → Prop}
    (sketched : Sketched origin floor stage labels subject state)
    (rest : ∀ block, state.blocks[0]? = some block → block.Drawn state.output →
      Ensures (action block) subject state post) :
    Ensures (do
      let block ← innermost
      action block) subject state post := by
  refine innermost_heads.andThen ?_
  rintro block _ ⟨rfl, found⟩
  exact rest block found (sketched.blocks block (List.mem_of_getElem? found))

theorem lowerLoop_sketches (instr : Instr)
    (sketched : Sketched origin floor (.body 0) labels subject state) :
    Ensures (lowerLoop instr) subject state fun _ after =>
      Sketched origin floor (.body 0) labels subject after := by
  unfold lowerLoop
  refine (sketched_enter _ _ subject state sketched).andThen fun _ opened kept => ?_
  rw [ensures_bind]
  refine (sketched_of_spilling (fun _ _ _ _ => spilling_spillLocals) subject opened kept.1).mono
    fun _ spilled kept => ?_
  refine (sketched_record _ subject spilled kept.1).andThen fun _ noted kept => ?_
  refine headed kept.1 fun block found drawn => ?_
  rw [ensures_bind]
  refine (kept.1.along drawn.label (sketched_bind 0 List.mem_cons_self)).mono
    fun _ bound kept => ?_
  rw [ensures_bind, ensures_get, ensures_modifyBlock]
  exact kept.modifyBlock fun _ _ drawn =>
    ⟨drawn.label, drawn.elseLabel, kept.layout.congr rfl, drawn.saved⟩

theorem sketching_lowerLoop (instr : Instr) :
    Keeps (Sketching origin floor (.body 0) labels) (lowerLoop instr) anything :=
  keeps_sketching (keeps_lowerLoop instr) fun _ _ sketching =>
    lowerLoop_sketches instr sketching.sketched

theorem sketching_lowerIf (instr : Instr) :
    Keeps (Sketching origin floor (.body 0) labels) (lowerIf instr) anything := by
  refine keeps_sketching (keeps_lowerIf instr) fun subject state sketching => ?_
  unfold lowerIf
  refine (expect_above sketching.books 0 .i32).andThen ?_
  rintro _ after ⟨rfl, _⟩
  rw [ensures_bind]
  refine (popRegister_sketches sketching.books sketching.sketched _).mono
    fun condition popped kept => ?_
  refine (sketched_enter _ _ subject popped kept).andThen fun _ opened kept => ?_
  refine (sketched_record _ subject opened kept.1).andThen fun _ noted kept => ?_
  refine headed kept.1 fun block found drawn => ?_
  rw [ensures_bind]
  refine (kept.1.along drawn.elseLabel (sketched_branchIfZero _ 0 List.mem_cons_self)).mono
    fun _ jumped kept => ?_
  rw [ensures_bind, ensures_get, ensures_modifyBlock]
  refine kept.modifyBlock fun _ _ drawn => ⟨drawn.label, drawn.elseLabel, drawn.join, ?_⟩
  rintro layout saved
  cases saved
  exact kept.layout

end Openings

section Endings

/-- The else arm starts with the layout after the condition, which the frame provides. -/
theorem startArm_sketches (known : label ∈ labels) (stored : arm.Stored floor) :
    Keeps (Sketched origin floor (.body 0) labels) (startArm label arm) anything := by
  refine (sketched_modifyBlock ?_).andThen fun _ => (sketched_bind 0 known).andThen fun _ =>
    (keeps_look fun _ _ => blockAt_same 1).andThen fun parent =>
    (sketched_replace stored).andThen fun _ => sketched_modifyBlock ?_
  · exact fun _ _ drawn => ⟨drawn.label, drawn.elseLabel, drawn.join, drawn.saved⟩
  · exact fun _ _ drawn => ⟨drawn.label, drawn.elseLabel, drawn.join, by simp⟩

theorem joinBlock_then {depth : Nat} {block : Block} {merge rest : Compile Unit}
    {mark : Block → Block} {post : Unit → Compilation → Prop}
    (sketched : Sketched origin floor (.body 0) labels subject state)
    (found : state.blocks[depth]? = some block)
    (merges : ∀ middle : Compilation, middle.output = state.output →
      Ensures merge subject middle fun _ after => Adapts join 0 middle after)
    (marks : ∀ (output : Output) (block : Block), block.Drawn output → (mark block).Drawn output)
    (goes : ∀ after, Sketched origin floor (.body 0) labels subject after →
      Ensures rest subject after post) :
    Ensures (do
      modifyBlock depth ({ · with join })
      merge
      branch block.label depth
      modifyBlock depth mark
      rest) subject state post := by
  have arrives := joinBlock_sketches sketched found merges marks
  have joined : Ensures ((do
      modifyBlock depth ({ · with join })
      merge
      branch block.label depth
      modifyBlock depth mark) >>= fun _ => rest) subject state post := by
    exact arrives.andThen fun _ after kept => goes after kept.1
  simpa only [bind_assoc] using joined

theorem sketching_lowerElse :
    Keeps (Sketching origin floor (.body 0) labels) lowerElse anything := by
  refine keeps_sketching keeps_lowerElse fun subject state sketching => ?_
  have books := sketching.books
  have sketched := sketching.sketched
  rw [lowerElse_eq]
  refine headed sketched fun block found drawn => ?_
  have kept := books.blocks block (List.mem_of_getElem? found)
  refine ensures_ite.mpr ⟨fun _ => ensures_bind.mpr ensures_throw, fun kind => ?_⟩
  have branches : block.kind = .ifThen := by simpa using kind
  obtain ⟨arm, armed⟩ := Option.ne_none_iff_exists'.mp (kept.armed branches)
  have armStored := drawn.saved arm armed
  unfold joinArms
  rw [armed, Option.getD_some]
  -- the label of the arm stays known, and the frame keeps providing the layout of the condition
  have starts : Keeps (Sketched origin state.output.frameSlots (.body 0)
      (block.elseLabel :: labels)) _ anything := startArm_sketches List.mem_cons_self armStored
  have lowers : ∀ after, Sketched origin state.output.frameSlots (.body 0)
      (block.elseLabel :: labels) subject after → Sketched origin floor (.body 0) labels subject
        after := fun after kept =>
    (kept.lower sketched.drafted.room).forget fun _ => List.mem_cons_of_mem _
  have whole := sketched.raise.learn drawn.elseLabel
  refine ensures_ite.mpr ⟨fun _ => ?_, fun _ => ?_⟩
  · have merges : ∀ join : Layout, join.Sound → join.Known → ∀ middle : Compilation,
        middle.output = state.output → Ensures (mergeAll join state.layout) subject middle
          fun _ after => Adapts join 0 middle after := fun join sound known middle same =>
      mergeAll_joins sound known (same ▸ sketched.layout)
    have ends : ∀ (output : Output) (block : Block), block.Drawn output →
        { block with endReached := true }.Drawn output := fun _ _ drawn =>
      ⟨drawn.label, drawn.elseLabel, drawn.join, drawn.saved⟩
    rw [ensures_bind, ensures_get]
    refine ensures_ite.mpr ⟨fun _ => ?_, fun fresh => ?_⟩
    · rw [pure_bind]
      refine joinBlock_then whole found (merges _ kept.sound drawn.join.known) ends ?_
      exact fun after kept => (starts subject after kept).mono fun _ after kept =>
        lowers after kept.1
    · have blank := kept.fresh (by simp [branches]) (by simpa using fresh)
      refine (initJoin_known _ kept.floor blank books.sound).andThen ?_
      rintro join _ ⟨rfl, sound, known⟩
      refine joinBlock_then whole found (merges _ sound known) ends ?_
      exact fun after kept => (starts subject after kept).mono fun _ after kept =>
        lowers after kept.1
  · exact (starts subject state whole).mono fun _ after kept => lowers after kept.1

theorem sketched_needSlot (index : Int) :
    Keeps (Sketched origin floor stage labels) (needSlot index) anything :=
  sketched_of_drafted (.needSlot index) fun _ _ _ _ =>
    Keeps.modify fun _ _ drafted => (drafted.slot index).lower (Int.le_max_left _ _)

/-- The results of dead code are slots that the frame provides. -/
theorem sketched_resetToResults (block : Block) :
    Keeps (Sketched origin floor stage labels) (resetToResults block) anything := by
  refine (sketched_modifyLayout fun _ _ stored => stored.dropTo _ _).andThen fun _ =>
    Keeps.andThen (.forIn fun type _ => ?_) fun _ => .done
  intro subject state sketched
  rw [ensures_bind, ensures_get, ensures_bind, ensures_needSlot, ensures_bind, ensures_modifyLayout,
    ensures_pure]
  have grown := ensures_needSlot.mp
    (sketched_needSlot state.layout.height subject state sketched)
  refine ⟨grown.1.relayout (grown.1.layout.push (by simp [Slot.inFrame]) fun _ => ?_), rfl⟩
  exact Output.lt_needSlot state.output state.layout.height

theorem mergeAll_sketches {arriving : Layout} (sound : join.Sound) (known : join.Known)
    (stored : arriving.Stored state.output.frameSlots)
    (sketched : Sketched origin floor (.body 0) labels subject state) :
    Ensures (mergeAll join arriving) subject state fun _ after =>
      Sketched origin floor (.body 0) labels subject after ∧
        join.Stored after.output.frameSlots := by
  refine (@mergeAll_joins _ _ 0 _ _ sound known stored).mono fun _ after adapts =>
    ⟨?_, adapts.stored⟩
  rw [adapts.unchanged]
  exact sketched.lays adapts.lays

theorem finishArm_sketches {reached : Bool} (known : label ∈ labels) (stored : arm.Stored floor)
    (joins : reached = true → join.Sound ∧ join.Known) :
    Keeps (Sketched origin floor (.body 0) labels) (do
      bind label 0
      if reached then
        mergeAll join arm
        modifyLayout fun _ => join
      else modifyLayout fun _ => arm) anything := by
  refine (sketched_bind 0 known).andThen fun _ => ?_
  split
  · rename_i goes
    obtain ⟨sound, recognised⟩ := joins goes
    intro subject state sketched
    refine (mergeAll_sketches sound recognised (stored.mono sketched.drafted.room) sketched).andThen ?_
    rintro _ after ⟨kept, provided⟩
    exact ensures_modifyLayout.mpr ⟨kept.relayout provided, trivial⟩
  · exact sketched_replace stored

theorem finishOneArmed_sketches (sketched : Sketched origin floor (.body 0) labels subject state)
    {block : Block} (drawn : block.Drawn state.output) (kept : block.Kept subject.locals)
    (branches : block.kind = .ifThen) :
    Ensures (finishOneArmed block) subject state fun _ after =>
      Sketched origin floor (.body 0) labels subject after := by
  obtain ⟨arm, armed⟩ := Option.ne_none_iff_exists'.mp (kept.armed branches)
  obtain ⟨armSound, _⟩ := kept.saved arm armed
  have whole := (sketched.raise.learn drawn.label).learn drawn.elseLabel
  have lowers : ∀ after, Sketched origin state.output.frameSlots (.body 0)
      (block.elseLabel :: block.label :: labels) subject after →
      Sketched origin floor (.body 0) labels subject after := fun after kept =>
    (kept.lower sketched.drafted.room).forget fun _ member =>
      List.mem_cons_of_mem _ (List.mem_cons_of_mem _ member)
  rw [finishOneArmed_eq]
  refine ensures_ite.mpr ⟨fun _ => ensures_bind.mpr ensures_throw, fun _ => ?_⟩
  rw [armed, Option.getD_some]
  have finish : ∀ join : Layout, join.Sound → join.Known →
      Ensures (joinMissing block arm join) subject state fun _ after =>
          Sketched origin floor (.body 0) labels subject after := by
    intro join sound known
    have skips : Keeps (Sketched origin state.output.frameSlots (.body 0)
        (block.elseLabel :: block.label :: labels)) _ anything :=
      @finishArm_sketches _ _ _ _ _ _ (block.endReached || block.isReached) List.mem_cons_self
        (drawn.saved arm armed) fun _ => ⟨sound, known⟩
    refine ensures_ite.mpr ⟨fun _ => ?_, fun _ => ?_⟩
    · rw [ensures_bind, ensures_get, ensures_bind]
      refine (mergeAll_sketches sound known sketched.layout whole).mono ?_
      rintro _ merged ⟨kept, _⟩
      refine ((sketched_branch 0 (by simp)).andThen (fun _ => skips) subject merged kept).mono ?_
      exact fun _ after kept => lowers after kept.1
    · exact (skips subject state whole).mono fun _ after kept => lowers after kept.1
  refine ensures_ite.mpr ⟨fun fresh => ?_, fun _ => ?_⟩
  · simp only [Bool.and_eq_true, Bool.not_eq_true'] at fresh
    rw [ensures_bind]
    have blank := kept.fresh (by simp [branches]) fresh.1
    refine (initJoin_known 0 kept.floor blank armSound).mono ?_
    rintro join _ ⟨rfl, sound, known⟩
    exact finish join sound known
  · exact ensures_bind.mpr (ensures_pure.mpr (finish block.join kept.sound drawn.join.known))

theorem keeps_endHeight (block : Block) {invariant : Subject → Compilation → Prop} :
    Keeps invariant (demandEndHeight block) anything :=
  Keeps.get.andThen fun _ => .ite .throw .done

theorem settleEnd_sketches (sketched : Sketched origin floor (.body 0) labels subject state)
    {block : Block} (drawn : block.Drawn state.output) (kept : block.Kept subject.locals) :
    Ensures (settleEnd block) subject state fun _ after =>
      Sketched origin floor (.body 0) labels subject after := by
  unfold settleEnd
  refine ensures_ite.mpr ⟨fun oneArmed => ?_, fun _ => ensures_ite.mpr ⟨fun _ => ?_, fun _ =>
    ensures_ite.mpr ⟨fun _ => ensures_ite.mpr ⟨fun _ => ?_, fun _ => ?_⟩, fun _ => ?_⟩⟩⟩
  · exact finishOneArmed_sketches sketched drawn kept
      (by simpa [Block.isOneArmed] using oneArmed)
  · exact (sketched_resetToResults block subject state sketched).mono fun _ _ => And.left
  · rw [ensures_bind, ensures_get, ensures_bind]
    refine (mergeAll_sketches kept.sound drawn.join.known sketched.layout sketched).mono ?_
    rintro _ merged ⟨kept, provided⟩
    exact ensures_modifyLayout.mpr (kept.relayout provided)
  · exact ensures_modifyLayout.mpr (sketched.relayout drawn.join)
  · exact (keeps_endHeight block subject state sketched).mono fun _ _ => And.left

theorem sketched_closeBlock :
    Keeps (Sketched origin floor stage labels) closeBlock anything := by
  refine Keeps.modify fun subject state sketched => ?_
  refine ⟨sketched.drafted.congr rfl rfl rfl, sketched.layout, fun block member => ?_⟩
  exact sketched.blocks block (List.mem_of_mem_tail member)

theorem endBlock_sketches (sketched : Sketched origin floor (.body 0) labels subject state)
    {block : Block} (drawn : block.Drawn state.output) (kept : block.Kept subject.locals) :
    Ensures (endBlock block) subject state fun _ after =>
      Sketched origin floor (.body 0) labels subject after := by
  have close : Keeps (Sketched origin floor (.body 0) (block.label :: labels)) (leaveBlock block)
      anything := by
    refine sketched_closeBlock.andThen fun _ => sketched_reach 0 fun parent => ?_
    split
    · exact ⟨.specOnly, rfl⟩
    · exact ⟨parent.reach, rfl⟩
  rw [endBlock_eq]
  refine (settleEnd_sketches (sketched.learn drawn.label) drawn kept).andThen ?_
  intro _ settled kept
  have ends := (sketched_record (.controlEnd block.kind)).andThen fun _ =>
    @Keeps.ite _ _ _ (block.kind ≠ .loop) _ _ _
      ((sketched_bind 0 List.mem_cons_self).andThen fun _ => close) close
  exact (ends subject settled kept).mono fun _ _ final =>
    final.1.forget fun _ => List.mem_cons_of_mem _

theorem sketching_endFunction (block : Block) :
    Keeps (Sketching origin floor (.body 0) labels) (endFunction block) anything := by
  have close : Keeps (Sketching origin floor (.body 0) labels) (do
      record (.controlEnd block.kind)
      closeBlock) anything :=
    sketching_and ((Books.idle (.record _)).andThen fun _ => keeps_closeBlock)
      ((sketched_record _).andThen fun _ => sketched_closeBlock)
  refine .ite ?_ close
  exact (keeps_endHeight block).andThen fun _ => sketching_return.andThen fun _ => close

theorem sketching_lowerEnd :
    Keeps (Sketching origin floor (.body 0) labels) lowerEnd anything := by
  refine keeps_sketching keeps_lowerEnd fun subject state sketching => ?_
  refine headed sketching.sketched fun block found drawn => ?_
  rw [ensures_bind, ensures_get]
  refine ensures_ite.mpr ⟨fun _ => ?_, fun _ => ?_⟩
  · exact (sketching_endFunction block subject state sketching).mono fun _ _ kept =>
      kept.1.sketched
  · exact endBlock_sketches sketching.sketched drawn
      (sketching.books.blocks block (List.mem_of_getElem? found))

end Endings

end Compile

end WasmX64
