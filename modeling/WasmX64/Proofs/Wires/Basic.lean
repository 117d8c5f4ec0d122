import WasmX64.Proofs.Compile.Calm

/-!
# Wires

The labels of a compilation belong to the open blocks and to the stubs.  `Wires` says what a
field that waits for a label is waiting for: the end of a nested block, the else arm of an
`if`, a stub, or one of some further labels.  Code at `idle` offsets is never executed.  The
other code uses the labels of a block only if the block itself lies in code that is
executed, and the end of a block only if the block records that its end is reached.
-/

namespace WasmX64

/-- The instruction that opens the frame, behind the two that save the frame pointer. -/
def frameOpening : Placed := ⟨4, .plain (.enterFrame 0)⟩

/-- The labels that a block has yet to fix. -/
def Block.Awaits (block : Block) (target : Label) : Prop :=
  block.kind ≠ .loop ∧ target = block.label ∨ block.kind = .ifThen ∧ target = block.elseLabel

/-- A nested block has yet to fix a label, and may have it used in code that is executed if
that is asked for. -/
def Awaited (blocks : List Block) (live : Prop) (target : Label) : Prop :=
  ∃ index inner outer, blocks[index]? = some inner ∧ blocks[index + 1]? = some outer ∧
    inner.Awaits target ∧
    (live → outer.isReached = true ∧ (target = inner.label → inner.endReached = true))

/-- Code that is executed lies in blocks that are. -/
def Enclosed (blocks : List Block) : Prop :=
  ∀ (index further : Nat) (inner outer : Block), index < further →
    blocks[index]? = some inner → blocks[further]? = some outer →
    inner.isReached = true → outer.isReached = true

theorem Enclosed.tail {block : Block} {outer : List Block} (nested : Enclosed (block :: outer)) :
    Enclosed outer :=
  fun index further inner parent below here there =>
    nested (index + 1) (further + 1) inner parent (Nat.succ_lt_succ below) here there

theorem Enclosed.all {block : Block} {outer : List Block} (nested : Enclosed (block :: outer))
    (reached : block.isReached = true) : ∀ other ∈ block :: outer, other.isReached = true := by
  intro other member
  cases List.mem_cons.mp member with
  | inl here => exact here ▸ reached
  | inr there =>
    obtain ⟨index, found⟩ := List.getElem?_of_mem there
    exact nested 0 (index + 1) block other (Nat.succ_pos _) rfl found reached

namespace Compilation

/-- The labels of the open blocks and of the stubs. -/
def owned (state : Compilation) : List Label :=
  state.blocks.flatMap (fun block => [block.label, block.elseLabel]) ++
    state.stubs.toList.map TrapStub.label

def Stubbed (state : Compilation) (label : Label) : Prop :=
  ∃ stub ∈ state.stubs, stub.label = label

/-- What a far field may wait for: no label that is `gone`, and one of some `extra` labels, a
stub or a block.  Near fields do not wait. -/
def Accepts (state : Compilation) (idle : Nat → Prop) (extra gone : List Label) (use : Use) :
    Prop :=
  use.distance = .far ∧ use.target ∉ gone ∧
    (use.target ∈ extra ∨ state.Stubbed use.target ∨
      Awaited state.blocks (¬ idle use.site) use.target)

end Compilation

/-- All labels of the open blocks and stubs are known and distinct, code in a block that is
executed lies in blocks that are, and as long as the code has no error its fields wait for
labels that will be fixed. -/
structure Wires (idle : Nat → Prop) (extra gone : List Label) (lands : Landing → Prop)
    (state : Compilation) : Prop where
  distinct : state.owned.Nodup
  known : ∀ label ∈ extra ++ state.owned, label.index < state.output.code.labels.size
  nested : Enclosed state.blocks
  wired : state.output.code.error = none → state.output.code.size < 2147483648 →
    state.output.code.Wired [frameOpening] (state.Accepts idle extra gone) lands
  loops : state.output.code.error = none → ∀ block ∈ state.blocks, block.kind = .loop →
    block.label ∈ gone ∨ (state.output.code.label block.label).isBound = true

theorem Awaited.mem {blocks : List Block} {live : Prop} {target : Label}
    (awaited : Awaited blocks live target) :
    ∃ block ∈ blocks, target = block.label ∨ target = block.elseLabel := by
  obtain ⟨index, inner, outer, found, _, waits, _⟩ := awaited
  exact ⟨inner, List.mem_of_getElem? found, waits.imp And.right And.right⟩

namespace Compilation

variable {state after : Compilation} {idle : Nat → Prop} {extra gone : List Label}

theorem mem_owned {label : Label} :
    label ∈ state.owned ↔ (∃ block ∈ state.blocks, label = block.label ∨ label = block.elseLabel) ∨
      state.Stubbed label := by
  simp [owned, Stubbed]

theorem Accepts.mem {use : Use} (accepts : state.Accepts idle extra gone use) :
    use.target ∈ extra ++ state.owned := by
  rw [List.mem_append, mem_owned]
  obtain ⟨_, _, waits⟩ := accepts
  rcases waits with further | stubbed | awaited
  · exact .inl further
  · exact .inr (.inr stubbed)
  · exact .inr (.inl awaited.mem)

theorem Accepts.congr {use : Use} (accepts : state.Accepts idle extra gone use)
    (blocks : after.blocks = state.blocks) (stubs : after.stubs = state.stubs) :
    after.Accepts idle extra gone use := by
  unfold Accepts Stubbed at *
  rw [blocks, stubs]
  exact accepts

end Compilation

namespace Wires

variable {idle : Nat → Prop} {extra gone : List Label} {lands further : Landing → Prop}
  {state after : Compilation}

theorem mono (wires : Wires idle extra gone lands state)
    (weaker : ∀ landing, lands landing → further landing) :
    Wires idle extra gone further state := by
  constructor
  · exact wires.distinct
  · exact wires.known
  · exact wires.nested
  · intro fine small
    exact (wires.wired fine small).mono (fun _ => id) weaker
  · exact wires.loops

theorem grow (wires : Wires idle extra gone lands state)
    (blocks : after.blocks = state.blocks) (stubs : after.stubs = state.stubs)
    (grows : state.output.code.Extends after.output.code)
    (wired : state.output.code.Wired [frameOpening] (state.Accepts idle extra gone) lands →
      after.output.code.error = none → after.output.code.size < 2147483648 →
      after.output.code.Wired [frameOpening] (state.Accepts idle extra gone) further) :
    Wires idle extra gone further after := by
  have owned : after.owned = state.owned := by
    rw [Compilation.owned, Compilation.owned, blocks, stubs]
  constructor
  · rw [owned]
    exact wires.distinct
  · intro label member
    rw [owned] at member
    exact Nat.lt_of_lt_of_le (wires.known label member) grows.count
  · rw [blocks]
    exact wires.nested
  · intro fine small
    have before := wires.wired (grows.error fine) (Nat.lt_of_le_of_lt grows.size small)
    apply (wired before fine small).mono
    · intro use accepts
      exact accepts.congr blocks stubs
    · exact fun _ => id
  · intro fine block member kind
    rw [blocks] at member
    exact (wires.loops (grows.error fine) block member kind).imp_right grows.isBound

/-- Nothing but layouts and records changes. -/
theorem congr (wires : Wires idle extra gone lands state)
    (blocks : after.blocks = state.blocks) (stubs : after.stubs = state.stubs)
    (code : after.output.code = state.output.code) : Wires idle extra gone lands after := by
  apply wires.grow blocks stubs
  · rw [code]
    exact .refl _
  · intro wired _ _
    rw [code]
    exact wired

/-- Every field that may wait waits for a known label. -/
theorem within (wires : Wires idle extra gone lands state) (use : Use)
    (accepts : state.Accepts idle extra gone use) :
    use.target.index < state.output.code.labels.size :=
  wires.known _ accepts.mem

section Emit

variable {labels : List Label} {steps : List Step}

/-- Labels that the code to come may jump to. -/
def Usable (state : Compilation) (idle : Nat → Prop) (extra gone labels : List Label) : Prop :=
  state.output.code.error = none →
    state.output.code.Permits (state.Accepts idle extra gone) state.output.code.size labels

theorem usable_nil : Usable state idle extra gone [] := by
  intro _ label member
  cases member

theorem usable_extra (wires : Wires idle extra gone lands state) {label : Label}
    (listed : label ∈ extra) (present : label ∉ gone) :
    Usable state idle extra gone [label] := by
  intro _ other member
  rw [List.mem_singleton.mp member]
  refine ⟨wires.known label (List.mem_append_left _ listed), .inr ?_⟩
  intro field far _
  exact ⟨far, present, .inl listed⟩

theorem usable_bound {label : Label} (known : label.index < state.output.code.labels.size)
    (bound : state.output.code.error = none → (state.output.code.label label).isBound = true) :
    Usable state idle extra gone [label] := by
  intro fine other member
  rw [List.mem_singleton.mp member]
  exact ⟨known, .inl (bound fine)⟩

theorem emit (wires : Wires idle extra gone lands state) (closed : Sequence.Closed labels steps)
    (usable : Usable state idle extra gone labels)
    (ends : ∀ landing : Landing, state.output.code.size ≤ landing.site → lands landing) :
    Wires idle extra gone lands { state with output := state.output.emit steps } := by
  apply wires.grow
  · rfl
  · rfl
  · exact .place _ steps
  · intro wired fine small
    have sound := (Code.Extends.place state.output.code steps).error fine
    exact wired.place closed wires.within (usable sound) ends fine small

/-- Behind code without places no field leads to the end. -/
theorem emitForward (wires : Wires idle extra gone lands state)
    (resolves : ∀ step ∈ steps, step.Resolves labels [])
    (usable : Usable state idle extra gone labels) :
    Wires idle extra gone (fun landing => steps = [] ∧ lands landing)
      { state with output := state.output.emit steps } := by
  apply wires.grow
  · rfl
  · rfl
  · exact .place _ steps
  · intro wired fine small
    have sound := (Code.Extends.place state.output.code steps).error fine
    exact wired.place_forward resolves wires.within (usable sound) fine small

theorem emitStraight (wires : Wires idle extra gone lands state)
    (straight : Sequence.Straight steps) :
    Wires idle extra gone lands { state with output := state.output.emit steps } := by
  exact (wires.emitForward straight.resolves usable_nil).mono fun _ ends => ends.2

theorem loadRef (wires : Wires idle extra gone lands state) {refs : Array Reference}
    (target : Register) (imm : UInt64) :
    Wires idle extra gone lands
      { state with
        output := { state.output with code := (state.output.code.loadWide target imm).2 }
        refs } := by
  rw [Code.loadWide_eq]
  apply wires.grow
  · rfl
  · rfl
  · exact .emit _ _
  · intro wired fine small
    exact (wired.emit (by rfl) fine).fewer.anywhere

end Emit

section Labels

variable {label : Label}

/-- A label that is not in the table yet belongs to nothing. -/
theorem fresh (wires : Wires idle extra gone lands state) :
    state.output.code.newLabel.1 ∉ extra ++ state.owned := by
  intro member
  exact Nat.lt_irrefl _ (wires.known _ member)

/-- One more label, which nothing waits for yet. -/
theorem newLabel (wires : Wires idle extra gone lands state) :
    Wires idle extra (state.output.code.newLabel.1 :: gone) lands
      { state with output := { state.output with code := state.output.code.newLabel.2 } } := by
  have table : state.output.code.newLabel.2 = state.output.code.reserve 1 := by
    simp [Code.newLabel, Code.reserve]
  rw [table]
  have larger : Wires idle extra gone lands
      { state with output := { state.output with code := state.output.code.reserve 1 } } := by
    apply wires.grow
    · rfl
    · rfl
    · exact Code.Extends.grow state.output.code 1
    · intro wired _ _
      exact wired.grow 1
  constructor
  · exact larger.distinct
  · exact larger.known
  · exact larger.nested
  · intro fine small
    apply (larger.wired fine small).mono
    · intro use accepts
      obtain ⟨far, stays, waits⟩ := accepts
      refine ⟨far, ?_, waits⟩
      intro member
      cases List.mem_cons.mp member with
      | inl here => exact wires.fresh (here ▸ Compilation.Accepts.mem ⟨far, stays, waits⟩)
      | inr there => exact stays there
    · exact fun _ => id
  · intro fine block member kind
    exact (larger.loops fine block member kind).imp_left (List.mem_cons_of_mem _)

/-- The start of a loop cannot be taken back. -/
def Looped (state : Compilation) (label : Label) : Prop :=
  state.output.code.error = none → ∀ block ∈ state.blocks, block.kind = .loop →
    block.label = label → (state.output.code.label label).isBound = true

theorem looped_of_fresh (apart : label ∉ state.owned) : Looped state label := by
  intro _ block member _ same
  apply absurd _ apart
  rw [Compilation.mem_owned]
  exact .inl ⟨block, member, .inl same.symm⟩

/-- A label that nothing waits for may be waited for again. -/
theorem reclaim (wires : Wires idle extra (label :: gone) lands state)
    (looped : Looped state label) : Wires idle extra gone lands state := by
  constructor
  · exact wires.distinct
  · exact wires.known
  · exact wires.nested
  · intro fine small
    apply (wires.wired fine small).mono
    · intro use accepts
      obtain ⟨far, stays, waits⟩ := accepts
      exact ⟨far, fun member => stays (List.mem_cons_of_mem _ member), waits⟩
    · exact fun _ => id
  · intro fine block member kind
    rcases wires.loops fine block member kind with listed | bound
    · cases List.mem_cons.mp listed with
      | inl here => exact .inr (here ▸ looped fine block member kind here)
      | inr there => exact .inl there
    · exact .inr bound

theorem allow (wires : Wires idle extra gone lands state)
    (known : label.index < state.output.code.labels.size) :
    Wires idle (label :: extra) gone lands state := by
  constructor
  · exact wires.distinct
  · intro other member
    rw [List.cons_append] at member
    cases List.mem_cons.mp member with
    | inl here => exact here ▸ known
    | inr there => exact wires.known other there
  · exact wires.nested
  · intro fine small
    apply (wires.wired fine small).mono
    · intro use accepts
      obtain ⟨far, stays, waits⟩ := accepts
      exact ⟨far, stays, waits.imp_left (List.mem_cons_of_mem _)⟩
    · exact fun _ => id
  · exact wires.loops

/-- A label may be used only as far as blocks and stubs say. -/
theorem drop (wires : Wires idle (label :: extra) gone lands state)
    (covered : ∀ use : Use, use.target = label → use.distance = .far → use.target ∉ gone →
      state.output.code.error = none → (state.output.code.label label).isBound = false →
      state.Accepts idle extra gone use) :
    Wires idle extra gone lands state := by
  constructor
  · exact wires.distinct
  · intro other member
    exact wires.known other (List.mem_cons_of_mem _ member)
  · exact wires.nested
  · intro fine small
    obtain ⟨listing, pending, settled, assembled, items, accepted, landed⟩ :=
      wires.wired fine small
    refine ⟨listing, pending, settled, assembled, items, ?_, landed⟩
    intro use member
    obtain ⟨far, stays, waits⟩ := accepted use member
    by_cases here : use.target = label
    · exact covered use here far stays fine (here ▸ assembled.linked.unbound use member)
    · refine ⟨far, stays, waits.imp_left ?_⟩
      intro listed
      exact (List.mem_cons.mp listed).resolve_left here
  · exact wires.loops

theorem dropGone (wires : Wires idle (label :: extra) gone lands state) (absent : label ∈ gone) :
    Wires idle extra gone lands state := by
  apply wires.drop
  intro use here _ stays
  exact absurd (here ▸ absent) stays

theorem dropAll (wires : Wires idle extra gone lands state)
    (absent : ∀ label ∈ extra, label ∈ gone) : Wires idle [] gone lands state := by
  induction extra with
  | nil => exact wires
  | cons label rest ih =>
    apply ih (wires.dropGone (absent label List.mem_cons_self))
    intro other member
    exact absent other (List.mem_cons_of_mem _ member)

theorem reclaimAll (wires : Wires idle extra gone lands state)
    (apart : ∀ label ∈ gone, label ∉ state.owned) : Wires idle extra [] lands state := by
  induction gone with
  | nil => exact wires
  | cons label rest ih =>
    apply ih (wires.reclaim (looped_of_fresh (apart label List.mem_cons_self)))
    intro other member
    exact apart other (List.mem_cons_of_mem _ member)

theorem bind (wires : Wires idle extra gone lands state)
    (inside : label.index < state.output.code.labels.size) :
    Wires idle extra (label :: gone)
        (fun landing => lands landing ∨ state.Accepts idle extra gone ⟨landing.toField, label⟩)
        { state with output := state.output.emit [.bind (.label label)] } ∧
      ((state.output.emit [.bind (.label label)]).code.error = none →
        ((state.output.emit [.bind (.label label)]).code.label label).isBound = true) := by
  have code : (state.output.emit [.bind (.label label)]).code = state.output.code.bind label :=
    Code.place_bind _ _
  have grows := Code.Extends.bind state.output.code label
  constructor
  · have grown : Wires idle extra gone (fun _ => True)
        { state with output := state.output.emit [.bind (.label label)] } := by
      apply (wires.mono fun _ _ => trivial).grow
      · rfl
      · rfl
      · dsimp only
        rw [code]
        exact grows
      · dsimp only
        rw [code]
        intro wired fine small
        refine (wired.bind inside fine (Nat.lt_of_le_of_lt grows.size small)).mono ?_ ?_
        · intro use accepts
          exact accepts.1
        · exact fun _ _ => trivial
    constructor
    · exact grown.distinct
    · exact grown.known
    · exact grown.nested
    · dsimp only
      rw [code]
      intro fine small
      have shorter := Nat.lt_of_le_of_lt grows.size small
      refine ((wires.wired (grows.error fine) shorter).bind inside fine shorter).mono ?_ ?_
      · intro use accepts
        obtain ⟨⟨far, stays, waits⟩, different⟩ := accepts
        refine ⟨far, ?_, waits⟩
        intro member
        cases List.mem_cons.mp member with
        | inl here => exact different here
        | inr there => exact stays there
      · exact fun _ => id
    · intro fine block member kind
      exact (grown.loops fine block member kind).imp_left (List.mem_cons_of_mem _)
  · rw [code]
    exact fun _ => Code.isBound_bind inside

end Labels

section Blocks

/-- The blocks change, and what could be waited for still can be. -/
theorem reblock (wires : Wires idle extra gone lands state) {blocks : List Block}
    (distinct : Compilation.owned { state with blocks } |>.Nodup)
    (known : ∀ label ∈ Compilation.owned { state with blocks },
      label.index < state.output.code.labels.size)
    (nested : Enclosed blocks)
    (awaits : ∀ live target, target ∉ gone → Awaited state.blocks live target →
      Awaited blocks live target)
    (loops : state.output.code.error = none → ∀ block ∈ blocks, block.kind = .loop →
      block.label ∈ gone ∨ (state.output.code.label block.label).isBound = true) :
    Wires idle extra gone lands { state with blocks } := by
  constructor
  · exact distinct
  · intro label member
    cases List.mem_append.mp member with
    | inl here => exact wires.known label (List.mem_append_left _ here)
    | inr there => exact known label there
  · exact nested
  · intro fine small
    apply (wires.wired fine small).mono
    · intro use accepts
      obtain ⟨far, stays, waits⟩ := accepts
      exact ⟨far, stays, waits.imp_right fun others => others.imp_right (awaits _ _ stays)⟩
    · exact fun _ => id
  · exact loops

/-- A block that goes by the same labels and has yet to fix what was waited for. -/
structure Alike (gone : List Label) (before after : Block) : Prop where
  label : after.label = before.label
  elseLabel : after.elseLabel = before.elseLabel
  awaits : ∀ target, target ∉ gone → before.Awaits target → after.Awaits target
  loop : after.kind = .loop → before.kind = .loop
  ended : before.endReached = true → after.endReached = true

theorem Alike.of_kind {before after : Block} (label : after.label = before.label)
    (elseLabel : after.elseLabel = before.elseLabel) (kind : after.kind = before.kind)
    (ended : before.endReached = true → after.endReached = true) : Alike gone before after := by
  refine ⟨label, elseLabel, ?_, ?_, ended⟩
  · intro target _ waits
    rw [Block.Awaits, label, elseLabel, kind]
    exact waits
  · rw [kind]
    exact id

theorem flatMap_modify {blocks : List Block} {depth : Nat} {change : Block → Block}
    (alike : ∀ block, blocks[depth]? = some block → Alike gone block (change block)) :
    (blocks.modify depth change).flatMap (fun block => [block.label, block.elseLabel]) =
      blocks.flatMap fun block => [block.label, block.elseLabel] := by
  induction blocks generalizing depth with
  | nil => simp
  | cons block rest ih =>
    cases depth with
    | zero =>
      have same := alike block rfl
      simp [same.label, same.elseLabel]
    | succ depth =>
      rw [List.modify_succ_cons, List.flatMap_cons, List.flatMap_cons]
      rw [ih fun other found => alike other (by simpa using found)]

theorem modifyBlock (wires : Wires idle extra gone lands state) {depth : Nat}
    {change : Block → Block}
    (alike : ∀ block, state.blocks[depth]? = some block → Alike gone block (change block))
    (reach : ∀ block, state.blocks[depth]? = some block →
      (change block).reach = block.reach ∨ depth = 0 ∧ ((change block).isReached = true →
        ∀ outer ∈ state.blocks.tail, outer.isReached = true)) :
    Wires idle extra gone lands { state with blocks := state.blocks.modify depth change } := by
  have owned : Compilation.owned { state with blocks := state.blocks.modify depth change } =
      state.owned := by
    rw [Compilation.owned, Compilation.owned]
    exact congrArg (· ++ _) (flatMap_modify alike)
  have found : ∀ {index : Nat} {block : Block},
      (state.blocks.modify depth change)[index]? = some block →
      ∃ before, state.blocks[index]? = some before ∧
        block = if depth = index then change before else before := by
    intro index block here
    rw [List.getElem?_modify] at here
    obtain ⟨before, there, same⟩ := Option.map_eq_some_iff.mp here
    exact ⟨before, there, same.symm⟩
  -- outside the innermost block reachability stays
  have outer : ∀ {index : Nat} {block : Block}, 0 < index → state.blocks[index]? = some block →
      (if depth = index then change block else block).isReached = block.isReached := by
    intro index block positive here
    split
    · rename_i same
      subst same
      have stays := (reach block here).resolve_right fun zero => by omega
      rw [Block.isReached, Block.isReached, stays]
    · rfl
  apply wires.reblock
  · rw [owned]
    exact wires.distinct
  · intro label member
    rw [owned] at member
    exact wires.known label (List.mem_append_right _ member)
  · intro index further inner after below here there reached
    obtain ⟨before, innerFound, rfl⟩ := found here
    obtain ⟨beyond, outerFound, rfl⟩ := found there
    rw [outer (by omega) outerFound]
    cases index with
    | succ index =>
      rw [outer (Nat.succ_pos _) innerFound] at reached
      exact wires.nested _ _ _ _ below innerFound outerFound reached
    | zero =>
      split at reached
      · rename_i zero
        subst zero
        cases reach before innerFound with
        | inl same =>
          rw [Block.isReached, same] at reached
          exact wires.nested _ _ _ _ below innerFound outerFound reached
        | inr opens =>
          apply opens.2 reached
          obtain ⟨further, rfl⟩ := Nat.exists_eq_add_of_lt below
          rw [Nat.zero_add] at outerFound
          apply List.mem_of_getElem?
          rw [List.getElem?_tail]
          exact outerFound
      · exact wires.nested _ _ _ _ below innerFound outerFound reached
  · intro live target stays awaited
    obtain ⟨index, inner, parent, innerFound, outerFound, waits, used⟩ := awaited
    refine ⟨index, if depth = index then change inner else inner,
      if depth = index + 1 then change parent else parent, ?_, ?_, ?_, ?_⟩
    · rw [List.getElem?_modify, innerFound]
      rfl
    · rw [List.getElem?_modify, outerFound]
      rfl
    · split
      · rename_i same
        exact (alike inner (same ▸ innerFound)).awaits target stays waits
      · exact waits
    · intro alive
      obtain ⟨reached, ended⟩ := used alive
      rw [outer (Nat.succ_pos _) outerFound]
      refine ⟨reached, ?_⟩
      split
      · rename_i same
        have like := alike inner (same ▸ innerFound)
        rw [like.label]
        exact fun here => like.ended (ended here)
      · exact ended
  · intro fine block member kind
    obtain ⟨index, here⟩ := List.getElem?_of_mem member
    obtain ⟨before, there, rfl⟩ := found here
    split at kind
    · rename_i same
      have like := alike before (same ▸ there)
      rw [if_pos same, like.label]
      exact wires.loops fine before (List.mem_of_getElem? there) (like.loop kind)
    · rename_i different
      rw [if_neg different]
      exact wires.loops fine before (List.mem_of_getElem? there) kind

theorem enter (wires : Wires idle extra gone lands state) {block : Block}
    (known : block.label.index < state.output.code.labels.size ∧
      block.elseLabel.index < state.output.code.labels.size)
    (distinct : block.label ∉ state.owned ∧ block.elseLabel ∉ state.owned ∧
      block.label ≠ block.elseLabel)
    (absent : block.label ∈ gone)
    (reach : block.isReached = true → ∀ outer ∈ state.blocks, outer.isReached = true) :
    Wires idle extra gone lands { state with blocks := block :: state.blocks } := by
  have owned : Compilation.owned { state with blocks := block :: state.blocks } =
      block.label :: block.elseLabel :: state.owned := rfl
  apply wires.reblock
  · rw [owned]
    obtain ⟨first, second, different⟩ := distinct
    refine List.nodup_cons.mpr ⟨?_, List.nodup_cons.mpr ⟨second, wires.distinct⟩⟩
    intro member
    cases List.mem_cons.mp member with
    | inl same => exact different same
    | inr there => exact first there
  · intro label member
    rw [owned] at member
    rcases List.mem_cons.mp member with rfl | member
    · exact known.1
    · rcases List.mem_cons.mp member with rfl | member
      · exact known.2
      · exact wires.known _ (List.mem_append_right _ member)
  · intro index further inner outer below here there reached
    obtain ⟨further, rfl⟩ := Nat.exists_eq_succ_of_ne_zero (by omega : further ≠ 0)
    rw [List.getElem?_cons_succ] at there
    cases index with
    | zero =>
      cases here
      exact reach reached outer (List.mem_of_getElem? there)
    | succ index =>
      rw [List.getElem?_cons_succ] at here
      exact wires.nested _ _ _ _ (Nat.lt_of_succ_lt_succ below) here there reached
  · intro live target _ awaited
    obtain ⟨index, inner, outer, here, there, rest⟩ := awaited
    exact ⟨index + 1, inner, outer, here, there, rest⟩
  · intro fine other member kind
    cases List.mem_cons.mp member with
    | inl here => exact .inl (here ▸ absent)
    | inr there => exact wires.loops fine other there kind

/-- The innermost block is closed once nothing waits for its labels. -/
theorem close (wires : Wires idle extra gone lands state) {block : Block} {outer : List Block}
    (opened : state.blocks = block :: outer)
    (fixed : outer ≠ [] → ∀ target, block.Awaits target → target ∈ gone) :
    Wires idle extra gone lands { state with blocks := outer } := by
  have owned : state.owned = block.label :: block.elseLabel ::
      Compilation.owned { state with blocks := outer } := by
    rw [Compilation.owned, opened]
    rfl
  have distinct := wires.distinct
  rw [owned] at distinct
  apply wires.reblock
  · exact distinct.of_cons.of_cons
  · intro label member
    apply wires.known label
    rw [owned]
    exact List.mem_append_right _ (List.mem_cons_of_mem _ (List.mem_cons_of_mem _ member))
  · have nested := wires.nested
    rw [opened] at nested
    exact nested.tail
  · intro live target stays awaited
    rw [opened] at awaited
    obtain ⟨index, inner, parent, here, there, waits, used⟩ := awaited
    cases index with
    | zero =>
      cases here
      have some : outer ≠ [] := by
        rintro rfl
        cases there
      exact absurd (fixed some target waits) stays
    | succ index => exact ⟨index, inner, parent, here, there, waits, used⟩
  · intro fine other member kind
    exact wires.loops fine other (opened ▸ List.mem_cons_of_mem _ member) kind

theorem labels_differ (wires : Wires idle extra gone lands state) {block : Block}
    {outer : List Block} (opened : state.blocks = block :: outer) :
    block.elseLabel ≠ block.label := by
  have distinct := wires.distinct
  rw [Compilation.owned, opened] at distinct
  simp only [List.flatMap_cons, List.cons_append, List.nil_append, List.nodup_cons,
    List.mem_cons, not_or] at distinct
  exact Ne.symm distinct.1.1

theorem awaited_inner (wires : Wires idle extra gone lands state) {block parent : Block}
    {outer : List Block} (opened : state.blocks = block :: parent :: outer) {live : Prop}
    {target : Label} (here : target = block.label ∨ target = block.elseLabel)
    (awaited : Awaited state.blocks live target) :
    live → parent.isReached = true ∧ (target = block.label → block.endReached = true) := by
  have distinct := wires.distinct
  have owned : state.owned = block.label :: block.elseLabel ::
      Compilation.owned { state with blocks := parent :: outer } := by
    rw [Compilation.owned, opened]
    rfl
  rw [owned] at distinct
  obtain ⟨index, inner, beyond, innerFound, outerFound, waits, used⟩ := awaited
  rw [opened] at innerFound outerFound
  cases index with
  | zero =>
    cases innerFound
    cases outerFound
    exact used
  | succ index =>
    have member : inner ∈ parent :: outer := List.mem_of_getElem? innerFound
    have among : target ∈ Compilation.owned { state with blocks := parent :: outer } := by
      rw [Compilation.mem_owned]
      exact .inl ⟨inner, member, waits.imp And.right And.right⟩
    rcases here with rfl | rfl
    · exact absurd (List.mem_cons_of_mem _ among) (List.nodup_cons.mp distinct).1
    · exact absurd among (List.nodup_cons.mp distinct.of_cons).1

theorem not_stubbed (wires : Wires idle extra gone lands state) {block : Block} {target : Label}
    (member : block ∈ state.blocks) (here : target = block.label ∨ target = block.elseLabel) :
    ¬ state.Stubbed target := by
  rintro ⟨stub, among, same⟩
  obtain ⟨_, _, apart⟩ := List.nodup_append.mp wires.distinct
  refine apart target ?_ target ?_ rfl
  · rw [List.mem_flatMap]
    refine ⟨block, member, ?_⟩
    rw [List.mem_cons, List.mem_singleton]
    exact here
  · rw [List.mem_map]
    exact ⟨stub, Array.mem_toList_iff.mpr among, same⟩

/-- A field in code that is executed waits for a label of the innermost block only if the code
around that block is executed. -/
theorem accepts_inner (wires : Wires idle extra gone lands state) {block parent : Block}
    {outer : List Block} (opened : state.blocks = block :: parent :: outer) {use : Use}
    (accepts : state.Accepts idle extra gone use)
    (here : use.target = block.label ∨ use.target = block.elseLabel)
    (further : use.target ∉ extra) (awake : ¬ idle use.site) :
    parent.isReached = true ∧ (use.target = block.label → block.endReached = true) := by
  obtain ⟨_, _, listed | stubbed | awaited⟩ := accepts
  · exact absurd listed further
  · exact absurd stubbed (wires.not_stubbed (opened ▸ List.mem_cons_self) here)
  · exact wires.awaited_inner opened here awaited awake

end Blocks

theorem addTrap (wires : Wires idle extra gone lands state) (kind : TrapKind) (instr : Int) :
    Wires idle extra gone lands
      { state with
        output := { state.output with code := state.output.code.newLabel.2 }
        stubs := state.stubs.push ⟨state.output.code.newLabel.1, kind, instr⟩ } := by
  have labelled := wires.newLabel.reclaim
    (looped_of_fresh fun member => wires.fresh (List.mem_append_right _ member))
  have owned : Compilation.owned
      { state with
        output := { state.output with code := state.output.code.newLabel.2 }
        stubs := state.stubs.push ⟨state.output.code.newLabel.1, kind, instr⟩ } =
      state.owned ++ [state.output.code.newLabel.1] := by
    simp [Compilation.owned]
  constructor
  · rw [owned]
    apply List.nodup_append.mpr
    refine ⟨wires.distinct, by simp, ?_⟩
    intro label member other same
    rw [List.mem_singleton.mp same]
    intro equal
    exact wires.fresh (List.mem_append_right _ (equal ▸ member))
  · rw [owned]
    intro label member
    rw [← List.append_assoc] at member
    cases List.mem_append.mp member with
    | inl before => exact labelled.known label before
    | inr here =>
      rw [List.mem_singleton.mp here]
      simp [Code.newLabel]
  · exact wires.nested
  · intro fine small
    apply (labelled.wired fine small).mono
    · intro use accepts
      obtain ⟨far, stays, waits⟩ := accepts
      refine ⟨far, stays, waits.imp_right fun others => others.imp_left ?_⟩
      intro stubbed
      obtain ⟨stub, member, same⟩ := stubbed
      exact ⟨stub, Array.mem_push_of_mem _ member, same⟩
    · exact fun _ => id
  · exact labelled.loops

end Wires

end WasmX64
