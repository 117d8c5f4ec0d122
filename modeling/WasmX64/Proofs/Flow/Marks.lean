import WasmX64.Proofs.Compile.Calm
import WasmX64.Proofs.Flow.Graph

/-!
# What the compiler notes of reachability

Which instructions and markers are still to come depends on the body alone: the course of a
block.  Plain instructions and branches leave that as it is, a construct opens a block, and
markers go on with the else arm or with the enclosing block.

Of an open block the compiler notes whether the code that it compiles is reached and whether
its end is.  Lowering an instruction changes these notes as `Mark.lower` says, whatever else it
does: a branch marks its target, a transfer of control and an access that certainly traps end
what is reached, an else arm starts as its `if` did, and the code behind a block is reached if
anything leads there.
-/

namespace WasmX64

/-- What is still to come of an open block. -/
structure Course where
  kind : BlockKind
  pending : List Instr
  hasElse : Bool
  elseBody : List Instr

/-- What is still to come of a block. -/
def Block.course (block : Block) : Course :=
  ⟨block.kind, block.pending, block.hasElse, block.elseBody⟩

/-- What is still to come of the open blocks, innermost first. -/
def Compilation.courses (state : Compilation) : List Course :=
  state.blocks.map Block.course

namespace Course

/-- The next instruction or marker. -/
def first (course : Course) : Option Instr × Opcode :=
  match course.pending with
  | instr :: _ => (some instr, instr.op)
  | [] => (none, if course.kind = .ifThen ∧ course.hasElse then .otherwise else .finish)

/-- What is no marker is an instruction. -/
theorem pending_of_first {course : Course}
    (unmarked : course.first.2 ≠ .finish ∧ course.first.2 ≠ .otherwise) :
    ∃ instr pending, course.pending = instr :: pending := by
  cases pending : course.pending with
  | cons instr others => exact ⟨instr, others, rfl⟩
  | nil =>
    have marker : course.first.2 = .otherwise ∨ course.first.2 = .finish := by
      rw [first, pending]
      dsimp only
      split
      · exact .inl rfl
      · exact .inr rfl
    exact (marker.elim unmarked.2 unmarked.1).elim

/-- What comes behind the next instruction. -/
def rest (course : Course) : Course := { course with pending := course.pending.tail }

def opened (kind : BlockKind) (instr : Instr) : Course :=
  ⟨kind, instr.body, instr.hasElse, instr.elseBody⟩

/-- What is to come once an instruction or marker is lowered. -/
def lower (op : Opcode) (instr : Instr) (courses : List Course) : List Course :=
  match op, courses with
  | .block, courses => opened .block instr :: courses
  | .loop, courses => opened .loop instr :: courses
  | .branchIf, courses => opened .ifThen instr :: courses
  | .otherwise, course :: outer =>
    if course.kind = .ifThen then
      { course with kind := .elseArm, pending := course.elseBody } :: outer
    else course :: outer
  | .finish, courses => courses.tail
  | _, courses => courses

/-- The number of rounds that what is still to come may take. -/
def weight (course : Course) : Nat :=
  3 * Instr.nodesAll course.pending +
    (if course.kind = .ifThen then 3 * Instr.nodesAll course.elseBody + 1 else 0) + 1

/-- The number of rounds that the open blocks may take. -/
def weights (courses : List Course) : Nat :=
  courses.foldr (fun course total => course.weight + total) 0

@[simp] theorem weights_cons (course : Course) (courses : List Course) :
    weights (course :: courses) = course.weight + weights courses := rfl

theorem weight_pos (course : Course) : 0 < course.weight := Nat.succ_pos _

theorem weight_le (course : Course) :
    course.weight ≤ 3 * Instr.nodesAll course.pending + 3 * Instr.nodesAll course.elseBody + 2 := by
  unfold weight
  split
  · omega
  · omega

theorem weight_opened (kind : BlockKind) (instr : Instr) :
    (opened kind instr).weight < 3 * instr.nodes := by
  have bound := (opened kind instr).weight_le
  obtain ⟨op, results, body, elseBody, hasElse, _⟩ := instr
  rw [Instr.nodes]
  dsimp only [opened] at bound ⊢
  omega

theorem weight_rest {course : Course} {instr : Instr} {pending : List Instr}
    (next : course.pending = instr :: pending) :
    course.rest.weight + 3 * instr.nodes = course.weight := by
  simp only [weight, rest, next, List.tail_cons, Instr.nodesAll]
  omega

/-- Every instruction that is lowered, and every marker, brings the end closer. -/
theorem weights_lower (course : Course) (outer : List Course) :
    weights (lower course.first.2 (course.first.1.getD { op := course.first.2 })
      (course.rest :: outer)) < weights (course :: outer) := by
  cases pending : course.pending with
  | nil =>
    have same : course.rest = course := by
      rw [rest, pending, List.tail_nil, ← pending]
    simp only [first, pending, same, Option.getD_none]
    split
    · rename_i arms
      simp [lower, weight, arms.1, pending, Instr.nodesAll]
    · simp [lower, weight_pos]
  | cons instr others =>
    have lighter := weight_rest pending
    have opens := weight_opened
    simp only [first, pending, Option.getD_some]
    have plain : weights (course.rest :: outer) < weights (course :: outer) := by
      have positive : 0 < instr.nodes := by
        obtain ⟨op, results, body, elseBody, hasElse, _⟩ := instr
        rw [Instr.nodes]
        omega
      simp only [weights_cons]
      omega
    unfold lower
    split
    · have := opens .block instr
      simp only [weights_cons]
      omega
    · have := opens .loop instr
      simp only [weights_cons]
      omega
    · have := opens .ifThen instr
      simp only [weights_cons]
      omega
    · rename_i arm around same
      cases same
      split
      · rename_i branches
        refine Nat.lt_of_le_of_lt ?_ plain
        simp [weight, branches]
        omega
      · exact plain
    · simp only [List.tail_cons, weights_cons] at plain ⊢
      have := course.rest.weight_pos
      omega
    · exact plain

end Course

/-- What is noted of an open block. -/
structure Mark where
  course : Course
  reach : Reachability
  endReached : Bool

/-- What is noted of a block. -/
def Block.mark (block : Block) : Mark := ⟨block.course, block.reach, block.endReached⟩

/-- What is noted of the open blocks, innermost first. -/
def Compilation.marks (state : Compilation) : List Mark := state.blocks.map Block.mark

theorem Compilation.courses_marks (state : Compilation) :
    state.courses = state.marks.map Mark.course :=
  (List.map_map (f := Block.mark) (g := Mark.course)).symm

namespace Mark

/-- Whether the code being compiled in a block is reachable. -/
def isReached (mark : Mark) : Bool := mark.reach = .reachable

/-- The reachability of what is nested in a block. -/
def innerReach (mark : Mark) : Reachability :=
  if mark.isReached then .reachable else .specOnly

/-- A branch to the block is taken. -/
def targeted (mark : Mark) : Mark :=
  if mark.course.kind = .loop then mark else { mark with endReached := true }

/-- The rest of the block is dead code. -/
def finished (mark : Mark) : Mark := { mark with reach := .unreachable }

/-- Code that is not executed is compiled for its types. -/
def demoted (mark : Mark) : Mark :=
  if mark.isReached then { mark with reach := .specOnly } else mark

/-- Something leads behind the end of a block. -/
def continues (mark : Mark) : Bool :=
  mark.isReached || mark.endReached || mark.course.kind = .ifThen

/-- A block that an instruction opens inside the others. -/
def opened (kind : BlockKind) (instr : Instr) (outer : List Mark) : Mark :=
  ⟨.opened kind instr, outer.head?.elim .reachable innerReach, false⟩

/-- A branch of a depth is taken; one that leaves the function is not noted. -/
def target (depth : Nat) (marks : List Mark) : List Mark :=
  if depth + 1 = marks.length then marks else marks.modify depth targeted

/-- The else arm of a block is entered. -/
def otherwise (mark : Mark) (outer : List Mark) : Mark :=
  ⟨{ mark.course with kind := .elseArm, pending := mark.course.elseBody },
    outer.head?.elim .reachable innerReach, mark.endReached || mark.isReached⟩

/-- What is noted once an instruction or marker is lowered. -/
def lower (host : Host) (op : Opcode) (instr : Instr) (marks : List Mark) : List Mark :=
  match op, marks with
  | .block, marks => opened .block instr marks :: marks
  | .loop, marks => opened .loop instr marks :: marks
  | .branchIf, marks => opened .ifThen instr marks :: marks
  | .unreachable, mark :: outer => mark.finished :: outer
  | .ret, mark :: outer => mark.finished :: outer
  | .br, mark :: outer =>
    (if mark.isReached then target instr.index.toNat (mark :: outer) else mark :: outer).modify 0
      finished
  | .brIf, mark :: outer =>
    if mark.isReached then target instr.index.toNat (mark :: outer) else mark :: outer
  | .brTable, mark :: outer =>
    (if mark.isReached then
      (instr.targets ++ [instr.default]).foldl (fun marks depth => target depth.toNat marks)
        (mark :: outer)
    else mark :: outer).modify 0 finished
  | .load op, mark :: outer =>
    if host.refuses instr.offset op.bytes then mark.demoted :: outer else mark :: outer
  | .store op, mark :: outer =>
    if host.refuses instr.offset op.bytes then mark.demoted :: outer else mark :: outer
  | .otherwise, mark :: outer =>
    if mark.course.kind = .ifThen then mark.otherwise outer :: outer else mark :: outer
  | .finish, mark :: outer => if mark.continues then outer else outer.modify 0 demoted
  | _, marks => marks

section Target

variable {marks : List Mark} {depth other : Nat}

@[simp] theorem length_target : (target depth marks).length = marks.length := by
  unfold target
  split
  · rfl
  · rw [List.length_modify]

theorem targeted_targeted (mark : Mark) : mark.targeted.targeted = mark.targeted := by
  unfold targeted
  split
  · rfl
  · rfl

theorem getElem?_target :
    (target depth marks)[other]? = if depth + 1 = marks.length then marks[other]? else
      if depth = other then marks[other]?.map targeted else marks[other]? := by
  unfold target
  split
  · rfl
  · rw [List.getElem?_modify]
    split
    · rfl
    · simp

/-- A second branch to the same target adds nothing, whatever was noted between. -/
theorem target_again (same : target depth marks = marks) :
    target depth (target other marks) = target other marks := by
  apply List.ext_getElem?
  intro index
  have known := congrArg (·[index]?) same
  simp only [getElem?_target, length_target] at known ⊢
  by_cases leaves : depth + 1 = marks.length
  · rw [if_pos leaves]
  · rw [if_neg leaves] at known ⊢
    by_cases here : depth = index
    · rw [if_pos here] at known ⊢
      split
      · exact known
      · split
        · rw [Option.map_map]
          congr 1
          funext mark
          exact targeted_targeted mark
        · exact known
    · rw [if_neg here]

theorem target_target : target depth (target depth marks) = target depth marks := by
  apply List.ext_getElem?
  intro index
  simp only [getElem?_target, length_target]
  split
  · rfl
  · split
    · rw [Option.map_map]
      congr 1
      funext mark
      exact targeted_targeted mark
    · rfl

end Target

end Mark

namespace Compile

open Mark

variable {marks : List Mark} {subject : Subject} {state : Compilation}

/-- What is noted of the open blocks is given. -/
def Noted (marks : List Mark) (_ : Subject) (state : Compilation) : Prop := state.marks = marks

theorem Noted.andThen {α β : Type} {action : Compile α} {next : α → Compile β}
    {post : β → Compilation → Prop} (noted : Noted marks subject state)
    (first : Keeps (Noted marks) action anything)
    (second : ∀ value after, Noted marks subject after → Ensures (next value) subject after post) :
    Ensures (action >>= next) subject state post := by
  refine (first subject state noted).andThen ?_
  intro value after kept
  exact second value after kept.1

theorem Noted.stays {α : Type} {action : Compile α} (noted : Noted marks subject state)
    (keeps : Keeps (Noted marks) action anything) :
    Ensures action subject state fun _ after => Noted marks subject after :=
  (keeps subject state noted).mono fun _ _ kept => kept.1

theorem noted_modify {change : Compilation → Compilation}
    (blocks : ∀ state, (change state).blocks = state.blocks) :
    Keeps (Noted marks) (modify change) anything := by
  apply Keeps.modify
  intro subject state noted
  rw [Noted, Compilation.marks, blocks]
  exact noted

theorem noted_emit (steps : List Step) : Keeps (Noted marks) (emit steps) anything :=
  noted_modify fun _ => rfl

theorem noted_record (what : Happening) : Keeps (Noted marks) (record what) anything :=
  Keeps.read.andThen fun _ => noted_modify fun _ => rfl

theorem noted_machine {event : MachineEvent} {action : Compile Unit}
    (inside : Keeps (Noted marks) action anything) :
    Keeps (Noted marks) (machine event action) anything :=
  Keeps.machine noted_record inside

theorem noted_newLabel : Keeps (Noted marks) newLabel anything :=
  Keeps.modifyGet fun _ _ => id

theorem noted_addTrap (kind : TrapKind) : Keeps (Noted marks) (addTrap kind) anything := by
  refine noted_newLabel.andThen fun label => Keeps.andThen (noted_modify ?_) fun _ => .pure trivial
  exact fun _ => rfl

theorem noted_loadRef (target : Register) (kind : RefKind) (index : UInt32) :
    Keeps (Noted marks) (loadRef target kind index) anything :=
  noted_modify fun _ => rfl

instance noted_calm : Calm (Noted marks) := by
  constructor
  · intro steps _
    exact noted_emit steps
  · intro index
    exact noted_modify fun _ => rfl
  · intro change
    exact noted_modify fun _ => rfl

theorem modifyBlock_noted {depth : Nat} {change : Block → Block} (effect : Mark → Mark)
    (same : ∀ block, (change block).mark = effect block.mark)
    (noted : Noted marks subject state) :
    Ensures (modifyBlock depth change) subject state fun _ after =>
      Noted (marks.modify depth effect) subject after := by
  rw [ensures_modifyBlock, Noted, ← noted]
  apply List.ext_getElem?
  intro index
  simp only [Compilation.marks, List.getElem?_map, List.getElem?_modify]
  cases state.blocks[index]? with
  | none => rfl
  | some block =>
    simp only [Option.map_some, Option.map_eq_map]
    split
    · rw [same]
    · rfl

theorem noted_modifyBlock {depth : Nat} {change : Block → Block}
    (same : ∀ block, (change block).mark = block.mark) :
    Keeps (Noted marks) (modifyBlock depth change) anything := by
  intro subject state noted
  refine (modifyBlock_noted id same noted).mono ?_
  intro _ after kept
  rw [List.modify_id] at kept
  exact ⟨kept, trivial⟩

section Plain

theorem plain_noted {op : Opcode} (plain : op.isPlain = true) (calm : op.isAccess = false)
    (instr : Instr) (books : Books subject state) (noted : Noted marks subject state) :
    Ensures (lower op instr) subject state fun _ after => Noted marks subject after := by
  let invariant : List Label → Subject → Compilation → Prop := fun _ => Noted marks
  have routine : Routine False op.faults fun labels subject state =>
      Books subject state ∧ invariant labels subject state := by
    apply routine_of_calm
    · intro labels steps _
      exact noted_emit steps
    · intro labels what
      exact noted_record what
    · intro labels target kind index
      exact noted_loadRef target kind index
    · intro labels kind _ subject state noted
      exact (noted_addTrap kind subject state noted).mono fun _ _ kept => kept.1
    · exact id
  have keeps : Keeps (fun subject state => Books subject state ∧ invariant [] subject state)
      (lower op instr) anything := by
    apply @Routine.lower_plain _ _ [] routine _ plain instr (fun _ => id)
    intro access
    rw [calm] at access
    cases access
  refine (keeps subject state ⟨books, noted⟩).mono ?_
  intro _ after kept
  exact kept.1.2

/-- What is noted of an access at an offset. -/
def accessed (host : Host) (offset : UInt32) (bytes : Nat) (marks : List Mark) : List Mark :=
  if host.refuses offset bytes then marks.modify 0 demoted else marks

theorem checkBounds_noted (index : Register) (offset : UInt32) (bytes : Nat)
    (noted : Noted marks subject state) :
    Ensures (checkBounds index offset bytes) subject state fun _ after =>
      Noted (accessed subject.host offset bytes marks) subject after := by
  unfold checkBounds accessed
  rw [ensures_bind, ensures_read]
  refine ensures_ite.mpr ⟨fun unguarded => ?_, fun guarded => ?_⟩
  · rw [ensures_pure, if_neg fun refused => (Host.refuses_iff.mp refused).1 unguarded]
    exact noted
  refine ensures_ite.mpr ⟨fun outside => ?_, fun inside => ?_⟩
  · rw [if_pos (Host.refuses_iff.mpr ⟨guarded, outside⟩), ensures_bind]
    refine (noted_addTrap _ subject state noted).mono ?_
    rintro trap trapped ⟨noted, _⟩
    refine (noted_emit _ subject trapped noted).andThen ?_
    rintro _ jumped ⟨noted, _⟩
    refine modifyBlock_noted demoted ?_ noted
    intro block
    by_cases reached : block.reach = .reachable
    · simp [Block.isReached, demoted, isReached, Block.mark, Block.course, reached]
    · simp [Block.isReached, demoted, isReached, Block.mark, Block.course, reached]
  · rw [if_neg fun refused => inside (Host.refuses_iff.mp refused).2]
    have keeps : Keeps (Noted marks) (if subject.host.bounds = .static then pure () else do
        let trap ← addTrap .outOfBounds
        emit [.emit (.movImm .i64 .r10 (Int64.ofInt (offset.toNat + bytes : Nat))),
          .emit (.alu .add .i64 .r10 index)]
        loadRef .r11 .memorySize 0
        emit [.emit (.aluLoad .cmp .i64 .r10 (.based .r11 0)), .jumpIf .above trap .far])
        anything :=
      .ite .done <| (noted_addTrap _).andThen fun _ => (noted_emit _).andThen fun _ =>
        (noted_loadRef _ _ _).andThen fun _ => noted_emit _
    exact (keeps subject state noted).mono fun _ _ kept => kept.1

theorem lowerLoad_noted (op : LoadOp) (offset : UInt32) (noted : Noted marks subject state) :
    Ensures (lowerLoad op offset) subject state fun _ after =>
      Noted (accessed subject.host offset op.bytes marks) subject after := by
  refine noted.andThen (.through .demandMemory) fun _ _ noted => ?_
  refine noted.andThen (.through (.expect _ _)) fun _ _ noted => ?_
  refine noted.andThen (.through (.popRegister _)) fun index _ noted => ?_
  refine (checkBounds_noted index offset op.bytes noted).andThen fun _ _ noted => ?_
  refine noted.stays (noted_machine ?_)
  refine (Keeps.through (.takeRegister _ _ _)).andThen fun base => (noted_loadRef _ _ _).andThen fun _ => ?_
  refine (Keeps.through (.takeRegister _ _ _)).andThen fun dst => (noted_emit _).andThen fun _ => ?_
  exact (noted_emit _).andThen fun _ => noted_calm.modifyLayout _

theorem lowerStore_noted (op : StoreOp) (offset : UInt32) (noted : Noted marks subject state) :
    Ensures (lowerStore op offset) subject state fun _ after =>
      Noted (accessed subject.host offset op.bytes marks) subject after := by
  refine noted.andThen (.through .demandMemory) fun _ _ noted => ?_
  refine noted.andThen (.through (.expect _ _)) fun _ _ noted => ?_
  refine noted.andThen (.through (.expect _ _)) fun _ _ noted => ?_
  refine noted.andThen (.through (.popRegister _)) fun value _ noted => ?_
  refine noted.andThen (.through (.popRegister _)) fun index _ noted => ?_
  refine (checkBounds_noted index offset op.bytes noted).andThen fun _ _ noted => ?_
  refine noted.stays (noted_machine ?_)
  refine (Keeps.through (.takeRegister _ _ _)).andThen fun base => (noted_loadRef _ _ _).andThen fun _ => ?_
  exact (noted_emit _).andThen fun _ => noted_emit _

end Plain

section Branches

theorem noted_jump (label : Label) (depth : Nat) :
    Keeps (Noted marks) (branch label depth) anything :=
  noted_machine (noted_emit _)

theorem noted_bind (label : Label) (depth : Nat) : Keeps (Noted marks) (bind label depth) anything :=
  noted_machine (noted_emit _)

theorem noted_branchIfZero (label : Label) (reg : Register) (depth : Nat) :
    Keeps (Noted marks) (branchIfZero label reg depth) anything :=
  noted_machine (noted_emit _)

theorem noted_branchIfAtLeast (label : Label) (value bound : Register) :
    Keeps (Noted marks) (branchIfAtLeast label value bound) anything :=
  noted_machine (noted_emit _)

theorem noted_returnFromFunction : Keeps (Noted marks) returnFromFunction anything := by
  have leave : Keeps (Noted marks) (machine { kind := .ret } (emit Sequence.epilogue)) anything :=
    noted_machine (noted_emit _)
  refine Keeps.read.andThen fun subject => Keeps.get.andThen fun state => ?_
  refine (Keeps.through .innermost).andThen fun block => Keeps.demand ?_
  split
  · exact leave
  · refine (Keeps.through (.expect 0 _)).andThen fun _ => ?_
    split
    · exact .throw
    · refine (noted_calm.transfer _ ?_).andThen fun _ => leave
      exact .bind (.loadInto _ _ _) fun _ => .execute

theorem mark_markTarget (block : Block) : block.markTarget.mark = block.mark.targeted := by
  unfold Block.markTarget targeted
  split
  · rename_i loop
    exact (if_pos loop).symm
  · rename_i other
    exact (if_neg other).symm

theorem branchTo_noted (depth : Nat) (noted : Noted marks subject state) :
    Ensures (branchTo depth) subject state fun _ after =>
      Noted (marks.modify depth targeted) subject after := by
  refine noted.andThen (.through (.target depth)) fun block _ noted => ?_
  refine noted.andThen Keeps.get fun state _ noted => ?_
  have leads : ∀ (join : Layout) (middle : Compilation), Noted marks subject middle → Ensures (do
      modifyBlock depth ({ · with join })
      mergeBranch join state.layout block.branchArity
      branch block.label depth
      modifyBlock depth Block.markTarget) subject middle fun _ after =>
        Noted (marks.modify depth targeted) subject after := by
    intro join middle noted
    refine noted.andThen (noted_modifyBlock fun _ => rfl) fun _ _ noted => ?_
    refine noted.andThen (.through (.mergeBranch False.elim)) fun _ _ noted => ?_
    refine noted.andThen (noted_jump _ _) fun _ _ noted => ?_
    exact modifyBlock_noted targeted mark_markTarget noted
  refine ensures_ite.mpr ⟨fun _ => ?_, fun _ => ?_⟩
  · exact noted.andThen (.pure trivial) fun join middle noted => leads join middle noted
  · exact noted.andThen (.through (.initJoin _ _ _)) fun join middle noted => leads join middle noted

theorem branchOrReturn_noted (depth : Nat) (noted : Noted marks subject state) :
    Ensures (branchOrReturn depth) subject state fun _ after =>
      Noted (Mark.target depth marks) subject after := by
  have length : state.blocks.length = marks.length := by
    rw [← noted, Compilation.marks, List.length_map]
  unfold branchOrReturn leavesFunction Mark.target
  rw [ensures_bind, ensures_bind, ensures_get, ensures_pure, length]
  refine ensures_ite.mpr ⟨fun leaves => ?_, fun stays => ?_⟩
  · rw [if_pos (of_decide_eq_true leaves)]
    exact noted.stays noted_returnFromFunction
  · rw [if_neg (by simpa using stays)]
    exact branchTo_noted depth noted

theorem innermost_noted {mark : Mark} {outer : List Mark}
    (noted : Noted (mark :: outer) subject state) :
    Ensures innermost subject state fun block after => after = state ∧ block.mark = mark := by
  obtain ⟨block, blocks, opened, first, _⟩ := List.map_eq_cons_iff.mp noted
  refine (innermost_finds opened).mono ?_
  rintro found after ⟨rfl, rfl⟩
  exact ⟨rfl, first⟩

theorem finishBlock_noted (noted : Noted marks subject state) :
    Ensures finishBlock subject state fun _ after =>
      Noted (marks.modify 0 finished) subject after :=
  modifyBlock_noted finished (fun _ => rfl) noted

variable {mark : Mark} {outer : List Mark}

theorem isReached_mark (block : Block) : block.mark.isReached = block.isReached := rfl

theorem lowerBr_noted (depth : Nat) (noted : Noted (mark :: outer) subject state) :
    Ensures (lowerBr depth) subject state fun _ after =>
      Noted ((if mark.isReached then Mark.target depth (mark :: outer) else mark :: outer).modify 0
        finished) subject after := by
  refine noted.andThen (.through (.target depth)) fun _ _ noted => ?_
  refine (innermost_noted noted).andThen ?_
  rintro block middle ⟨rfl, rfl⟩
  have length : middle.blocks.length = outer.length + 1 := by
    rw [← List.length_map (f := Block.mark)]
    exact congrArg List.length noted
  unfold leavesFunction
  rw [ensures_bind, ensures_bind, ensures_get, ensures_pure, isReached_mark]
  refine ensures_ite.mpr ⟨fun goes => ?_, fun stays => ?_⟩
  · refine (branchOrReturn_noted depth noted).andThen fun _ _ noted => ?_
    refine (finishBlock_noted noted).mono fun _ after noted => ?_
    cases reached : block.isReached with
    | true => exact noted
    | false =>
      rw [reached, Bool.false_or, decide_eq_true_eq, length] at goes
      rw [Mark.target, List.length_cons, if_pos goes] at noted
      exact noted
  · rw [Bool.or_eq_true, not_or, Bool.not_eq_true] at stays
    rw [stays.1]
    exact finishBlock_noted noted

theorem lowerBrIf_noted (depth : Nat) (noted : Noted (mark :: outer) subject state) :
    Ensures (lowerBrIf depth) subject state fun _ after =>
      Noted (if mark.isReached then Mark.target depth (mark :: outer) else mark :: outer) subject
        after := by
  refine noted.andThen (.through (.target depth)) fun _ _ noted => ?_
  refine noted.andThen (.through (.expect _ _)) fun _ middle noted => ?_
  refine (innermost_noted noted).andThen ?_
  rintro block after ⟨rfl, rfl⟩
  rw [isReached_mark]
  refine ensures_ite.mpr ⟨fun dead => ?_, fun alive => ?_⟩
  · rw [if_neg (by simpa using dead)]
    exact noted.stays (noted_calm.modifyLayout _)
  · rw [if_pos (by simpa using alive)]
    refine noted.andThen (.through (.popRegister _)) fun condition _ noted => ?_
    refine noted.andThen noted_newLabel fun label _ noted => ?_
    refine noted.andThen (noted_branchIfZero _ _ _) fun _ _ noted => ?_
    refine (branchOrReturn_noted depth noted).andThen fun _ _ noted => ?_
    exact noted.stays (noted_bind _ _)

end Branches

end Compile

end WasmX64
