import WasmX64.Proofs.Flow.Ahead

/-!
# Where control comes from what has been passed

What is noted of the open blocks says which positions ahead are entered from instructions that
have been passed: the ends of blocks that are marked as reached, the second arms of the `if`s
that are, and the next position.  Each visit keeps this, whatever its opcode, so that the notes
and the graph agree throughout.
-/

namespace WasmX64

namespace Mark

open Course

/-- What comes behind the next instruction. -/
def rest (mark : Mark) : Mark := { mark with course := mark.course.rest }

/-- A position ahead to which something leads that has been passed.  The rest of the innermost
block starts at a position. -/
def Awaited (goal : Nat) : Nat → List Mark → Prop
  | _, [] => False
  | position, mark :: outer =>
    mark.endReached = true ∧ goal = mark.course.finish position ∨
    (mark.course.kind = .ifThen ∧ outer.head?.any isReached = true ∧
      goal = mark.course.arm position) ∨
    Awaited goal (mark.course.finish position + 1) outer

theorem awaited_cons {goal position : Nat} {mark : Mark} {outer : List Mark} :
    Awaited goal position (mark :: outer) ↔
      mark.endReached = true ∧ goal = mark.course.finish position ∨
      (mark.course.kind = .ifThen ∧ outer.head?.any isReached = true ∧
        goal = mark.course.arm position) ∨
      Awaited goal (mark.course.finish position + 1) outer :=
  Iff.rfl

/-- A position to which something leads that has been passed, the next one included. -/
def Marked (goal position : Nat) (marks : List Mark) : Prop :=
  goal = position ∧ marks.head?.any isReached = true ∨ Awaited goal position marks

/-- Nothing is reached in a block that is not reached itself. -/
def Enclosed : List Mark → Prop
  | [] => True
  | [mark] => mark.course.kind = .block
  | mark :: parent :: outer =>
    (mark.isReached = true ∨ mark.endReached = true → parent.isReached = true) ∧
      Enclosed (parent :: outer)

variable {host : Host} {labels : List Nat} {position goal now : Nat} {mark : Mark}
  {outer marks : List Mark} {instr : Instr} {pending : List Instr}

theorem awaited_rest (next : mark.course.pending = instr :: pending) :
    Awaited goal (position + instr.count) (mark.rest :: outer) ↔
      Awaited goal position (mark :: outer) := by
  have ends := finish_rest position next
  have arms : mark.course.rest.arm (position + instr.count) = mark.course.arm position := by
    simp only [arm, Course.rest, next, List.tail_cons, Instr.countAll]
    omega
  unfold Awaited
  dsimp only [rest]
  rw [ends, arms]
  rfl

theorem Awaited.behind (awaited : Awaited goal position (mark :: outer)) :
    position + Instr.countAll mark.course.pending ≤ goal := by
  induction outer generalizing position mark with
  | nil =>
    have ends := le_finish mark.course position
    rcases awaited with ⟨_, rfl⟩ | ⟨_, _, rfl⟩ | outside
    · exact ends
    · exact Nat.le_add_right _ _
    · cases outside
  | cons parent outer ih =>
    have ends := le_finish mark.course position
    rcases awaited with ⟨_, rfl⟩ | ⟨_, _, rfl⟩ | outside
    · exact ends
    · exact Nat.le_add_right _ _
    · have := ih outside
      omega

/-- Before an instruction, what is marked is what the block says. -/
theorem marked_here (next : mark.course.pending = instr :: pending) :
    Marked position position (mark :: outer) ↔ mark.isReached = true := by
  constructor
  · rintro (⟨_, reached⟩ | awaited)
    · exact reached
    · have behind := awaited.behind
      have positive := instr.count_pos
      rw [next, Instr.countAll] at behind
      omega
  · exact fun reached => .inl ⟨rfl, reached⟩

theorem marked_ahead (ahead : position < goal) :
    Marked goal position marks ↔ Awaited goal position marks :=
  or_iff_right fun here => by omega

section Target

theorem target_nil (depth : Nat) : Mark.target depth [] = [] := by
  unfold Mark.target
  rw [List.modify_nil, ite_self]

theorem target_zero (parent : Mark) :
    Mark.target 0 (mark :: parent :: outer) = mark.targeted :: parent :: outer := by
  rw [Mark.target, if_neg (by simp), List.modify_zero_cons]

theorem target_succ (depth : Nat) :
    Mark.target (depth + 1) (mark :: outer) = mark :: Mark.target depth outer := by
  unfold Mark.target
  rw [List.length_cons, List.modify_succ_cons]
  simp only [Nat.add_right_cancel_iff]
  split
  · rfl
  · rfl

theorem targeted_reach (mark : Mark) : mark.targeted.reach = mark.reach := by
  unfold targeted
  split
  · rfl
  · rfl

theorem targeted_course (mark : Mark) : mark.targeted.course = mark.course := by
  unfold targeted
  split
  · rfl
  · rfl

theorem head_target (depth : Nat) :
    (Mark.target depth marks).head?.any isReached = marks.head?.any isReached := by
  rw [List.head?_eq_getElem?, List.head?_eq_getElem?, getElem?_target]
  split
  · rfl
  · split
    · cases marks[0]? with
      | none => rfl
      | some first =>
        rw [Option.map_some, Option.any_some, Option.any_some, isReached, isReached,
          targeted_reach]
    · rfl

theorem map_target (depth : Nat) :
    (Mark.target depth marks).map Mark.course = marks.map Mark.course := by
  apply List.ext_getElem?
  intro index
  rw [List.getElem?_map, List.getElem?_map, getElem?_target]
  split
  · rfl
  · split
    · cases marks[index]? with
      | none => rfl
      | some mark => exact congrArg some mark.targeted_course
    · rfl

theorem awaited_target (depth : Nat) (labelled : Labelled now labels position (marks.map course))
    (ahead : now ≤ goal) (inside : goal + 1 < stop position (marks.map course)) :
    Awaited goal position (Mark.target depth marks) ↔
      Awaited goal position marks ∨ labels[depth]? = some goal := by
  induction marks generalizing depth labels position with
  | nil => cases labels with
    | nil => simp [target_nil, Awaited]
    | cons label others => cases labelled
  | cons mark outer ih =>
    obtain ⟨label, others, rfl, leads, outside⟩ := labelled_cons.mp labelled
    rw [List.map_cons, stop] at inside
    cases depth with
    | succ depth =>
      have rest := ih depth outside inside
      rw [target_succ, List.getElem?_cons_succ, Awaited, Awaited, rest, head_target]
      simp only [or_assoc]
    | zero =>
      rw [List.getElem?_cons_zero, Option.some.injEq]
      cases outer with
      | nil =>
        have same : Mark.target 0 [mark] = [mark] := if_pos rfl
        rw [same, iff_self_or]
        intro here
        rw [List.map_nil, stop] at inside
        by_cases loop : mark.course.kind = .loop
        · have := leads.back loop
          omega
        · have := leads.ahead loop
          omega
      | cons parent around =>
        rw [target_zero]
        by_cases loop : mark.course.kind = .loop
        · have back := leads.back loop
          rw [targeted, if_pos loop, iff_self_or]
          omega
        · have ends := leads.ahead loop
          rw [targeted, if_neg loop, Awaited, Awaited, ends]
          simp only [true_and]
          constructor
          · rintro (here | other)
            · exact .inr here.symm
            · exact .inl (.inr other)
          · rintro ((⟨_, here⟩ | other) | here)
            · exact .inl here
            · exact .inr other
            · exact .inl here.symm

theorem Enclosed.target (enclosed : Enclosed marks) (reached : marks.head?.any isReached = true)
    (depth : Nat) : Enclosed (Mark.target depth marks) := by
  induction marks generalizing depth with
  | nil => cases reached
  | cons mark outer ih =>
    cases outer with
    | nil =>
      have same : Mark.target depth [mark] = [mark] := by
        cases depth with
        | zero => exact if_pos rfl
        | succ depth => rw [target_succ, target_nil]
      rw [same]
      exact enclosed
    | cons parent around =>
      obtain ⟨inner, outside⟩ := enclosed
      have above := inner (.inl reached)
      cases depth with
      | zero =>
        rw [target_zero]
        exact ⟨fun _ => above, outside⟩
      | succ depth =>
        have rest := ih outside above depth
        have heads := @head_target (parent :: around) depth
        rw [target_succ]
        cases marked : Mark.target depth (parent :: around) with
        | nil =>
          rw [marked] at heads
          rw [List.head?_cons, Option.any_some, above] at heads
          cases heads
        | cons first others =>
          rw [marked] at heads rest
          rw [List.head?_cons, List.head?_cons, Option.any_some, Option.any_some] at heads
          exact ⟨fun _ => heads.trans above, rest⟩

/-- The branches of a table add their targets. -/
theorem awaited_targets (depths : List UInt32)
    (labelled : Labelled now labels position (marks.map course)) (ahead : now ≤ goal)
    (inside : goal + 1 < stop position (marks.map course)) :
    Awaited goal position
        (depths.foldl (fun marks depth => Mark.target depth.toNat marks) marks) ↔
      Awaited goal position marks ∨ ∃ depth ∈ depths, labels[depth.toNat]? = some goal := by
  induction depths generalizing marks with
  | nil => simp
  | cons depth rest ih =>
    have first := awaited_target depth.toNat labelled ahead inside
    rw [← map_target depth.toNat] at labelled inside
    rw [List.foldl_cons, ih labelled inside, first]
    simp only [List.mem_cons, exists_eq_or_imp, or_assoc]

theorem map_targets (depths : List UInt32) :
    (depths.foldl (fun marks depth => Mark.target depth.toNat marks) marks).map course =
      marks.map course := by
  induction depths generalizing marks with
  | nil => rfl
  | cons depth rest ih => rw [List.foldl_cons, ih, map_target]

theorem Enclosed.targets (enclosed : Enclosed marks) (reached : marks.head?.any isReached = true)
    (depths : List UInt32) :
    Enclosed (depths.foldl (fun marks depth => Mark.target depth.toNat marks) marks) := by
  induction depths generalizing marks with
  | nil => exact enclosed
  | cons depth rest ih =>
    apply ih (enclosed.target reached _)
    rw [head_target]
    exact reached

end Target

section Head

theorem awaited_modify {change : Mark → Mark} (course : ∀ mark, (change mark).course = mark.course)
    (ends : ∀ mark, (change mark).endReached = mark.endReached) :
    Awaited goal position (marks.modify 0 change) ↔ Awaited goal position marks := by
  cases marks with
  | nil => rfl
  | cons mark outer => rw [List.modify_zero_cons, Awaited, Awaited, course, ends]

theorem map_modify {change : Mark → Mark} (course : ∀ mark, (change mark).course = mark.course) :
    (marks.modify 0 change).map Mark.course = marks.map Mark.course := by
  cases marks with
  | nil => rfl
  | cons mark outer => rw [List.modify_zero_cons, List.map_cons, List.map_cons, course]

theorem demoted_course (mark : Mark) : mark.demoted.course = mark.course := by
  unfold demoted
  split
  · rfl
  · rfl

theorem demoted_endReached (mark : Mark) : mark.demoted.endReached = mark.endReached := by
  unfold demoted
  split
  · rfl
  · rfl

theorem isReached_demoted (mark : Mark) : mark.demoted.isReached = false := by
  unfold demoted
  split
  · rfl
  · rename_i not
    exact Bool.eq_false_iff.mpr not

theorem marked_dead {change : Mark → Mark} (course : ∀ mark, (change mark).course = mark.course)
    (ends : ∀ mark, (change mark).endReached = mark.endReached)
    (dead : ∀ mark, (change mark).isReached = false) :
    Marked goal position (marks.modify 0 change) ↔ Awaited goal position marks := by
  rw [Marked, awaited_modify course ends, or_iff_right]
  rintro ⟨_, reached⟩
  cases marks with
  | nil => cases reached
  | cons mark outer =>
    rw [List.modify_zero_cons, List.head?_cons, Option.any_some, dead] at reached
    cases reached

theorem Enclosed.modify {change : Mark → Mark} (enclosed : Enclosed marks)
    (course : ∀ mark, (change mark).course = mark.course)
    (ends : ∀ mark, (change mark).endReached = mark.endReached)
    (less : ∀ mark, (change mark).isReached = true → mark.isReached = true) :
    Enclosed (marks.modify 0 change) := by
  match marks, enclosed with
  | [], _ => exact trivial
  | [mark], enclosed =>
    rw [List.modify_zero_cons, Enclosed, course]
    exact enclosed
  | mark :: parent :: outer, ⟨inner, outside⟩ =>
    rw [List.modify_zero_cons, Enclosed, ends]
    exact ⟨fun either => inner (either.imp (less mark) id), outside⟩

end Head

section Visits

variable {body : List Instr}

theorem marked_flat (next : mark.course.pending = instr :: pending)
    (flat : instr.op.isStructured = false) (instruction : instr.op ≠ .otherwise ∧ instr.op ≠ .finish)
    (continues : Continues host body labels (position + 1) ((mark.rest :: outer).map course))
    (ahead : position < goal) (inside : goal < Instr.countAll body) :
    Marked goal (position + 1) (lower host instr.op instr (mark.rest :: outer)) ↔
      Awaited goal position (mark :: outer) ∨
        mark.isReached = true ∧ goal ∈ instr.exits host labels position := by
  have single : instr.count = 1 := by
    rw [← instr.length_visits, visits_flat flat]
    rfl
  have stays : Awaited goal (position + 1) (mark.rest :: outer) ↔
      Awaited goal position (mark :: outer) := by
    have rests := @awaited_rest position goal mark outer instr pending next
    rw [single] at rests
    exact rests
  have before : goal + 1 < stop (position + 1) ((mark.rest :: outer).map course) := by
    rw [continues.stop]
    omega
  have on : Marked goal (position + 1) (mark.rest :: outer) ↔
      Awaited goal position (mark :: outer) ∨ mark.isReached = true ∧ goal = position + 1 := by
    rw [Marked, stays, or_comm, and_comm]
    rfl
  have ended : ∀ marks, Marked goal (position + 1) (marks.modify 0 finished) ↔
      Awaited goal (position + 1) marks := fun marks =>
    marked_dead (fun _ => rfl) (fun _ => rfl) fun _ => rfl
  have refused : ∀ marks, Marked goal (position + 1) (marks.modify 0 demoted) ↔
      Awaited goal (position + 1) marks := fun marks =>
    marked_dead demoted_course demoted_endReached isReached_demoted
  have branch : Awaited goal (position + 1) (Mark.target instr.index.toNat (mark.rest :: outer)) ↔
      Awaited goal position (mark :: outer) ∨ goal ∈ labels[instr.index.toNat]?.toList := by
    rw [awaited_target _ continues.labelled ahead before, stays, Option.mem_toList]
  unfold Instr.exits
  cases op : instr.op
  case unreachable =>
    have := ended (mark.rest :: outer)
    simp only [List.not_mem_nil, and_false, or_false]
    exact this.trans stays
  case ret =>
    have := ended (mark.rest :: outer)
    simp only [List.not_mem_nil, and_false, or_false]
    exact this.trans stays
  case br =>
    dsimp only [lower]
    rw [ended]
    cases reached : mark.isReached with
    | true =>
      have alive : mark.rest.isReached = true := reached
      rw [if_pos alive, branch, and_iff_right rfl]
    | false =>
      have dead : mark.rest.isReached = false := reached
      rw [if_neg (Bool.eq_false_iff.mp dead), stays]
      simp
  case brIf =>
    dsimp only [lower]
    cases reached : mark.isReached with
    | true =>
      have alive : mark.rest.isReached = true := reached
      rw [if_pos alive, Marked, branch, head_target, List.head?_cons, Option.any_some, alive,
        List.mem_cons]
      simp only [and_true, true_and]
      exact or_left_comm
    | false =>
      have dead : mark.rest.isReached = false := reached
      rw [if_neg (Bool.eq_false_iff.mp dead), on, reached]
      simp
  case brTable =>
    dsimp only [lower]
    rw [ended]
    cases reached : mark.isReached with
    | true =>
      have alive : mark.rest.isReached = true := reached
      rw [if_pos alive, awaited_targets _ continues.labelled ahead before, stays, and_iff_right rfl,
        List.mem_filterMap]
      simp only [List.mem_append, List.mem_cons, List.not_mem_nil, or_false]
      simp only [or_comm]
    | false =>
      have dead : mark.rest.isReached = false := reached
      rw [if_neg (Bool.eq_false_iff.mp dead), stays]
      simp
  case load width =>
    dsimp only [lower]
    split
    · have := refused (mark.rest :: outer)
      simp only [List.not_mem_nil, and_false, or_false]
      exact this.trans stays
    · rw [List.mem_singleton]
      exact on
  case store width =>
    dsimp only [lower]
    split
    · have := refused (mark.rest :: outer)
      simp only [List.not_mem_nil, and_false, or_false]
      exact this.trans stays
    · rw [List.mem_singleton]
      exact on
  case block => rw [op] at flat; cases flat
  case loop => rw [op] at flat; cases flat
  case branchIf => rw [op] at flat; cases flat
  case otherwise => exact absurd op instruction.1
  case finish => exact absurd op instruction.2
  all_goals
    rw [List.mem_singleton]
    exact on

theorem Enclosed.rest (enclosed : Enclosed (mark :: outer)) : Enclosed (mark.rest :: outer) := by
  cases outer with
  | nil => exact enclosed
  | cons parent around => exact enclosed

theorem Enclosed.flat (enclosed : Enclosed (mark :: outer)) (flat : instr.op.isStructured = false)
    (instruction : instr.op ≠ .otherwise ∧ instr.op ≠ .finish) :
    Enclosed (lower host instr.op instr (mark :: outer)) := by
  have ended : ∀ marks, Enclosed marks → Enclosed (marks.modify 0 finished) := fun marks enclosed =>
    enclosed.modify (fun _ => rfl) (fun _ => rfl) fun _ reached => nomatch reached
  have refused : Enclosed (mark.demoted :: outer) :=
    enclosed.modify demoted_course demoted_endReached fun mark reached => by
      rw [isReached_demoted] at reached
      cases reached
  have branched : ∀ depths : List UInt32, Enclosed (if mark.isReached then
      depths.foldl (fun marks depth => Mark.target depth.toNat marks) (mark :: outer)
      else mark :: outer) := by
    intro depths
    split
    · rename_i reached
      exact enclosed.targets reached depths
    · exact enclosed
  cases op : instr.op
  case unreachable => exact ended _ enclosed
  case ret => exact ended _ enclosed
  case br => exact ended _ (branched [instr.index])
  case brIf => exact branched [instr.index]
  case brTable => exact ended _ (branched _)
  case load width =>
    dsimp only [lower]
    split
    · exact refused
    · exact enclosed
  case store width =>
    dsimp only [lower]
    split
    · exact refused
    · exact enclosed
  case block =>
    rw [op] at flat
    cases flat
  case loop =>
    rw [op] at flat
    cases flat
  case branchIf =>
    rw [op] at flat
    cases flat
  case otherwise => exact absurd op instruction.1
  case finish => exact absurd op instruction.2
  all_goals exact enclosed

/-- Instructions that contain nothing leave what is to come as it is. -/
theorem map_flat (flat : instr.op.isStructured = false)
    (instruction : instr.op ≠ .otherwise ∧ instr.op ≠ .finish) :
    (lower host instr.op instr (mark :: outer)).map course = (mark :: outer).map course := by
  have branched : ∀ depths : List UInt32, (if mark.isReached then
      depths.foldl (fun marks depth => Mark.target depth.toNat marks) (mark :: outer)
      else mark :: outer).map course = (mark :: outer).map course := by
    intro depths
    split
    · exact map_targets depths
    · rfl
  have refused := @map_modify (mark :: outer) demoted demoted_course
  have ended : ∀ marks : List Mark, (marks.modify 0 finished).map course = marks.map course :=
    fun _ => map_modify fun _ => rfl
  cases op : instr.op
  case unreachable => rfl
  case ret => rfl
  case br => exact (ended _).trans (branched [instr.index])
  case brIf => exact branched [instr.index]
  case brTable => exact (ended _).trans (branched _)
  case load width =>
    dsimp only [lower]
    split
    · exact refused
    · rfl
  case store width =>
    dsimp only [lower]
    split
    · exact refused
    · rfl
  case block =>
    rw [op] at flat
    cases flat
  case loop =>
    rw [op] at flat
    cases flat
  case branchIf =>
    rw [op] at flat
    cases flat
  case otherwise => exact absurd op instruction.1
  case finish => exact absurd op instruction.2
  all_goals rfl

/-- What is nested in a block is reached as the block is. -/
theorem isReached_inner (course : Course) (mark : Mark) (ends : Bool) :
    (⟨course, mark.innerReach, ends⟩ : Mark).isReached = mark.isReached := by
  unfold isReached innerReach isReached
  by_cases reached : mark.reach = .reachable
  · simp [reached]
  · simp [reached]

theorem Enclosed.opened (enclosed : Enclosed (mark :: outer)) (kind : BlockKind) :
    Enclosed (opened kind instr (mark :: outer) :: mark :: outer) := by
  refine ⟨?_, enclosed⟩
  rw [Mark.opened, List.head?_cons, Option.elim_some, isReached_inner]
  rintro (reached | ends)
  · exact reached
  · cases ends

theorem marked_opened {kind : BlockKind} (next : mark.course.pending = instr :: pending)
    (structured : instr.op.isStructured = true) (arms : instr.hasElse = true → kind = .ifThen)
    (branches : instr.op = .branchIf ↔ kind = .ifThen) :
    Marked goal (position + 1) (opened kind instr (mark.rest :: outer) :: mark.rest :: outer) ↔
      Awaited goal position (mark :: outer) ∨
        mark.isReached = true ∧ goal ∈ instr.exits host labels position := by
  have ends : (Course.opened kind instr).finish (position + 1) + 1 = position + instr.count := by
    rw [finish_opened arms, Instr.finish_count structured]
  have stays := @awaited_rest position goal mark outer instr pending next
  have reach : mark.rest.isReached = mark.isReached := rfl
  have arm : (Course.opened kind instr).arm (position + 1) =
    position + 1 + Instr.countAll instr.body + if instr.hasElse then 1 else 0 := rfl
  have leads : goal ∈ instr.exits host labels position ↔
      goal = position + 1 ∨ kind = .ifThen ∧ goal = (Course.opened kind instr).arm (position + 1) := by
    rw [arm, ← branches]
    unfold Instr.exits
    cases op : instr.op
    case branchIf => simp
    case block => simp
    case loop => simp
    all_goals
      rw [op] at structured
      cases structured
  rw [Marked, awaited_cons, leads, opened, List.head?_cons, List.head?_cons, Option.elim_some,
    Option.any_some, Option.any_some, isReached_inner, reach, ends, stays]
  simp only [Bool.false_eq_true, false_and, false_or]
  constructor
  · rintro (⟨here, reached⟩ | ⟨branches, reached, second⟩ | awaited)
    · exact .inr ⟨reached, .inl here⟩
    · exact .inr ⟨reached, .inr ⟨branches, second⟩⟩
    · exact .inl awaited
  · rintro (awaited | ⟨reached, here | ⟨branches, second⟩⟩)
    · exact .inr (.inr awaited)
    · exact .inl ⟨here, reached⟩
    · exact .inr (.inl ⟨branches, reached, second⟩)

theorem marked_otherwise {parent : Mark} (next : mark.course.pending = [])
    (arms : mark.course.kind = .ifThen ∧ mark.course.hasElse = true) :
    Marked goal (position + 1) (mark.otherwise (parent :: outer) :: parent :: outer) ↔
      Awaited goal position (mark :: parent :: outer) ∨
        Marked position position (mark :: parent :: outer) ∧
          goal ∈ [mark.course.finish position] := by
  have ends : (mark.otherwise (parent :: outer)).course.finish (position + 1) =
      mark.course.finish position := by
    simp only [otherwise, finish, next, arms, Instr.countAll]
    simp
    omega
  have arm : mark.course.arm position = position + 1 := by
    rw [Course.arm, next, if_pos arms.2]
    rfl
  have later : position < mark.course.finish position := by
    rw [finish, if_pos arms]
    omega
  have here : Marked position position (mark :: parent :: outer) ↔ mark.isReached = true := by
    refine ⟨?_, fun reached => .inl ⟨rfl, reached⟩⟩
    rintro (⟨_, reached⟩ | ⟨_, last⟩ | ⟨_, _, second⟩ | outside)
    · exact reached
    · omega
    · omega
    · have := outside.behind
      omega
  rw [Marked, awaited_cons, @awaited_cons goal position mark, ends, here, arm, List.mem_singleton]
  dsimp only [otherwise]
  rw [List.head?_cons, List.head?_cons, Option.elim_some, Option.any_some, Option.any_some,
    isReached_inner, Bool.or_eq_true]
  constructor
  · rintro (⟨second, reached⟩ | ⟨ended | reached, last⟩ | ⟨kind, _⟩ | outside)
    · exact .inl (.inr (.inl ⟨arms.1, reached, second⟩))
    · exact .inl (.inl ⟨ended, last⟩)
    · exact .inr ⟨reached, last⟩
    · cases kind
    · exact .inl (.inr (.inr outside))
  · rintro ((⟨ended, last⟩ | ⟨_, reached, second⟩ | outside) | ⟨reached, last⟩)
    · exact .inr (.inl ⟨.inl ended, last⟩)
    · exact .inl ⟨second, reached⟩
    · exact .inr (.inr (.inr outside))
    · exact .inr (.inl ⟨.inr reached, last⟩)

theorem Enclosed.otherwise {parent : Mark} (enclosed : Enclosed (mark :: parent :: outer)) :
    Enclosed (mark.otherwise (parent :: outer) :: parent :: outer) := by
  obtain ⟨inner, outside⟩ := enclosed
  refine ⟨?_, outside⟩
  dsimp only [Mark.otherwise]
  rw [List.head?_cons, Option.elim_some, isReached_inner, Bool.or_eq_true]
  rintro (reached | ended | reached)
  · exact reached
  · exact inner (.inr ended)
  · exact inner (.inl reached)

/-- What the end of a block adds to what is marked. -/
theorem marked_finish {parent : Mark} (enclosed : Enclosed (mark :: parent :: outer))
    (next : mark.course.pending = [])
    (closed : ¬ (mark.course.kind = .ifThen ∧ mark.course.hasElse = true))
    (ahead : position < goal) :
    Marked goal (position + 1)
        (if mark.continues then parent :: outer else (parent :: outer).modify 0 demoted) ↔
      Awaited goal position (mark :: parent :: outer) ∨
        Marked position position (mark :: parent :: outer) ∧ goal ∈ [position + 1] := by
  have ends := finish_ended position next closed
  have arm : mark.course.kind = .ifThen → mark.course.arm position = position := by
    intro kind
    rw [Course.arm, next, if_neg fun has => closed ⟨kind, has⟩]
    rfl
  have outside : Awaited goal position (mark :: parent :: outer) ↔
      Awaited goal (position + 1) (parent :: outer) := by
    rw [awaited_cons, ends]
    constructor
    · rintro (⟨_, last⟩ | ⟨kind, _, second⟩ | outside)
      · omega
      · have := arm kind
        omega
      · exact outside
    · exact fun outside => .inr (.inr outside)
  have here : Marked position position (mark :: parent :: outer) ↔
      parent.isReached = true ∧ mark.continues = true := by
    have lists : mark.continues = true ↔
        mark.isReached = true ∨ mark.endReached = true ∨ mark.course.kind = .ifThen := by
      simp [continues, or_assoc]
    rw [lists]
    constructor
    · rintro (⟨_, reached⟩ | ⟨ended, _⟩ | ⟨kind, reached, _⟩ | outside)
      · exact ⟨enclosed.1 (.inl reached), .inl reached⟩
      · exact ⟨enclosed.1 (.inr ended), .inr (.inl ended)⟩
      · exact ⟨reached, .inr (.inr kind)⟩
      · have := outside.behind
        omega
    · rintro ⟨reached, inner | ended | kind⟩
      · exact .inl ⟨rfl, inner⟩
      · exact .inr (.inl ⟨ended, ends.symm⟩)
      · exact .inr (.inr (.inl ⟨kind, reached, (arm kind).symm⟩))
  rw [outside, here, List.mem_singleton]
  cases mark.continues with
  | true =>
    rw [if_pos rfl, Marked, List.head?_cons, Option.any_some, or_comm, and_iff_left rfl, and_comm]
  | false =>
    rw [if_neg Bool.false_ne_true, marked_dead demoted_course demoted_endReached isReached_demoted]
    simp

theorem map_finish :
    (if mark.continues then outer else outer.modify 0 demoted).map course = outer.map course := by
  split
  · rfl
  · exact map_modify demoted_course

theorem Enclosed.finish {parent : Mark} (enclosed : Enclosed (mark :: parent :: outer)) :
    Enclosed (if mark.continues then parent :: outer else (parent :: outer).modify 0 demoted) := by
  split
  · exact enclosed.2
  · apply enclosed.2.modify demoted_course demoted_endReached
    intro mark reached
    rw [isReached_demoted] at reached
    cases reached

end Visits

end Mark

namespace Instr

variable {host : Host} {body : List Instr} {labels : List Nat} {position target : Nat}

/-- Control comes to a position from the entry or from what has been passed. -/
def Entered (host : Host) (body : List Instr) (position target : Nat) : Prop :=
  target = 0 ∨ ∃ source < position, Ahead host body source ∧ (source, target) ∈ graph host body

theorem ahead_iff_entered : Ahead host body target ↔ Entered host body target target := by
  constructor
  · intro ahead
    rcases Relation.ReflTransGen.cases_tail ahead with start | ⟨source, path, edge, forward⟩
    · exact .inl start
    · exact .inr ⟨source, forward, path, edge⟩
  · rintro (rfl | ⟨source, forward, path, edge⟩)
    · exact .refl
    · exact path.tail ⟨edge, forward⟩

/-- Passing one more position adds where control goes from it. -/
theorem entered_succ : Entered host body (position + 1) target ↔
    Entered host body position target ∨
      Ahead host body position ∧ (position, target) ∈ graph host body := by
  unfold Entered
  constructor
  · rintro (start | ⟨source, before, ahead, edge⟩)
    · exact .inl (.inl start)
    · by_cases here : source = position
      · exact .inr (here ▸ ⟨ahead, edge⟩)
      · exact .inl (.inr ⟨source, by omega, ahead, edge⟩)
  · rintro ((start | ⟨source, before, ahead, edge⟩) | ⟨ahead, edge⟩)
    · exact .inl start
    · exact .inr ⟨source, by omega, ahead, edge⟩
    · exact .inr ⟨position, Nat.lt_succ_self _, ahead, edge⟩

end Instr

open Course Mark

/-- What is noted of the open blocks agrees with the graph: control comes from what has been
passed to the positions that are marked. -/
structure Flows (host : Host) (body : List Instr) (labels : List Nat) (position : Nat)
    (marks : List Mark) : Prop where
  continues : Continues host body labels position (marks.map Mark.course)
  enclosed : Enclosed marks
  entered : ∀ target, position ≤ target → target < Instr.countAll body →
    (Instr.Entered host body position target ↔ Marked target position marks)

namespace Flows

variable {host : Host} {body : List Instr} {labels : List Nat} {position : Nat} {mark : Mark}
  {outer : List Mark} {instr : Instr} {pending : List Instr}

theorem start (host : Host) (body : List Instr) :
    Flows host body [Instr.countAll body] 0 [⟨⟨.block, body, false, []⟩, .reachable, false⟩] := by
  refine ⟨continues_start host body, rfl, ?_⟩
  intro target _ before
  have ends : (⟨.block, body, false, []⟩ : Course).finish 0 = Instr.countAll body := by simp [finish]
  constructor
  · rintro (start | ⟨source, negative, _⟩)
    · exact .inl ⟨start, rfl⟩
    · omega
  · rintro (⟨start, _⟩ | awaited)
    · exact .inl start
    · have := awaited.behind
      dsimp only at this
      omega

theorem visit {later marks : List Mark} {exits others : List Nat}
    (flows : Flows host body labels position marks)
    (visits : Visits host body position exits others (later.map Mark.course))
    (enclosed : Enclosed later)
    (marked : ∀ goal, position < goal → goal < Instr.countAll body →
      (Marked goal (position + 1) later ↔ Awaited goal position marks ∨
        Marked position position marks ∧ goal ∈ exits)) :
    Flows host body others (position + 1) later := by
  refine ⟨visits.2, enclosed, ?_⟩
  intro target behind before
  have here := flows.entered position (Nat.le_refl _) (by omega)
  rw [marked target behind before, Instr.entered_succ, flows.entered target (by omega) before,
    marked_ahead behind, Instr.ahead_iff_entered, here, visits.1]

/-- Each visit keeps the agreement. -/
theorem lower (flows : Flows host body labels position (mark :: outer))
    (tidy : mark.course.IsTidy) :
    ∃ others, Flows host body others (position + 1)
      (Mark.lower host mark.course.first.2
        (mark.course.first.1.getD { op := mark.course.first.2 }) (mark.rest :: outer)) := by
  obtain ⟨continues, enclosed, _⟩ := id flows
  cases next : mark.course.pending with
  | cons instr pending =>
    have first : mark.course.first = (some instr, instr.op) := by rw [Course.first, next]
    obtain ⟨notElse, notEnd, arms, _⟩ :=
      Instr.isTidy_iff.mp (Instr.allTidy_cons.mp (next ▸ tidy.1)).1
    have here := @marked_here position mark outer instr pending next
    rw [first]
    dsimp only [Option.getD_some]
    cases structured : instr.op.isStructured with
    | false =>
      have same := @map_flat host mark.rest outer instr structured ⟨notElse, notEnd⟩
      have visits : Visits host body position (instr.exits host labels position) labels
          ((Mark.lower host instr.op instr (mark.rest :: outer)).map Mark.course) := by
        rw [same]
        exact continues.flat next structured
      refine ⟨labels, flows.visit visits (enclosed.rest.flat structured ⟨notElse, notEnd⟩) ?_⟩
      intro goal ahead inside
      rw [here]
      exact marked_flat next structured ⟨notElse, notEnd⟩ (same ▸ visits.2) ahead inside
    | true =>
      have opens : ∃ kind, Mark.lower host instr.op instr (mark.rest :: outer) =
          Mark.opened kind instr (mark.rest :: outer) :: mark.rest :: outer ∧
          (instr.op = .loop ↔ kind = .loop) ∧ (instr.op = .branchIf ↔ kind = .ifThen) := by
        cases op : instr.op
        case block => exact ⟨.block, rfl, by simp, by simp⟩
        case loop => exact ⟨.loop, rfl, by simp, by simp⟩
        case branchIf => exact ⟨.ifThen, rfl, by simp, by simp⟩
        all_goals
          rw [op] at structured
          cases structured
      obtain ⟨kind, lowers, loops, branches⟩ := opens
      have both : instr.hasElse = true → kind = .ifThen := fun has => branches.mp (arms has)
      rw [lowers]
      refine ⟨_, flows.visit (continues.opened next structured both loops)
        (enclosed.rest.opened kind) ?_⟩
      intro goal _ _
      rw [here]
      exact marked_opened next structured both branches
  | nil =>
    have rests : mark.rest = mark := by
      have same : mark.course.rest = mark.course := by rw [Course.rest, next, List.tail_nil, ← next]
      rw [Mark.rest, same]
    by_cases arms : mark.course.kind = .ifThen ∧ mark.course.hasElse = true
    · have first : mark.course.first = (none, .otherwise) := by
        rw [Course.first, next]
        exact congrArg _ (if_pos arms)
      rw [first, rests]
      cases outer with
      | nil => cases arms.1.symm.trans enclosed
      | cons parent around =>
        have lowers : Mark.lower host .otherwise { op := .otherwise } (mark :: parent :: around) =
            mark.otherwise (parent :: around) :: parent :: around := if_pos arms.1
        dsimp only [Option.getD_none]
        rw [lowers]
        refine ⟨labels, flows.visit (continues.otherwise next arms) enclosed.otherwise ?_⟩
        intro goal _ _
        exact marked_otherwise next arms
    · have first : mark.course.first = (none, .finish) := by
        rw [Course.first, next]
        exact congrArg _ (if_neg arms)
      have visits := continues.finish next arms
      rw [first, rests]
      cases outer with
      | nil =>
        have ends := continues.stop
        rw [List.map_cons, List.map_nil, stop, stop, finish_ended position next arms] at ends
        have lowers : Mark.lower host .finish { op := .finish } [mark] = [] := by
          dsimp only [Mark.lower]
          rw [List.modify_nil, ite_self]
        dsimp only [Option.getD_none]
        rw [lowers]
        refine ⟨labels.tail, flows.visit visits trivial ?_⟩
        intro goal ahead inside
        omega
      | cons parent around =>
        rw [← @map_finish mark (parent :: around)] at visits
        refine ⟨labels.tail, flows.visit visits enclosed.finish ?_⟩
        intro goal ahead _
        exact marked_finish enclosed next arms ahead

theorem skip (flows : Flows host body labels position (mark :: outer))
    (next : mark.course.pending = instr :: pending) (dead : mark.isReached = false) :
    Flows host body labels (position + instr.count) (mark.rest :: outer) ∧
      ∀ target, position ≤ target → target < position + instr.count →
        ¬ Instr.Ahead host body target := by
  have skips := flows.continues.skip next
  have inside := flows.continues.pending_le
  have marked : ∀ target, position ≤ target → (Marked target position (mark :: outer) ↔
      Marked target (position + instr.count) (mark.rest :: outer)) := by
    intro target _
    have unmarked : mark.rest.isReached = false := dead
    rw [Marked, Marked, awaited_rest next, List.head?_cons, List.head?_cons, Option.any_some,
      Option.any_some, dead, unmarked]
    simp
  have fresh : ∀ target, position ≤ target → target < position + instr.count →
      ¬ Instr.Entered host body position target := by
    intro target behind before entered
    rw [next, Instr.countAll] at inside
    rcases (flows.entered target behind (by omega)).mp entered with ⟨_, reached⟩ | awaited
    · rw [List.head?_cons, Option.any_some, dead] at reached
      cases reached
    · have later := awaited.behind
      rw [next, Instr.countAll] at later
      omega
  have never : ∀ target, position ≤ target → target < position + instr.count →
      ¬ Instr.Ahead host body target := by
    intro target
    induction target using Nat.strong_induction_on with
    | _ target ih =>
      intro behind before ahead
      rcases Instr.ahead_iff_entered.mp ahead with start | ⟨source, forward, path, edge⟩
      · exact fresh target behind before (.inl start)
      · by_cases passed : source < position
        · exact fresh target behind before (.inr ⟨source, passed, path, edge⟩)
        · exact ih source forward (by omega) (by omega) path
  refine ⟨⟨skips, flows.enclosed.rest, ?_⟩, never⟩
  intro target behind before
  rw [← marked target (by omega), ← flows.entered target (by omega) before]
  constructor
  · rintro (start | ⟨source, passed, path, edge⟩)
    · exact .inl start
    · refine .inr ⟨source, ?_, path, edge⟩
      apply Nat.lt_of_not_le
      exact fun skipped => never source skipped passed path
  · rintro (start | ⟨source, passed, path, edge⟩)
    · exact .inl start
    · exact .inr ⟨source, by omega, path, edge⟩

theorem isReached_iff (flows : Flows host body labels position (mark :: outer))
    (next : mark.course.pending = instr :: pending) :
    mark.isReached = true ↔ Instr.Reaches host body position := by
  have inside := flows.continues.pending_le
  have positive := instr.count_pos
  rw [next, Instr.countAll] at inside
  rw [Instr.reaches_iff_ahead, Instr.ahead_iff_entered,
    flows.entered position (Nat.le_refl _) (by omega), marked_here next]

end Flows

end WasmX64
