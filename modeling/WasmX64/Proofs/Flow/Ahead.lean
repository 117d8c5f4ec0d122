import WasmX64.Proofs.Traps.Visits

/-!
# What is still to come of the graph

In the middle of a compilation the edges of the graph that are still to come are those of the
open blocks: from what is left of each of them, its markers included.  The labels of the open
blocks are their ends, or, for loops, positions that have been passed.
-/

namespace WasmX64

namespace Course

/-- Where a block ends whose rest starts at a position. -/
def finish (course : Course) (position : Nat) : Nat :=
  position + Instr.countAll course.pending +
    if course.kind = .ifThen ∧ course.hasElse = true then Instr.countAll course.elseBody + 1 else 0

/-- Where the second arm of an `if` starts whose rest starts at a position, or where the `if`
ends without one. -/
def arm (course : Course) (position : Nat) : Nat :=
  position + Instr.countAll course.pending + if course.hasElse then 1 else 0

/-- The edges that are still to come of a block whose rest starts at a position. -/
def edges (host : Host) (labels : List Nat) (position : Nat) (course : Course) :
    List (Nat × Nat) :=
  Instr.edgesAll host labels position course.pending ++
    (if course.kind = .ifThen ∧ course.hasElse = true then
      (position + Instr.countAll course.pending, course.finish position) ::
        Instr.edgesAll host labels (position + Instr.countAll course.pending + 1) course.elseBody
    else []) ++
    [(course.finish position, course.finish position + 1)]

/-- The edges that are still to come of the open blocks. -/
def allEdges (host : Host) : List Nat → Nat → List Course → List (Nat × Nat)
  | label :: labels, position, course :: outer =>
    course.edges host (label :: labels) position ++
      allEdges host labels (course.finish position + 1) outer
  | _, _, _ => []

/-- The position behind the open blocks. -/
def stop : Nat → List Course → Nat
  | position, [] => position
  | position, course :: outer => stop (course.finish position + 1) outer

/-- The label of a block whose rest starts at a position: of a loop a position that has been
passed, of any other block its end. -/
structure Leads (now position : Nat) (course : Course) (label : Nat) : Prop where
  back : course.kind = .loop → label < now
  ahead : course.kind ≠ .loop → label = course.finish position

/-- Labels of the open blocks. -/
def Labelled (now : Nat) : List Nat → Nat → List Course → Prop
  | label :: labels, position, course :: outer =>
    course.Leads now position label ∧ Labelled now labels (course.finish position + 1) outer
  | [], _, [] => True
  | _, _, _ => False

section

variable {host : Host} {labels : List Nat} {position now : Nat} {course : Course}
  {outer : List Course} {instr : Instr} {pending : List Instr}

theorem finish_rest (position : Nat) (next : course.pending = instr :: pending) :
    course.rest.finish (position + instr.count) = course.finish position := by
  simp only [finish, rest, next, List.tail_cons, Instr.countAll]
  omega

theorem le_finish (course : Course) (position : Nat) :
    position + Instr.countAll course.pending ≤ course.finish position :=
  Nat.le_add_right _ _

theorem le_stop (position : Nat) (courses : List Course) : position ≤ stop position courses := by
  induction courses generalizing position with
  | nil => exact Nat.le_refl _
  | cons course outer ih =>
    have ends := le_finish course position
    have rest := ih (course.finish position + 1)
    rw [stop]
    omega

theorem Labelled.later {later : Nat} {courses : List Course} (below : now ≤ later)
    (labelled : Labelled now labels position courses) :
    Labelled later labels position courses := by
  induction courses generalizing labels position with
  | nil => cases labels with
    | nil => exact trivial
    | cons label labels => exact labelled
  | cons course outer ih => cases labels with
    | nil => exact labelled
    | cons label labels =>
      obtain ⟨⟨back, ahead⟩, others⟩ := labelled
      exact ⟨⟨fun loop => Nat.lt_of_lt_of_le (back loop) below, ahead⟩, ih others⟩

theorem edges_pending (next : course.pending = instr :: pending) :
    course.edges host labels position =
      instr.edges host labels position ++
        course.rest.edges host labels (position + instr.count) := by
  have ends := finish_rest position next
  have middle : position + Instr.countAll course.pending =
      position + instr.count + Instr.countAll course.rest.pending := by
    rw [rest, next, List.tail_cons, Instr.countAll, Nat.add_assoc]
  unfold edges
  rw [ends, middle, next, Instr.edgesAll]
  simp [rest, next]

theorem edges_opened {kind : BlockKind} (structured : instr.op.isStructured = true)
    (arms : instr.hasElse = true → kind = .ifThen) :
    Instr.edges host labels position instr =
      (instr.exits host labels position).map (position, ·) ++
        (opened kind instr).edges host (Instr.inside labels position instr) (position + 1) := by
  obtain ⟨op, results, body, elseBody, hasElse, _⟩ := instr
  have both : (kind = .ifThen ∧ hasElse = true) ↔ hasElse = true := and_iff_right_of_imp arms
  rw [Instr.edges]
  simp only [edges, opened, finish, both, Instr.inside, Instr.finish, Instr.marker]
  rw [if_pos structured]

theorem finish_opened {kind : BlockKind} (arms : instr.hasElse = true → kind = .ifThen) :
    (opened kind instr).finish (position + 1) = Instr.finish position instr := by
  have both : (kind = .ifThen ∧ instr.hasElse = true) ↔ instr.hasElse = true :=
    and_iff_right_of_imp arms
  simp only [finish, opened, both, Instr.finish, Instr.marker]

/-- An instruction that contains nothing has its own edges only. -/
theorem edges_flat (flat : instr.op.isStructured = false) :
    Instr.edges host labels position instr =
      (instr.exits host labels position).map (position, ·) := by
  obtain ⟨op, results, body, elseBody, hasElse, _⟩ := instr
  rw [Instr.edges]
  simp only [flat]
  simp

theorem labelled_cons : Labelled now labels position (course :: outer) ↔
    ∃ label others, labels = label :: others ∧
      course.Leads now position label ∧
      Labelled now others (course.finish position + 1) outer := by
  constructor
  · intro labelled
    cases labels with
    | nil => cases labelled
    | cons label others => exact ⟨label, others, rfl, labelled⟩
  · rintro ⟨label, others, rfl, labelled⟩
    exact labelled

theorem Labelled.rest (labelled : Labelled now labels position (course :: outer))
    (next : course.pending = instr :: pending) :
    Labelled now labels (position + instr.count) (course.rest :: outer) := by
  obtain ⟨label, others, rfl, ⟨back, ahead⟩, outside⟩ := labelled_cons.mp labelled
  refine labelled_cons.mpr ⟨label, others, rfl, ⟨back, ?_⟩, ?_⟩
  · rw [finish_rest position next]
    exact ahead
  · rw [finish_rest position next]
    exact outside

theorem le_source {source target : Nat} {courses : List Course}
    (member : (source, target) ∈ allEdges host labels position courses) : position ≤ source := by
  induction courses generalizing labels position with
  | nil => cases labels with
    | nil => cases member
    | cons label others => cases member
  | cons course outer ih => cases labels with
    | nil => cases member
    | cons label others =>
      have ends := le_finish course position
      rw [allEdges, edges] at member
      rcases List.mem_append.mp member with own | later
      · rcases List.mem_append.mp own with arms | last
        · rcases List.mem_append.mp arms with first | second
          · exact (Instr.edgesAll_within _ first).first_le
          · split at second
            · rcases List.mem_cons.mp second with marks | inside
              · rw [Prod.mk.injEq] at marks
                omega
              · have behind := (Instr.edgesAll_within _ inside).first_le
                omega
            · cases second
        · have exit := List.mem_singleton.mp last
          rw [Prod.mk.injEq] at exit
          omega
      · have behind := ih later
        omega

end

/-- The graph of a body from a position on is what is to come of the open blocks. -/
structure Continues (host : Host) (body : List Instr) (labels : List Nat) (position : Nat)
    (courses : List Course) : Prop where
  labelled : Labelled position labels position courses
  stop : Course.stop position courses = Instr.countAll body + 1
  edges : ∀ source target, position ≤ source →
    ((source, target) ∈ Instr.graph host body ↔
      (source, target) ∈ allEdges host labels position courses)

section

variable {host : Host} {body : List Instr} {labels : List Nat} {position : Nat} {course : Course}
  {outer : List Course} {instr : Instr} {pending : List Instr}

theorem continues_start (host : Host) (body : List Instr) :
    Continues host body [Instr.countAll body] 0 [⟨.block, body, false, []⟩] := by
  have ends : (⟨.block, body, false, []⟩ : Course).finish 0 = Instr.countAll body := by
    simp [finish]
  refine ⟨⟨⟨nofun, fun _ => ends.symm⟩, trivial⟩, congrArg (· + 1) ends, ?_⟩
  intro source target _
  rw [allEdges, Course.edges, ends]
  simp [Instr.graph, allEdges]

theorem Continues.pass {courses later : List Course} {others : List Nat} {next : Nat}
    {passed : List (Nat × Nat)} (continues : Continues host body labels position courses)
    (splits : allEdges host labels position courses =
      passed ++ allEdges host others next later)
    (below : position ≤ next) (behind : ∀ edge ∈ passed, edge.1 < next)
    (labelled : Labelled next others next later)
    (stops : Course.stop next later = Course.stop position courses) :
    Continues host body others next later ∧
      ∀ source target, position ≤ source → source < next →
        ((source, target) ∈ Instr.graph host body ↔ (source, target) ∈ passed) := by
  refine ⟨⟨labelled, stops.trans continues.stop, ?_⟩, ?_⟩
  · intro source target after
    rw [continues.edges source target (by omega), splits, List.mem_append, or_iff_right]
    intro member
    have := behind _ member
    omega
  · intro source target after before
    rw [continues.edges source target after, splits, List.mem_append, or_iff_left]
    intro member
    have := le_source member
    omega

theorem mem_map_pair {targets : List Nat} {source target : Nat} :
    (source, target) ∈ targets.map (position, ·) ↔ source = position ∧ target ∈ targets := by
  rw [List.mem_map]
  constructor
  · rintro ⟨other, member, ⟨⟩⟩
    exact ⟨rfl, member⟩
  · rintro ⟨rfl, member⟩
    exact ⟨target, member, rfl⟩

/-- A visit with given exits comes first, and others are to come behind it. -/
def Visits (host : Host) (body : List Instr) (position : Nat) (exits : List Nat)
    (others : List Nat) (later : List Course) : Prop :=
  (∀ target, (position, target) ∈ Instr.graph host body ↔ target ∈ exits) ∧
    Continues host body others (position + 1) later

theorem Continues.visit {courses later : List Course} {others exits : List Nat}
    (continues : Continues host body labels position courses)
    (splits : allEdges host labels position courses =
      exits.map (position, ·) ++ allEdges host others (position + 1) later)
    (labelled : Labelled (position + 1) others (position + 1) later)
    (stops : Course.stop (position + 1) later = Course.stop position courses) :
    Visits host body position exits others later := by
  have behind : ∀ edge ∈ exits.map (position, ·), edge.1 < position + 1 := by
    rintro ⟨source, target⟩ member
    rw [(mem_map_pair.mp member).1]
    exact Nat.lt_succ_self _
  obtain ⟨goes, here⟩ := continues.pass splits (Nat.le_succ _) behind labelled stops
  refine ⟨fun target => ?_, goes⟩
  rw [here position target (Nat.le_refl _) (Nat.lt_succ_self _), mem_map_pair]
  exact and_iff_right rfl

theorem Continues.pending_le (continues : Continues host body labels position (course :: outer)) :
    position + Instr.countAll course.pending ≤ Instr.countAll body := by
  have ends := le_finish course position
  have rest := le_stop (course.finish position + 1) outer
  have whole := continues.stop
  rw [Course.stop] at whole
  omega

section Instructions

variable (continues : Continues host body labels position (course :: outer))
  (next : course.pending = instr :: pending)

include continues next

theorem Continues.skip :
    Continues host body labels (position + instr.count) (course.rest :: outer) := by
  obtain ⟨label, others, rfl, _⟩ := labelled_cons.mp continues.labelled
  have ends := finish_rest position next
  have splits : allEdges host (label :: others) position (course :: outer) =
      instr.edges host (label :: others) position ++
        allEdges host (label :: others) (position + instr.count) (course.rest :: outer) := by
    rw [allEdges, allEdges, edges_pending next, ends, List.append_assoc]
  refine (continues.pass splits (Nat.le_add_right _ _) ?_ ?_ ?_).1
  · intro edge member
    exact (Instr.edges_within instr member).lt_last
  · exact (continues.labelled.rest next).later (Nat.le_add_right _ _)
  · rw [Course.stop, Course.stop, ends]

theorem Continues.flat (flat : instr.op.isStructured = false) :
    Visits host body position (instr.exits host labels position) labels (course.rest :: outer) := by
  have single : instr.count = 1 := by
    rw [← instr.length_visits, visits_flat flat]
    rfl
  have skips := continues.skip next
  rw [single] at skips
  obtain ⟨label, others, rfl, _, _⟩ := labelled_cons.mp continues.labelled
  refine continues.visit ?_ skips.labelled (skips.stop.trans continues.stop.symm)
  have ends := finish_rest position next
  rw [single] at ends
  rw [allEdges, allEdges, edges_pending next, edges_flat flat, single, ends, List.append_assoc]

theorem Continues.opened {kind : BlockKind} (structured : instr.op.isStructured = true)
    (arms : instr.hasElse = true → kind = .ifThen) (loops : instr.op = .loop ↔ kind = .loop) :
    Visits host body position (instr.exits host labels position)
      (Instr.inside labels position instr) (opened kind instr :: course.rest :: outer) := by
  have skips := continues.skip next
  have ends : (Course.opened kind instr).finish (position + 1) + 1 = position + instr.count := by
    rw [finish_opened arms, Instr.finish_count structured]
  obtain ⟨label, others, rfl, _⟩ := labelled_cons.mp continues.labelled
  refine continues.visit ?_ ?_ ?_
  · rw [allEdges, edges_pending next, edges_opened structured arms, Instr.inside, allEdges, ends,
      allEdges, finish_rest position next]
    simp only [List.append_assoc]
  · refine labelled_cons.mpr ⟨_, _, rfl, ?_⟩
    rw [ends]
    refine ⟨⟨fun loop => ?_, fun other => ?_⟩, (continues.labelled.rest next).later (Nat.le_succ _)⟩
    · rw [if_pos (loops.mpr loop)]
      exact Nat.lt_succ_self _
    · rw [if_neg fun op => other (loops.mp op), finish_opened arms]
  · rw [Course.stop, ends]
    exact skips.stop.trans continues.stop.symm

end Instructions

section Markers

theorem finish_ended (position : Nat) (next : course.pending = [])
    (closed : ¬ (course.kind = .ifThen ∧ course.hasElse = true)) :
    course.finish position = position := by
  rw [finish, next, if_neg closed]
  rfl

variable (continues : Continues host body labels position (course :: outer))
  (next : course.pending = [])

include continues next

theorem Continues.otherwise (arms : course.kind = .ifThen ∧ course.hasElse = true) :
    Visits host body position [course.finish position] labels
      ({ course with kind := .elseArm, pending := course.elseBody } :: outer) := by
  have ends : ({ course with kind := .elseArm, pending := course.elseBody } : Course).finish
      (position + 1) = course.finish position := by
    simp only [finish, next, arms, Instr.countAll]
    simp
    omega
  obtain ⟨label, others, rfl, own, rest⟩ := labelled_cons.mp continues.labelled
  refine continues.visit ?_ ?_ ?_
  · rw [allEdges, allEdges, Course.edges, Course.edges, ends, if_pos arms, next]
    simp [Instr.edgesAll, Instr.countAll]
  · refine labelled_cons.mpr ⟨label, others, rfl, ⟨nofun, fun _ => ?_⟩, ?_⟩
    · rw [ends]
      apply own.ahead
      rw [arms.1]
      exact fun loop => nomatch loop
    · rw [ends]
      exact rest.later (Nat.le_succ _)
  · rw [Course.stop, Course.stop, ends]

theorem Continues.finish (closed : ¬ (course.kind = .ifThen ∧ course.hasElse = true)) :
    Visits host body position [position + 1] labels.tail outer := by
  have ends : course.finish position = position := finish_ended position next closed
  obtain ⟨label, others, rfl, own, rest⟩ := labelled_cons.mp continues.labelled
  rw [ends] at rest
  refine continues.visit ?_ (rest.later (Nat.le_succ _)) ?_
  · rw [allEdges, Course.edges, ends, if_neg closed, next]
    rfl
  · rw [Course.stop, ends]

end Markers

end

end Course

end WasmX64
