import Mathlib.Logic.Relation
import WasmX64.Compile.Host

/-!
# The control flow of a body

The instructions and markers of a body are the nodes of a graph, by their numbers in the
visiting order.  Control falls through, enters both arms of an `if`, leaves the markers
behind an arm for the end of the construct, and follows branches: to the start of a loop, to
the end of any other construct.  Back edges make nothing reachable that was not, for the inside
of a loop is entered through its start alone.
-/

namespace WasmX64

/-- An access that is out of bounds whatever its index. -/
def Host.refuses (host : Host) (offset : UInt32) (bytes : Nat) : Bool :=
  !(host.bounds = .unchecked && host.memoryLimit ≠ 0) && host.memoryLimit < offset.toNat + bytes

theorem Host.refuses_iff {host : Host} {offset : UInt32} {bytes : Nat} :
    host.refuses offset bytes = true ↔
      ¬ (host.bounds = .unchecked ∧ host.memoryLimit ≠ 0) ∧
        host.memoryLimit < offset.toNat + bytes := by
  unfold refuses
  rw [Bool.and_eq_true, Bool.not_eq_true', decide_eq_true_eq, ← Bool.not_eq_true,
    Bool.and_eq_true, decide_eq_true_eq, decide_eq_true_eq]

namespace Instr

/-- Where control may go from an instruction at a position.  The labels are the positions that
branches lead to, by their depths. -/
def exits (host : Host) (labels : List Nat) (position : Nat) (instr : Instr) : List Nat :=
  match instr.op with
  | .unreachable | .ret => []
  | .br => labels[instr.index.toNat]?.toList
  | .brIf => (position + 1) :: labels[instr.index.toNat]?.toList
  | .brTable => (instr.default :: instr.targets).filterMap fun depth => labels[depth.toNat]?
  | .branchIf =>
    [position + 1, position + 1 + countAll instr.body + if instr.hasElse then 1 else 0]
  | .load op => if host.refuses instr.offset op.bytes then [] else [position + 1]
  | .store op => if host.refuses instr.offset op.bytes then [] else [position + 1]
  | _ => [position + 1]

mutual

def edges (host : Host) (labels : List Nat) (position : Nat) : Instr → List (Nat × Nat)
  | instr@⟨op, _, body, elseBody, hasElse, _, _, _, _, _, _⟩ =>
    (instr.exits host labels position).map (position, ·) ++
      if op.isStructured then
        let marker := position + 1 + countAll body
        let finish := marker + if hasElse then countAll elseBody + 1 else 0
        let inside := (if op = .loop then position else finish) :: labels
        edgesAll host inside (position + 1) body ++
          (if hasElse then (marker, finish) :: edgesAll host inside (marker + 1) elseBody
          else []) ++
          [(finish, finish + 1)]
      else []

/-- The edges from the instructions of a body that starts at a position. -/
def edgesAll (host : Host) (labels : List Nat) (position : Nat) : List Instr → List (Nat × Nat)
  | [] => []
  | instr :: rest =>
    edges host labels position instr ++ edgesAll host labels (position + instr.count) rest

end

/-- The graph of a function body.  Branches out of the body lead to its end, from which control
leaves the function. -/
def graph (host : Host) (body : List Instr) : List (Nat × Nat) :=
  edgesAll host [countAll body] 0 body ++ [(countAll body, countAll body + 1)]

/-- Control may come to a position of a function body from the entry. -/
def Reaches (host : Host) (body : List Instr) (position : Nat) : Prop :=
  Relation.ReflTransGen (fun source target => (source, target) ∈ graph host body) 0 position

/-- Control may come to a position without going back. -/
def Ahead (host : Host) (body : List Instr) (position : Nat) : Prop :=
  Relation.ReflTransGen
    (fun source target => (source, target) ∈ graph host body ∧ source < target) 0 position

theorem count_pos (instr : Instr) : 0 < instr.count := by
  obtain ⟨op, results, body, elseBody, hasElse, _⟩ := instr
  rw [count]
  split
  · omega
  · omega

/-- An instruction goes on behind itself, along a branch, or in an arm. -/
theorem mem_exits {host : Host} {labels : List Nat} {position target : Nat} {instr : Instr}
    (leads : target ∈ instr.exits host labels position) :
    target ∈ labels ∧ instr.op.isStructured = false ∨ target = position + 1 ∨
      instr.op = .branchIf ∧
        target = position + 1 + countAll instr.body + if instr.hasElse then 1 else 0 := by
  have found : ∀ depth : UInt32, target ∈ labels[depth.toNat]?.toList → target ∈ labels := by
    intro depth member
    exact List.mem_of_getElem? (Option.mem_toList.mp member)
  unfold exits at leads
  split at leads
  · cases leads
  · cases leads
  · rename_i op
    exact .inl ⟨found _ leads, by rw [op]; rfl⟩
  · rename_i op
    cases List.mem_cons.mp leads with
    | inl next => exact .inr (.inl next)
    | inr branch => exact .inl ⟨found _ branch, by rw [op]; rfl⟩
  · rename_i op
    obtain ⟨depth, _, label⟩ := List.mem_filterMap.mp leads
    exact .inl ⟨List.mem_of_getElem? label, by rw [op]; rfl⟩
  · rename_i op
    rcases List.mem_cons.mp leads with next | other
    · exact .inr (.inl next)
    · exact .inr (.inr ⟨op, List.mem_singleton.mp other⟩)
  · split at leads
    · cases leads
    · exact .inr (.inl (List.mem_singleton.mp leads))
  · split at leads
    · cases leads
    · exact .inr (.inl (List.mem_singleton.mp leads))
  · exact .inr (.inl (List.mem_singleton.mp leads))

/-- The marker behind the first arm of a construct at a position. -/
def marker (position : Nat) (instr : Instr) : Nat := position + 1 + countAll instr.body

/-- The end of a construct at a position. -/
def finish (position : Nat) (instr : Instr) : Nat :=
  marker position instr + if instr.hasElse then countAll instr.elseBody + 1 else 0

def inside (labels : List Nat) (position : Nat) (instr : Instr) : List Nat :=
  (if instr.op = .loop then position else finish position instr) :: labels

theorem finish_count {instr : Instr} (structured : instr.op.isStructured = true) (position : Nat) :
    position + instr.count = finish position instr + 1 := by
  obtain ⟨op, results, body, elseBody, hasElse, _⟩ := instr
  rw [count, if_pos structured]
  dsimp only [finish, marker]
  omega

theorem marker_le (position : Nat) (instr : Instr) :
    position < marker position instr ∧ marker position instr ≤ finish position instr := by
  unfold finish marker
  exact ⟨by omega, by omega⟩

/-- Where the second arm of an `if` starts, or its end without one. -/
theorem arm_le (position : Nat) (instr : Instr) :
    position + 1 + countAll instr.body + (if instr.hasElse then 1 else 0) ≤
      finish position instr := by
  unfold finish marker
  split
  · omega
  · omega

theorem mem_edges {host : Host} {labels : List Nat} {position source target : Nat}
    {instr : Instr} :
    (source, target) ∈ edges host labels position instr ↔
      source = position ∧ target ∈ instr.exits host labels position ∨
      instr.op.isStructured = true ∧
        ((source, target) ∈ edgesAll host (inside labels position instr) (position + 1) instr.body ∨
          instr.hasElse = true ∧ (source = marker position instr ∧ target = finish position instr ∨
            (source, target) ∈ edgesAll host (inside labels position instr)
              (marker position instr + 1) instr.elseBody) ∨
          source = finish position instr ∧ target = finish position instr + 1) := by
  have own : ∀ targets : List Nat, (source, target) ∈ targets.map (position, ·) ↔
      source = position ∧ target ∈ targets := by
    intro targets
    rw [List.mem_map]
    constructor
    · rintro ⟨other, member, ⟨⟩⟩
      exact ⟨rfl, member⟩
    · rintro ⟨rfl, member⟩
      exact ⟨target, member, rfl⟩
  obtain ⟨op, results, body, elseBody, hasElse, _⟩ := instr
  rw [edges, List.mem_append, own]
  dsimp only [inside, finish, marker]
  cases op.isStructured with
  | false => simp
  | true =>
    cases hasElse with
    | false => simp
    | true => simp [or_assoc]

/-- Edges from inside an interval that lead into it, to its end, or along a label. -/
structure Within (labels : List Nat) (first last source target : Nat) : Prop where
  first_le : first ≤ source
  lt_last : source < last
  leads : target ∈ labels ∨ first ≤ target ∧ target ≤ last

theorem Within.widen {labels : List Nat} {first last earlier later source target : Nat}
    (within : Within labels first last source target) (below : earlier ≤ first)
    (above : last ≤ later) : Within labels earlier later source target := by
  obtain ⟨starts, ends, leads⟩ := within
  refine ⟨by omega, by omega, ?_⟩
  cases leads with
  | inl label => exact .inl label
  | inr inside => exact .inr ⟨by omega, by omega⟩

/-- The label of a construct lies in the construct. -/
theorem Within.outside {labels : List Nat} {position first last source target : Nat}
    {instr : Instr} (structured : instr.op.isStructured = true)
    (within : Within (inside labels position instr) first last source target)
    (below : position ≤ first) (above : last ≤ finish position instr) :
    Within labels position (position + instr.count) source target := by
  have ends := finish_count structured position
  have middle := marker_le position instr
  obtain ⟨after, before, leads⟩ := within
  refine ⟨by omega, by omega, ?_⟩
  rcases leads with label | ⟨lower, upper⟩
  · rcases List.mem_cons.mp label with own | outer
    · refine .inr ?_
      split at own
      · omega
      · omega
    · exact .inl outer
  · exact .inr ⟨by omega, by omega⟩

theorem edges_within_of_arms {host : Host} {labels : List Nat} {position source target : Nat}
    {instr : Instr}
    (arms : ∀ arm, arm = instr.body ∨ arm = instr.elseBody → ∀ labels position,
      (source, target) ∈ edgesAll host labels position arm →
        Within labels position (position + countAll arm) source target)
    (member : (source, target) ∈ edges host labels position instr) :
    Within labels position (position + instr.count) source target := by
  have middle := marker_le position instr
  rcases mem_edges.mp member with ⟨rfl, leads⟩ | ⟨structured, inner⟩
  · have positive := instr.count_pos
    refine ⟨Nat.le_refl _, by omega, ?_⟩
    rcases mem_exits leads with ⟨label, _⟩ | next | ⟨branches, arm⟩
    · exact .inl label
    · exact .inr ⟨by omega, by omega⟩
    · have structured : instr.op.isStructured = true := by rw [branches]; rfl
      have ends := finish_count structured source
      have behind := arm_le source instr
      exact .inr ⟨by omega, by omega⟩
  · have ends := finish_count structured position
    rcases inner with first | ⟨hasElse, marks | second⟩ | last
    · exact (arms _ (.inl rfl) _ _ first).outside structured (by omega) middle.2
    · exact ⟨by omega, by omega, .inr ⟨by omega, by omega⟩⟩
    · apply (arms _ (.inr rfl) _ _ second).outside structured (by omega)
      rw [finish, if_pos hasElse]
      exact Nat.le_of_eq (Nat.add_right_comm _ _ _)
    · exact ⟨by omega, by omega, .inr ⟨by omega, by omega⟩⟩

mutual

theorem edges_within {host : Host} {labels : List Nat} {position source target : Nat} :
    (instr : Instr) → (source, target) ∈ edges host labels position instr →
      Within labels position (position + instr.count) source target
  | ⟨_, _, body, elseBody, _, _, _, _, _, _, _⟩ => by
    apply edges_within_of_arms
    intro arm choice labels position member
    cases choice with
    | inl first =>
      rw [first] at member ⊢
      exact edgesAll_within body member
    | inr second =>
      rw [second] at member ⊢
      exact edgesAll_within elseBody member

theorem edgesAll_within {host : Host} {labels : List Nat} {position source target : Nat} :
    (body : List Instr) → (source, target) ∈ edgesAll host labels position body →
      Within labels position (position + countAll body) source target
  | [] => by
    intro member
    rw [edgesAll] at member
    cases member
  | instr :: rest => by
    intro member
    rw [edgesAll, List.mem_append] at member
    rw [countAll]
    cases member with
    | inl first => exact (edges_within instr first).widen (Nat.le_refl _) (by omega)
    | inr later => exact (edgesAll_within rest later).widen (by omega) (by omega)

end

section Loops

/-- Control gets behind the head of an interval from inside the interval only. -/
def Confined (edges : List (Nat × Nat)) (head last : Nat) : Prop :=
  ∀ source target, (source, target) ∈ edges → head < target → target < last →
    head ≤ source ∧ source < last

theorem Confined.append {first second : List (Nat × Nat)} {head last : Nat}
    (left : Confined first head last)
    (right : ∀ source target, (source, target) ∈ second → target ≤ head ∨ last ≤ target) :
    Confined (first ++ second) head last := by
  intro source target member behind before
  cases List.mem_append.mp member with
  | inl here => exact left source target here behind before
  | inr there =>
    have beside := right source target there
    omega

/-- Labels that lead out of an interval. -/
def Leave (labels : List Nat) (first last : Nat) : Prop :=
  ∀ label ∈ labels, label < first ∨ last ≤ label

/-- Edges back lead along labels or to the head of an interval that contains them. -/
def Retreats (labels : List Nat) (first last : Nat) (edges : List (Nat × Nat)) : Prop :=
  ∀ source target, (source, target) ∈ edges → target ≤ source → target ∈ labels ∨
    ∃ stop, first ≤ target ∧ stop ≤ last ∧ source < stop ∧ Confined edges target stop

section Arms

variable {host : Host} {labels : List Nat} {position source target : Nat} {instr : Instr}

theorem leave_inside (leave : Leave labels position (position + instr.count))
    (structured : instr.op.isStructured = true) {label : Nat}
    (listed : label ∈ inside labels position instr) :
    label ≤ position ∨ finish position instr ≤ label := by
  have ends := finish_count structured position
  rcases List.mem_cons.mp listed with own | outer
  · split at own
    · omega
    · omega
  · have := leave label outer
    omega

theorem mem_first_arm (leave : Leave labels position (position + instr.count))
    (structured : instr.op.isStructured = true)
    (member : (source, target) ∈ edges host labels position instr)
    (behind : position + 1 < target) (before : target < marker position instr) :
    (source, target) ∈ edgesAll host (inside labels position instr) (position + 1) instr.body := by
  have middle := marker_le position instr
  rcases mem_edges.mp member with ⟨_, leads⟩ | ⟨_, first | ⟨_, marks | second⟩ | last⟩
  · rcases mem_exits leads with ⟨_, flat⟩ | next | ⟨_, arm⟩
    · rw [structured] at flat
      cases flat
    · omega
    · unfold marker at before
      omega
  · exact first
  · omega
  · obtain ⟨_, _, label | inner⟩ := edgesAll_within _ second
    · have := leave_inside leave structured label
      omega
    · omega
  · omega

theorem mem_second_arm (leave : Leave labels position (position + instr.count))
    (structured : instr.op.isStructured = true)
    (member : (source, target) ∈ edges host labels position instr)
    (behind : marker position instr + 1 < target) (before : target < finish position instr) :
    (source, target) ∈ edgesAll host (inside labels position instr) (marker position instr + 1)
      instr.elseBody := by
  have middle := marker_le position instr
  rcases mem_edges.mp member with ⟨_, leads⟩ | ⟨_, first | ⟨_, marks | second⟩ | last⟩
  · rcases mem_exits leads with ⟨_, flat⟩ | next | ⟨_, arm⟩
    · rw [structured] at flat
      cases flat
    · omega
    · unfold marker at behind
      split at arm
      · omega
      · omega
  · obtain ⟨_, _, label | inner⟩ := edgesAll_within _ first
    · have := leave_inside leave structured label
      omega
    · unfold marker at behind
      omega
  · omega
  · exact second
  · omega

theorem retreats_of_arms (leave : Leave labels position (position + instr.count))
    (arms : ∀ arm, arm = instr.body ∨ arm = instr.elseBody → ∀ labels position,
      Leave labels position (position + countAll arm) →
        Retreats labels position (position + countAll arm) (edgesAll host labels position arm)) :
    Retreats labels position (position + instr.count) (edges host labels position instr) := by
  intro source target member back
  have middle := marker_le position instr
  -- A branch to the construct itself stays in it, whatever arm it comes from.
  have own : instr.op.isStructured = true → ∀ first last, position < first →
      last ≤ finish position instr → source < last → target ∈ inside labels position instr →
      target ∈ labels ∨ ∃ stop, position ≤ target ∧ stop ≤ position + instr.count ∧
        source < stop ∧ Confined (edges host labels position instr) target stop := by
    intro structured first last starts ends inside label
    have whole := finish_count structured position
    rcases List.mem_cons.mp label with self | outer
    · split at self
      · refine .inr ⟨position + instr.count, by omega, Nat.le_refl _, by omega, ?_⟩
        intro other goal among _ _
        obtain ⟨lower, upper, _⟩ := edges_within instr among
        exact ⟨by omega, upper⟩
      · omega
    · exact .inl outer
  rcases mem_edges.mp member with ⟨rfl, leads⟩ | ⟨structured, inner⟩
  · rcases mem_exits leads with ⟨label, _⟩ | next | ⟨_, arm⟩
    · exact .inl label
    · omega
    · omega
  · have whole := finish_count structured position
    rcases inner with first | ⟨hasElse, marks | second⟩ | last
    · have span : position + 1 + countAll instr.body = marker position instr := rfl
      obtain ⟨_, upper, _⟩ := edgesAll_within _ first
      have leaves : Leave (inside labels position instr) (position + 1)
          (position + 1 + countAll instr.body) := fun label listed =>
        (leave_inside leave structured listed).imp (by omega) (by omega)
      rcases arms _ (.inl rfl) _ _ leaves source target first back with
        label | ⟨stop, starts, ends, inside, confined⟩
      · exact own structured (position + 1) _ (by omega) middle.2 (span ▸ upper) label
      · refine .inr ⟨stop, by omega, by omega, inside, ?_⟩
        intro other goal among behind before
        have arm := mem_first_arm leave structured among (by omega) (by omega)
        exact confined other goal arm behind before
    · rw [finish, if_pos hasElse] at marks
      omega
    · have span : marker position instr + 1 + countAll instr.elseBody =
          finish position instr := by
        rw [finish, if_pos hasElse]
        omega
      obtain ⟨_, upper, _⟩ := edgesAll_within _ second
      have leaves : Leave (inside labels position instr) (marker position instr + 1)
          (marker position instr + 1 + countAll instr.elseBody) := fun label listed =>
        (leave_inside leave structured listed).imp (by omega) (by omega)
      rcases arms _ (.inr rfl) _ _ leaves source target second back with
        label | ⟨stop, starts, ends, inside, confined⟩
      · exact own structured (marker position instr + 1) _ (by omega) (Nat.le_of_eq span) upper
          label
      · refine .inr ⟨stop, by omega, by omega, inside, ?_⟩
        intro other goal among behind before
        have arm := mem_second_arm leave structured among (by omega) (by omega)
        exact confined other goal arm behind before
    · omega

end Arms

mutual

theorem edges_retreats {host : Host} {labels : List Nat} {position : Nat} :
    (instr : Instr) → Leave labels position (position + instr.count) →
      Retreats labels position (position + instr.count) (edges host labels position instr)
  | ⟨_, _, body, elseBody, _, _, _, _, _, _, _⟩ => by
    intro leave
    apply retreats_of_arms leave
    intro arm choice labels position leave
    cases choice with
    | inl first =>
      rw [first] at leave ⊢
      exact edgesAll_retreats body leave
    | inr second =>
      rw [second] at leave ⊢
      exact edgesAll_retreats elseBody leave

theorem edgesAll_retreats {host : Host} {labels : List Nat} {position : Nat} :
    (body : List Instr) → Leave labels position (position + countAll body) →
      Retreats labels position (position + countAll body) (edgesAll host labels position body)
  | [] => by
    intro leave source target member
    rw [edgesAll] at member
    cases member
  | instr :: rest => by
    intro leave source target member back
    rw [countAll] at leave ⊢
    have positive := instr.count_pos
    have first := @edges_retreats host labels position instr
      fun label listed => (leave label listed).imp id (by omega)
    have later := @edgesAll_retreats host labels (position + instr.count) rest
      fun label listed => (leave label listed).imp (by omega) (by omega)
    rw [edgesAll] at member ⊢
    cases List.mem_append.mp member with
    | inl here =>
      rcases first source target here back with label | ⟨stop, starts, ends, inside, confined⟩
      · exact .inl label
      · refine .inr ⟨stop, starts, by omega, inside, confined.append ?_⟩
        intro other goal among
        obtain ⟨_, _, leads⟩ := edgesAll_within rest among
        rcases leads with label | inner
        · have := leave goal label
          omega
        · omega
    | inr there =>
      rcases later source target there back with label | ⟨stop, starts, ends, inside, confined⟩
      · exact .inl label
      · refine .inr ⟨stop, by omega, by omega, inside, ?_⟩
        intro other goal among behind before
        rcases List.mem_append.mp among with mine | others
        · obtain ⟨_, _, leads⟩ := edges_within instr mine
          rcases leads with label | inner
          · have := leave goal label
            omega
          · omega
        · exact confined other goal others behind before

end

theorem graph_retreats {host : Host} {body : List Instr} {source target : Nat}
    (member : (source, target) ∈ graph host body) (back : target ≤ source) :
    ∃ stop, source < stop ∧ Confined (graph host body) target stop := by
  have leave : Leave [countAll body] 0 (0 + countAll body) := by
    intro label listed
    rw [List.mem_singleton.mp listed]
    omega
  rcases List.mem_append.mp member with inner | last
  · have inside := edgesAll_within body inner
    rcases edgesAll_retreats body leave source target inner back with
      label | ⟨stop, _, ends, covers, confined⟩
    · have finish := List.mem_singleton.mp label
      have below := inside.lt_last
      omega
    · refine ⟨stop, covers, confined.append ?_⟩
      intro other goal among
      have exit := List.mem_singleton.mp among
      rw [Prod.mk.injEq] at exit
      omega
  · have exit := List.mem_singleton.mp last
    rw [Prod.mk.injEq] at exit
    omega

theorem Ahead.passes {host : Host} {body : List Instr} {head stop position : Nat}
    (confined : Confined (graph host body) head stop) (ahead : Ahead host body position)
    (behind : head ≤ position) (before : position < stop) : Ahead host body head := by
  induction ahead with
  | refl =>
    obtain rfl : head = 0 := by omega
    exact .refl
  | @tail middle last path edge ih =>
    by_cases here : head = last
    · rw [here]
      exact path.tail edge
    · have inside := confined middle last edge.1 (by omega) before
      exact ih inside.1 inside.2

/-- Edges back make nothing reachable that was not. -/
theorem reaches_iff_ahead {host : Host} {body : List Instr} {position : Nat} :
    Reaches host body position ↔ Ahead host body position := by
  constructor
  · intro reaches
    induction reaches with
    | refl => exact .refl
    | @tail middle last path edge ih =>
      by_cases forward : middle < last
      · exact ih.tail ⟨edge, forward⟩
      · obtain ⟨stop, covers, confined⟩ := graph_retreats edge (by omega)
        exact ih.passes confined (by omega) covers
  · intro ahead
    induction ahead with
    | refl => exact .refl
    | tail path edge ih => exact ih.tail edge.1

end Loops

end Instr

end WasmX64
