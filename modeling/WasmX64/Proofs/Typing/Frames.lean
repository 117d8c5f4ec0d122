import Mathlib.Algebra.Ring.Nat
import WasmX64.Compile.State
import WasmX64.Proofs.Typing.Rules

/-!
# Typing one instruction at a time

A body can be typed the way it is compiled, with a stack of open constructs instead
of a recursion over the tree.  `Moves` is one step of that machine.  What is left to
be typed checks before a step exactly when it checks after it, and a step makes less
of it.
-/

namespace WasmX64

/-- An open construct: the types a branch to it carries and its results, whether the
code at hand can be reached, the height of the stack below it and what is still to
come. -/
structure Frame where
  label : List ValueType
  results : List ValueType
  live : Bool
  floor : Nat
  pending : List Instr
  /-- The else arm of an `if` whose then arm is open. -/
  otherwise : Option (List Instr)

/-- The construct that an instruction opens at a height. -/
def Instr.opens (instr : Instr) (floor : Nat) : Frame where
  label := instr.label
  results := instr.results
  live := true
  floor := floor
  pending := instr.body
  otherwise :=
    if instr.op = .branchIf then some (if instr.hasElse then instr.elseBody else []) else none

/-- The scope inside open constructs. -/
def Scope.within (scope : Scope) (frames : List Frame) : Scope :=
  { scope with labels := frames.map Frame.label }

/-- One step of typing. -/
inductive Moves (scope : Scope) :
    List Frame → List ValueType → List Frame → List ValueType → Prop where
  | skip {frame : Frame} {outer : List Frame} {instr : Instr} {rest : List Instr}
      {stack : List ValueType} (dead : frame.live = false)
      (pending : frame.pending = instr :: rest) :
      Moves scope (frame :: outer) stack ({ frame with pending := rest } :: outer) stack
  | plain {frame : Frame} {outer : List Frame} {instr : Instr} {rest : List Instr}
      {below stack ins outs : List ValueType}
      (live : frame.live = true) (pending : frame.pending = instr :: rest)
      (floor : frame.floor = below.length)
      (takes : instr.Takes (scope.within (frame :: outer)) ins outs)
      (numeric : Numeric (ins ++ outs)) :
      Moves scope (frame :: outer) (below ++ (stack ++ ins))
        ({ frame with pending := rest } :: outer) (below ++ (stack ++ outs))
  | leave {frame : Frame} {outer : List Frame} {instr : Instr} {rest : List Instr}
      {below stack carried anything : List ValueType}
      (live : frame.live = true) (pending : frame.pending = instr :: rest)
      (floor : frame.floor = below.length)
      (leaves : instr.Leaves (scope.within (frame :: outer)) carried)
      (unmarked : ∀ other ∈ rest, other.op.isMarker = false) :
      Moves scope (frame :: outer) (below ++ (stack ++ carried))
        ({ frame with live := false, pending := rest } :: outer) (below ++ anything)
  | branchIf {frame : Frame} {outer : List Frame} {instr : Instr} {rest : List Instr}
      {below stack carried : List ValueType}
      (live : frame.live = true) (pending : frame.pending = instr :: rest)
      (floor : frame.floor = below.length) (op : instr.op = .brIf)
      (target : (scope.within (frame :: outer)).label? instr.index = some carried) :
      Moves scope (frame :: outer) (below ++ (stack ++ carried ++ [.i32]))
        ({ frame with pending := rest } :: outer) (below ++ (stack ++ carried))
  | enter {frame : Frame} {outer : List Frame} {instr : Instr} {rest : List Instr}
      {below stack : List ValueType}
      (live : frame.live = true) (pending : frame.pending = instr :: rest)
      (floor : frame.floor = below.length) (op : instr.op.isStructured = true)
      (few : instr.results.length ≤ 1) (numeric : Numeric instr.results) :
      Moves scope (frame :: outer) (below ++ (stack ++ instr.condition))
        (instr.opens (below ++ stack).length :: { frame with pending := rest } :: outer)
        (below ++ stack)
  | otherwise {frame : Frame} {outer : List Frame} {arm : List Instr}
      {below stack : List ValueType} (pending : frame.pending = [])
      (floor : frame.floor = below.length) (arms : frame.otherwise = some arm)
      (falls : frame.live = true → stack = frame.results) :
      Moves scope (frame :: outer) (below ++ stack)
        ({ frame with live := true, pending := arm, otherwise := none } :: outer) below
  | finish {frame : Frame} {outer : List Frame} {below stack after : List ValueType}
      (pending : frame.pending = []) (floor : frame.floor = below.length)
      (arms : ∀ arm, frame.otherwise = some arm → arm = [] ∧ frame.results = [])
      (falls : frame.live = true → stack = frame.results)
      (goesOn : outer ≠ [] → after = below ++ frame.results) :
      Moves scope (frame :: outer) (below ++ stack) outer after

/-- What a construct still has to come checks. -/
def FrameChecks (scope : Scope) (outer : List Frame) (frame : Frame)
    (stack : List ValueType) : Prop :=
  (frame.live = true →
    Checks false (scope.within (frame :: outer)) frame.pending (stack.drop frame.floor)
      frame.results) ∧
  ∀ arm, frame.otherwise = some arm →
    Checks false (scope.within (frame :: outer)) arm [] frame.results

/-- What a construct still has to come slips. -/
def FrameSlips (scope : Scope) (outer : List Frame) (frame : Frame)
    (stack : List ValueType) : Prop :=
  frame.live = true ∧
      Slips (scope.within (frame :: outer)) frame.pending (stack.drop frame.floor)
        frame.results ∨
    ∃ arm, frame.otherwise = some arm ∧
      Slips (scope.within (frame :: outer)) arm [] frame.results

/-- The stack behind a construct. -/
def Frame.leaves (frame : Frame) (stack : List ValueType) : List ValueType :=
  stack.take frame.floor ++ frame.results

/-- What open constructs still have to come checks. -/
def OpenChecks (scope : Scope) : List Frame → List ValueType → Prop
  | [], _ => True
  | frame :: outer, stack =>
    FrameChecks scope outer frame stack ∧ OpenChecks scope outer (frame.leaves stack)

/-- What open constructs still have to come slips: the innermost one, or those around
it after it checks. -/
def OpenSlips (scope : Scope) : List Frame → List ValueType → Prop
  | [], _ => False
  | frame :: outer, stack =>
    FrameSlips scope outer frame stack ∨
      FrameChecks scope outer frame stack ∧ OpenSlips scope outer (frame.leaves stack)

/-- How much a construct still has to come: three for every node and one for every
marker. -/
def Frame.weight (frame : Frame) : Nat :=
  3 * Instr.nodesAll frame.pending + 1 +
    frame.otherwise.elim 0 fun arm => 3 * Instr.nodesAll arm + 1

/-- How much open constructs still have to come. -/
def weight (frames : List Frame) : Nat := (frames.map Frame.weight).sum

theorem Instr.nodes_eq (instr : Instr) :
    instr.nodes = 1 + nodesAll instr.body + nodesAll instr.elseBody := by
  cases instr
  rw [nodes]

theorem Instr.mem_arms {instr : Instr} {arm : List Instr} (floor : Nat) :
    arm ∈ instr.arms ↔ arm = instr.body ∨ (instr.opens floor).otherwise = some arm := by
  unfold arms opens
  by_cases op : instr.op = .branchIf
  · simp only [op, if_true, List.mem_cons, List.not_mem_nil, or_false, Option.some.injEq]
    exact or_congr_right eq_comm
  · simp [op]

theorem Instr.nodes_pos (instr : Instr) : 0 < instr.nodes := by
  rw [nodes_eq]
  omega

theorem Instr.weight_opens (instr : Instr) (floor : Nat) :
    (instr.opens floor).weight < 3 * instr.nodes := by
  rw [nodes_eq]
  simp only [Frame.weight, opens]
  split
  · cases instr.hasElse <;> simp [nodesAll] <;> omega
  · simp
    omega

/-- Taking an instruction off takes its nodes off. -/
theorem Frame.weight_pending {frame : Frame} {instr : Instr} {rest : List Instr}
    (pending : frame.pending = instr :: rest) (live : Bool) :
    ({ frame with live := live, pending := rest } : Frame).weight + 3 * instr.nodes =
      frame.weight := by
  simp only [weight, pending, Instr.nodesAll]
  omega

namespace Moves

variable {scope : Scope} {frames frames' : List Frame} {stack stack' : List ValueType}

theorem weight_lt (moves : Moves scope frames stack frames' stack') :
    weight frames' < weight frames := by
  have advances : ∀ {frame : Frame} {instr : Instr} {rest : List Instr}
      (pending : frame.pending = instr :: rest) (live : Bool) (outer : List Frame),
      weight ({ frame with live := live, pending := rest } :: outer) + 3 * instr.nodes =
        weight (frame :: outer) := by
    intro frame instr rest pending live outer
    simp only [weight, List.map_cons, List.sum_cons, ← Frame.weight_pending pending live]
    omega
  have shrinks : ∀ {frame : Frame} {instr : Instr} {rest : List Instr}
      (pending : frame.pending = instr :: rest) (live : Bool) (outer : List Frame),
      weight ({ frame with live := live, pending := rest } :: outer) <
        weight (frame :: outer) := by
    intro frame instr rest pending live outer
    have total := advances pending live outer
    have positive := instr.nodes_pos
    omega
  cases moves with
  | skip _ pending => exact shrinks pending _ _
  | plain _ pending _ _ _ => exact shrinks pending _ _
  | leave _ pending _ _ _ => exact shrinks pending _ _
  | branchIf _ pending _ _ _ => exact shrinks pending _ _
  | @enter frame outer instr rest below stack _ pending _ _ _ _ =>
    have total := advances pending frame.live outer
    have bound := instr.weight_opens (below ++ stack).length
    refine Nat.lt_of_lt_of_eq ?_ total
    rw [weight, List.map_cons, List.sum_cons, ← weight]
    omega
  | otherwise pending _ arms _ =>
    simp [weight, Frame.weight, pending, arms, Instr.nodesAll]
  | finish pending _ _ _ _ =>
    simp only [weight, List.map_cons, List.sum_cons, Frame.weight]
    omega

end Moves

/-- A construct checks or slips before a step inside it if it does so after the step. -/
structure Backs (scope : Scope) (outer : List Frame) (frame : Frame) (stack : List ValueType)
    (frame' : Frame) (stack' : List ValueType) : Prop where
  checks : FrameChecks scope outer frame' stack' → FrameChecks scope outer frame stack
  slips : FrameSlips scope outer frame' stack' → FrameSlips scope outer frame stack
  leaves : frame'.leaves stack' = frame.leaves stack

namespace Backs

variable {scope : Scope} {outer : List Frame} {frame : Frame} {instr : Instr}
  {rest : List Instr} {below stack : List ValueType}

theorem skip (dead : frame.live = false) :
    Backs scope outer frame stack { frame with pending := rest } stack := by
  refine ⟨fun checks => ⟨fun live => ?_, checks.2⟩, ?_, rfl⟩
  · simp [dead] at live
  · rintro (⟨live, _⟩ | arm)
    · simp [dead] at live
    · exact .inr arm

theorem next {before after : List ValueType} (pending : frame.pending = instr :: rest)
    (floor : frame.floor = below.length)
    (checks : Checks false (scope.within (frame :: outer)) rest after frame.results →
      Checks false (scope.within (frame :: outer)) (instr :: rest) before frame.results)
    (slips : Slips (scope.within (frame :: outer)) rest after frame.results →
      Slips (scope.within (frame :: outer)) (instr :: rest) before frame.results) :
    Backs scope outer frame (below ++ before) { frame with pending := rest }
      (below ++ after) := by
  refine ⟨fun done => ⟨fun live => ?_, done.2⟩, ?_, ?_⟩
  · have body := done.1 live
    simp only [floor, List.drop_left] at body
    rw [pending, floor, List.drop_left]
    exact checks body
  · rintro (⟨live, body⟩ | arm)
    · simp only [floor, List.drop_left] at body
      refine .inl ⟨live, ?_⟩
      rw [pending, floor, List.drop_left]
      exact slips body
    · exact .inr arm
  · simp [Frame.leaves, floor]

theorem leave {carried anything : List ValueType} (pending : frame.pending = instr :: rest)
    (floor : frame.floor = below.length)
    (leaves : instr.Leaves (scope.within (frame :: outer)) carried)
    (unmarked : ∀ other ∈ rest, other.op.isMarker = false) :
    Backs scope outer frame (below ++ (stack ++ carried))
      { frame with live := false, pending := rest } (below ++ anything) := by
  refine ⟨fun done => ⟨fun live => ?_, done.2⟩, ?_, ?_⟩
  · rw [pending, floor, List.drop_left]
    exact @Checks.leave _ _ _ _ _ _ [] _ leaves unmarked (by simp)
  · rintro (⟨live, _⟩ | arm)
    · simp at live
    · exact .inr arm
  · simp [Frame.leaves, floor]

theorem otherwise {arm : List Instr} (pending : frame.pending = [])
    (floor : frame.floor = below.length) (arms : frame.otherwise = some arm)
    (falls : frame.live = true → stack = frame.results) :
    Backs scope outer frame (below ++ stack)
      { frame with live := true, pending := arm, otherwise := none } below := by
  refine ⟨fun done => ⟨fun live => ?_, fun other found => ?_⟩, ?_, ?_⟩
  · rw [pending, floor, List.drop_left, falls live]
    exact .done
  · rw [arms] at found
    cases found
    have body := done.1 rfl
    simp only [floor, List.drop_length] at body
    exact body
  · rintro (⟨_, body⟩ | ⟨other, found, _⟩)
    · simp only [floor, List.drop_length] at body
      exact .inr ⟨arm, arms, body⟩
    · cases found
  · simp [Frame.leaves, floor]

theorem openChecks {frame' : Frame} {stack' : List ValueType}
    (backs : Backs scope outer frame stack frame' stack')
    (checks : OpenChecks scope (frame' :: outer) stack') :
    OpenChecks scope (frame :: outer) stack := by
  refine ⟨backs.checks checks.1, ?_⟩
  rw [← backs.leaves]
  exact checks.2

theorem openSlips {frame' : Frame} {stack' : List ValueType}
    (backs : Backs scope outer frame stack frame' stack')
    (slips : OpenSlips scope (frame' :: outer) stack') :
    OpenSlips scope (frame :: outer) stack := by
  rcases slips with inside | ⟨checks, outside⟩
  · exact .inl (backs.slips inside)
  · refine .inr ⟨backs.checks checks, ?_⟩
    rw [← backs.leaves]
    exact outside

end Backs

section Construct

variable {scope : Scope} {frame : Frame} {outer : List Frame} {instr : Instr}
  {rest : List Instr} {below stack : List ValueType}

theorem Scope.within_opens (frame' : Frame) (outer : List Frame) (floor : Nat)
    (label : frame'.label = frame.label) :
    scope.within (instr.opens floor :: frame' :: outer) =
      (scope.within (frame :: outer)).enter instr.label := by
  simp [within, enter, Instr.opens, label]

theorem FrameChecks.arms
    (done : FrameChecks scope ({ frame with pending := rest } :: outer)
      (instr.opens (below ++ stack).length) (below ++ stack)) :
    ∀ arm ∈ instr.arms,
      Checks false ((scope.within (frame :: outer)).enter instr.label) arm [] instr.results := by
  intro arm member
  have scopes := @Scope.within_opens scope frame instr { frame with pending := rest } outer
    (below ++ stack).length rfl
  rw [← scopes]
  rcases (Instr.mem_arms (below ++ stack).length).mp member with rfl | found
  · have body := done.1 rfl
    simp only [Instr.opens, List.drop_length] at body
    exact body
  · exact done.2 arm found

theorem FrameSlips.arm
    (slips : FrameSlips scope ({ frame with pending := rest } :: outer)
      (instr.opens (below ++ stack).length) (below ++ stack)) :
    ∃ arm ∈ instr.arms,
      Slips ((scope.within (frame :: outer)).enter instr.label) arm [] instr.results := by
  have scopes := @Scope.within_opens scope frame instr { frame with pending := rest } outer
    (below ++ stack).length rfl
  rw [← scopes]
  rcases slips with ⟨_, body⟩ | ⟨arm, found, body⟩
  · simp only [Instr.opens, List.drop_length] at body
    exact ⟨_, (Instr.mem_arms (below ++ stack).length).mpr (.inl rfl), body⟩
  · exact ⟨arm, (Instr.mem_arms (below ++ stack).length).mpr (.inr found), body⟩

theorem Backs.construct (pending : frame.pending = instr :: rest)
    (floor : frame.floor = below.length) (op : instr.op.isStructured = true)
    (few : instr.results.length ≤ 1) (numeric : Numeric instr.results)
    (arms : ∀ arm ∈ instr.arms,
      Checks false ((scope.within (frame :: outer)).enter instr.label) arm [] instr.results) :
    Backs scope outer frame (below ++ (stack ++ instr.condition))
      { frame with pending := rest } (below ++ (stack ++ instr.results)) :=
  .next pending floor (.construct op few numeric arms) (.afterConstruct op arms)

end Construct

namespace Moves

variable {scope : Scope} {frames frames' : List Frame} {stack stack' : List ValueType}

/-- What is left to be typed checks or slips before a step if it does so after it. -/
theorem back (moves : Moves scope frames stack frames' stack') :
    (OpenChecks scope frames' stack' → OpenChecks scope frames stack) ∧
      (OpenSlips scope frames' stack' → OpenSlips scope frames stack) := by
  have inside : ∀ {outer frame frame' stack stack'},
      Backs scope outer frame stack frame' stack' →
      (OpenChecks scope (frame' :: outer) stack' → OpenChecks scope (frame :: outer) stack) ∧
        (OpenSlips scope (frame' :: outer) stack' → OpenSlips scope (frame :: outer) stack) :=
    fun backs => ⟨backs.openChecks, backs.openSlips⟩
  cases moves with
  | skip dead pending => exact inside (.skip dead)
  | plain live pending floor takes numeric =>
    exact inside (.next pending floor (.plain takes numeric) (.afterPlain takes numeric))
  | leave live pending floor leaves unmarked => exact inside (.leave pending floor leaves unmarked)
  | branchIf live pending floor op target =>
    exact inside (.next pending floor (.branchIf op target) (.afterBranchIf op target))
  | otherwise pending floor arms falls => exact inside (.otherwise pending floor arms falls)
  | @enter frame outer instr rest below stack live pending floor op few numeric =>
    have behind : (instr.opens (below ++ stack).length).leaves (below ++ stack) =
        below ++ (stack ++ instr.results) := by
      rw [Frame.leaves, Instr.opens, List.take_length, List.append_assoc]
    constructor
    · rintro ⟨inner, around⟩
      rw [behind] at around
      exact (Backs.construct pending floor op few numeric inner.arms).openChecks around
    · rintro (inner | ⟨inner, around⟩)
      · obtain ⟨arm, member, slips⟩ := inner.arm
        refine .inl (.inl ⟨live, ?_⟩)
        rw [pending, floor, List.drop_left]
        exact .body op member slips
      · rw [behind] at around
        exact (Backs.construct pending floor op few numeric inner.arms).openSlips around
  | @finish frame _ below stack _ pending floor arms falls goesOn =>
    have checks : FrameChecks scope frames' frame (below ++ stack) := by
      refine ⟨fun live => ?_, fun arm found => ?_⟩
      · rw [pending, floor, List.drop_left, falls live]
        exact .done
      · obtain ⟨rfl, none⟩ := arms arm found
        rw [none]
        exact .done
    have behind : frame.leaves (below ++ stack) = below ++ frame.results := by
      rw [Frame.leaves, floor, List.take_left]
    cases frames' with
    | nil => exact ⟨fun _ => ⟨checks, trivial⟩, False.elim⟩
    | cons next others =>
      rw [goesOn (by simp), ← behind]
      exact ⟨fun around => ⟨checks, around⟩, fun around => .inr ⟨checks, around⟩⟩

end Moves

end WasmX64

/-!
## Nested constructs

The open constructs of a function lie above each other on the stack and above the
locals, all but the innermost can be reached, and the outermost is the body of the
function.  Steps of typing keep this.
-/

namespace WasmX64

/-- The scope of a function body, outside of any construct. -/
def Subject.scope (subject : Subject) : Scope where
  module := subject.module
  locals := subject.type.params ++ subject.function.locals
  labels := []
  results := subject.type.results

/-- A subject as it is made from a function that can be compiled. -/
structure Subject.Proper (subject : Subject) : Prop where
  signature : subject.signature = .ofType subject.type
  few : subject.type.results.length ≤ 1
  locals : subject.locals = subject.scope.locals.length

/-- The open constructs of a function are nested. -/
structure Nested (subject : Subject) (frames : List Frame) (stack : List ValueType) :
    Prop where
  locals : frames ≠ [] → subject.scope.locals = stack.take subject.locals
  floor : ∀ frame ∈ frames, subject.locals ≤ frame.floor ∧ frame.floor ≤ stack.length
  sorted : frames.Pairwise fun inner outer => outer.floor ≤ inner.floor
  live : ∀ frame ∈ frames.tail, frame.live = true
  unmarked : ∀ frame ∈ frames, frame.live = false →
    ∀ instr ∈ frame.pending, instr.op.isMarker = false
  last : ∀ frame, frames.getLast? = some frame →
    frame.label = frame.results ∧ frame.otherwise = none ∧ frame.results = subject.scope.results

namespace Nested

variable {subject : Subject} {frame frame' : Frame}
  {outer frames frames' : List Frame} {stack stack' : List ValueType}

theorem length_below (nested : Nested subject frames stack) (member : frame ∈ frames) :
    (stack.take frame.floor).length = frame.floor :=
  List.length_take_of_le (nested.floor frame member).2

theorem floor_le_head (nested : Nested subject (frame :: outer) stack)
    (member : frame' ∈ frame :: outer) : frame'.floor ≤ frame.floor := by
  rcases List.mem_cons.mp member with rfl | member
  · exact Nat.le_refl _
  · exact List.rel_of_pairwise_cons nested.sorted member

/-- The innermost construct goes on. -/
theorem replace (nested : Nested subject (frame :: outer) stack)
    (floor : frame'.floor = frame.floor) (label : frame'.label = frame.label)
    (results : frame'.results = frame.results)
    (otherwise : frame.otherwise = none → frame'.otherwise = none)
    (unmarked : frame'.live = false → ∀ instr ∈ frame'.pending, instr.op.isMarker = false)
    (below : stack'.take frame.floor = stack.take frame.floor)
    (height : frame.floor ≤ stack'.length) :
    Nested subject (frame' :: outer) stack' := by
  have bound := nested.floor frame List.mem_cons_self
  refine ⟨fun _ => ?_, ?_, ?_, nested.live, ?_, ?_⟩
  · rw [nested.locals (by simp), ← Nat.min_eq_left bound.1, ← List.take_take, ← below,
      List.take_take]
  · intro other member
    rcases List.mem_cons.mp member with rfl | member
    · rw [floor]
      exact ⟨bound.1, height⟩
    · have inside := nested.floor other (List.mem_cons_of_mem frame member)
      have under := nested.floor_le_head (List.mem_cons_of_mem frame member)
      exact ⟨inside.1, Nat.le_trans under height⟩
  · refine List.pairwise_cons.mpr ⟨fun other member => ?_, nested.sorted.tail⟩
    rw [floor]
    exact List.rel_of_pairwise_cons nested.sorted member
  · intro other member
    rcases List.mem_cons.mp member with rfl | member
    · exact unmarked
    · exact nested.unmarked other (List.mem_cons_of_mem frame member)
  · intro other found
    cases outer with
    | nil =>
      cases found
      have last := nested.last frame rfl
      exact ⟨label.trans (last.1.trans results.symm), otherwise last.2.1,
        results.trans last.2.2⟩
    | cons next others => exact nested.last other found

/-- The innermost construct goes on with its next instruction. -/
theorem advance {instr : Instr} {rest : List Instr} {below above above' : List ValueType}
    (nested : Nested subject (frame :: outer) (below ++ above))
    (pending : frame.pending = instr :: rest) (floor : frame.floor = below.length) :
    Nested subject ({ frame with pending := rest } :: outer) (below ++ above') := by
  refine nested.replace rfl rfl rfl id (fun dead other member => ?_) ?_ ?_
  · refine nested.unmarked frame List.mem_cons_self dead other ?_
    rw [pending]
    exact List.mem_cons_of_mem instr member
  · rw [floor, List.take_left, List.take_left]
  · simp [floor]

theorem enter {instr : Instr} (nested : Nested subject (frame :: outer) stack)
    (live : frame.live = true) :
    Nested subject (instr.opens stack.length :: frame :: outer) stack := by
  have bound := nested.floor frame List.mem_cons_self
  refine ⟨fun _ => nested.locals (by simp), ?_, ?_, ?_, ?_, ?_⟩
  · intro other member
    rcases List.mem_cons.mp member with rfl | member
    · exact ⟨Nat.le_trans bound.1 bound.2, Nat.le_refl _⟩
    · exact nested.floor other member
  · exact List.pairwise_cons.mpr ⟨fun other member => (nested.floor other member).2,
      nested.sorted⟩
  · intro other member
    rcases List.mem_cons.mp member with rfl | member
    · exact live
    · exact nested.live other member
  · intro other member dead
    rcases List.mem_cons.mp member with rfl | member
    · cases dead
    · exact nested.unmarked other member dead
  · exact fun other found => nested.last other found

/-- The innermost construct ends. -/
theorem finish {below above : List ValueType}
    (nested : Nested subject (frame :: outer) (below ++ above))
    (floor : frame.floor = below.length)
    (goesOn : outer ≠ [] → stack' = below ++ frame.results) :
    Nested subject outer stack' := by
  cases outer with
  | nil => exact ⟨by simp, by simp, .nil, by simp, by simp, by simp⟩
  | cons next others =>
    have prefixed := goesOn (by simp)
    have bound := nested.floor frame List.mem_cons_self
    refine ⟨fun _ => ?_, ?_, nested.sorted.tail, ?_, ?_, ?_⟩
    · rw [nested.locals (by simp), prefixed, List.take_append_of_le_length (by omega),
        List.take_append_of_le_length (by omega)]
    · intro other member
      have under := nested.floor_le_head (List.mem_cons_of_mem frame member)
      refine ⟨(nested.floor other (List.mem_cons_of_mem frame member)).1, ?_⟩
      rw [prefixed, List.length_append]
      omega
    · exact fun other member => nested.live other (List.mem_cons_of_mem next member)
    · exact fun other member => nested.unmarked other (List.mem_cons_of_mem frame member)
    · exact fun other found => nested.last other found

theorem moves (nested : Nested subject frames stack)
    (moves : Moves subject.scope frames stack frames' stack') :
    Nested subject frames' stack' := by
  cases moves with
  | @skip frame outer instr rest _ dead pending =>
    have bound := nested.floor frame List.mem_cons_self
    refine nested.replace rfl rfl rfl id (fun _ other member => ?_) rfl bound.2
    refine nested.unmarked frame List.mem_cons_self dead other ?_
    rw [pending]
    exact List.mem_cons_of_mem instr member
  | plain live pending floor takes numeric => exact nested.advance pending floor
  | branchIf live pending floor op target =>
    rw [List.append_assoc] at nested
    exact nested.advance pending floor
  | leave live pending floor leaves unmarked =>
    refine nested.replace rfl rfl rfl id (fun _ => unmarked) ?_ ?_
    · rw [floor, List.take_left, List.take_left]
    · simp [floor]
  | @enter frame outer instr rest below stack live pending floor op few numeric =>
    have going := @advance _ _ _ _ _ _ _ stack nested pending floor
    exact going.enter live
  | otherwise pending floor arms falls =>
    refine nested.replace rfl rfl rfl (fun none => ?_) (fun dead => ?_) ?_ ?_
    · simp [arms] at none
    · cases dead
    · rw [floor, List.take_left, List.take_length]
    · exact Nat.le_of_eq floor
  | finish pending floor arms falls goesOn => exact nested.finish floor goesOn

end Nested

end WasmX64
