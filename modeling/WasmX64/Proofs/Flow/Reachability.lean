import WasmX64.Proofs.Flow.Entries
import WasmX64.Proofs.Traps.Numbering

/-!
# Reachability is exact

At every instruction that the driver takes, the innermost open block is reachable if and only
if control may come to the instruction in the graph of the body, and what the driver skips as
dead code control never comes to.
-/

namespace WasmX64

theorem Course.head?_of_first {course : Course} {instr : Instr}
    (taken : course.first.1 = some instr) : course.pending.head? = some instr := by
  unfold Course.first at taken
  split at taken
  · rename_i pending
    rw [pending]
    exact taken
  · cases taken

namespace Compile

open Course Mark

variable {body : List Instr} {subject : Subject} {state : Compilation} {block : Block}
  {outer : List Block}

/-- What a round does to the notes and to the count of instructions: dead code is passed as a
whole and nothing is emitted, anything else is one visit. -/
theorem round_noted (books : Books subject state) (opened : state.blocks = block :: outer)
    (tidy : block.course.IsTidy) :
    Ensures (next block >>= fun (instr, op) => step instr op) subject state fun _ after =>
      (block.reach = .unreachable ∧ ∃ instr pending, block.pending = instr :: pending ∧
        after.instr = state.instr + (instr.count : Nat) ∧ after.output = state.output ∧
        after.marks = block.mark.rest :: outer.map Block.mark) ∨
      (block.reach = .unreachable → block.pending = []) ∧ after.instr = state.instr + 1 ∧
        after.marks = Mark.lower subject.host block.course.first.2
          (block.course.first.1.getD { op := block.course.first.2 })
          (block.mark.rest :: outer.map Block.mark) := by
  refine ((next_takes opened).and (keeps_next block subject state books)).andThen ?_
  rintro taken middle ⟨⟨rfl, same⟩, books, _⟩
  have blocks : middle.blocks = { block with pending := block.pending.tail } :: outer := by
    rw [same]
  have marks : middle.marks = block.mark.rest :: outer.map Block.mark := by
    rw [Compilation.marks, blocks]
    rfl
  have counted : middle.instr = state.instr := by rw [same]
  by_cases dead : block.reach = .unreachable ∧ block.course.first.2 ≠ .finish ∧
      block.course.first.2 ≠ .otherwise
  · refine (step_dead blocks dead).mono ?_
    intro _ after skipped
    obtain ⟨instr, others, pending⟩ := pending_of_first dead.2
    refine .inl ⟨dead.1, instr, others, pending, ?_, ?_, ?_⟩
    · rw [skipped, ← counted, pending]
      rfl
    · rw [skipped, same]
    · rw [← marks, skipped]
      rfl
  · apply step_alive blocks dead
    intro events
    have ready : Books subject { noted middle block.course.first.2 with events } :=
      ⟨books.sound, books.tall, books.blocks⟩
    have here : Here middle.courses (noted middle block.course.first.2) subject
        { noted middle block.course.first.2 with events } :=
      (Here.start subject (noted middle block.course.first.2)).follow
        (.still rfl rfl rfl rfl (Nat.le_refl _)) rfl
    have lowers := @lower_noted _ _ subject { noted middle block.course.first.2 with events }
      block.course.first.2 (block.course.first.1.getD { op := block.course.first.2 }) ready marks
    have goes := @lower_here middle.courses (noted middle block.course.first.2) subject
      { noted middle block.course.first.2 with events }
      (block.course.first.1.getD { op := block.course.first.2 }) _ _ blocks ready here
    refine (lowers.and goes).mono ?_
    rintro _ lowered ⟨notes, goes⟩ _ events
    refine .inr ⟨?_, ?_, notes⟩
    · intro unreached
      cases pending : block.pending with
      | nil => rfl
      | cons instr others =>
        obtain ⟨notElse, notEnd, _⟩ := Instr.isTidy_iff.mp
          (Instr.allTidy_cons.mp (show Instr.allTidy (instr :: others) = true from
            pending ▸ tidy.1)).1
        have first : block.course.first.2 = instr.op := by
          rw [Course.first, Block.course, pending]
        rw [first] at dead
        exact absurd ⟨unreached, notEnd, notElse⟩ dead
    · exact congrArg (· + 1) (goes.instr.trans counted)

/-- What is noted agrees with the graph of a body at the number that has been reached. -/
def Flowing (body : List Instr) (subject : Subject) (state : Compilation) : Prop :=
  ∃ (position : Nat) (labels : List Nat), state.instr = position ∧
    Flows subject.host body labels position state.marks

/-- The body is all that is open before the first round. -/
theorem begin_marks :
    Ensures begin subject {} fun _ start =>
      start.marks = [⟨⟨.block, subject.function.body, false, []⟩, .reachable, false⟩] := by
  unfold begin
  rw [ensures_bind, ensures_read, ensures_bind]
  unfold record
  rw [ensures_bind, ensures_read, ensures_modify, ensures_bind, ensures_modifyGet, ensures_bind]
  have places (params : List Passing) : Keeps (Noted []) (placeParams params) anything :=
    .through (.placeParams params)
  refine (places _ subject _ ?_).mono ?_
  · rfl
  rintro _ passed ⟨noted, _⟩
  refine (Keeps.through (.placeLocals _ _) subject _ noted).andThen ?_
  rintro _ placed ⟨noted, _⟩
  have closed : placed.blocks = [] := List.map_eq_nil_iff.mp noted
  unfold openBlock newLabel
  simp only [ensures_bind, ensures_modifyGet, ensures_modify, ensures_modifyLayout, ensures_pure]
  rw [Compilation.marks, closed]
  rfl

theorem begin_flowing :
    Ensures begin subject {} fun _ start => Flowing subject.function.body subject start := by
  refine (begin_blank.and begin_marks).mono ?_
  rintro _ start ⟨⟨_, _, number⟩, marks⟩
  refine ⟨0, [Instr.countAll subject.function.body], number, ?_⟩
  rw [marks]
  exact Flows.start _ _

theorem round_flowing (books : Books subject state) (opened : state.blocks = block :: outer)
    (tidy : block.course.IsTidy) (flowing : Flowing body subject state) :
    Ensures (next block >>= fun (instr, op) => step instr op) subject state fun _ after =>
      Flowing body subject after := by
  obtain ⟨position, labels, number, flows⟩ := flowing
  have marks : state.marks = block.mark :: outer.map Block.mark := by
    rw [Compilation.marks, opened]
    rfl
  rw [marks] at flows
  refine (round_noted books opened tidy).mono ?_
  rintro _ after (⟨unreached, instr, pending, next, count, _, notes⟩ | ⟨_, count, notes⟩)
  · have dead : block.mark.isReached = false := by
      simp [isReached, Block.mark, unreached]
    refine ⟨position + instr.count, labels, ?_, ?_⟩
    · rw [count, number]
      rfl
    · rw [notes]
      exact (flows.skip next dead).1
  · obtain ⟨others, goes⟩ := flows.lower tidy
    refine ⟨position + 1, others, ?_, ?_⟩
    · rw [count, number]
      rfl
    · rw [notes]
      exact goes

theorem round_of_steps {start after : Compilation} {count : Nat}
    (reached : steps count subject start = .ok () state)
    (goes : steps (count + 1) subject start = .ok () after)
    (opened : state.blocks = block :: outer) :
    (next block >>= fun (instr, op) => step instr op) subject state = .ok () after := by
  rw [steps_add, bind_run, reached] at goes
  rw [← steps_one opened]
  exact goes

/-- A position is taken by a round, or lies in dead code that a round skips. -/
def Covered (subject : Subject) (start : Compilation) (position : Nat) : Prop :=
  ∃ count before block outer, steps count subject start = .ok () before ∧
    before.blocks = block :: outer ∧
    (before.instr = position ∨
      block.reach = .unreachable ∧ ∃ instr pending, block.pending = instr :: pending ∧
        before.instr < position ∧ (position : Int) < before.instr + (instr.count : Nat))

/-- The rounds keep the agreement with the graph and leave no position out. -/
structure Sweeps (body : List Instr) (subject : Subject) (start state : Compilation) : Prop where
  visiting : state.Visiting body
  flowing : Flowing body subject state
  covered : ∀ position : Nat, (position : Int) < state.instr → Covered subject start position

theorem steps_sweep (proper : subject.Proper)
    (tidy : Instr.allTidy subject.function.body = true) {frame : Nat} {start : Compilation}
    (begun : begin subject {} = .ok frame start) (count : Nat) :
    Ensures (steps count) subject start fun _ after =>
      Sweeps subject.function.body subject start after := by
  have traced := begin_traced tidy frame start begun
  have flows := begin_flowing frame start begun
  have starts : Sweeps subject.function.body subject start start := by
    refine ⟨traced.visiting, flows, ?_⟩
    intro position before
    have number := (begin_blank frame start begun).2.2
    omega
  apply steps_keep (begin_books proper frame start begun) starts
  intro count before after block outer reached _ opened books ⟨visiting, flowing, covered⟩ ran
  have tidied : block.course.IsTidy := by
    apply visiting.tidy
    rw [Compilation.courses, opened]
    exact List.mem_cons_self
  refine ⟨round_visiting books visiting opened () after ran,
    round_flowing books opened tidied flowing () after ran, ?_⟩
  intro position inside
  by_cases earlier : (position : Int) < before.instr
  · exact covered position earlier
  · refine ⟨count, before, block, outer, reached, opened, ?_⟩
    rcases round_noted books opened tidied () after ran with
      ⟨unreached, instr, pending, next, number, _⟩ | ⟨_, number, _⟩
    · by_cases here : before.instr = position
      · exact .inl here
      · exact .inr ⟨unreached, instr, pending, next, by omega, by omega⟩
    · exact .inl (by omega)

end Compile

section Function

variable {module : Module} {host : Host} {index : UInt32} {function : Function}

theorem Subject.host_of {subject : Subject}
    (made : Subject.of (some module) host index = .ok subject) :
    subject.host = host.narrow module.memory := by
  obtain ⟨_, _, found, typed⟩ := Subject.of_ok made
  unfold Subject.of at made
  dsimp only at made
  rw [found] at made
  dsimp only at made
  rw [typed] at made
  dsimp only at made
  split at made
  · cases made
  · exact (congrArg Subject.host (Except.ok.inj made)).symm

theorem steps_of_compilingAfter {subject : Subject} {frame count : Nat} {start state : Compilation}
    (made : Subject.of (some module) host index = .ok subject)
    (begun : Compile.begin subject {} = .ok frame start)
    (reached : compilingAfter (some module) host index count = .ok state) :
    Compile.steps count subject start = .ok () state := by
  obtain ⟨other, base, first, makes, begins, ran⟩ := compilingAfter_ok reached
  obtain rfl : subject = other := Except.ok.inj (made.symm.trans makes)
  cases begun.symm.trans begins
  exact ran

/-- The round behind a number of others takes an instruction in a block. -/
structure Round (module : Module) (host : Host) (index : UInt32) (count : Nat)
    (state : Compilation) (block : Block) (instr : Instr) : Prop where
  reached : compilingAfter (some module) host index count = .ok state
  opened : state.blocks.head? = some block
  next : block.pending.head? = some instr

/-- Tests what a round starts from. -/
def Round.tests (module : Module) (host : Host) (index : UInt32) (count : Nat)
    (test : Compilation → Block → Instr → Bool) : Bool :=
  (compilingAfter (some module) host index count).toOption.any fun state =>
    state.blocks.head?.any fun block => block.pending.head?.any (test state block)

theorem Round.of_tests {count : Nat} {test : Compilation → Block → Instr → Bool}
    (fine : Round.tests module host index count test = true) :
    ∃ state block instr, Round module host index count state block instr ∧
      test state block instr = true := by
  unfold Round.tests at fine
  obtain ⟨state, reached, fine⟩ := Except.any_inv fine
  obtain ⟨block, opened, fine⟩ := (Option.any_eq_true _ _).mp fine
  obtain ⟨instr, next, holds⟩ := (Option.any_eq_true _ _).mp fine
  exact ⟨state, block, instr, ⟨reached, opened, next⟩, holds⟩

/-- Wherever the driver takes an instruction, the innermost open block is reachable if and only
if the instruction is reachable in the graph of the body.  In a block that is unreachable the
driver passes the instruction with all it contains and emits nothing, and none of what it
passes is reachable; anything else it lowers.  A function that compiles has all its
instructions taken or passed in this way. -/
theorem reachability_exact (found : module.functions[index.toNat]? = some function)
    (tidy : Instr.allTidy function.body = true) :
    (∀ count state block instr, Round module host index count state block instr →
      ∃ position : Nat, state.instr = position ∧
        (Instr.allVisits function.body)[position]? = some (some instr, instr.op) ∧
        (block.reach = .reachable ↔
          Instr.Reaches (host.narrow module.memory) function.body position) ∧
        ∀ after, compilingAfter (some module) host index (count + 1) = .ok after →
          if block.reach = .unreachable then
            after.instr = position + instr.count ∧ after.output = state.output ∧
            ∀ skipped, position ≤ skipped → skipped < position + instr.count →
              ¬ Instr.Reaches (host.narrow module.memory) function.body skipped
          else after.instr = position + 1) ∧
    ∀ compiled, (compileFunction (some module) host index).outcome = .ok compiled →
      ∀ (position : Nat) (instr : Instr) (op : Opcode),
        (Instr.allVisits function.body)[position]? = some (some instr, op) →
        ∃ count state block taken, Round module host index count state block taken ∧
          (state.instr = position ∧ taken = instr ∨
            block.reach = .unreachable ∧ state.instr < position ∧
              (position : Int) < state.instr + taken.count) := by
  constructor
  · rintro count state block instr ⟨reached, opened, next⟩
    obtain ⟨outer, blocks⟩ := List.head?_eq_some_iff.mp opened
    obtain ⟨pending, next⟩ := List.head?_eq_some_iff.mp next
    obtain ⟨subject, frame, start, made, begun, ran⟩ := compilingAfter_ok reached
    obtain ⟨proper, _, same, _⟩ := Subject.of_ok made
    obtain rfl : function = subject.function := Option.some.inj (found.symm.trans same)
    have books := Compile.begin_books proper frame start begun
    have kept := (Compile.keeps_steps count subject start books () state ran).1
    obtain ⟨visiting, ⟨position, labels, number, flows⟩, _⟩ :=
      Compile.steps_sweep proper tidy begun count () state ran
    have tidied : block.course.IsTidy := by
      apply visiting.tidy
      rw [Compilation.courses, blocks]
      exact List.mem_cons_self
    have marks : state.marks = block.mark :: outer.map Block.mark := by
      rw [Compilation.marks, blocks]
      rfl
    rw [Subject.host_of made, marks] at flows
    have first : block.course.first = (some instr, instr.op) := by
      rw [Course.first, Block.course, next]
    obtain ⟨other, counted, visit⟩ := Compile.visit_next visiting blocks
    obtain rfl : other = position := by omega
    refine ⟨other, number, visit.trans (congrArg some first), ?_, ?_⟩
    · rw [← flows.isReached_iff next]
      exact decide_eq_true_iff.symm
    · intro after goes
      have round := Compile.round_of_steps ran (steps_of_compilingAfter made begun goes) blocks
      rcases Compile.round_noted kept blocks tidied () after round with
        ⟨unreached, taken, others, takes, count, output, _⟩ | ⟨dead, count, _⟩
      · obtain rfl : instr = taken := (List.cons.inj (next.symm.trans takes)).1
        have dead : block.mark.isReached = false := by
          simp [Mark.isReached, Block.mark, unreached]
        rw [if_pos unreached]
        refine ⟨by rw [count, number], output, ?_⟩
        intro skipped behind before
        rw [Instr.reaches_iff_ahead]
        exact (flows.skip next dead).2 skipped behind before
      · have alive : block.reach ≠ .unreachable := by
          intro unreached
          cases next.symm.trans (dead unreached)
        rw [if_neg alive, count, number]
  · intro compiled compiles position instr op visit
    obtain ⟨subject, final, frame, start, made, ran, begun⟩ := compileFunction_ok compiles
    obtain ⟨proper, _, same, _⟩ := Subject.of_ok made
    obtain rfl : function = subject.function := Option.some.inj (found.symm.trans same)
    obtain ⟨before, reached, closed, _⟩ := Compile.function_concluded proper begun ran
    have sweeps := Compile.steps_sweep proper tidy begun _ () before reached
    have inside : (position : Int) < before.instr := by
      have length := (List.getElem?_eq_some_iff.mp visit).1
      rw [sweeps.visiting.counted closed]
      rw [Instr.length_allVisits] at length
      omega
    obtain ⟨count, state, block, outer, run, blocks, covers⟩ := sweeps.covered position inside
    have round := compilingAfter_of_steps made begun run
    rcases covers with here | ⟨unreached, taken, pending, next, behind, ahead⟩
    · have visiting := (Compile.steps_sweep proper tidy begun count () state run).visiting
      obtain ⟨other, counted, first⟩ := Compile.visit_next visiting blocks
      obtain rfl : other = position := by omega
      have next : block.pending.head? = some instr := by
        have taken : block.course.first.1 = some instr :=
          congrArg Prod.fst (Option.some.inj (first.symm.trans visit))
        exact Course.head?_of_first taken
      exact ⟨count, state, block, instr, ⟨round, by rw [blocks]; rfl, next⟩, .inl ⟨here, rfl⟩⟩
    · refine ⟨count, state, block, taken, ⟨round, by rw [blocks]; rfl, ?_⟩,
        .inr ⟨unreached, behind, ahead⟩⟩
      rw [next, List.head?_cons]

end Function

/-- The loop behind a branch is passed in the third round, and control never comes to it. -/
theorem reachability_exact_skippedLoop :
    Instr.allTidy skippedLoop.functions[0].body = true ∧
      Instr.Reaches (Host.narrow {} skippedLoop.memory) skippedLoop.functions[0].body 1 ∧
      ∀ skipped, 2 ≤ skipped → skipped < 5 →
        ¬ Instr.Reaches (Host.narrow {} skippedLoop.memory) skippedLoop.functions[0].body skipped := by
  have tidy : Instr.allTidy skippedLoop.functions[0].body = true := by decide
  have branch : Round.tests skippedLoop {} 0 1 (fun state block _ =>
      state.instr = 1 ∧ block.reach = .reachable) = true := by decide +kernel
  have loop : Round.tests skippedLoop {} 0 2 (fun state block instr =>
      state.instr = 2 ∧ block.reach = .unreachable ∧ instr.count = 3) = true := by decide +kernel
  have goes : (compilingAfter (some skippedLoop) {} 0 3).toOption.isSome = true := by decide +kernel
  obtain ⟨exact, _⟩ := @reachability_exact skippedLoop {} 0 _ rfl tidy
  refine ⟨tidy, ?_, ?_⟩
  · obtain ⟨state, block, instr, round, test⟩ := Round.of_tests branch
    obtain ⟨number, reached⟩ := of_decide_eq_true test
    obtain ⟨position, counted, _, reaches, _⟩ := exact 1 state block instr round
    obtain rfl : position = 1 := by omega
    exact reaches.mp reached
  · obtain ⟨state, block, instr, round, test⟩ := Round.of_tests loop
    obtain ⟨number, unreached, count⟩ := of_decide_eq_true test
    obtain ⟨position, counted, _, _, passes⟩ := exact 2 state block instr round
    obtain rfl : position = 2 := by omega
    cases next : compilingAfter (some skippedLoop) {} 0 3 with
    | error fault =>
      rw [next] at goes
      cases goes
    | ok after =>
      have skips := passes after next
      rw [if_pos unreached, count] at skips
      exact skips.2.2

end WasmX64
