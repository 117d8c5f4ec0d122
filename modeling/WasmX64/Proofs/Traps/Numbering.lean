import WasmX64.Proofs.Traps.Attribution

/-!
# One numbering

Whatever the compiler reports of an instruction, it names it by its place in the visiting
order of the body: entries of the source map, trap sites, events and errors.  Dead code that
is skipped is counted, so that reachability does not change a number.
-/

/-!
## Steady actions

While an instruction is lowered, the count of instructions and the current opcode stand
still, and every event that is recorded carries them.  This holds up to a fault as well:
`Steady` speaks of the state in which an action ends, however it ends.  Outside of the
branches and of what goes to memory, nothing is recorded at all.
-/

namespace WasmX64

/-- What is recorded while an instruction is lowered: blocks and machine-level constructs. -/
def Recording.allows : Recording → Happening → Bool
  | .nothing, _ => false
  | _, .machineStart _ | _, .machineEnd _ => true
  | .blocks, .controlStart _ | .blocks, .controlEnd _ => true
  | _, _ => false

theorem Recording.allows_machine {recording : Recording} (loud : recording ≠ .nothing)
    (event : MachineEvent) :
    recording.allows (.machineStart event) = true ∧ recording.allows (.machineEnd event) = true := by
  cases recording with
  | nothing => exact absurd rfl loud
  | machine => exact ⟨rfl, rfl⟩
  | blocks => exact ⟨rfl, rfl⟩

theorem Recording.allows_block {what : Happening} (isBlock : what.isBlock = true) :
    Recording.blocks.allows what = true := by
  cases what with
  | controlStart kind => rfl
  | controlEnd kind => rfl
  | _ => cases isBlock

/-- A compilation has gone on within an instruction and recorded what it may. -/
structure Compilation.Proceeds (recording : Recording) (subject : Subject)
    (before after : Compilation) : Prop where
  instr : after.instr = before.instr
  op : after.op = before.op
  events : ∃ added, after.events.toList = before.events.toList ++ added ∧
    ∀ event ∈ added, event.func = subject.index ∧ event.instr = before.instr ∧
      event.op = before.op ∧ recording.allows event.what = true

namespace Compilation.Proceeds

variable {recording : Recording} {subject : Subject} {first second third : Compilation}

theorem still (instr : second.instr = first.instr) (op : second.op = first.op)
    (events : second.events = first.events) : Proceeds recording subject first second :=
  ⟨instr, op, [], by simp [events]⟩

theorem trans (left : Proceeds recording subject first second)
    (right : Proceeds recording subject second third) :
    Proceeds recording subject first third := by
  obtain ⟨earlier, start, before⟩ := left.events
  obtain ⟨later, rest, behind⟩ := right.events
  refine ⟨right.instr.trans left.instr, right.op.trans left.op, earlier ++ later, ?_, ?_⟩
  · rw [rest, start, List.append_assoc]
  · intro event member
    rw [← left.instr, ← left.op]
    cases List.mem_append.mp member with
    | inl old => exact left.instr ▸ left.op ▸ before event old
    | inr new => exact behind event new

theorem loosen (proceeds : Proceeds .nothing subject first second) :
    Proceeds recording subject first second := by
  obtain ⟨added, all, none⟩ := proceeds.events
  exact ⟨proceeds.instr, proceeds.op, added, all, fun event member =>
    nomatch (none event member).2.2.2⟩

end Compilation.Proceeds

namespace Compile

open Compilation (Proceeds)

variable {α β : Type} {recording : Recording}

/-- The state in which an action ends, with a fault or without. -/
def final (action : Compile α) (subject : Subject) (state : Compilation) : Compilation :=
  match action subject state with
  | .ok _ after => after
  | .error _ after => after

/-- An action that does not leave the current instruction and records no more than it may. -/
def Steady ⦃α : Type⦄ (recording : Recording) (action : Compile α) : Prop :=
  ∀ subject state, Proceeds recording subject state (final action subject state)

namespace Steady

theorem bind {action : Compile α} {next : α → Compile β} (first : Steady recording action)
    (second : ∀ value, Steady recording (next value)) : Steady recording (action >>= next) := by
  intro subject state
  have begins := first subject state
  rw [final, bind_run]
  rw [final] at begins
  cases ran : action subject state with
  | error fault after =>
    rw [ran] at begins
    exact begins
  | ok value after =>
    rw [ran] at begins
    exact begins.trans (second value subject after)

theorem loosen {action : Compile α} (steady : Steady .nothing action) :
    Steady recording action :=
  fun subject state => (steady subject state).loosen

/-- An event within an instruction carries its number and opcode. -/
theorem record {what : Happening} (allowed : recording.allows what = true) :
    Steady recording (record what) := by
  intro subject state
  refine ⟨rfl, rfl, [_], Array.toList_push .., ?_⟩
  intro event member
  rw [List.mem_singleton.mp member]
  exact ⟨rfl, rfl, rfl, allowed⟩

theorem transfer (source : Layout) (action : TransferM Unit) :
    Steady recording (transfer source action) := by
  refine Steady.bind (fun _ _ => .still rfl rfl rfl) fun state => ?_
  split
  · exact fun _ _ => .still rfl rfl rfl
  · exact Steady.bind (fun _ _ => .still rfl rfl rfl) fun _ _ _ => .still rfl rfl rfl

end Steady

instance : Framed Steady (fun _ _ => True) where
  pure _ := fun _ _ => .still rfl rfl rfl
  throw _ := fun _ _ => .still rfl rfl rfl
  bind := Steady.bind
  mono steady _ := steady
  look each _ := Steady.bind (fun _ _ => .still rfl rfl rfl) fun state => each state False.elim
  askNames each _ := Steady.bind (fun _ _ => .still rfl rfl rfl)
    fun subject => each subject fun _ _ _ => trivial
  lone _ _ := trivial
  emit _ := fun _ _ => .still rfl rfl rfl
  loadRef _ _ _ _ := fun _ _ => .still rfl rfl rfl
  newLabel := fun _ _ => .still rfl rfl rfl
  openFrame := fun _ _ => .still rfl rfl rfl
  setFrame _ := fun _ _ => .still rfl rfl rfl
  note silent _ _ := fun _ state =>
    .still (silent state).instr (silent state).op (silent state).events
  transfer _ _ := Steady.transfer _ _
  machine event _ loud inside := by
    have allowed := Recording.allows_machine loud event
    exact (Steady.record allowed.1).bind fun _ =>
      Steady.bind (Steady.loosen inside) fun _ => Steady.record allowed.2
  block isBlock := Steady.record (Recording.allows_block isBlock)

end Compile

/-!
## Numbers of visits
-/

/-- A number that stands for a visit of a body with an opcode. -/
def Instr.Numbers (body : List Instr) (number : Int) (op : Opcode) : Prop :=
  ∃ (position : Nat) (visit : Visit), number = position ∧
    (Instr.allVisits body)[position]? = some visit ∧ visit.2 = op

/-- An event has the number of the instruction or marker it belongs to, or none around the
body. -/
def Event.Numbered (body : List Instr) (event : Event) : Prop :=
  match event.what with
  | .functionStart _ | .functionEnd _ => event.instr = -1
  | .instrStart taken | .instrEnd taken _ => ∃ position : Nat, event.instr = position ∧
      (Instr.allVisits body)[position]? = some (taken, event.op)
  | _ => Instr.Numbers body event.instr event.op

theorem Instr.length_allVisits (body : List Instr) :
    (Instr.allVisits body).length = Instr.countAll body + 1 := by
  rw [allVisits, List.length_append, Instr.length_visitsAll]
  rfl

/-- All events of a compilation belong to the function and are numbered. -/
def Compilation.Numbered (body : List Instr) (subject : Subject) (state : Compilation) : Prop :=
  ∀ event ∈ state.events.toList, event.func = subject.index ∧ event.Numbered body

/-- A compilation that has lowered an instruction or marker. -/
def Compilation.ended (subject : Subject) (state : Compilation) (taken : Option Instr) :
    Compilation :=
  { state with
    instr := state.instr + 1
    events := state.events.push (state.event subject (.instrEnd taken
      ⟨state.blocks.head?.map Block.reach, state.layout, state.output.frameSlots⟩)) }

section

variable {body : List Instr} {subject : Subject} {state after : Compilation}

theorem Compilation.Numbered.push (numbered : state.Numbered body subject) {event : Event}
    (func : event.func = subject.index) (named : event.Numbered body)
    (pushes : after.events = state.events.push event) : after.Numbered body subject := by
  intro other member
  rw [pushes, Array.toList_push] at member
  cases List.mem_append.mp member with
  | inl old => exact numbered other old
  | inr new =>
    rw [List.mem_singleton.mp new]
    exact ⟨func, named⟩

theorem Compilation.Proceeds.silent
    (proceeds : Compilation.Proceeds .nothing subject state after)
    (numbered : state.Numbered body subject) : after.Numbered body subject := by
  obtain ⟨added, all, none⟩ := proceeds.events
  have nothing : added = [] := List.eq_nil_iff_forall_not_mem.mpr fun event member =>
    nomatch (none event member).2.2.2
  unfold Compilation.Numbered
  rw [all, nothing, List.append_nil]
  exact numbered

/-- Going on within an instruction leaves the events numbered. -/
theorem Compilation.Proceeds.numbered
    (proceeds : Compilation.Proceeds .blocks subject state after)
    (numbered : state.Numbered body subject)
    (here : Instr.Numbers body state.instr state.op) : after.Numbered body subject := by
  obtain ⟨added, all, inside⟩ := proceeds.events
  intro event member
  rw [all] at member
  cases List.mem_append.mp member with
  | inl old => exact numbered event old
  | inr new =>
    obtain ⟨func, instr, op, inner⟩ := inside event new
    refine ⟨func, ?_⟩
    rw [← instr, ← op] at here
    unfold Event.Numbered
    cases what : event.what
    case functionStart function =>
      rw [what] at inner
      cases inner
    case functionEnd function =>
      rw [what] at inner
      cases inner
    case instrStart taken =>
      rw [what] at inner
      cases inner
    case instrEnd taken snapshot =>
      rw [what] at inner
      cases inner
    all_goals exact here

end

namespace Compile

open Course

variable {body : List Instr} {subject : Subject} {state : Compilation} {block : Block}
  {outer : List Block}

/-- The next instruction or marker is always found. -/
theorem next_run (opened : state.blocks = block :: outer) :
    next block subject state = .ok block.course.first
      { state with blocks := { block with pending := block.pending.tail } :: outer } := by
  have found : ∃ taken after, next block subject state = .ok taken after := by
    unfold next
    cases block.pending with
    | nil => exact ⟨_, _, rfl⟩
    | cons instr rest => exact ⟨_, _, rfl⟩
  obtain ⟨taken, after, ran⟩ := found
  obtain ⟨rfl, rfl⟩ := next_takes opened taken after ran
  exact ran

theorem innermost_run (opened : state.blocks = block :: outer) :
    innermost subject state = .ok block state := by
  unfold innermost
  rw [bind_run, get_run]
  dsimp only
  rw [opened]
  rfl

theorem step_skipped {taken : Option Instr} {code : Opcode} (opened : state.blocks = block :: outer)
    (dead : block.reach = .unreachable ∧ code ≠ .finish ∧ code ≠ .otherwise) :
    step taken code subject state = .ok ()
      { state with op := code, instr := state.instr + (taken.elim 0 Instr.count : Nat) } := by
  unfold step
  rw [bind_run, modify_run]
  dsimp only
  rw [bind_run, @innermost_run subject { state with op := code } _ _ opened]
  dsimp only
  rw [if_pos dead, modify_run]

theorem step_run {taken : Option Instr} {code : Opcode} (opened : state.blocks = block :: outer)
    (alive : ¬ (block.reach = .unreachable ∧ code ≠ .finish ∧ code ≠ .otherwise)) :
    step taken code subject state =
      match (lower code (taken.getD { op := code }) >>= fun _ => demandSound) subject
        { noted state code with
          events := state.events.push ((noted state code).event subject (.instrStart taken)) } with
      | .error fault lowered => .error fault lowered
      | .ok _ lowered => .ok () (lowered.ended subject taken) := by
  have lowers : step taken code subject state = (do
      lower code (taken.getD { op := code })
      demandSound
      record (.instrEnd taken (← snapshot))
      modify fun (state : Compilation) => { state with instr := state.instr + 1 }) subject
        { noted state code with
          events := state.events.push
            ((noted state code).event subject (.instrStart taken)) } := by
    unfold step
    rw [bind_run, modify_run]
    dsimp only
    rw [bind_run, @innermost_run subject { state with op := code } _ _ opened]
    dsimp only
    rw [if_neg alive]
    rfl
  rw [lowers, ← bind_assoc, bind_run]
  cases (lower code (taken.getD { op := code }) >>= fun _ => demandSound) subject
    { noted state code with
      events := state.events.push ((noted state code).event subject (.instrStart taken)) } with
  | error fault lowered => rfl
  | ok value lowered => rfl

theorem round_numbered (visiting : state.Visiting body) (opened : state.blocks = block :: outer)
    (numbered : state.Numbered body subject) :
    (final (next block >>= fun (instr, op) => step instr op) subject state).Numbered body
        subject ∧
      ∀ fault after, (next block >>= fun (instr, op) => step instr op) subject state =
        .error fault after → after.instr = state.instr ∧ after.op = block.course.first.2 := by
  obtain ⟨position, counted, visit⟩ := visit_next visiting opened
  have named : Instr.Numbers body state.instr block.course.first.2 :=
    ⟨position, _, counted, visit, rfl⟩
  rw [final, bind_run, next_run opened]
  dsimp only
  let middle : Compilation :=
    { state with blocks := { block with pending := block.pending.tail } :: outer }
  have blocks : middle.blocks = { block with pending := block.pending.tail } :: outer := rfl
  by_cases dead : block.reach = .unreachable ∧ block.course.first.2 ≠ .finish ∧
      block.course.first.2 ≠ .otherwise
  · rw [step_skipped blocks dead]
    exact ⟨numbered, fun fault other ends => by cases ends⟩
  · rw [step_run blocks dead]
    have steady : Obeys (Unbounded Steady) .blocks 0 1 (lower block.course.first.2
        (block.course.first.1.getD { op := block.course.first.2 }) >>= fun _ => demandSound) :=
      (Obeys.lower Recording.blocks_loud _ _ (fun _ _ => trivial) (.inl rfl)).andThen fun _ => .demandSound
    let started : Compilation :=
      { noted middle block.course.first.2 with
        events := state.events.push ((noted middle block.course.first.2).event subject
          (.instrStart block.course.first.1)) }
    have begins : ((noted middle block.course.first.2).event subject
        (.instrStart block.course.first.1)).Numbered body := ⟨position, counted, visit⟩
    have starts : started.Numbered body subject := numbered.push rfl begins rfl
    have proceeds := steady subject started
    have kept := proceeds.numbered starts named
    have number : (final _ subject started).instr = state.instr := proceeds.instr
    have code : (final _ subject started).op = block.course.first.2 := proceeds.op
    unfold final at kept number code
    cases ran : (lower block.course.first.2
        (block.course.first.1.getD { op := block.course.first.2 }) >>= fun _ => demandSound)
        subject started with
    | error fault lowered =>
      rw [ran] at kept number code
      dsimp only at kept number code ⊢
      refine ⟨kept, ?_⟩
      rintro _ _ ⟨⟩
      exact ⟨number, code⟩
    | ok value lowered =>
      rw [ran] at kept number code
      dsimp only at kept number code ⊢
      refine ⟨?_, fun fault other ends => by cases ends⟩
      have ends : ∀ snapshot, (lowered.event subject
          (.instrEnd block.course.first.1 snapshot)).Numbered body := by
        intro snapshot
        refine ⟨position, number.trans counted, ?_⟩
        rw [visit]
        exact congrArg (fun op => some (block.course.first.1, op)) code.symm
      exact kept.push rfl (ends _) rfl

/-- A round that starts from a state has failed. -/
def FailedFrom (start before : Compilation) (subject : Subject) (failed : Compilation) : Prop :=
  ∃ count block outer, steps count subject start = .ok () before ∧
    before.blocks = block :: outer ∧ failed.instr = before.instr ∧
    failed.op = block.course.first.2

theorem steps_numbered (books : Books subject state) (visiting : state.Visiting body)
    (numbered : state.Numbered body subject) (fuel : Nat) :
    (final (steps fuel) subject state).Numbered body subject ∧
      ∀ fault after, steps fuel subject state = .error fault after →
        ∃ before, FailedFrom state before subject after := by
  induction fuel generalizing state with
  | zero => exact ⟨numbered, fun fault after ends => by cases ends⟩
  | succ fuel ih =>
    cases opened : state.blocks with
    | nil =>
      rw [final, steps_of_closed _ opened]
      exact ⟨numbered, fun fault after ends => by cases ends⟩
    | cons block outer =>
      have round := round_numbered visiting opened numbered
      have goes := round_visiting books visiting opened
      have keeps : Keeps Books (next block >>= fun (instr, op) => step instr op) anything :=
        (keeps_next block).andThen fun taken => keeps_step taken.1 taken.2
      rw [final, Nat.add_comm, steps_add, bind_run, steps_one opened]
      rw [final] at round
      cases ran : (next block >>= fun (instr, op) => step instr op) subject state with
      | error fault after =>
        rw [ran] at round
        refine ⟨round.1, ?_⟩
        rintro _ _ ⟨⟩
        exact ⟨state, 0, block, outer, rfl, opened, round.2 fault after rfl⟩
      | ok value middle =>
        rw [ran] at round
        have rest := ih (keeps subject state books value middle ran).1
          (goes value middle ran) round.1
        refine ⟨rest.1, ?_⟩
        intro fault after ends
        obtain ⟨before, count, inner, others, reached, failed⟩ := rest.2 fault after ends
        refine ⟨before, 1 + count, inner, others, ?_, failed⟩
        rw [steps_add, bind_run, steps_one opened, ran]
        exact reached

theorem begin_numbered :
    (final begin subject {}).Numbered body subject ∧
      ∀ fault after, begin subject {} = .error fault after → after.instr = -1 := by
  let opened : Compilation :=
    { events := #[Compilation.event subject {} (.functionStart subject.function)] }
  have starts : opened.Numbered body subject := by
    intro event member
    rw [List.mem_singleton.mp member]
    exact ⟨rfl, rfl⟩
  have proceeds := (obeys_places : Steady .nothing places) subject opened
  have kept := proceeds.silent starts
  have number := proceeds.instr
  rw [final] at kept number
  have split : begin subject {} = (places >>= fun frame => do
      modify fun (state : Compilation) => { state with instr := 0 }
      return frame) subject opened := begin_run
  rw [final, split, bind_run]
  cases ran : places subject opened with
  | error fault after =>
    rw [ran] at kept number
    refine ⟨kept, ?_⟩
    rintro _ _ ⟨⟩
    exact number
  | ok frame after =>
    rw [ran] at kept
    exact ⟨kept, fun fault other ends => by cases ends⟩

theorem conclude_numbered (frame : Nat) (numbered : state.Numbered body subject) :
    (final (conclude frame) subject state).Numbered body subject ∧
      ∀ fault after, conclude frame subject state = .error fault after →
        after.instr = state.instr := by
  have proceeds := (obeys_reports frame : Steady .nothing _) subject state
  have kept := proceeds.silent numbered
  have number := proceeds.instr
  rw [final] at kept number
  rw [final, conclude_run, bind_run]
  cases ran : reports frame subject state with
  | error fault after =>
    rw [ran] at kept number
    refine ⟨kept, ?_⟩
    rintro _ _ ⟨⟩
    exact number
  | ok traps after =>
    rw [ran] at kept
    refine ⟨?_, fun fault other ends => by cases ends⟩
    have ends : (Compilation.event subject { after with instr := -1 }
        (.functionEnd subject.function)).Numbered body := rfl
    exact kept.push rfl ends rfl

end Compile

section Function

variable {module : Module} {host : Host} {index : UInt32} {function : Function}

/-- Between rounds the visits that are still to come are those behind the number that has been
reached. -/
theorem visiting_between (found : module.functions[index.toNat]? = some function)
    (tidy : Instr.allTidy function.body = true) {count : Nat} {state : Compilation}
    (reached : compilingAfter (some module) host index count = .ok state) :
    state.Visiting function.body := by
  obtain ⟨subject, frame, start, made, begun, ran⟩ := compilingAfter_ok reached
  obtain ⟨_, _, same, _⟩ := Subject.of_ok made
  obtain rfl : function = subject.function := Option.some.inj (found.symm.trans same)
  exact (Compile.steps_traced (Subject.of_proper made) tidy begun count () state ran).visiting

theorem Compilation.Visiting.position {body : List Instr} {state : Compilation}
    (visiting : state.Visiting body) :
    ∃ position : Nat, state.instr = position ∧
      (Instr.allVisits body).drop position = Course.allVisits state.courses := by
  obtain ⟨visited, order, counted⟩ := visiting.place
  refine ⟨visited.length, counted, ?_⟩
  rw [Instr.allVisits, order, List.drop_left]

theorem Compilation.Visiting.counted {body : List Instr} {state : Compilation}
    (visiting : state.Visiting body) (closed : state.blocks = []) :
    state.instr = Instr.countAll body + 1 := by
  obtain ⟨visited, order, counted⟩ := visiting.place
  have nothing : Course.allVisits state.courses = [] := by rw [courses, closed]; rfl
  rw [nothing, List.append_nil] at order
  have length := Instr.length_allVisits body
  rw [Instr.allVisits, order] at length
  omega

/-- Where an error of a compilation comes from: from before the body, from the round that takes
an instruction or marker, or from behind the body. -/
inductive CompileError.Arises (module : Module) (host : Host) (index : UInt32)
    (error : CompileError) : Prop
  | before {fault : Fault} (early : compilingAfter (some module) host index 0 = .error fault)
      (number : error.instr = -1)
  | round {count : Nat} {state : Compilation} {block : Block} {outer : List Block}
      (reached : compilingAfter (some module) host index count = .ok state)
      (opened : state.blocks = block :: outer) (number : error.instr = state.instr)
      (op : error.op = block.course.first.2)
  | behind {count : Nat} {state : Compilation}
      (reached : compilingAfter (some module) host index count = .ok state)
      (closed : state.blocks = []) (number : error.instr = state.instr)

theorem function_numbered {subject : Subject} {body : List Instr}
    (made : Subject.of (some module) host index = .ok subject)
    (same : subject.function.body = body) (tidy : Instr.allTidy body = true) :
    (Compile.final Compile.function subject {}).Numbered body subject ∧
      ∀ fault after, Compile.function subject {} = .error fault after →
        CompileError.Arises module host index ⟨index, after.instr, after.op, fault⟩ := by
  subst same
  have proper := Subject.of_proper made
  have begins := @Compile.begin_numbered subject.function.body subject
  rw [Compile.final] at begins ⊢
  rw [Compile.function_rounds (Nat.le_refl _), Nat.sub_self, Compile.bind_run]
  cases begun : Compile.begin subject {} with
  | error fault after =>
    rw [begun] at begins
    refine ⟨begins.1, ?_⟩
    rintro _ _ ⟨⟩
    have early : compilingAfter (some module) host index 0 = .error fault := by
      rw [compilingAfter, made]
      dsimp only
      rw [Compile.bind_run, begun]
    exact .before early (begins.2 fault after rfl)
  | ok frame start =>
    rw [begun] at begins
    have books := Compile.begin_books proper frame start begun
    have traced := Compile.begin_traced tidy frame start begun
    have goes := Compile.steps_numbered books traced.visiting begins.1 (Compile.rounds subject)
    rw [Compile.final] at goes
    dsimp only
    rw [Compile.bind_run]
    cases ran : Compile.steps (Compile.rounds subject) subject start with
    | error fault after =>
      rw [ran] at goes
      refine ⟨goes.1, ?_⟩
      rintro _ _ ⟨⟩
      obtain ⟨before, count, block, outer, reached, opened, number, op⟩ := goes.2 fault after rfl
      exact .round (compilingAfter_of_steps made begun reached) opened number op
    | ok done state =>
      rw [ran] at goes
      have concludes := Compile.conclude_numbered frame goes.1
      have enough : Course.weights start.courses ≤ Compile.rounds subject := by
        obtain ⟨_, _, courses⟩ := @Compile.begin_between (fun _ => False) _ frame start begun
        rw [courses]
        simp [Course.weights, Course.weight, Compile.rounds]
      have closed := Compile.steps_close books enough done state ran
      rw [Compile.final] at concludes
      refine ⟨concludes.1, ?_⟩
      intro fault after ends
      exact .behind (compilingAfter_of_steps made begun ran) closed
        (concludes.2 fault after ends)

/-- What the compiler reports of the instructions of a function names them by their places in
the visiting order of the body, whether or not code before them was skipped as dead.  Between
any two rounds of the driver the visits that are still to come are those behind the number
that has been reached, and the next round takes the first of them; in the end all of them have
been counted.  Entries of the source map, trap sites, events and errors use these numbers. -/
theorem numbering_uniform (found : module.functions[index.toNat]? = some function)
    (tidy : Instr.allTidy function.body = true) :
    (∀ count state, compilingAfter (some module) host index count = .ok state →
      ∃ position : Nat, state.instr = position ∧
        (Instr.allVisits function.body).drop position = Course.allVisits state.courses ∧
        (∀ block outer, state.blocks = block :: outer →
          (Instr.allVisits function.body)[position]? = some block.course.first) ∧
        (state.blocks = [] → state.instr = Instr.countAll function.body + 1)) ∧
    (∀ event ∈ (compileFunction (some module) host index).events,
      event.func = index ∧ event.Numbered function.body) ∧
    (∀ error, (compileFunction (some module) host index).outcome = .error error →
      error.Arises module host index) ∧
    (∀ compiled, (compileFunction (some module) host index).outcome = .ok compiled →
      (∃ count state, compilingAfter (some module) host index count = .ok state ∧
        state.blocks = []) ∧
      (∀ entry ∈ compiled.sources.toList, Instr.Numbers function.body entry.instr entry.op) ∧
      ∀ site ∈ compiled.traps, ∃ op, site.kind ∈ op.faults ∧
        Instr.Numbers function.body site.instr op) := by
  have attempt : (∀ event ∈ (compileFunction (some module) host index).events,
      event.func = index ∧ event.Numbered function.body) ∧
      ∀ error, (compileFunction (some module) host index).outcome = .error error →
        error.Arises module host index := by
    unfold compileFunction
    cases made : Subject.of (some module) host index with
    | error fault =>
      refine ⟨fun event member => absurd member (Array.not_mem_empty event), ?_⟩
      rintro _ ⟨⟩
      have early : compilingAfter (some module) host index 0 = .error fault := by
        rw [compilingAfter, made]
      exact .before early rfl
    | ok subject =>
      obtain ⟨_, _, same, _⟩ := Subject.of_ok made
      obtain rfl : function = subject.function := Option.some.inj (found.symm.trans same)
      obtain ⟨numbered, arises⟩ := function_numbered made rfl tidy
      rw [Compile.final] at numbered
      unfold Compilation.Numbered at numbered
      rw [Subject.index_of made] at numbered
      dsimp only
      cases ran : Compile.function subject {} with
      | error fault after =>
        rw [ran] at numbered arises
        refine ⟨fun event member => numbered event (Array.mem_toList_iff.mpr member), ?_⟩
        rintro _ ⟨⟩
        exact arises fault after rfl
      | ok compiled after =>
        rw [ran] at numbered
        refine ⟨fun event member => numbered event (Array.mem_toList_iff.mpr member), ?_⟩
        intro error ends
        cases ends
  refine ⟨?_, attempt.1, attempt.2, ?_⟩
  · intro count state reached
    have visiting := visiting_between found tidy reached
    obtain ⟨position, counted, rest⟩ := visiting.position
    refine ⟨position, counted, rest, ?_, visiting.counted⟩
    intro block outer opened
    obtain ⟨other, number, visit⟩ := Compile.visit_next visiting opened
    obtain rfl : other = position := by omega
    exact visit
  · intro compiled compiles
    obtain ⟨attributed, covers, _⟩ := compiled_attributed found tidy compiles
    obtain ⟨subject, final, frame, start, made, ran, begun⟩ := compileFunction_ok compiles
    obtain ⟨before, reached, closed, _⟩ :=
      Compile.function_concluded (Subject.of_proper made) begun ran
    refine ⟨⟨_, before, compilingAfter_of_steps made begun reached, closed⟩, ?_, ?_⟩
    · intro entry member
      obtain ⟨_, position, number, visit, place, op⟩ :=
        covers.entries entry (List.mem_reverse.mp member)
      exact ⟨position, visit, number, place, op⟩
    · intro site member
      obtain ⟨instr, _, names, _⟩ := attributed.2 site member
      obtain ⟨position, number, visit⟩ := names.number
      refine ⟨instr.op, names.raises, position, (some instr, instr.op), number, ?_, rfl⟩
      rw [Instr.allVisits, List.getElem?_append_left (List.getElem?_eq_some_iff.mp visit).1]
      exact visit

end Function

/-- A loop behind a branch, where it is never reached, in front of a division. -/
def skippedLoop : Module where
  __ := Module.declaring #[⟨[.i32], [.i32]⟩]
  functions := #[
    { name := "divide", type := 0, locals := []
      body := [
        { op := .block, body := [{ op := .br }, { op := .loop, body := [{ op := .nop }] }] },
        { op := .localGet },
        { op := .localGet },
        { op := .intBinary .w32 .divS }] }]

/-- The division behind a loop that is skipped, with its markers, is number eight. -/
theorem numbering_uniform_skippedLoop :
    Instr.allTidy skippedLoop.functions[0].body = true ∧
      ∃ compiled, (compileFunction (some skippedLoop) {} 0).outcome = .ok compiled ∧
        compiled.sources.toList.map SourceEntry.instr = [1, 8, 9] ∧
        compiled.traps.map TrapSite.instr = [8, 8] ∧
        (∀ entry ∈ compiled.sources.toList,
          Instr.Numbers skippedLoop.functions[0].body entry.instr entry.op) ∧
        ∀ event ∈ (compileFunction (some skippedLoop) {} 0).events,
          event.func = 0 ∧ event.Numbered skippedLoop.functions[0].body := by
  have tidy : Instr.allTidy skippedLoop.functions[0].body = true := by decide
  have fine : (compileFunction (some skippedLoop) {} 0).outcome.toOption.any
      (fun compiled => compiled.sources.toList.map SourceEntry.instr = [1, 8, 9] ∧
        compiled.traps.map TrapSite.instr = [8, 8]) = true := by decide +kernel
  obtain ⟨_, events, _, reports⟩ := @numbering_uniform skippedLoop {} 0 _ rfl tidy
  obtain ⟨compiled, compiles, entries, sites⟩ := Except.exists_of_any fine
  exact ⟨tidy, compiled, compiles, entries, sites, (reports compiled compiles).2.1, events⟩

end WasmX64
