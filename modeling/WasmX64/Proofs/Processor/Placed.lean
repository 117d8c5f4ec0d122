import WasmX64.Proofs.Code.Accepted
import WasmX64.Proofs.Processor.Bytes

/-!
# Following placed code

A sequence of steps that is followed to its end or out of it is a run of the bytes that it is
placed as: through its instructions and jumps to the end of the code, or up to a jump that waits
for the label.
-/

namespace WasmX64

/-- What following a sequence does at a step: the place that is sought behind it, and the
machine. -/
inductive Processor.Moves : Step → Option Nat → Processor → Option Nat → Processor → Prop
  | seek {step : Step} {place : Nat} {machine : Processor} (other : step ≠ .bind (.inner place)) :
      Moves step (some place) machine (some place) machine
  | found {place : Nat} {machine : Processor} :
      Moves (.bind (.inner place)) (some place) machine none machine
  | emit {instruction : Instruction} {machine next : Processor}
      (performs : machine.perform instruction = some next) :
      Moves (.emit instruction) none machine none next
  | bind {target : Target} {machine : Processor} : Moves (.bind target) none machine none machine
  | leap {step : Step} {condition : Option Condition} {place : Nat} {distance : Distance}
      {machine : Processor} (jumps : step.jump? = some (condition, .inner place, distance))
      (holds : machine.follows condition = true) : Moves step none machine (some place) machine
  | pass {step : Step} {condition : Option Condition} {target : Target} {distance : Distance}
      {machine : Processor} (jumps : step.jump? = some (condition, target, distance))
      (fails : machine.follows condition = false) : Moves step none machine none machine

theorem Processor.follow_cons {mode : Option Nat} {machine : Processor} {step : Step}
    {rest : List Step} {exit : Exit} (goes : follow mode machine (step :: rest) = some exit) :
    (∃ next after, Moves step mode machine next after ∧ follow next after rest = some exit) ∨
      ∃ condition label distance, mode = none ∧
        step.jump? = some (condition, .label label, distance) ∧
        machine.follows condition = true ∧ exit = .leaves label machine := by
  cases mode with
  | some place =>
    rw [follow_seek] at goes
    by_cases here : step = .bind (.inner place)
    · rw [if_pos here] at goes
      subst here
      exact .inl ⟨_, _, .found, goes⟩
    · rw [if_neg here] at goes
      exact .inl ⟨_, _, .seek here, goes⟩
  | none =>
    cases step with
    | emit instruction =>
      obtain ⟨next, performs, goes⟩ := Option.bind_eq_some_iff.mp goes
      exact .inl ⟨_, _, .emit performs, goes⟩
    | bind target => exact .inl ⟨_, _, .bind, goes⟩
    | fail error => cases goes
    | jump target distance =>
      cases target with
      | missing => cases goes
      | label label =>
        cases goes
        exact .inr ⟨none, label, distance, rfl, rfl, rfl, rfl⟩
      | inner place =>
        exact .inl ⟨_, _, .leap rfl rfl, goes⟩
    | jumpIf condition target distance =>
      cases target with
      | missing => cases goes
      | label label =>
        rw [follow_jumpIf_label] at goes
        split at goes
        · rename_i holds
          cases goes
          exact .inr ⟨some condition, label, distance, rfl, rfl, holds, rfl⟩
        · rename_i fails
          exact .inl ⟨_, _, .pass rfl
            (Bool.eq_false_iff.mpr fails), goes⟩
      | inner place =>
        rw [follow_jumpIf_inner] at goes
        split at goes
        · rename_i holds
          exact .inl ⟨_, _, .leap rfl
            holds, goes⟩
        · rename_i fails
          exact .inl ⟨_, _, .pass rfl
            (Bool.eq_false_iff.mpr fails), goes⟩

namespace Code

/-- A jump with a displacement field stands at an offset. -/
structure Jumps (listing : List Placed) (offset : Nat) (condition : Option Condition)
    (field : Field) : Prop where
  here : ⟨offset, .jump condition field.distance⟩ ∈ listing
  site : field.site = offset + (Item.jumpOpcode condition field.distance).length

/-- Listed items are run from an offset to another one. -/
inductive Traverses (listing : List Placed) (settled : List Landing) (start : Nat)
    (entry : Processor) : Nat → Processor → Prop
  | done : Traverses listing settled start entry start entry
  | plain {offset : Nat} {machine next : Processor} {instruction : Instruction}
      (front : Traverses listing settled start entry offset machine) (behind : start ≤ offset)
      (here : ⟨offset, .plain instruction⟩ ∈ listing)
      (operates : machine.operate instruction = some next) :
      Traverses listing settled start entry (offset + instruction.length) next
  | leap {offset target : Nat} {machine : Processor} {condition : Option Condition} {field : Field}
      (front : Traverses listing settled start entry offset machine) (behind : start ≤ offset)
      (jumps : Jumps listing offset condition field) (holds : machine.follows condition = true)
      (leads : ⟨field, target⟩ ∈ settled) : Traverses listing settled start entry target machine
  | pass {offset : Nat} {machine : Processor} {condition : Option Condition} {field : Field}
      (front : Traverses listing settled start entry offset machine) (behind : start ≤ offset)
      (jumps : Jumps listing offset condition field) (fails : machine.follows condition = false) :
      Traverses listing settled start entry field.finish machine

/-- A run has come to a jump that is followed, by a field. -/
def Leaps (listing : List Placed) (settled : List Landing) (start : Nat) (entry : Processor)
    (field : Field) (machine : Processor) : Prop :=
  ∃ offset condition, Traverses listing settled start entry offset machine ∧ start ≤ offset ∧
    Jumps listing offset condition field ∧ machine.follows condition = true

section Growth

variable {listing more : List Placed} {settled landings : List Landing} {start : Nat}
  {entry : Processor}

theorem Jumps.mono {offset : Nat} {condition : Option Condition} {field : Field}
    (jumps : Jumps listing offset condition field)
    (items : ∀ placed ∈ listing, placed ∈ more) : Jumps more offset condition field :=
  ⟨items _ jumps.here, jumps.site⟩

theorem Traverses.mono {offset : Nat} {machine : Processor}
    (traverses : Traverses listing settled start entry offset machine)
    (items : ∀ placed ∈ listing, placed ∈ more)
    (positions : ∀ landing ∈ settled, landing ∈ landings) :
    Traverses more landings start entry offset machine := by
  induction traverses with
  | done => exact .done
  | plain _ behind here operates ih =>
    exact .plain ih behind (items _ here) operates
  | leap _ behind jumps holds leads ih =>
    exact .leap ih behind (jumps.mono items) holds (positions _ leads)
  | pass _ behind jumps fails ih => exact .pass ih behind (jumps.mono items) fails

theorem Leaps.mono {field : Field} {machine : Processor}
    (leaps : Leaps listing settled start entry field machine)
    (items : ∀ placed ∈ listing, placed ∈ more)
    (positions : ∀ landing ∈ settled, landing ∈ landings) :
    Leaps more landings start entry field machine := by
  obtain ⟨offset, condition, traverses, behind, jumps, holds⟩ := leaps
  exact ⟨offset, condition, traverses.mono items positions, behind, jumps.mono items, holds⟩

end Growth

section Place

variable {base : Nat} {labels : List Label} {places : List Nat} {code after : Code}
  {listing : List Placed} {pending : List Use} {settled : List Landing} {step : Step}
  {steps : List Step}

theorem mem_of_follow {place : Nat} {machine : Processor} {exit : Exit}
    (follows : Processor.follow (some place) machine steps = some exit) :
    .bind (.inner place) ∈ steps := by
  induction steps with
  | nil => cases follows
  | cons step rest ih =>
    rw [Processor.follow_seek] at follows
    by_cases here : step = .bind (.inner place)
    · rw [here]
      exact List.mem_cons_self
    · rw [if_neg here] at follows
      exact List.mem_cons_of_mem _ (ih follows)

section Follow

variable {start : Nat} {entry machine : Processor} {exit : Exit}

/-- Where a run through a sequence is: at the end of the code, or at a jump that is followed to a
place of the sequence. -/
def Poised (base : Nat) (code : Code) (listing : List Placed) (pending : List Use)
    (settled : List Landing) (start : Nat) (entry : Processor) :
    Option Nat → Processor → Prop
  | none, machine => Traverses listing settled start entry code.size machine
  | some place, machine => ∃ field, Leaps listing settled start entry field machine ∧
      ⟨field, ⟨base + place⟩⟩ ∈ pending

/-- Where a run through a sequence ends: at the end of the code, or at a jump that is followed to
a label, whose field waits for it or leads to it. -/
def Finishes (labels : List Label) (code : Code) (listing : List Placed) (pending : List Use)
    (settled : List Landing) (start : Nat) (entry : Processor) : Exit → Prop
  | .falls machine => Traverses listing settled start entry code.size machine
  | .leaves label machine => label ∈ labels ∧ ∃ field, Leaps listing settled start entry field machine ∧
      (⟨field, label⟩ ∈ pending ∨
        ∃ position, (code.label label).state = .bound position ∧ ⟨field, position⟩ ∈ settled)

theorem Assembled.follow_jump (assembled : Assembled code listing pending settled)
    (reserved : Reserved base labels places code) (resolves : step.Resolves labels places)
    {condition : Option Condition} {target : Target} {distance : Distance}
    (jumps : step.jump? = some (condition, target, distance))
    (fine : (Code.placeStep base code step).error = none)
    (small : (Code.placeStep base code step).size < 2147483648) (behind : start ≤ code.size)
    (traverses : Traverses listing settled start entry code.size machine) :
    ∃ more uses landings field, Assembled (Code.placeStep base code step) more uses landings ∧
      Continued (IsPlace base places) (fun use => IsTarget base labels places use.target)
        listing pending settled more uses landings ∧
      (machine.follows condition = true → Leaps more landings start entry field machine ∧
        (⟨field, resolve base target⟩ ∈ uses ∨
          ∃ position, (code.label (resolve base target)).state = .bound position ∧
            ⟨field, position⟩ ∈ landings)) ∧
      (machine.follows condition = false → Traverses more landings start entry
        (Code.placeStep base code step).size machine) := by
  obtain ⟨known, declared⟩ := known_of_jump jumps resolves
  obtain ⟨present, aims⟩ := reserved.known known
  rw [placeStep_jump jumps] at fine small ⊢
  obtain ⟨more, uses, landings, field, reads, goes, here, site, finish, waits⟩ :=
    assembled.placeJump declared present fine small
  have still := traverses.mono goes.items goes.positions
  have jumps : Jumps more code.size condition field := ⟨here, site⟩
  refine ⟨more, uses, landings, field, reads,
    goes.mono (fun _ => False.elim) fun _ named => named.1 ▸ aims, ?_, ?_⟩
  · intro holds
    exact ⟨⟨_, _, still, behind, jumps, holds⟩, waits.imp_left And.right⟩
  · intro fails
    rw [← finish]
    exact .pass still behind jumps fails

theorem Assembled.move_placed {mode next : Option Nat} {after : Processor}
    (assembled : Assembled code listing pending settled)
    (reserved : Reserved base labels places code) (resolves : step.Resolves labels places)
    (fine : (Code.placeStep base code step).error = none)
    (small : (Code.placeStep base code step).size < 2147483648) (behind : start ≤ code.size)
    (sought : ∀ place, next = some place →
      ((Code.placeStep base code step).label ⟨base + place⟩).isBound = false)
    (poised : Poised base code listing pending settled start entry mode machine)
    (moves : Processor.Moves step mode machine next after) :
    ∃ more uses landings, Assembled (Code.placeStep base code step) more uses landings ∧
      Continued (IsPlace base places) (fun use => IsTarget base labels places use.target)
        listing pending settled more uses landings ∧
      Poised base (Code.placeStep base code step) more uses landings start entry next after := by
  have grows := Extends.placeStep base code step
  cases moves with
  | @seek _ place _ other =>
    obtain ⟨field, arrives, waits⟩ := poised
    obtain ⟨_, _, _, reads, goes⟩ := assembled.placeStep reserved resolves fine small
    refine ⟨_, _, _, reads, goes.mono (fun _ => isPlace_of_bind resolves) fun _ => And.left, field,
      arrives.mono goes.items goes.positions, goes.waits _ waits ?_⟩
    rintro ⟨target, rfl, same⟩
    obtain ⟨number, _, rfl⟩ := resolves
    have same : place = number := Nat.add_left_cancel (congrArg Label.index same)
    exact other (same ▸ rfl)
  | @found place _ =>
    obtain ⟨number, member, same⟩ := resolves
    cases same
    obtain ⟨field, ⟨offset, condition, front, first, jumps, holds⟩, waits⟩ := poised
    refine ⟨_, _, _, assembled.bind (reserved.inside place member) fine
      (Nat.lt_of_le_of_lt grows.size small), continued_bind ⟨place, member, rfl⟩ _, ?_⟩
    have leads : (⟨field, code.size⟩ : Landing) ∈
        landings pending ⟨base + place⟩ code.size ++ settled :=
      List.mem_append_left _ (mem_landings waits _)
    have arrives := Traverses.leap
      (front.mono (fun _ => id) fun _ => List.mem_append_right _) first jumps holds leads
    change Traverses _ _ start entry (code.bind _).size machine
    rwa [size_bind]
  | emit performs =>
    obtain ⟨reads, sized⟩ := assembled.emit_ok resolves fine
    refine ⟨_, _, _, reads, ⟨fun _ => List.mem_cons_of_mem _, fun _ => id,
      fun _ member _ => member, fun _ => .inl⟩, ?_⟩
    change Traverses _ _ start entry (code.emit _).size _
    rw [sized]
    exact .plain (poised.mono (fun _ => List.mem_cons_of_mem _) fun _ => id) behind
      List.mem_cons_self (Processor.operate_of_perform performs)
  | bind =>
    obtain ⟨number, member, rfl⟩ := resolves
    refine ⟨_, _, _, assembled.bind (reserved.inside number member) fine
      (Nat.lt_of_le_of_lt grows.size small), continued_bind ⟨number, member, rfl⟩ _, ?_⟩
    change Traverses _ _ start entry (code.bind _).size machine
    rw [size_bind]
    exact poised.mono (fun _ => id) fun _ => List.mem_append_right _
  | @leap _ _ place _ _ jumps holds =>
    obtain ⟨_, _, _, field, reads, goes, leaps, _⟩ :=
      assembled.follow_jump reserved resolves jumps fine small behind poised
    obtain ⟨arrives, waits⟩ := leaps holds
    refine ⟨_, _, _, reads, goes, field, arrives, ?_⟩
    cases waits with
    | inl waits => exact waits
    | inr leads =>
      obtain ⟨position, bound, _⟩ := leads
      have still := grows.isBound (LabelInfo.isBound_iff.mpr ⟨position, bound⟩)
      rw [resolve, sought place rfl] at still
      cases still
  | pass jumps fails =>
    obtain ⟨_, _, _, _, reads, goes, _, passes⟩ :=
      assembled.follow_jump reserved resolves jumps fine small behind poised
    exact ⟨_, _, _, reads, goes, passes fails⟩

theorem Assembled.follow_placed {mode : Option Nat}
    (assembled : Assembled code listing pending settled)
    (reserved : Reserved base labels places code)
    (resolves : ∀ step ∈ steps, step.Resolves labels places)
    (fine : (steps.foldl (Code.placeStep base) code).error = none)
    (small : (steps.foldl (Code.placeStep base) code).size < 2147483648)
    (behind : start ≤ code.size) (poised : Poised base code listing pending settled start entry mode machine)
    (follows : Processor.follow mode machine steps = some exit) :
    ∃ more uses landings, Assembled (steps.foldl (Code.placeStep base) code) more uses landings ∧
      Continued (IsPlace base places) (fun use => IsTarget base labels places use.target)
        listing pending settled more uses landings ∧
      Finishes labels (steps.foldl (Code.placeStep base) code) more uses landings start entry
        exit := by
  induction steps generalizing code listing pending settled mode machine with
  | nil =>
    cases mode with
    | none =>
      cases follows
      exact ⟨_, _, _, assembled, .refl, poised⟩
    | some place => cases follows
  | cons step rest ih =>
    have grows := Extends.placeStep base code step
    have others := Extends.placeSteps base rest (Code.placeStep base code step)
    have clean := others.error fine
    have short := Nat.lt_of_le_of_lt others.size small
    have known := resolves step List.mem_cons_self
    have room := reserved.extends grows
    have later : ∀ step ∈ rest, step.Resolves labels places :=
      fun step member => resolves step (List.mem_cons_of_mem _ member)
    cases Processor.follow_cons follows with
    | inl moves =>
      obtain ⟨next, after, moves, follows⟩ := moves
      have sought : ∀ place, next = some place →
          ((Code.placeStep base code step).label ⟨base + place⟩).isBound = false := by
        rintro place rfl
        apply Bool.eq_false_iff.mpr
        intro bound
        exact not_mem_bind bound fine (mem_of_follow follows)
      obtain ⟨_, _, _, reads, goes, arrives⟩ :=
        assembled.move_placed reserved known clean short behind sought poised moves
      obtain ⟨_, _, _, final, further, finishes⟩ := ih reads room later fine small
        (Nat.le_trans behind grows.size) arrives follows
      exact ⟨_, _, _, final, goes.trans further, finishes⟩
    | inr leaves =>
      obtain ⟨condition, label, distance, rfl, jumps, holds, rfl⟩ := leaves
      obtain ⟨_, _, _, field, reads, goes, leaps, _⟩ :=
        assembled.follow_jump reserved known jumps clean short behind poised
      obtain ⟨arrives, waits⟩ := leaps holds
      obtain ⟨_, _, _, final, further⟩ := reads.placeSteps room later fine small
      have member := (known_of_jump jumps known).1.1
      refine ⟨_, _, _, final, goes.trans further, member, field,
        arrives.mono further.items further.positions, ?_⟩
      have outer := reserved.given label member
      refine waits.imp (fun waits => further.waits _ waits ?_) ?_
      · rintro ⟨number, _, same⟩
        have inside : label.index = base + number := congrArg Label.index same
        omega
      · rintro ⟨position, bound, leads⟩
        exact ⟨position, others.bound _ _ (grows.bound _ _ bound), further.positions _ leads⟩

/-- A closed sequence that is followed is run as it has been placed behind the code.  What was
there before stays. -/
theorem Assembled.place_follows (assembled : Assembled code listing pending settled)
    (closed : Sequence.Closed labels steps)
    (known : ∀ label ∈ labels, label.index < code.labels.size)
    (fine : (code.place steps).error = none)
    (small : (code.place steps).size < 2147483648)
    (follows : Processor.follow none machine steps = some exit) :
    ∃ more uses landings, Assembled (code.place steps) more uses landings ∧
      Continued (fun _ => False) (fun use => use.target ∈ labels)
        listing pending settled more uses landings ∧
      Finishes labels (code.place steps) more uses landings code.size machine exit := by
  obtain ⟨places, resolves, fixes⟩ := closed
  have reserved := Reserved.of_known known fixes
  rw [place_eq resolves] at fine small
  have start : Poised code.labels.size (code.reserve (Step.innerCount steps)) listing pending
      settled code.size machine none machine := .done
  obtain ⟨more, uses, landings, reads, goes, finishes⟩ :=
    (assembled.reserve (Step.innerCount steps)).follow_placed reserved resolves fine
      small (Nat.le_refl _) start follows
  obtain ⟨final, continues⟩ := assembled.drop_places resolves fixes known reads goes
  refine ⟨more, uses, landings, final, continues, ?_⟩
  cases exit with
  | falls =>
    rw [Finishes, place_eq resolves]
    exact finishes
  | leaves label =>
    obtain ⟨member, field, leaps, outcome⟩ := finishes
    refine ⟨member, field, leaps, ?_⟩
    rwa [label_place resolves (known label member)]

/-! ## Runs of the bytes -/

theorem Listed.holds_jump {finish offset : Nat} {condition : Option Condition} {field : Field}
    (listed : code.Listed listing finish) (jumps : Jumps listing offset condition field) :
    (∀ given ∈ condition, given.code < 16) ∧
      code.Holds offset (Item.jumpOpcode condition field.distance) ∧ field.finish ≤ finish := by
  obtain ⟨last, stands, below⟩ := listed.mem_stands jumps.here
  have width : field.finish = field.site + field.distance.width := rfl
  have site := jumps.site
  cases stands with
  | jump declared holds => exact ⟨declared, holds, by omega⟩

theorem Assembled.proceeds {more : List Placed} {uses : List Use} {landings : List Landing}
    {offset finish : Nat} (assembled : Assembled code more uses landings)
    (items : ∀ placed ∈ listing, placed ∈ more)
    (positions : ∀ landing ∈ settled, landing ∈ landings)
    (below : ∀ placed ∈ listing, placed.offset < finish)
    (traverses : Traverses listing settled start entry offset machine) :
    Processor.Proceeds code.bytes.toList start finish start entry offset machine := by
  induction traverses with
  | done => exact .done _ _
  | plain _ behind here operates ih =>
    obtain ⟨last, stands, _⟩ := assembled.listed.mem_stands (items _ here)
    cases stands with
    | plain declared encodes holds =>
      rw [Instruction.length_eq encodes]
      exact ih.trans (.next ⟨behind, below _ here⟩
        (Processor.cycle_plain declared encodes holds operates) (.done _ _))
  | leap _ behind jumps holds leads ih =>
    obtain ⟨declared, opcode, inside⟩ := assembled.listed.holds_jump (jumps.mono items)
    have cycles := Processor.cycle_leap declared jumps.site opcode inside holds
      (assembled.linked.reads _ (positions _ leads))
    exact ih.trans (.next ⟨behind, below _ jumps.here⟩ cycles (.done _ _))
  | pass _ behind jumps fails ih =>
    obtain ⟨declared, opcode, inside⟩ := assembled.listed.holds_jump (jumps.mono items)
    have cycles := Processor.cycle_pass declared jumps.site opcode inside fails
    exact ih.trans (.next ⟨behind, below _ jumps.here⟩ cycles (.done _ _))

end Follow

end Place

end Code

end WasmX64

/-!
## Executing placed sequences

A short sequence that is followed to an exit is placed without an error, and the bytes that it is
placed as are run to the end of the sequence or to the position of the label, in every buffer that
is built on them.
-/

namespace WasmX64

namespace Exit

def machine : Exit → Processor
  | .falls machine => machine
  | .leaves _ machine => machine

/-- An exit from a sequence that ends at an offset is at a position: there, or at the position of
a label. -/
def LeadsTo (final : Code) (finish position : Nat) : Exit → Prop
  | .falls _ => position = finish
  | .leaves label _ => (final.label label).state = .bound position

end Exit

namespace Code

/-- A sequence is placed behind the code without an error, and in every buffer that is built on
it control goes from its start to an exit, by bytes of the sequence only. -/
structure Executes (code : Code) (steps : List Step) (entry : Processor)
    (exit : Exit) : Prop where
  accepted : (code.place steps).error = none
  runs : ∀ final position, Later (code.place steps) final → final.error = none →
    final.size < 2147483648 → exit.LeadsTo final (code.place steps).size position →
    Processor.Proceeds final.bytes.toList code.size (code.place steps).size
      code.size entry position exit.machine

variable {code final : Code} {listing : List Placed} {pending : List Use}
  {settled : List Landing} {labels : List Label} {steps : List Step} {entry : Processor}
  {exit : Exit}

/-- What has been run through listed items to an exit is run so in every buffer that is built
on them. -/
theorem Assembled.finishes_proceeds {position start : Nat}
    (assembled : Assembled code listing pending settled)
    (finishes : Finishes labels code listing pending settled start entry exit)
    (later : Later code final) (fine : final.error = none) (small : final.size < 2147483648)
    (leads : exit.LeadsTo final code.size position) :
    Processor.Proceeds final.bytes.toList start code.size start entry position exit.machine := by
  have below : ∀ placed ∈ listing, placed.offset < code.size := by
    intro placed member
    obtain ⟨last, stands, inside⟩ := assembled.listed.mem_stands member
    exact Nat.lt_of_lt_of_le (Placed.offset_lt stands) inside
  obtain ⟨more, uses, landings, reads, items, positions, waits⟩ :=
    assembled.later later fine small
  cases exit with
  | falls machine =>
    cases leads
    exact reads.proceeds items positions below finishes
  | leaves label machine =>
    obtain ⟨_, field, ⟨offset, condition, front, behind, jumps, holds⟩, outcome⟩ := finishes
    have settles : ⟨field, position⟩ ∈ landings := by
      cases outcome with
      | inl waiting =>
        cases waits _ waiting with
        | inl still =>
          have unbound := reads.linked.unbound _ still
          rw [LabelInfo.isBound, show (final.label label).state = _ from leads] at unbound
          cases unbound
        | inr landed =>
          obtain ⟨there, bound, landed⟩ := landed
          cases leads.symm.trans bound
          exact landed
      | inr landed =>
        obtain ⟨there, bound, landed⟩ := landed
        cases leads.symm.trans (later.extends.bound _ _ bound)
        exact positions _ landed
    obtain ⟨declared, opcode, inside⟩ := reads.listed.holds_jump (jumps.mono items)
    have cycles := Processor.cycle_leap declared jumps.site opcode inside holds
      (reads.linked.reads _ settles)
    exact (reads.proceeds items positions below front).trans
      (.next ⟨behind, below _ jumps.here⟩ cycles (.done _ _))

theorem Assembled.executes (assembled : Assembled code listing pending settled)
    (closed : Sequence.Closed labels steps)
    (known : ∀ label ∈ labels, label.index < code.labels.size)
    (fits : Sequence.Fits 127 steps) (once : (steps.filterMap Step.place?).Nodup)
    (small : code.size + 127 < 2147483648)
    (follows : Processor.follow none entry steps = some exit) :
    code.Executes steps entry exit := by
  obtain ⟨accepted, sized⟩ :=
    assembled.place_accepted closed known fits once small
  refine ⟨accepted, fun final position later fine narrow leads => ?_⟩
  obtain ⟨_, _, _, reads, _, finishes⟩ := assembled.place_follows closed known accepted
    (Nat.lt_of_le_of_lt sized small) follows
  exact reads.finishes_proceeds finishes later fine narrow leads

theorem Assembled.executes_straight (assembled : Assembled code listing pending settled)
    (straight : Sequence.Straight steps) (fits : Sequence.Fits 127 steps)
    (small : code.size + 127 < 2147483648)
    (follows : Processor.follow none entry steps = some exit) :
    code.Executes steps entry exit := by
  have placeless : steps.filterMap Step.place? = [] := by
    rw [List.filterMap_eq_nil_iff]
    intro step member
    have free := (straight step member).1
    cases step with
    | bind => cases free
    | emit | jump | jumpIf | fail => rfl
  have known : ∀ label ∈ ([] : List Label), label.index < code.labels.size := nofun
  exact assembled.executes straight.closed known fits (placeless ▸ List.nodup_nil) small follows

/-! ## Instructions one behind the other -/

theorem Assembled.operate_appended {start : Nat} {machine after : Processor} {bytes : List UInt8}
    {instructions : List Instruction} (assembled : Assembled code listing pending settled)
    (encodes : Instruction.encodeAll instructions = .ok bytes)
    (declared : ∀ instruction ∈ instructions, instruction.Declared) (behind : start ≤ code.size)
    (traverses : Traverses listing settled start entry code.size machine)
    (operates : machine.operates instructions = some after) :
    ∃ more, Assembled (code.append bytes) more pending settled ∧
      Traverses more settled start entry (code.append bytes).size after := by
  induction instructions generalizing code listing machine bytes with
  | nil =>
    cases encodes
    cases operates
    rw [append_nil]
    exact ⟨listing, assembled, traverses⟩
  | cons instruction rest ih =>
    obtain ⟨first, others, encoded, further, rfl⟩ := Instruction.encodeAll_cons_ok encodes
    obtain ⟨next, one, operates⟩ := Option.bind_eq_some_iff.mp operates
    have grown : (code.append first).size = code.size + first.length :=
      size_append assembled.linked.sound
    rw [← append_append]
    apply ih (assembled.emit (declared instruction List.mem_cons_self) encoded) further
      (fun instruction member => declared instruction (List.mem_cons_of_mem _ member))
    · exact grown ▸ Nat.le_trans behind (Nat.le_add_right _ _)
    · rw [grown, ← Instruction.length_eq encoded]
      exact .plain (traverses.mono (fun _ => List.mem_cons_of_mem _) fun _ => id) behind
        List.mem_cons_self one
    · exact operates

theorem Assembled.executes_operates {after : Processor} {instructions : List Instruction}
    (assembled : Assembled code listing pending settled)
    (operates : Sequence.Operates steps entry after instructions)
    (straight : Sequence.Straight steps) : code.Executes steps entry (.falls after) := by
  obtain ⟨rfl, ⟨bytes, encodes⟩, operates⟩ := operates
  obtain ⟨more, reads, traverses⟩ := assembled.operate_appended encodes
    (fun instruction member => (straight _ (List.mem_map_of_mem member)).2) (Nat.le_refl code.size)
    .done operates
  have placed := place_emit code encodes
  have finishes : Finishes [] (code.append bytes) more pending settled code.size entry
      (.falls after) := traverses
  constructor
  · rw [placed]
    exact reads.linked.sound
  · intro final position later fine small leads
    rw [placed] at later leads ⊢
    exact reads.finishes_proceeds finishes later fine small leads

end Code

end WasmX64
