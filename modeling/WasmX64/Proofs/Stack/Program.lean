import WasmX64.Proofs.Stack.Function

/-!
# Charts of programs

The code of a compiled function reads as a listing that passes the stages of the stack from the
entry on, stays inside the frame, loads an address exactly where a reference is, and jumps to
positions only where code is inside the frame with nothing pushed.
-/

namespace WasmX64

namespace Stage

variable {stage next : Stage} {instruction : Instruction} {listing : List Placed}

/-- What code starts with, latest item first, by the stage it is at. -/
def Opens : Stage → List Item → Prop
  | .entry, items => items = []
  | .saved, items => items = [.plain (.push .rbp)]
  | .based, items => items = [.plain (.mov .i64 .rbp .rsp), .plain (.push .rbp)]
  | _, items => ∃ front size,
      items = front ++
        [.plain (.enterFrame size), .plain (.mov .i64 .rbp .rsp), .plain (.push .rbp)] ∧
      ∀ item ∈ front, ∀ size, item ≠ .plain (.enterFrame size)

/-- A stage that is reached once the frame is open. -/
def IsOpen : Stage → Prop
  | .entry | .saved | .based => False
  | _ => True

theorem opens_iff {items : List Item} (isOpen : stage.IsOpen) :
    stage.Opens items ↔ ∃ front size,
      items = front ++
        [.plain (.enterFrame size), .plain (.mov .i64 .rbp .rsp), .plain (.push .rbp)] ∧
      ∀ item ∈ front, ∀ size, item ≠ .plain (.enterFrame size) := by
  cases stage with
  | entry | saved | based => cases isOpen
  | _ => exact Iff.rfl

theorem Goes.open (goes : Goes stage instruction next) (isOpen : stage.IsOpen) :
    next.IsOpen ∧ ∀ size, instruction ≠ .enterFrame size := by
  cases goes with
  | save | base | enter _ => cases isOpen
  | steady steady =>
    refine ⟨trivial, ?_⟩
    rintro size rfl
    cases steady
  | _ => exact ⟨trivial, by simp⟩

theorem Goes.closed (goes : Goes stage instruction next) (shut : ¬ stage.IsOpen) :
    stage = .entry ∧ instruction = .push .rbp ∧ next = .saved ∨
      stage = .saved ∧ instruction = .mov .i64 .rbp .rsp ∧ next = .based ∨
        stage = .based ∧ (∃ size, instruction = .enterFrame size) ∧ next = .body 0 := by
  cases goes with
  | save => exact .inl ⟨rfl, rfl, rfl⟩
  | base => exact .inr (.inl ⟨rfl, rfl, rfl⟩)
  | enter size => exact .inr (.inr ⟨rfl, ⟨size, rfl⟩, rfl⟩)
  | _ => exact absurd trivial shut

theorem Opens.cons {items : List Item} {item : Item} (opens : stage.Opens items)
    (isOpen : stage.IsOpen) (further : next.IsOpen)
    (other : ∀ size, item ≠ .plain (.enterFrame size)) : next.Opens (item :: items) := by
  obtain ⟨front, size, same, apart⟩ := (opens_iff isOpen).mp opens
  refine (opens_iff further).mpr ⟨item :: front, size, ?_, List.forall_mem_cons.mpr ⟨other, apart⟩⟩
  rw [same, List.cons_append]

theorem opens_of_behind (reaches : behind listing = some stage) :
    stage.Opens (listing.map Placed.item) := by
  induction listing generalizing stage with
  | nil =>
    cases reaches
    rfl
  | cons placed rest ih =>
    obtain ⟨offset, item⟩ := placed
    rw [List.map_cons]
    cases item with
    | plain instruction =>
      obtain ⟨before, earlier, goes⟩ := Option.bind_eq_some_iff.mp reaches
      have opens := ih earlier
      by_cases isOpen : before.IsOpen
      · obtain ⟨further, other⟩ := (goes_of_after goes).open isOpen
        exact opens.cons isOpen further (by simpa using other)
      · rcases (goes_of_after goes).closed isOpen with ⟨rfl, rfl, rfl⟩ | ⟨rfl, rfl, rfl⟩ |
          ⟨rfl, ⟨size, rfl⟩, rfl⟩
        · have none : rest.map Placed.item = [] := opens
          rw [none]
          rfl
        · have one : rest.map Placed.item = [.plain (.push .rbp)] := opens
          rw [one]
          rfl
        · have two : rest.map Placed.item =
              [.plain (.mov .i64 .rbp .rsp), .plain (.push .rbp)] := opens
          rw [two]
          exact ⟨[], size, rfl, by simp⟩
    | jump condition distance =>
      obtain ⟨before, earlier, goes⟩ := Option.bind_eq_some_iff.mp reaches
      unfold rest? at goes
      split at goes
      · rename_i same
        cases goes
        subst same
        exact (ih earlier).cons trivial trivial (by simp)
      · cases goes

end Stage

namespace Placed

/-- An item of a listing with the size of the frame filled in. -/
def sized (slots : Int) (placed : Placed) : Placed :=
  match placed.item with
  | .plain (.enterFrame _) => ⟨placed.offset, .plain (.enterFrame (Program.frameSize slots))⟩
  | _ => placed

theorem sized_cases (slots : Int) (placed : Placed) :
    (∃ size, placed.item = .plain (.enterFrame size) ∧
      placed.sized slots = ⟨placed.offset, .plain (.enterFrame (Program.frameSize slots))⟩) ∨
    (∀ size, placed.item ≠ .plain (.enterFrame size)) ∧ placed.sized slots = placed := by
  obtain ⟨offset, item⟩ := placed
  cases item with
  | jump condition distance => exact .inr ⟨by simp, rfl⟩
  | plain instruction =>
    cases instruction
    case enterFrame size => exact .inl ⟨size, rfl, rfl⟩
    all_goals exact .inr ⟨by simp, rfl⟩

@[simp] theorem field_sized (slots : Int) (placed : Placed) :
    (placed.sized slots).field? = placed.field? := by
  obtain ⟨_, item, same⟩ | ⟨_, same⟩ := placed.sized_cases slots
  · rw [same, field?, field?, item]
  · rw [same]

@[simp] theorem finish_sized (slots : Int) (placed : Placed) :
    (placed.sized slots).finish = placed.finish := by
  obtain ⟨_, item, same⟩ | ⟨_, same⟩ := placed.sized_cases slots
  · rw [same, finish, finish, item]
    rfl
  · rw [same]

@[simp] theorem wide_sized (slots : Int) (placed : Placed) :
    (placed.sized slots).wide? = placed.wide? := by
  obtain ⟨_, item, same⟩ | ⟨_, same⟩ := placed.sized_cases slots
  · rw [same, wide?, wide?, item]
    rfl
  · rw [same]

end Placed

theorem Item.Inside.sized {slots : Int} {placed : Placed} (inside : placed.item.Inside slots) :
    (placed.sized slots).item.Inside slots := by
  obtain ⟨_, _, same⟩ | ⟨_, same⟩ := placed.sized_cases slots
  · rw [same]
    exact ⟨by simp [Instruction.Inside], by simp⟩
  · rw [same]
    exact inside

/-- The stages do not depend on the size of the frame. -/
theorem Stage.behind_sized (slots : Int) (listing : List Placed) :
    behind (listing.map (Placed.sized slots)) = behind listing := by
  induction listing with
  | nil => rfl
  | cons placed rest ih =>
    rw [List.map_cons]
    obtain ⟨size, item, same⟩ | ⟨_, same⟩ := placed.sized_cases slots
    · obtain ⟨offset, _⟩ := placed
      subst item
      rw [same, behind, behind, ih]
      congr 1
      funext stage
      cases stage with
      | body words => rfl
      | _ => rfl
    · rw [same]
      obtain ⟨offset, item⟩ := placed
      cases item with
      | plain instruction => rw [behind, behind, ih]
      | jump condition distance => rw [behind, behind, ih]

theorem Placed.finishOf_sized (slots : Int) (listing : List Placed) :
    finishOf (listing.map (sized slots)) = finishOf listing := by
  cases listing with
  | nil => rfl
  | cons placed rest => exact placed.finish_sized slots

theorem Placed.wides_sized (slots : Int) (listing : List Placed) :
    wides (listing.map (sized slots)) = wides listing := by
  rw [wides, List.filterMap_map]
  exact List.filterMap_congr fun placed _ => placed.wide_sized slots

theorem Rests.sized {listing : List Placed} {position : Nat} (rests : Rests listing position)
    (slots : Int) : Rests (listing.map (Placed.sized slots)) position := by
  obtain ⟨before, within, ends, stage⟩ := rests
  refine ⟨before.map (Placed.sized slots), ?_, ?_, ?_⟩
  · obtain ⟨front, rfl⟩ := within
    exact ⟨front.map (Placed.sized slots), by rw [List.map_append]⟩
  · rw [Placed.finishOf_sized, ends]
  · rw [Stage.behind_sized, stage]

section Opening

variable {code : Code} {listing : List Placed} {finish : Nat} {stage : Stage}

/-- The instructions that open a frame. -/
def frameOpened (size : UInt32) : List Placed :=
  [⟨4, .plain (.enterFrame size)⟩, ⟨1, .plain (.mov .i64 .rbp .rsp)⟩, ⟨0, .plain (.push .rbp)⟩]

theorem Code.Listed.opens (listed : code.Listed listing finish)
    (reaches : Stage.behind listing = some stage) (isOpen : stage.IsOpen) :
    ∃ front size, listing = front ++ frameOpened size ∧
      ∀ placed ∈ front, ∀ size, placed.item ≠ .plain (.enterFrame size) := by
  obtain ⟨items, size, whole, apart⟩ :=
    (Stage.opens_iff isOpen).mp (Stage.opens_of_behind reaches)
  obtain ⟨front, opening, rfl, rfl, items⟩ := List.map_eq_append_iff.mp whole
  have others : ∀ placed ∈ front, ∀ size, placed.item ≠ .plain (.enterFrame size) :=
    fun placed member => apart placed.item (List.mem_map_of_mem member)
  refine ⟨front, size, ?_, others⟩
  congr 1
  obtain ⟨enter, rest, rfl, first, items⟩ := List.map_eq_cons_iff.mp items
  obtain ⟨copy, rest, rfl, second, items⟩ := List.map_eq_cons_iff.mp items
  obtain ⟨save, rest, rfl, third, items⟩ := List.map_eq_cons_iff.mp items
  obtain rfl := List.map_eq_nil_iff.mp items
  obtain ⟨_, _⟩ := enter
  obtain ⟨_, _⟩ := copy
  obtain ⟨_, _⟩ := save
  subst first
  subst second
  subst third
  cases listed.suffix (List.suffix_append front _) with
  | cons before stands =>
    cases before with
    | cons earlier copies =>
      cases earlier with
      | cons none saves =>
        cases none
        cases saves with
        | plain _ encodes holds =>
          cases encodes
          cases copies with
          | plain _ encodes holds =>
            cases encodes
            rfl

theorem Code.Listed.sized (listed : code.Listed listing code.size)
    (reaches : Stage.behind listing = some stage) (isOpen : stage.IsOpen) (slots : Int) :
    (code.setFrame 7 slots).Listed (listing.map (Placed.sized slots)) code.size ∧
      SameBut (fun offset => 7 ≤ offset ∧ offset < 11) code (code.setFrame 7 slots) := by
  obtain ⟨front, size, whole, apart⟩ := listed.opens reaches isOpen
  let opening : Placed := ⟨4, .plain (.enterFrame size)⟩
  have member : opening ∈ listing := by
    rw [whole]
    exact List.mem_append_right _ List.mem_cons_self
  obtain ⟨last, stands, below⟩ := listed.mem_stands member
  obtain ⟨eleven, written, same⟩ := frameSized_stands slots stands below
  refine ⟨?_, same⟩
  have replaced := listed.replace member stands written rfl fun offset outside => by
    have four : opening.offset = 4 := rfl
    exact same.bytes offset (by omega)
  have agrees : listing.map (fun item => if item = opening then frameSized slots else item) =
      listing.map (Placed.sized slots) := by
    apply List.map_congr_left
    intro placed among
    by_cases here : placed = opening
    · rw [if_pos here, here]
      rfl
    · rw [if_neg here]
      obtain ⟨other, item, _⟩ | ⟨_, kept⟩ := placed.sized_cases slots
      · exfalso
        rw [whole] at among
        cases List.mem_append.mp among with
        | inl early => exact apart placed early other item
        | inr late =>
          simp only [frameOpened, List.mem_cons, List.not_mem_nil, or_false] at late
          rcases late with rfl | rfl | rfl
          · exact here rfl
          · cases item
          · cases item
      · exact kept.symm
  rw [← agrees]
  exact replaced

end Opening

/-- A listing of the code of a program that starts by opening the frame, passes the stages of
the stack, stays inside the frame, loads an address where a reference is, and jumps only to where
code rests. -/
structure Program.Mapped (program : Program) (listing : List Placed) : Prop where
  listed : Code.Listed { bytes := program.code } listing program.code.size
  stage : Stage.behind listing = some (.body 0)
  opens : ∃ front, listing = front ++ frameOpened (Program.frameSize program.frameSlots) ∧
    ∀ placed ∈ front, ∀ size, placed.item ≠ .plain (.enterFrame size)
  inside : ∀ placed ∈ listing, placed.item.Inside program.frameSlots
  refs : Placed.wides listing = (program.refs.map (·.offset)).reverse
  lands : ∀ placed ∈ listing, ∀ field, placed.field? = some field → ∃ position : Nat,
    Code.displacement { bytes := program.code } field = position - field.finish ∧
      Rests listing position

/-- If no label is waited for, no field waits. -/
theorem Code.Linked.settles {code : Code} {pending : List Use} {settled : List Landing}
    (linked : code.Linked pending settled)
    (none : ∀ label distance, (code.label label).latest distance = none) : pending = [] := by
  refine List.eq_nil_iff_forall_not_mem.mpr fun use member => ?_
  have waits := (linked.latest use.distance use.target).symm.trans (none use.target use.distance)
  have among : use.site ∈ Code.sites pending use.distance use.target := Code.mem_sites.mpr member
  rw [List.head?_eq_none_iff.mp waits] at among
  cases among

/-- Where the field of a jump reads back what it does, although the size of the frame is
written. -/
theorem Code.Listed.displacement_sized {code : Code} {listing front : List Placed} {size : UInt32}
    {placed : Placed} {field : Field} {slots : Int} (listed : code.Listed listing code.size)
    (opens : listing = front ++ frameOpened size) (member : placed ∈ listing)
    (jumps : placed.field? = some field)
    (same : SameBut (fun offset => 7 ≤ offset ∧ offset < 11) code (code.setFrame 7 slots)) :
    (code.setFrame 7 slots).displacement field = code.displacement field := by
  apply same.displacement
  intro offset covers covered
  have opening : (⟨4, .plain (.enterFrame size)⟩ : Placed) ∈ listing := by
    rw [opens]
    exact List.mem_append_right _ List.mem_cons_self
  obtain ⟨last, stands, below⟩ := listed.mem_stands opening
  obtain ⟨eleven, _⟩ := frameSized_stands slots stands below
  obtain ⟨stop, stood, _⟩ := listed.mem_stands member
  have inside := Placed.field_inside stood jumps
  have other : placed ≠ ⟨4, .plain (.enterFrame size)⟩ := by
    rintro rfl
    cases jumps
  have four : (⟨4, .plain (.enterFrame size)⟩ : Placed).offset = 4 := rfl
  rcases listed.apart member opening other stood stands with early | late
  · have := covers.2
    omega
  · have := covers.1
    omega

theorem Compiled.Composed.mapped {compiled : Compiled} {code : Code} {log : List Part}
    (composed : compiled.Composed code log) (small : compiled.program.code.size < 2147483648)
    (settled : ∀ label distance, (code.label label).latest distance = none) :
    ∃ listing, compiled.program.Mapped listing ∧ ∀ early, early <:+ log →
      Draft compiled.program.frameSlots early (.body 0) →
        Rests listing (Part.text early).1.size := by
  let slots := compiled.program.frameSlots
  have patched := (Code.Rewrites.patch (Part.text log).1 7
    (bytes32 (Program.frameSize slots))).same.size
  have below : (Part.text log).1.size < 2147483648 := by
    rw [← patched]
    have whole : compiled.program.code.size = code.size := congrArg Array.size composed.bytes
    rw [whole, composed.text] at small
    exact small
  obtain ⟨listing, ⟨pending, landings, charted⟩, rests⟩ :=
    composed.draft.charted composed.fine below
  obtain ⟨sized, same⟩ := charted.assembled.listed.sized charted.stage trivial slots
  obtain ⟨front, size, opens, apart⟩ := charted.assembled.listed.opens charted.stage trivial
  have none : pending = [] := by
    refine charted.assembled.linked.settles fun label distance => ?_
    rw [← settled label distance, composed.text, Code.label, Code.label, same.labels]
  subst none
  have bytes : ({ bytes := compiled.program.code } : Code).bytes =
      ((Part.text log).1.setFrame 7 slots).bytes := by
    rw [← composed.text]
    exact composed.bytes
  have count : compiled.program.code.size = (Part.text log).1.size := by
    rw [← same.size, Code.size, ← bytes]
  refine ⟨listing.map (Placed.sized slots), ?_, ?_⟩
  · constructor
    · rw [count]
      exact sized.congr fun offset _ _ => congrArg (·[offset]?) bytes
    · rw [Stage.behind_sized, charted.stage]
    · refine ⟨front, ?_, apart⟩
      rw [opens, List.map_append]
      congr 1
      refine (List.map_congr_left fun placed member => ?_).trans (List.map_id front)
      obtain ⟨other, item, _⟩ | ⟨_, kept⟩ := placed.sized_cases slots
      · exact absurd item (apart placed member other)
      · exact kept
    · intro placed member
      obtain ⟨before, listed, rfl⟩ := List.mem_map.mp member
      exact (charted.inside before listed).sized
    · rw [Placed.wides_sized, charted.refs, composed.refs]
    · intro placed member field jumps
      obtain ⟨before, listed, rfl⟩ := List.mem_map.mp member
      rw [Placed.field_sized] at jumps
      obtain ⟨use, waiting, _⟩ | ⟨landing, leads, rfl⟩ :=
        charted.assembled.jumps before listed field jumps
      · cases waiting
      · refine ⟨landing.position, ?_, (charted.lands landing leads).sized slots⟩
        rw [← charted.assembled.linked.reads landing leads,
          ← charted.assembled.listed.displacement_sized opens listed jumps same]
        exact Code.displacement_congr fun offset _ => congrArg (·[offset]?) bytes
  · exact fun early within draft => (rests early within draft).sized slots

theorem Draft.suffix {slots : Int} {early log : List Part} {stage : Stage}
    (draft : Draft slots log stage) (within : early <:+ log) :
    ∃ earlier, Draft slots early earlier := by
  induction draft with
  | nil =>
    rw [List.suffix_nil.mp within]
    exact ⟨_, .nil⟩
  | steps before closed known inside goes ih =>
    cases List.suffix_cons_iff.mp within with
    | inl whole =>
      subst whole
      exact ⟨_, .steps before closed known inside goes⟩
    | inr shorter => exact ih shorter
  | bind before known ih =>
    cases List.suffix_cons_iff.mp within with
    | inl whole =>
      subst whole
      exact ⟨_, .bind before known⟩
    | inr shorter => exact ih shorter
  | address before general kind index ih =>
    cases List.suffix_cons_iff.mp within with
    | inl whole =>
      subst whole
      exact ⟨_, .address before general kind index⟩
    | inr shorter => exact ih shorter
  | label before ih =>
    cases List.suffix_cons_iff.mp within with
    | inl whole =>
      subst whole
      exact ⟨_, .label before⟩
    | inr shorter => exact ih shorter

/-- A part of a draft that ends with another number of slots does so with all of them. -/
theorem Draft.widen {few many : Int} {early log : List Part} {stage next : Stage}
    (early_draft : Draft few early stage) (draft : Draft many log next) (within : early <:+ log) :
    Draft many early stage := by
  obtain ⟨other, drafted⟩ := draft.suffix within
  cases drafted.stage_eq.symm.trans early_draft.stage_eq
  exact drafted

section Compiled

variable {module : Option Module} {host : Host} {index : UInt32} {compiled : Compiled}

/-- A compiled function is composed of parts; the code after any number of rounds of the driver
is that of an earlier draft inside the frame. -/
theorem compileFunction_composed
    (compiles : (compileFunction module host index).outcome = .ok compiled) :
    ∃ code log, compiled.Composed code log ∧
      (∀ label distance, compiled.program.code.size < 2147483648 →
        (code.label label).latest distance = none) ∧
      ∀ count state, compilingAfter module host index count = .ok state →
        ∃ early, early <:+ log ∧ Draft compiled.program.frameSlots early (.body 0) ∧
          (Part.text early).1 = state.output.code := by
  obtain ⟨subject, final, frame, start, made, ran, begun⟩ := compileFunction_ok compiles
  have proper := Subject.of_proper made
  obtain ⟨last, reached, closed, concluded⟩ := Compile.function_concluded proper begun ran
  obtain ⟨log, composed, recalls⟩ := Compile.function_composed proper begun ran
  refine ⟨_, log, composed, ?_, ?_⟩
  · intro label distance small
    rw [composed.bytes] at small
    obtain ⟨listing, finished, _⟩ := concluded.finished small
    exact finished.labels label distance
  · intro count state there
    unfold compilingAfter at there
    rw [made] at there
    dsimp only at there
    rw [Compile.bind_run, begun] at there
    dsimp only at there
    cases round : Compile.steps count subject start with
    | error fault after =>
      rw [round] at there
      cases there
    | ok done after =>
      rw [round] at there
      cases there
      -- nothing is left to do behind the last round
      have few : ∃ fewer ≤ Compile.rounds subject,
          Compile.steps fewer subject start = .ok () state := by
        rcases Nat.le_total count (Compile.rounds subject) with below | above
        · exact ⟨count, below, round⟩
        · refine ⟨_, Nat.le_refl _, ?_⟩
          rw [← Nat.add_sub_cancel' above, Compile.steps_add, Compile.bind_run, reached] at round
          dsimp only at round
          rw [Compile.steps_of_closed _ closed] at round
          cases round
          exact reached
      obtain ⟨fewer, below, again⟩ := few
      obtain ⟨early, within, draft, text⟩ := recalls fewer below state again
      exact ⟨early, within, draft.widen composed.draft within, text⟩

theorem compileFunction_mapped
    (compiles : (compileFunction module host index).outcome = .ok compiled)
    (small : compiled.program.code.size < 2147483648) :
    ∃ listing, compiled.program.Mapped listing ∧
      ∀ count state, compilingAfter module host index count = .ok state →
        Rests listing state.output.code.size := by
  obtain ⟨code, log, composed, settled, recalls⟩ := compileFunction_composed compiles
  obtain ⟨listing, mapped, rests⟩ :=
    composed.mapped small fun label distance => settled label distance small
  refine ⟨listing, mapped, fun count state reached => ?_⟩
  obtain ⟨early, within, draft, text⟩ := recalls count state reached
  rw [← text]
  exact rests early within draft

end Compiled

end WasmX64
