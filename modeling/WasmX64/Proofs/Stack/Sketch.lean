import WasmX64.Proofs.Execution.Compiles
import WasmX64.Proofs.Stack.Merge

/-!
# Drafts and sketches

The code of a function as the parts it was put together from, latest first.  A draft is a log of
parts that respects labels, the frame and the stages of the stack.  Its code has a chart, and
wherever an earlier part of the log ends inside the frame with nothing pushed, the code rests.  A
sketch is the draft of a compilation under way.
-/

namespace WasmX64

namespace Part

/-- The code of a log of parts, latest first, and the references into it. -/
def text : List Part → Code × Array Reference
  | [] => ({}, #[])
  | part :: log => place (text log) part

def Knows (log : List Part) (label : Label) : Prop := label.index < (text log).1.labels.size

/-- The stage behind a log of parts, latest first. -/
def stage : List Part → Option Stage
  | [] => some .entry
  | .steps sequence :: log => (stage log).bind (·.through sequence)
  | .address _ _ _ :: log => stage log
  | .label :: log => stage log

theorem extends_text {earlier log : List Part} (within : earlier <:+ log) :
    (text earlier).1.Extends (text log).1 := by
  obtain ⟨front, rfl⟩ := within
  induction front with
  | nil => exact .refl _
  | cons part rest ih => exact ih.trans (extends_place _ part)

end Part

/-- A log of parts, latest first, that respects labels, a frame of a number of slots and the
stages of the stack, with the stage at its end. -/
inductive Draft (slots : Int) : List Part → Stage → Prop
  | nil : Draft slots [] .entry
  | steps {log : List Part} {stage next : Stage} {labels : List Label} {steps : List Step}
      (before : Draft slots log stage) (closed : Sequence.Closed labels steps)
      (known : ∀ label ∈ labels, Part.Knows log label)
      (inside : ∀ step ∈ steps, step.Inside slots) (goes : stage.through steps = some next) :
      Draft slots (.steps steps :: log) next
  | bind {log : List Part} {label : Label} (before : Draft slots log (.body 0))
      (known : Part.Knows log label) :
      Draft slots (.steps [.bind (.label label)] :: log) (.body 0)
  | address {log : List Part} {words : Nat} {target : Register}
      (before : Draft slots log (.body words)) (general : target.General) (kind : RefKind)
      (index : UInt32) : Draft slots (.address target kind index :: log) (.body words)
  | label {log : List Part} {stage : Stage} (before : Draft slots log stage) :
      Draft slots (.label :: log) stage

namespace Draft

variable {slots : Int} {log : List Part} {stage : Stage}

theorem mono {few many : Int} (draft : Draft few log stage) (fewer : few ≤ many) :
    Draft many log stage := by
  induction draft with
  | nil => exact .nil
  | steps _ closed known inside goes ih =>
    exact .steps ih closed known (fun step member => (inside step member).mono fewer) goes
  | bind _ known ih => exact .bind ih known
  | address _ general kind index ih => exact .address ih general kind index
  | label _ ih => exact .label ih

theorem stage_eq (draft : Draft slots log stage) : Part.stage log = some stage := by
  induction draft with
  | nil => rfl
  | steps _ _ _ _ goes ih =>
    rw [Part.stage, ih]
    exact goes
  | bind _ _ ih =>
    rw [Part.stage, ih]
    rfl
  | address _ _ _ _ ih => exact ih
  | label _ ih => exact ih

end Draft

def Chart (slots : Int) (log : List Part) (listing : List Placed) (stage : Stage) : Prop :=
  ∃ pending settled, Charted slots (·.index < (Part.text log).1.labels.size) (Part.text log).1
    ((Part.text log).2.toList.map (·.offset)).reverse listing pending settled stage

namespace Chart

variable {slots : Int} {log : List Part} {listing : List Placed} {stage next : Stage}
  {target : Register}

theorem nil : Chart slots [] [] .entry := by
  refine ⟨[], [], Code.assembled_empty, rfl, by simp, by simp, ?_, by simp, rfl⟩
  intro label position bound
  simp [Part.text, Code.label] at bound

theorem steps {labels : List Label} {steps : List Step} (chart : Chart slots log listing stage)
    (closed : Sequence.Closed labels steps) (known : ∀ label ∈ labels, Part.Knows log label)
    (inside : ∀ step ∈ steps, step.Inside slots) (goes : stage.through steps = some next)
    (fine : (Part.text (.steps steps :: log)).1.error = none)
    (small : (Part.text (.steps steps :: log)).1.size < 2147483648) :
    ∃ front, Chart slots (.steps steps :: log) (front ++ listing) next := by
  obtain ⟨pending, settled, charted⟩ := chart
  exact charted.place closed known inside goes fine small

theorem bind {label : Label} (chart : Chart slots log listing (.body 0))
    (known : Part.Knows log label)
    (fine : (Part.text (.steps [.bind (.label label)] :: log)).1.error = none)
    (small : (Part.text (.steps [.bind (.label label)] :: log)).1.size < 2147483648) :
    Chart slots (.steps [.bind (.label label)] :: log) listing (.body 0) := by
  obtain ⟨pending, settled, charted⟩ := chart
  have placed : (Part.text (.steps [.bind (.label label)] :: log)).1 =
      (Part.text log).1.bind label := Code.place_bind _ _
  rw [placed] at fine small
  rw [Code.size_bind] at small
  unfold Chart
  rw [placed, Code.size_labels_bind]
  exact ⟨_, _, charted.bind known fine small⟩

theorem address {words : Nat} (chart : Chart slots log listing (.body words))
    (general : target.General) {kind : RefKind} {index : UInt32}
    (fine : (Part.text (.address target kind index :: log)).1.error = none) :
    ∃ front, Chart slots (.address target kind index :: log) (front ++ listing)
      (.body words) := by
  obtain ⟨pending, settled, charted⟩ := chart
  have emitted : (Part.text (.address target kind index :: log)).1 =
      (Part.text log).1.emit (.movabs target placeholder) := Code.loadWide_eq _ _ _
  have recorded : (Part.text (.address target kind index :: log)).2 =
      (Part.text log).2.push ⟨(Part.text log).1.size + 2, kind, index⟩ := by
    rw [← Code.offset_loadWide charted.sound general.1 placeholder]
    rfl
  have labels : ((Part.text log).1.emit (.movabs target placeholder)).labels =
      (Part.text log).1.labels := by
    rw [Code.emit, Code.encode_movabs general.1]
    exact Code.labels_append _ _
  have steady : Instruction.steady (.movabs target placeholder) = true := by
    simp [Instruction.steady, general.2]
  rw [emitted] at fine
  have inside : (Item.plain (.movabs target placeholder)).Inside slots :=
    ⟨fun _ found => (by cases found), fun _ => ⟨target, general.1, rfl⟩⟩
  have next := charted.emit (by rfl) (Stage.inside_of_steady steady words) inside fine
  refine ⟨[⟨(Part.text log).1.size, .plain (.movabs target placeholder)⟩], pending, settled, ?_⟩
  rw [emitted, labels, recorded]
  simpa using next

theorem label (chart : Chart slots log listing stage) :
    Chart slots (.label :: log) listing stage := by
  obtain ⟨pending, settled, charted⟩ := chart
  have table : (Part.text (.label :: log)).1 = (Part.text log).1.reserve 1 := by
    simp [Part.text, Part.place, Code.newLabel, Code.reserve]
  refine ⟨pending, settled, ?_⟩
  rw [table]
  refine (charted.reserve 1).mono fun label below => ?_
  simp only [Code.reserve, Array.size_append, Array.size_replicate]
  omega

end Chart

namespace Draft

variable {slots : Int} {log : List Part} {stage : Stage}

theorem rests_cons {part : Part} {next : Stage} {listing front : List Placed}
    (draft : Draft slots (part :: log) next)
    (chart : Chart slots (part :: log) (front ++ listing) next)
    (rests : ∀ earlier, earlier <:+ log → Draft slots earlier (.body 0) →
      Rests listing (Part.text earlier).1.size) :
    ∀ earlier, earlier <:+ part :: log → Draft slots earlier (.body 0) →
      Rests (front ++ listing) (Part.text earlier).1.size := by
  intro earlier within here
  cases List.suffix_cons_iff.mp within with
  | inl whole =>
    subst whole
    have same := here.stage_eq.symm.trans draft.stage_eq
    cases same
    obtain ⟨pending, settled, charted⟩ := chart
    exact charted.rests
  | inr inside => exact (rests earlier inside here).mono (List.suffix_append front listing)

/-- The code of a draft has a chart, and where an earlier part of the draft ends inside the frame
with nothing pushed, the code rests. -/
theorem charted (draft : Draft slots log stage) (fine : (Part.text log).1.error = none)
    (small : (Part.text log).1.size < 2147483648) :
    ∃ listing, Chart slots log listing stage ∧
      ∀ earlier, earlier <:+ log → Draft slots earlier (.body 0) →
        Rests listing (Part.text earlier).1.size := by
  have shorter (part : Part) (log : List Part) (fine : (Part.text (part :: log)).1.error = none)
      (small : (Part.text (part :: log)).1.size < 2147483648) :
      (Part.text log).1.error = none ∧ (Part.text log).1.size < 2147483648 := by
    have grows := Part.extends_place (Part.text log) part
    exact ⟨grows.error fine, Nat.lt_of_le_of_lt grows.size small⟩
  have whole := draft
  induction draft with
  | nil =>
    refine ⟨[], Chart.nil, ?_⟩
    intro earlier within here
    rw [List.suffix_nil.mp within] at here
    cases here
  | steps before closed known inside goes ih =>
    obtain ⟨sound, below⟩ := shorter _ _ fine small
    obtain ⟨listing, chart, rests⟩ := ih sound below before
    obtain ⟨front, longer⟩ := chart.steps closed known inside goes fine small
    exact ⟨_, longer, rests_cons whole longer rests⟩
  | bind before known ih =>
    obtain ⟨sound, below⟩ := shorter _ _ fine small
    obtain ⟨listing, chart, rests⟩ := ih sound below before
    have bound := chart.bind known fine small
    exact ⟨_, bound, @rests_cons _ _ _ _ _ [] whole bound rests⟩
  | address before general kind index ih =>
    obtain ⟨sound, below⟩ := shorter _ _ fine small
    obtain ⟨listing, chart, rests⟩ := ih sound below before
    obtain ⟨front, longer⟩ := chart.address general fine
    exact ⟨_, longer, rests_cons whole longer rests⟩
  | label before ih =>
    obtain ⟨sound, below⟩ := shorter _ _ fine small
    obtain ⟨listing, chart, rests⟩ := ih sound below before
    exact ⟨_, chart.label, @rests_cons _ _ _ _ _ [] whole chart.label rests⟩

end Draft

end WasmX64

/-!
## The draft of a compilation

The code and the references of a compilation are the text of a draft that continues an earlier
one.  A sketch adds that the frame provides the slots of the live layout and of the layouts saved
in open blocks.  Emitting tame code, storing slots and handing out registers keep a sketch.
-/

namespace WasmX64

open Sequence

/-- Code and references of a compilation are the text of a draft that continues a given one and
stands at a stage; the frame has at least a number of slots, and some labels and those of the
stubs are known. -/
structure Drafted (origin : List Part) (floor : Int) (stage : Stage) (labels : List Label)
    (_ : Subject) (state : Compilation) : Prop where
  room : floor ≤ state.output.frameSlots
  draws : ∃ log, state.text = Part.text log ∧ Draft state.output.frameSlots log stage ∧
    origin <:+ log
  known : ∀ label ∈ labels, label.index < state.output.code.labels.size
  stubs : ∀ stub ∈ state.stubs, stub.label.index < state.output.code.labels.size

namespace Drafted

variable {origin : List Part} {floor : Int} {stage next : Stage} {words pushed : Nat}
  {labels used : List Label} {subject : Subject} {state after : Compilation} {steps : List Step}

/-- A part is put behind the code, and the frame may grow. -/
theorem part (drafted : Drafted origin floor stage labels subject state) (part : Part)
    (text : after.text = part.place state.text)
    (draft : ∀ log, state.text = Part.text log → Draft state.output.frameSlots log stage →
      Draft after.output.frameSlots (part :: log) next)
    (room : state.output.frameSlots ≤ after.output.frameSlots)
    (stubs : after.stubs = state.stubs) : Drafted origin floor next labels subject after := by
  obtain ⟨log, same, drawn, continues⟩ := drafted.draws
  have code : after.output.code = (part.place state.text).1 := congrArg Prod.fst text
  have grows : state.output.code.labels.size ≤ after.output.code.labels.size := by
    rw [code]
    exact (Part.extends_place state.text part).count
  constructor
  · exact Int.le_trans drafted.room room
  · exact ⟨part :: log, by rw [Part.text, ← same, text], draft log same drawn,
      continues.trans (List.suffix_cons part log)⟩
  · intro label member
    exact Nat.lt_of_lt_of_le (drafted.known label member) grows
  · intro stub member
    exact Nat.lt_of_lt_of_le (drafted.stubs stub (stubs ▸ member)) grows

theorem congr (drafted : Drafted origin floor stage labels subject state)
    (output : after.output = state.output) (refs : after.refs = state.refs)
    (stubs : after.stubs = state.stubs) : Drafted origin floor stage labels subject after := by
  have text : after.text = state.text := by rw [Compilation.text, Compilation.text, output, refs]
  constructor
  · rw [output]
    exact drafted.room
  · rw [output, text]
    exact drafted.draws
  · rw [output]
    exact drafted.known
  · rw [output, stubs]
    exact drafted.stubs

theorem forget (drafted : Drafted origin floor stage labels subject state)
    (fewer : ∀ label ∈ used, label ∈ labels) : Drafted origin floor stage used subject state :=
  { drafted with known := fun label member => drafted.known label (fewer label member) }

theorem raise (drafted : Drafted origin floor stage labels subject state) :
    Drafted origin state.output.frameSlots stage labels subject state :=
  { drafted with room := Int.le_refl _ }

theorem lower {less : Int} (drafted : Drafted origin floor stage labels subject state)
    (fewer : less ≤ floor) : Drafted origin less stage labels subject state :=
  { drafted with room := Int.le_trans fewer drafted.room }

theorem emit (drafted : Drafted origin floor stage labels subject state) (closed : Closed used steps)
    (known : ∀ label ∈ used, label.index < state.output.code.labels.size)
    (inside : ∀ step ∈ steps, step.Inside state.output.frameSlots)
    (goes : stage.through steps = some next) :
    Drafted origin floor next labels subject
      { state with output := state.output.emit steps } := by
  refine drafted.part (.steps steps) rfl (fun log text draft => ?_) (Int.le_refl _) rfl
  have same : state.output.code = (Part.text log).1 := congrArg Prod.fst text
  refine .steps draft closed (fun label member => ?_) inside goes
  rw [Part.Knows, ← same]
  exact known label member

/-- Straight code may stand anywhere inside the frame. -/
theorem straight (drafted : Drafted origin floor (.body words) labels subject state)
    (straight : Straight steps) (tame : Tame floor steps) :
    Drafted origin floor (.body words) labels subject
      { state with output := state.output.emit steps } := by
  have fits := tame.mono drafted.room
  have closed : Closed [] steps := straight.closed
  exact drafted.emit closed (fun _ member => nomatch member)
    (fun step member => (fits step member).inside) (Stage.through_emits fits straight words)

theorem jump (drafted : Drafted origin floor (.body 0) labels subject state)
    (closed : Closed used steps) (known : ∀ label ∈ used, label ∈ labels)
    (tame : Tame floor steps) :
    Drafted origin floor (.body 0) labels subject
      { state with output := state.output.emit steps } := by
  have fits := tame.mono drafted.room
  exact drafted.emit closed (fun label member => drafted.known label (known label member))
    (fun step member => (fits step member).inside) (Stage.through_tame fits)

theorem bindLabel (drafted : Drafted origin floor (.body 0) labels subject state) {label : Label}
    (known : label ∈ labels) : Drafted origin floor (.body 0) labels subject
      { state with output := state.output.emit [.bind label] } := by
  refine drafted.part (.steps [.bind label]) rfl (fun log text draft => ?_) (Int.le_refl _)
    rfl
  have same : state.output.code = (Part.text log).1 := congrArg Prod.fst text
  refine .bind draft ?_
  rw [Part.Knows, ← same]
  exact drafted.known label known

theorem slot (drafted : Drafted origin floor stage labels subject state) (index : Int) :
    Drafted origin (max floor (index + 1)) stage labels subject
      { state with output := state.output.needSlot index } := by
  obtain ⟨log, text, draft, continues⟩ := drafted.draws
  have grows := Output.le_needSlot state.output index
  have code := Output.code_needSlot state.output index
  refine ⟨?_, ⟨log, ?_, draft.mono grows, continues⟩, ?_, ?_⟩
  · exact Int.max_le.mpr ⟨Int.le_trans drafted.room grows, Output.lt_needSlot state.output index⟩
  · rw [← text]
    simp only [Compilation.text, code]
  · simp only [code]
    exact drafted.known
  · simp only [code]
    exact drafted.stubs

/-- A slot is stored, and the frame provides it. -/
theorem store (drafted : Drafted origin floor (.body words) labels subject state) {index : Int}
    (straight : Straight steps) (tame : Tame (index + 1) steps) :
    Drafted origin (max floor (index + 1)) (.body words) labels subject
      { state with output := (state.output.emit steps).needSlot index } := by
  rw [Output.needSlot_emit]
  exact (drafted.slot index).straight straight (tame.mono (Int.le_max_right _ _))

/-- What a transfer adds. -/
theorem lays (drafted : Drafted origin floor (.body words) labels subject state) {output : Output}
    (lays : state.output.Lays words output pushed) :
    Drafted origin floor (.body pushed) labels subject { state with output } := by
  induction lays with
  | none => exact drafted
  | code _ straight inside goes ih =>
    have closed : Closed [] _ := straight.closed
    exact ih.emit closed (fun _ member => nomatch member) inside goes
  | slot _ index ih => exact (ih.slot index).lower (Int.le_max_left _ _)

theorem newLabel (drafted : Drafted origin floor stage labels subject state) :
    Drafted origin floor stage (state.output.code.newLabel.1 :: labels) subject
      { state with output := { state.output with code := state.output.code.newLabel.2 } } := by
  have made : Drafted origin floor stage labels subject
      { state with output := { state.output with code := state.output.code.newLabel.2 } } :=
    drafted.part .label rfl (fun log _ draft => draft.label) (Int.le_refl _) rfl
  refine { made with known := List.forall_mem_cons.mpr ⟨?_, made.known⟩ }
  simp [Code.newLabel]

end Drafted

namespace Compile

variable {α : Type} {origin : List Part} {floor : Int} {stage next : Stage} {words pushed : Nat}
  {labels used : List Label} {subject : Subject} {state : Compilation} {steps : List Step}

theorem drafted_modify {change : Compilation → Compilation}
    (output : ∀ state, (change state).output = state.output)
    (refs : ∀ state, (change state).refs = state.refs)
    (stubs : ∀ state, (change state).stubs = state.stubs) :
    Keeps (Drafted origin floor stage labels) (modify change) anything :=
  Keeps.modify fun _ state drafted => drafted.congr (output state) (refs state) (stubs state)

theorem drafted_record (what : Happening) :
    Keeps (Drafted origin floor stage labels) (record what) anything :=
  Keeps.read.andThen fun _ => drafted_modify (fun _ => rfl) (fun _ => rfl) fun _ => rfl

theorem drafted_modifyLayout (change : Layout → Layout) :
    Keeps (Drafted origin floor stage labels) (modifyLayout change) anything :=
  drafted_modify (fun _ => rfl) (fun _ => rfl) fun _ => rfl

theorem drafted_machine {event : MachineEvent} {action : Compile Unit}
    (inside : Keeps (Drafted origin floor stage labels) action anything) :
    Keeps (Drafted origin floor stage labels) (machine event action) anything :=
  Keeps.machine drafted_record inside

theorem drafted_straight (straight : Straight steps) (tame : Tame floor steps) :
    Keeps (Drafted origin floor (.body words) labels) (emit steps) anything :=
  Keeps.modify fun _ _ drafted => drafted.straight straight tame

theorem drafted_jump (closed : Closed used steps) (known : ∀ label ∈ used, label ∈ labels)
    (tame : Tame floor steps) :
    Keeps (Drafted origin floor (.body 0) labels) (emit steps) anything :=
  Keeps.modify fun _ _ drafted => drafted.jump closed known tame

theorem drafted_loadRef {target : Register} (general : target.General) (kind : RefKind)
    (index : UInt32) :
    Keeps (Drafted origin floor (.body words) labels) (loadRef target kind index) anything := by
  refine Keeps.modify fun subject state drafted => ?_
  exact drafted.part (.address target kind index) rfl
    (fun log _ draft => draft.address general kind index) (Int.le_refl _) rfl

section Control

variable {label : Label}

theorem drafted_branch (depth : Nat) (known : label ∈ labels) :
    Keeps (Drafted origin floor (.body 0) labels) (branch label depth) anything := by
  have closed : Closed [label] [.jump label .far] :=
    ⟨[], (by simp [Step.Resolves, Target.Known]), (by simp)⟩
  exact drafted_machine (drafted_jump closed (by simpa using known) (by simp))

theorem drafted_bind (depth : Nat) (known : label ∈ labels) :
    Keeps (Drafted origin floor (.body 0) labels) (Compile.bind label depth) anything :=
  drafted_machine (Keeps.modify fun _ _ drafted => drafted.bindLabel known)

theorem drafted_branchIfZero (reg : Register) (depth : Nat) (known : label ∈ labels) :
    Keeps (Drafted origin floor (.body 0) labels) (branchIfZero label reg depth) anything :=
  drafted_machine (drafted_jump (closed_compareAndJump (by decide) _ _ _ known) (fun _ => id)
    (tame_compareAndJump _ _ _ _ _))

theorem drafted_branchIfAtLeast (value bound : Register) (known : label ∈ labels) :
    Keeps (Drafted origin floor (.body 0) labels) (branchIfAtLeast label value bound) anything :=
  drafted_machine (drafted_jump (closed_compareAndJump (by decide) _ _ _ known) (fun _ => id)
    (tame_compareAndJump _ _ _ _ _))

theorem drafted_newLabel (drafted : Drafted origin floor stage labels subject state) :
    Ensures newLabel subject state fun label after =>
      Drafted origin floor stage (label :: labels) subject after ∧ after.layout = state.layout ∧
        after.blocks = state.blocks ∧ after.stubs = state.stubs :=
  ensures_modifyGet.mpr ⟨drafted.newLabel, rfl, rfl, rfl⟩

end Control

end Compile

/-- An output knows the labels of a block, and its frame provides the layouts saved in it. -/
structure Block.Drawn (output : Output) (block : Block) : Prop where
  label : block.label.index < output.code.labels.size
  elseLabel : block.elseLabel.index < output.code.labels.size
  join : block.join.Stored output.frameSlots
  saved : ∀ layout, block.elseLayout = some layout → layout.Stored output.frameSlots

/-- A compilation with a draft of its code that stands at a stage, whose frame provides all
layouts. -/
structure Sketched (origin : List Part) (floor : Int) (stage : Stage) (labels : List Label)
    (subject : Subject) (state : Compilation) : Prop where
  drafted : Drafted origin floor stage labels subject state
  layout : state.layout.Stored state.output.frameSlots
  blocks : ∀ block ∈ state.blocks, block.Drawn state.output

namespace Sketched

variable {origin : List Part} {floor : Int} {stage next : Stage} {labels more : List Label}
  {subject : Subject} {state after : Compilation}

theorem labels_known (sketched : Sketched origin floor stage labels subject state) :
    ∀ label ∈ labels ++ state.blocks.flatMap (fun block => [block.label, block.elseLabel]),
      label.index < state.output.code.labels.size := by
  intro label member
  cases List.mem_append.mp member with
  | inl given => exact sketched.drafted.known label given
  | inr owned =>
    obtain ⟨block, listed, own⟩ := List.mem_flatMap.mp owned
    have drawn := sketched.blocks block listed
    simp only [List.mem_cons, List.not_mem_nil, or_false] at own
    cases own with
    | inl here => exact here ▸ drawn.label
    | inr here => exact here ▸ drawn.elseLabel

theorem whole (sketched : Sketched origin floor stage labels subject state) :
    Drafted origin state.output.frameSlots stage
      (labels ++ state.blocks.flatMap fun block => [block.label, block.elseLabel]) subject state :=
  { sketched.drafted.raise with known := sketched.labels_known }

/-- What was saved in a block stays provided. -/
theorem drawn (sketched : Sketched origin floor stage labels subject state) {others : List Label}
    (drafted : Drafted origin state.output.frameSlots next
      (others ++ state.blocks.flatMap fun block => [block.label, block.elseLabel]) subject after) :
    ∀ block ∈ state.blocks, block.Drawn after.output := by
  intro block member
  have before := sketched.blocks block member
  have listed (label : Label) (own : label ∈ [block.label, block.elseLabel]) :
      label.index < after.output.code.labels.size :=
    drafted.known label (List.mem_append_right _ (List.mem_flatMap.mpr ⟨block, member, own⟩))
  constructor
  · exact listed block.label (by simp)
  · exact listed block.elseLabel (by simp)
  · exact before.join.mono drafted.room
  · exact fun layout found => (before.saved layout found).mono drafted.room

theorem relayout (sketched : Sketched origin floor stage labels subject state) {layout : Layout}
    (stored : layout.Stored state.output.frameSlots) :
    Sketched origin floor stage labels subject { state with layout } :=
  ⟨sketched.drafted.congr rfl rfl rfl, stored, sketched.blocks⟩

theorem raise (sketched : Sketched origin floor stage labels subject state) :
    Sketched origin state.output.frameSlots stage labels subject state :=
  { sketched with drafted := sketched.drafted.raise }

theorem lower {less : Int} (sketched : Sketched origin floor stage labels subject state)
    (fewer : less ≤ floor) : Sketched origin less stage labels subject state :=
  { sketched with drafted := sketched.drafted.lower fewer }

theorem forget (sketched : Sketched origin floor stage more subject state)
    (fewer : ∀ label ∈ labels, label ∈ more) :
    Sketched origin floor stage labels subject state :=
  { sketched with drafted := sketched.drafted.forget fewer }

end Sketched

namespace Compile

variable {α : Type} {origin : List Part} {floor : Int} {stage : Stage} {words : Nat}
  {labels : List Label} {subject : Subject} {state : Compilation}

/-- An action that continues a draft and touches neither the layout nor the blocks. -/
theorem sketched_of_drafted {action : Compile α} (idle : Idle action)
    (keeps : ∀ more others, floor ≤ more → (∀ label ∈ labels, label ∈ others) →
      Keeps (Drafted origin more stage others) action anything) :
    Keeps (Sketched origin floor stage labels) action anything := by
  intro subject state sketched
  have all := keeps state.output.frameSlots _ sketched.drafted.room
    (fun _ => List.mem_append_left _) subject state sketched.whole
  refine (all.and (idle state.layout state.blocks subject state ⟨rfl, rfl⟩)).mono ?_
  rintro value after ⟨⟨drafted, _⟩, ⟨layout, blocks⟩, _⟩
  refine ⟨⟨?_, ?_, ?_⟩, trivial⟩
  · exact (drafted.lower sketched.drafted.room).forget fun _ => List.mem_append_left _
  · rw [layout]
    exact sketched.layout.mono drafted.room
  · rw [blocks]
    exact sketched.drawn drafted

theorem sketched_modifyLayout {change : Layout → Layout}
    (stores : ∀ slots layout, layout.Stored slots → (change layout).Stored slots) :
    Keeps (Sketched origin floor stage labels) (modifyLayout change) anything :=
  Keeps.modify fun _ _ sketched => sketched.relayout (stores _ _ sketched.layout)

theorem sketched_sameSlots {change : Layout → Layout}
    (same : ∀ layout, (change layout).slots = layout.slots) :
    Keeps (Sketched origin floor stage labels) (modifyLayout change) anything :=
  sketched_modifyLayout fun _ _ stored => stored.congr (same _)

theorem sketched_straight {steps : List Step} (straight : Straight steps) (tame : Tame 0 steps)
    (positive : 0 ≤ floor) :
    Keeps (Sketched origin floor (.body words) labels) (emit steps) anything :=
  sketched_of_drafted (.emit steps) fun _ _ more _ =>
    drafted_straight straight (tame.mono (Int.le_trans positive more))

end Compile

/-- Slots of a layout may have gone to the frame, which provides them. -/
structure Spilling (origin : List Part) (floor : Int) (words : Nat) (labels : List Label)
    (before : Layout) (blocks : List Block) (subject : Subject) (state : Compilation) : Prop where
  drafted : Drafted origin floor (.body words) labels subject state
  slots : ∀ (index : Nat) (slot : Slot), state.layout.slots[index]? = some slot →
    before.slots[index]? = some slot ∨
      slot.place = .frame ∧ (index : Int) < state.output.frameSlots
  blocks : state.blocks = blocks

namespace Spilling

variable {origin : List Part} {floor : Int} {words : Nat} {labels : List Label} {before : Layout}
  {blocks : List Block} {subject : Subject} {state : Compilation}

theorem relayout (spilling : Spilling origin floor words labels before blocks subject state)
    {layout : Layout} (same : layout.slots = state.layout.slots) :
    Spilling origin floor words labels before blocks subject { state with layout } := by
  refine ⟨spilling.drafted.congr rfl rfl rfl, fun index slot found => ?_, spilling.blocks⟩
  exact spilling.slots index slot (same ▸ found)

theorem store (spilling : Spilling origin floor words labels before blocks subject state)
    {index : Nat} {steps : List Step} (straight : Straight steps) (tame : Tame (index + 1) steps)
    {layout : Layout} (same : layout.slots = state.layout.slots) (type : ValueType) :
    Spilling origin floor words labels before blocks subject
      { state with
        output := (state.output.emit steps).needSlot index
        layout := layout.setSlot index (.inFrame type) } := by
  have drafted := spilling.drafted.raise.store straight tame
  have room := drafted.room
  refine ⟨?_, ?_, spilling.blocks⟩
  · exact (spilling.drafted.store straight tame).lower (Int.le_max_left _ _) |>.congr rfl rfl rfl
  · intro place slot found
    rw [Layout.getElem?_setSlot] at found
    split at found
    · rename_i here
      cases found
      refine .inr ⟨rfl, ?_⟩
      rw [← here.1]
      exact Int.lt_of_lt_of_le (by omega) room
    · refine (spilling.slots place slot (same ▸ found)).imp_right fun framed => ⟨framed.1, ?_⟩
      exact Int.lt_of_lt_of_le (Int.lt_of_lt_of_le framed.2 (Int.le_max_left _ _)) room

end Spilling

namespace Compile

variable {origin : List Part} {floor : Int} {words : Nat} {labels : List Label} {before : Layout}
  {blocks : List Block}

theorem spilling_sameSlots {change : Layout → Layout}
    (same : ∀ layout, (change layout).slots = layout.slots) :
    Keeps (Spilling origin floor words labels before blocks) (modifyLayout change) anything :=
  Keeps.modify fun _ _ spilling => spilling.relayout (same _)

theorem spilling_spillHolders (reg : Register) (index remaining : Nat) :
    Keeps (Spilling origin floor words labels before blocks) (spillHolders reg index remaining)
      anything := by
  induction index generalizing remaining with
  | zero => exact .pure trivial
  | succ index ih =>
    rw [spillHolders]
    refine .ite (.pure trivial) (Keeps.get.andThen fun seen => ?_)
    split
    · rename_i slot found
      refine .ite ?_ (ih _)
      intro subject state spilling
      simp only [ensures_bind, ensures_emit, ensures_needSlot, ensures_modifyLayout]
      refine ih _ subject _ (spilling.store (straight_spill _ _ _) ?_ rfl slot.type)
      exact tame_spill _ (Int.natCast_nonneg index) (Int.lt_succ _) _
    · exact ih _

theorem spilling_spillRegister (reg : Register) :
    Keeps (Spilling origin floor words labels before blocks) (spillRegister reg) anything := by
  refine Keeps.demand (Keeps.get.andThen fun state => ?_)
  refine (spilling_spillHolders _ _ _).andThen fun left => Keeps.demand ?_
  exact spilling_sameSlots fun _ => Layout.slots_forget

theorem spilling_spillOne (bank : RegClass) (pinned : RegSet) :
    Keeps (Spilling origin floor words labels before blocks) (spillOne bank pinned) anything := by
  refine Keeps.get.andThen fun state => Keeps.demand ?_
  refine Keeps.andThen (spilling_sameSlots ?_) fun _ => ?_
  · intro layout
    rfl
  · exact (spilling_spillRegister _).andThen fun _ => .pure trivial

theorem spilling_takeRegister (bank : RegClass) (wishes : List Register) (pinned : RegSet) :
    Keeps (Spilling origin floor words labels before blocks) (takeRegister bank wishes pinned)
      anything := by
  refine Keeps.get.andThen fun state => ?_
  dsimp only
  split
  · exact .pure trivial
  · split
    · exact .pure trivial
    · exact spilling_spillOne bank pinned

theorem spilling_vacate (reg : Register) :
    Keeps (Spilling origin floor words labels before blocks) (vacate reg) anything :=
  Keeps.get.andThen fun _ => .ite (spilling_spillRegister reg) .done

theorem spilling_spillSlot (index : Nat) :
    Keeps (Spilling origin floor words labels before blocks) (spillSlot index) anything := by
  have positive := Int.natCast_nonneg index
  have below : (index : Int) < index + 1 := Int.lt_succ _
  intro subject state spilling
  unfold spillSlot
  simp only [ensures_bind, ensures_get]
  split
  · exact ensures_throw
  · rename_i slot found
    split
    · simp only [ensures_bind, ensures_emit, ensures_needSlot, ensures_modifyLayout]
      exact ⟨spilling.store (straight_spill _ _ _) (tame_spill _ positive below _)
        Layout.slots_release _, trivial⟩
    · simp only [ensures_bind, ensures_emit, ensures_needSlot, ensures_modifyLayout]
      exact ⟨spilling.store (straight_spillConstant _ _ _)
        (tame_spillConstant _ positive below _) rfl _, trivial⟩
    · exact ensures_pure.mpr ⟨spilling, trivial⟩

theorem spilling_spillLocals :
    Keeps (Spilling origin floor words labels before blocks) spillLocals anything := by
  refine Keeps.read.andThen fun subject => Keeps.andThen (.forIn fun index _ => ?_) fun _ => .done
  exact (spilling_spillSlot index).andThen fun _ => .pure rfl

theorem spilling_storeBelow (count : Nat) :
    Keeps (Spilling origin floor words labels before blocks) (storeBelow count) anything := by
  refine Keeps.andThen (.forIn fun index _ => Keeps.get.andThen fun seen => ?_) fun _ => .done
  split
  · rename_i type reg found
    intro subject state spilling
    simp only [ensures_bind, ensures_emit, ensures_needSlot, ensures_modifyLayout, ensures_pure]
    refine ⟨spilling.store (straight_spill _ _ _) ?_ rfl type, trivial⟩
    exact tame_spill _ (Int.natCast_nonneg index) (Int.lt_succ _) _
  · exact .pure rfl

/-- Every slot of a layout was there before or has gone to the frame. -/
def Spilled (before after : Layout) : Prop :=
  ∀ (index : Nat) (slot : Slot), after.slots[index]? = some slot →
    before.slots[index]? = some slot ∨ slot.place = .frame

/-- An action that at most moves slots to the frame, with what it does to them. -/
theorem spilled_of_spilling {α : Type} {action : Compile α}
    (keeps : ∀ more others before blocks,
      Keeps (Spilling origin more words others before blocks) action anything)
    (sketched : Sketched origin floor (.body words) labels subject state) :
    Ensures action subject state fun _ after =>
      Sketched origin floor (.body words) labels subject after ∧
        Spilled state.layout after.layout := by
  have starts : Spilling origin state.output.frameSlots words _ state.layout state.blocks subject
      state := ⟨sketched.whole, fun _ _ found => .inl found, rfl⟩
  refine (keeps _ _ _ _ subject state starts).mono ?_
  rintro value after ⟨spilling, _⟩
  have drafted := spilling.drafted
  refine ⟨⟨?_, sketched.layout.evolve drafted.room fun index slot found => ?_, ?_⟩,
    fun index slot found => (spilling.slots index slot found).imp_right And.left⟩
  · exact (drafted.lower sketched.drafted.room).forget fun _ => List.mem_append_left _
  · refine (spilling.slots index slot found).imp_right fun framed => ⟨?_, fun _ => framed.2⟩
    rw [framed.1]
    simp
  · rw [spilling.blocks]
    exact sketched.drawn drafted

theorem sketched_of_spilling {α : Type} {action : Compile α}
    (keeps : ∀ more others before blocks,
      Keeps (Spilling origin more words others before blocks) action anything) :
    Keeps (Sketched origin floor (.body words) labels) action anything := fun _ _ sketched =>
  (spilled_of_spilling keeps sketched).mono fun _ _ both => ⟨both.1, trivial⟩

theorem sketched_takeRegister (bank : RegClass) (wishes : List Register) (pinned : RegSet) :
    Keeps (Sketched origin floor (.body words) labels) (takeRegister bank wishes pinned) anything :=
  sketched_of_spilling fun _ _ _ _ => spilling_takeRegister bank wishes pinned

end Compile

end WasmX64
