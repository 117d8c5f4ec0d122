import WasmX64.Proofs.Compile.Calm
import WasmX64.Proofs.Processor.Follow

/-!
# The code of an action

An action of the compiler that ends without a fault has put parts of code behind the code it
found.  `Compiles` says that it does end so, what it ends with and which parts it has added, so
that a processor can follow them.
-/

namespace WasmX64

def Part.place (text : Code × Array Reference) : Part → Code × Array Reference
  | .steps sequence => (text.1.place sequence, text.2)
  | .address target kind index =>
    let (offset, code) := text.1.loadWide target placeholder
    (code, text.2.push ⟨offset, kind, index⟩)
  | .label => (text.1.newLabel.2, text.2)

theorem Part.extends_place (text : Code × Array Reference) (part : Part) :
    text.1.Extends (place text part).1 := by
  cases part with
  | steps steps => exact .place _ _
  | address target kind index =>
    simp only [place, Code.loadWide_eq]
    exact .emit _ _
  | label => exact .newLabel _

namespace Compilation

def text (state : Compilation) : Code × Array Reference := (state.output.code, state.refs)

/-- Parts of code were added. -/
def Gains (before : Compilation) (parts : List Part) (after : Compilation) : Prop :=
  after.text = parts.foldl Part.place before.text

theorem Gains.of_text {before after : Compilation} (same : after.text = before.text) :
    before.Gains [] after := same

theorem Gains.extends {before after : Compilation} {parts : List Part}
    (gains : before.Gains parts after) : before.output.code.Extends after.output.code := by
  have grows : ∀ (parts : List Part) (text : Code × Array Reference),
      text.1.Extends (parts.foldl Part.place text).1 := by
    intro parts
    induction parts with
    | nil => exact fun text => .refl _
    | cons part rest ih => exact fun text => (Part.extends_place text part).trans (ih _)
  have code : after.output.code = (parts.foldl Part.place before.text).1 := congrArg Prod.fst gains
  rw [code]
  exact grows parts before.text

theorem Gains.append {before middle after : Compilation} {first second : List Part}
    (left : before.Gains first middle) (right : middle.Gains second after) :
    before.Gains (first ++ second) after := by
  unfold Gains at left right ⊢
  rw [List.foldl_append, ← left, right]

end Compilation

namespace Compile

variable {α β : Type} {subject : Subject} {state : Compilation}

/-- Whether an action ends without a fault. -/
def ends (action : Compile α) (subject : Subject) (state : Compilation) : Bool :=
  match action subject state with
  | .ok _ _ => true
  | .error _ _ => false

theorem exists_of_ends {action : Compile α} (good : ends action subject state = true) :
    ∃ value after, action subject state = .ok value after := by
  unfold ends at good
  split at good
  · rename_i value after ok
    exact ⟨value, after, ok⟩
  · cases good

/-- An action ends without a fault, and what it ends with meets a condition together with the
parts of code it adds. -/
def Compiles (action : Compile α) (subject : Subject) (state : Compilation)
    (post : α → Compilation → List Part → Prop) : Prop :=
  Succeeds action subject state fun value after =>
    ∃ parts, state.Gains parts after ∧ post value after parts

namespace Compiles

variable {post : α → Compilation → List Part → Prop}

theorem mono {action : Compile α} {weaker : α → Compilation → List Part → Prop}
    (compiles : Compiles action subject state post)
    (implies : ∀ value after parts, post value after parts → weaker value after parts) :
    Compiles action subject state weaker := by
  refine Succeeds.mono compiles ?_
  rintro value after ⟨parts, gains, holds⟩
  exact ⟨parts, gains, implies value after parts holds⟩

theorem ensures {action : Compile α} (compiles : Compiles action subject state post) :
    Ensures action subject state fun value after =>
      ∃ parts, state.Gains parts after ∧ post value after parts := by
  obtain ⟨value, after, ends, holds⟩ := compiles
  intro other state also
  rw [ends] at also
  cases also
  exact holds

theorem and {action : Compile α} {other : α → Compilation → Prop}
    (compiles : Compiles action subject state post)
    (ensures : Ensures action subject state other) :
    Compiles action subject state fun value after parts =>
      post value after parts ∧ other value after := by
  refine (Succeeds.and compiles ensures).mono ?_
  rintro value after ⟨⟨parts, gains, holds⟩, also⟩
  exact ⟨parts, gains, holds, also⟩

theorem bind {action : Compile α} {next : α → Compile β}
    {post : β → Compilation → List Part → Prop}
    (compiles : Compiles action subject state fun value middle first =>
      Compiles (next value) subject middle fun result after second =>
        post result after (first ++ second)) :
    Compiles (action >>= next) subject state post := by
  unfold Compiles at compiles ⊢
  rw [succeeds_bind]
  refine compiles.mono ?_
  rintro value middle ⟨first, before, rest⟩
  refine Succeeds.mono rest ?_
  rintro result after ⟨second, behind, holds⟩
  exact ⟨first ++ second, before.append behind, holds⟩

/-- An action that changes neither code nor references. -/
theorem silent {action : Compile α}
    (succeeds : Succeeds action subject state fun value after =>
      after.text = state.text ∧ post value after []) : Compiles action subject state post := by
  refine succeeds.mono ?_
  rintro value after ⟨same, holds⟩
  exact ⟨[], .of_text same, holds⟩

theorem pure {value : α} (holds : post value state []) :
    Compiles (pure value) subject state post :=
  silent (succeeds_pure.mpr ⟨rfl, holds⟩)

theorem get {post : Compilation → Compilation → List Part → Prop} (holds : post state state []) :
    Compiles get subject state post :=
  silent (succeeds_get.mpr ⟨rfl, holds⟩)

theorem read {post : Subject → Compilation → List Part → Prop} (holds : post subject state []) :
    Compiles read subject state post :=
  silent (succeeds_read.mpr ⟨rfl, holds⟩)

theorem demand {condition : Prop} [Decidable condition] {fault : Fault} {next : Compile α}
    (passes : ¬ condition) (rest : Compiles next subject state post) :
    Compiles (do
      if condition then MonadExcept.throw fault
      next) subject state post := by
  rw [if_neg passes]
  exact rest

theorem modifyLayout {change : Layout → Layout} {post : Unit → Compilation → List Part → Prop}
    (holds : post () { state with layout := change state.layout } []) :
    Compiles (modifyLayout change) subject state post :=
  silent (succeeds_modifyLayout.mpr ⟨rfl, holds⟩)

theorem emit {steps : List Step} {post : Unit → Compilation → List Part → Prop}
    (holds : post () { state with output := state.output.emit steps } [.steps steps]) :
    Compiles (emit steps) subject state post :=
  succeeds_emit.mpr ⟨[.steps steps], rfl, holds⟩

theorem loadRef {target : Register} {kind : RefKind} {index : UInt32}
    {post : Unit → Compilation → List Part → Prop}
    (holds : ∀ output refs, post () { state with output, refs } [.address target kind index]) :
    Compiles (loadRef target kind index) subject state post :=
  succeeds_modify.mpr ⟨[.address target kind index], rfl, holds _ _⟩

theorem record {what : Happening} {post : Unit → Compilation → List Part → Prop}
    (holds : ∀ events, post () { state with events } []) :
    Compiles (record what) subject state post :=
  silent (succeeds_bind.mpr (succeeds_read.mpr (succeeds_modify.mpr ⟨rfl, holds _⟩)))

/-- The code of a recorded construct is that of the steps inside. -/
theorem machine {event : MachineEvent} {action : Compile Unit}
    {post : Unit → Compilation → List Part → Prop}
    (compiles : ∀ events, Compiles action subject { state with events } fun _ after parts =>
      ∀ events, post () { after with events } parts) :
    Compiles (machine event action) subject state post := by
  refine bind (record fun events => bind ((compiles events).mono ?_))
  intro _ after parts holds
  refine record fun events => ?_
  rw [List.nil_append, List.append_nil]
  exact holds events

theorem addTrap {kind : TrapKind} {post : Label → Compilation → List Part → Prop}
    (holds : ∀ label output, label.index = state.output.code.labels.size →
      output.code.labels.size = label.index + 1 → post label
        { state with output, stubs := state.stubs.push ⟨label, kind, state.instr⟩ } [.label]) :
    Compiles (addTrap kind) subject state post := by
  unfold Compiles Compile.addTrap newLabel
  simp only [succeeds_bind, succeeds_modifyGet, succeeds_modify, succeeds_pure]
  refine ⟨[.label], rfl, holds _ _ rfl ?_⟩
  simp [Code.newLabel]

/-- A loop over a list that adds parts in every round. -/
theorem loop {α : Type} {list : List α} {body : α → PUnit → Compile (ForInStep PUnit)}
    (invariant : List α → Compilation → List Part → Prop) (starts : invariant [] state [])
    (round : ∀ done value rest middle parts, list = done ++ value :: rest →
      invariant done middle parts → Compiles (body value ⟨⟩) subject middle fun result after more =>
        result = .yield ⟨⟩ ∧ invariant (done ++ [value]) after (parts ++ more)) :
    Compiles (forIn list PUnit.unit body) subject state fun _ after parts =>
      invariant list after parts := by
  suffices ∀ rest done middle parts, list = done ++ rest → invariant done middle parts →
      Compiles (forIn rest PUnit.unit body) subject middle fun _ after more =>
        invariant list after (parts ++ more) from this list [] state [] rfl starts
  intro rest
  induction rest with
  | nil =>
    intro done middle parts whole holds
    rw [List.append_nil] at whole
    rw [List.forIn_nil]
    refine .pure ?_
    rw [List.append_nil, whole]
    exact holds
  | cons value rest ih =>
    intro done middle parts whole holds
    rw [List.forIn_cons]
    refine .bind ((round done value rest middle parts whole holds).mono ?_)
    rintro _ after more ⟨rfl, kept⟩
    have further := ih (done ++ [value]) after (parts ++ more) (by simpa using whole) kept
    simpa only [List.append_assoc] using further

end Compiles

/-! ## Branches -/

/-- What has been done since an earlier state while a branch to a depth is laid: parts of code were
added, and no block but the target has changed. -/
structure Branched (origin : Compilation) (depth : Nat) (_ : Subject) (state : Compilation) :
    Prop where
  layout : state.layout = origin.layout
  open_eq : state.blocks.length = origin.blocks.length
  others : ∀ other, other ≠ depth → state.blocks[other]? = origin.blocks[other]?
  gains : ∃ parts, origin.Gains parts state

theorem Branched.same {origin middle after : Compilation} {depth : Nat}
    (branched : Branched origin depth subject middle) (layout : after.layout = middle.layout)
    (blocks : after.blocks = middle.blocks) {parts : List Part} (gains : middle.Gains parts after) :
    Branched origin depth subject after := by
  obtain ⟨sameLayout, sameOpen, others, before, first⟩ := branched
  refine ⟨layout.trans sameLayout, ?_, ?_, before ++ parts, first.append gains⟩
  · rw [blocks]
    exact sameOpen
  · rw [blocks]
    exact others

/-- A branch changes no block but its target, and leaves the layout as it was. -/
theorem branchOrReturn_branched (depth : Nat) :
    Ensures (branchOrReturn depth) subject state fun _ after =>
      Branched state depth subject after := by
  have branching : Branching depth (Branched state depth) := by
    constructor
    · intro steps _
      apply Keeps.modify
      intro subject middle branched
      have gains : middle.Gains [.steps steps]
        { middle with output := middle.output.emit steps } := rfl
      exact branched.same rfl rfl gains
    · intro index
      apply Keeps.modify
      intro subject middle branched
      refine branched.same rfl rfl (.of_text ?_)
      simp [Compilation.text, Output.code_needSlot]
    · intro what
      refine Keeps.read.andThen fun subject => Keeps.modify ?_
      intro subject middle branched
      exact branched.same rfl rfl (.of_text rfl)
    · intro change
      apply Keeps.modify
      rintro subject middle ⟨layout, same, others, parts, gains⟩
      refine ⟨layout, (List.length_modify ..).trans same, ?_, parts, gains⟩
      intro other different
      dsimp only
      simpa [List.getElem?_modify, Ne.symm different] using others other different
  have start : Branched state depth subject state := ⟨rfl, rfl, fun _ _ => rfl, [], rfl⟩
  exact (branching.branchOrReturn subject state start).mono fun _ _ => And.left

end Compile

end WasmX64
