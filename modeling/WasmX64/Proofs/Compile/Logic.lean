import WasmX64.Compile.Branch

/-!
# Reasoning about compilation steps

The actions of the compiler are state transformers that stop at the first fault.  One equation
for each primitive says what running it from a state gives.  Two readings of an action rest on
them: `Ensures` says what holds if it ends without a fault, `Succeeds` that it does end without
one and what holds then.  Both are given by one rule for each primitive, which turns an action
into a statement about the state it starts from.

The last section names what the branches and ends of blocks go on with behind the choice of a
join.
-/

namespace WasmX64

section Transformer

variable {ε σ α β : Type}

theorem EStateM.bind_run (action : EStateM ε σ α) (next : α → EStateM ε σ β) (state : σ) :
    (action >>= next) state =
      match action state with
      | .ok value after => next value after
      | .error fault after => .error fault after := rfl

theorem EStateM.bind_ok {action : EStateM ε σ α} {next : α → EStateM ε σ β}
    {state after : σ} {value : α} (first : action state = .ok value after) :
    (action >>= next) state = next value after := by
  rw [bind_run, first]

theorem EStateM.bind_inv {action : EStateM ε σ α} {next : α → EStateM ε σ β}
    {state after : σ} {result : β} (whole : (action >>= next) state = .ok result after) :
    ∃ value middle, action state = .ok value middle ∧ next value middle = .ok result after := by
  rw [bind_run] at whole
  cases first : action state with
  | ok value middle =>
    rw [first] at whole
    exact ⟨value, middle, rfl, whole⟩
  | error fault middle =>
    rw [first] at whole
    cases whole

theorem Except.bind_inv {action : Except ε α} {next : α → Except ε β} {result : β}
    (whole : (action >>= next) = .ok result) :
    ∃ value, action = .ok value ∧ next value = .ok result := by
  cases action with
  | error cause => cases whole
  | ok value => exact ⟨value, rfl, whole⟩

theorem Except.map_inv {action : Except ε α} {change : α → β} {result : β}
    (whole : action.map change = .ok result) :
    ∃ value, action = .ok value ∧ change value = result := by
  cases action with
  | error cause => cases whole
  | ok value => exact ⟨value, rfl, Except.ok.inj whole⟩

theorem Except.mapError_inv {action : Except ε α} {change : ε → σ} {result : α}
    (whole : action.mapError change = .ok result) : action = .ok result := by
  cases action with
  | error cause => cases whole
  | ok value => exact congrArg Except.ok (Except.ok.inj whole)

theorem Except.any_inv {action : Except ε α} {test : α → Bool}
    (passes : action.toOption.any test = true) :
    ∃ value, action = .ok value ∧ test value = true := by
  cases action with
  | error cause => cases passes
  | ok value => exact ⟨value, rfl, passes⟩

theorem Except.exists_of_any {action : Except ε α} {test : α → Prop} [DecidablePred test]
    (passes : action.toOption.any (fun value => test value) = true) :
    ∃ value, action = .ok value ∧ test value := by
  obtain ⟨value, ran, holds⟩ := any_inv passes
  exact ⟨value, ran, of_decide_eq_true holds⟩

theorem EStateM.forIn_keeps (list : List α)
    (body : α → PUnit → EStateM ε σ (ForInStep PUnit)) (invariant : List α → σ → Prop)
    (round : ∀ value rest state, invariant (value :: rest) state →
      ∃ after, body value PUnit.unit state = .ok (.yield PUnit.unit) after ∧
        invariant rest after)
    {state : σ} (holds : invariant list state) :
    ∃ after, forIn list PUnit.unit body state = .ok PUnit.unit after ∧
      invariant [] after := by
  induction list generalizing state with
  | nil => exact ⟨state, rfl, holds⟩
  | cons value rest ih =>
    obtain ⟨middle, first, kept⟩ := round value rest state holds
    obtain ⟨after, others, final⟩ := ih kept
    refine ⟨after, ?_, final⟩
    rw [List.forIn_cons, EStateM.bind_ok first]
    exact others

theorem EStateM.pure_run (value : α) (state : σ) :
    (pure value : EStateM ε σ α) state = .ok value state := rfl

theorem EStateM.get_run (state : σ) : (get : EStateM ε σ σ) state = .ok state state := rfl

theorem EStateM.modify_run (change : σ → σ) (state : σ) :
    (modify change : EStateM ε σ Unit) state = .ok () (change state) := rfl

theorem EStateM.ite_run {condition : Prop} [Decidable condition]
    (yes no : EStateM ε σ α) (state : σ) :
    (if condition then yes else no) state =
      if condition then yes state else no state := by
  split <;> rfl

end Transformer

namespace Compile

variable {α β : Type} {subject : Subject} {state middle after : Compilation}

theorem bind_run (action : Compile α) (next : α → Compile β) (subject : Subject)
    (state : Compilation) :
    (action >>= next) subject state =
      match action subject state with
      | .ok value after => next value subject after
      | .error fault after => .error fault after := by
  have opened : (action >>= next) subject state =
      (action subject >>= fun value => next value subject) state := by
    rfl
  rw [opened, EStateM.bind_run]
  cases action subject state <;> rfl

theorem pure_run (value : α) (subject : Subject) (state : Compilation) :
    (pure value : Compile α) subject state = .ok value state := rfl

theorem get_run (subject : Subject) (state : Compilation) :
    (get : Compile Compilation) subject state = .ok state state := rfl

theorem read_run (subject : Subject) (state : Compilation) :
    (read : Compile Subject) subject state = .ok subject state := rfl

theorem modify_run (change : Compilation → Compilation) (subject : Subject)
    (state : Compilation) :
    (modify change : Compile Unit) subject state = .ok () (change state) := rfl

theorem modifyGet_run (change : Compilation → α × Compilation) (subject : Subject)
    (state : Compilation) :
    (modifyGet change : Compile α) subject state =
      .ok (change state).1 (change state).2 := rfl

theorem throw_run (fault : Fault) (subject : Subject) (state : Compilation) :
    (throw fault : Compile α) subject state = .error fault state := rfl

end Compile

end WasmX64

namespace WasmX64.Compile

variable {α β : Type} {subject : Subject} {state : Compilation}

/-- An action that ends without a fault ends in a state, and with a value, that meet a
condition. -/
def Ensures (action : Compile α) (subject : Subject) (state : Compilation)
    (post : α → Compilation → Prop) : Prop :=
  ∀ value after, action subject state = .ok value after → post value after

/-- An action ends without a fault, in a state and with a value that meet a condition. -/
def Succeeds (action : Compile α) (subject : Subject) (state : Compilation)
    (post : α → Compilation → Prop) : Prop :=
  ∃ value after, action subject state = .ok value after ∧ post value after

theorem Ensures.mono {action : Compile α} {first second : α → Compilation → Prop}
    (ensures : Ensures action subject state first)
    (weaker : ∀ value after, first value after → second value after) :
    Ensures action subject state second :=
  fun value after ends => weaker value after (ensures value after ends)

/-- What two readings of an action ensure. -/
theorem Ensures.and {action : Compile α} {first second : α → Compilation → Prop}
    (left : Ensures action subject state first) (right : Ensures action subject state second) :
    Ensures action subject state fun value after => first value after ∧ second value after :=
  fun value after ends => ⟨left value after ends, right value after ends⟩

theorem Succeeds.mono {action : Compile α} {first second : α → Compilation → Prop}
    (succeeds : Succeeds action subject state first)
    (weaker : ∀ value after, first value after → second value after) :
    Succeeds action subject state second := by
  obtain ⟨value, after, ends, holds⟩ := succeeds
  exact ⟨value, after, ends, weaker value after holds⟩

theorem Succeeds.and {action : Compile α} {first second : α → Compilation → Prop}
    (succeeds : Succeeds action subject state first)
    (ensures : Ensures action subject state second) :
    Succeeds action subject state fun value after => first value after ∧ second value after := by
  obtain ⟨value, after, ends, holds⟩ := succeeds
  exact ⟨value, after, ends, holds, ensures value after ends⟩

section Ensures

variable {post : α → Compilation → Prop}

@[simp] theorem ensures_pure {value : α} :
    Ensures (pure value) subject state post ↔ post value state := by
  simp [Ensures, pure_run]

@[simp] theorem ensures_bind {action : Compile α} {next : α → Compile β}
    {post : β → Compilation → Prop} :
    Ensures (action >>= next) subject state post ↔
      Ensures action subject state fun value middle =>
        Ensures (next value) subject middle post := by
  simp only [Ensures, bind_run]
  cases action subject state with
  | ok value middle => simp
  | error fault middle => simp

theorem Ensures.andThen {action : Compile α} {next : α → Compile β}
    {first : α → Compilation → Prop} {post : β → Compilation → Prop}
    (ensures : Ensures action subject state first)
    (rest : ∀ value middle, first value middle → Ensures (next value) subject middle post) :
    Ensures (action >>= next) subject state post :=
  ensures_bind.mpr (ensures.mono rest)

@[simp] theorem ensures_map {action : Compile α} {change : α → β}
    {post : β → Compilation → Prop} :
    Ensures (change <$> action) subject state post ↔
      Ensures action subject state fun value after => post (change value) after := by
  rw [map_eq_pure_bind, ensures_bind]
  simp

@[simp] theorem ensures_get {post : Compilation → Compilation → Prop} :
    Ensures get subject state post ↔ post state state := by
  simp [Ensures, get_run]

@[simp] theorem ensures_read {post : Subject → Compilation → Prop} :
    Ensures read subject state post ↔ post subject state := by
  simp [Ensures, read_run]

@[simp] theorem ensures_modify {change : Compilation → Compilation}
    {post : Unit → Compilation → Prop} :
    Ensures (modify change) subject state post ↔ post () (change state) := by
  simp only [Ensures, modify_run]
  constructor
  · intro holds
    exact holds () (change state) rfl
  · rintro holds _ _ ⟨⟩
    exact holds

@[simp] theorem ensures_modifyGet {change : Compilation → α × Compilation} :
    Ensures (modifyGet change) subject state post ↔
      post (change state).1 (change state).2 := by
  simp [Ensures, modifyGet_run]

@[simp] theorem ensures_throw {fault : Fault} : Ensures (throw fault) subject state post := by
  simp [Ensures, throw_run]

@[simp] theorem ensures_ite {condition : Prop} [Decidable condition] {yes no : Compile α} :
    Ensures (if condition then yes else no) subject state post ↔
      (condition → Ensures yes subject state post) ∧
        (¬ condition → Ensures no subject state post) := by
  split <;> simp [*]

@[simp] theorem ensures_emit {steps : List Step} {post : Unit → Compilation → Prop} :
    Ensures (emit steps) subject state post ↔
      post () { state with output := state.output.emit steps } := ensures_modify

@[simp] theorem ensures_needSlot {index : Int} {post : Unit → Compilation → Prop} :
    Ensures (needSlot index) subject state post ↔
      post () { state with output := state.output.needSlot index } := ensures_modify

@[simp] theorem ensures_modifyLayout {change : Layout → Layout}
    {post : Unit → Compilation → Prop} :
    Ensures (modifyLayout change) subject state post ↔
      post () { state with layout := change state.layout } := ensures_modify

@[simp] theorem ensures_modifyBlock {depth : Nat} {change : Block → Block}
    {post : Unit → Compilation → Prop} :
    Ensures (modifyBlock depth change) subject state post ↔
      post () { state with blocks := state.blocks.modify depth change } := ensures_modify

theorem ensures_machine {event : MachineEvent} {action : Compile Unit}
    {post : Compilation → Prop}
    (inside : ∀ events, Ensures action subject { state with events } fun _ after =>
      ∀ events, post { after with events }) :
    Ensures (machine event action) subject state fun _ after => post after := by
  unfold machine record
  simp only [ensures_bind, ensures_read, ensures_modify]
  refine (inside _).mono ?_
  intro _ after holds
  exact holds _

theorem ensures_forIn {list : List α} {body : α → PUnit → Compile (ForInStep PUnit)}
    (invariant : Compilation → Prop) (starts : invariant state)
    (round : ∀ value ∈ list, ∀ state, invariant state →
      Ensures (body value PUnit.unit) subject state fun step after =>
        step = .yield PUnit.unit ∧ invariant after) :
    Ensures (forIn list PUnit.unit body) subject state fun _ after => invariant after := by
  induction list generalizing state with
  | nil => simpa using starts
  | cons value rest ih =>
    rw [List.forIn_cons, ensures_bind]
    refine (round value List.mem_cons_self state starts).mono ?_
    rintro step middle ⟨rfl, kept⟩
    exact ih kept fun other member => round other (List.mem_cons_of_mem value member)

end Ensures

section Succeeds

variable {post : α → Compilation → Prop}

@[simp] theorem succeeds_pure {value : α} :
    Succeeds (pure value) subject state post ↔ post value state := by
  simp [Succeeds, pure_run, and_assoc]

@[simp] theorem succeeds_bind {action : Compile α} {next : α → Compile β}
    {post : β → Compilation → Prop} :
    Succeeds (action >>= next) subject state post ↔
      Succeeds action subject state fun value middle =>
        Succeeds (next value) subject middle post := by
  simp only [Succeeds, bind_run]
  cases action subject state with
  | ok value middle => simp [and_assoc]
  | error fault middle => simp

@[simp] theorem succeeds_get {post : Compilation → Compilation → Prop} :
    Succeeds get subject state post ↔ post state state := by
  simp [Succeeds, get_run, and_assoc]

@[simp] theorem succeeds_read {post : Subject → Compilation → Prop} :
    Succeeds read subject state post ↔ post subject state := by
  simp [Succeeds, read_run, and_assoc]

@[simp] theorem succeeds_modify {change : Compilation → Compilation}
    {post : Unit → Compilation → Prop} :
    Succeeds (modify change) subject state post ↔ post () (change state) := by
  simp only [Succeeds, modify_run]
  constructor
  · rintro ⟨_, _, ⟨⟩, holds⟩
    exact holds
  · intro holds
    exact ⟨(), change state, rfl, holds⟩

@[simp] theorem succeeds_modifyGet {change : Compilation → α × Compilation} :
    Succeeds (modifyGet change) subject state post ↔
      post (change state).1 (change state).2 := by
  simp [Succeeds, modifyGet_run, and_assoc]

@[simp] theorem succeeds_ite {condition : Prop} [Decidable condition] {yes no : Compile α} :
    Succeeds (if condition then yes else no) subject state post ↔
      (condition → Succeeds yes subject state post) ∧
        (¬ condition → Succeeds no subject state post) := by
  split <;> simp [*]

@[simp] theorem succeeds_emit {steps : List Step} {post : Unit → Compilation → Prop} :
    Succeeds (emit steps) subject state post ↔
      post () { state with output := state.output.emit steps } := succeeds_modify

@[simp] theorem succeeds_needSlot {index : Int} {post : Unit → Compilation → Prop} :
    Succeeds (needSlot index) subject state post ↔
      post () { state with output := state.output.needSlot index } := succeeds_modify

@[simp] theorem succeeds_modifyLayout {change : Layout → Layout}
    {post : Unit → Compilation → Prop} :
    Succeeds (modifyLayout change) subject state post ↔
      post () { state with layout := change state.layout } := succeeds_modify

end Succeeds

/-! ## Invariants of a compilation

`Keeps` says that an action preserves an invariant and what its value is like.  An
action composed of others keeps what all of them keep.
-/

variable {α β : Type} {invariant : Subject → Compilation → Prop}

/-- An action that ends without a fault preserves an invariant and has a value that meets a
condition. -/
def Keeps (invariant : Subject → Compilation → Prop) (action : Compile α)
    (post : α → Prop) : Prop :=
  ∀ subject state, invariant subject state →
    Ensures action subject state fun value after => invariant subject after ∧ post value

/-- No condition on the value of an action. -/
def anything (_ : α) : Prop := True

namespace Keeps

variable {post : α → Prop}

theorem bind {action : Compile α} {next : α → Compile β} {last : β → Prop}
    (first : Keeps invariant action post)
    (second : ∀ value, post value → Keeps invariant (next value) last) :
    Keeps invariant (action >>= next) last := by
  intro subject state holds
  refine (first subject state holds).andThen ?_
  intro value middle kept
  exact second value kept.2 subject middle kept.1

theorem andThen {action : Compile α} {next : α → Compile β} {last : β → Prop}
    (first : Keeps invariant action anything) (second : ∀ value, Keeps invariant (next value) last) :
    Keeps invariant (action >>= next) last :=
  first.bind fun value _ => second value

theorem pure {value : α} (meets : post value) : Keeps invariant (pure value) post := by
  intro subject state holds
  exact ensures_pure.mpr ⟨holds, meets⟩

theorem done : Keeps invariant (Pure.pure () : Compile Unit) anything :=
  pure trivial

theorem throw {fault : Fault} : Keeps invariant (throw fault : Compile α) post := by
  intro subject state _
  exact ensures_throw

theorem ite {condition : Prop} [Decidable condition] {yes no : Compile α}
    (first : Keeps invariant yes post) (second : Keeps invariant no post) :
    Keeps invariant (if condition then yes else no) post := by
  split
  · exact first
  · exact second

/-- A test that may end the compilation. -/
theorem demand {condition : Prop} [Decidable condition] {fault : Fault} {next : Compile α}
    (rest : Keeps invariant next post) :
    Keeps invariant (do
      if condition then MonadExcept.throw fault
      next) post :=
  ite (throw.andThen fun _ => rest) rest

theorem modify {change : Compilation → Compilation}
    (keeps : ∀ subject state, invariant subject state → invariant subject (change state)) :
    Keeps invariant (modify change) anything := by
  intro subject state holds
  exact ensures_modify.mpr ⟨keeps subject state holds, trivial⟩

theorem modifyGet {change : Compilation → α × Compilation}
    (keeps : ∀ subject state, invariant subject state → invariant subject (change state).2) :
    Keeps invariant (modifyGet change) anything := by
  intro subject state holds
  exact ensures_modifyGet.mpr ⟨keeps subject state holds, trivial⟩

theorem get : Keeps invariant get anything := by
  intro subject state holds
  exact ensures_get.mpr ⟨holds, trivial⟩

theorem read : Keeps invariant read anything := by
  intro subject state holds
  exact ensures_read.mpr ⟨holds, trivial⟩

theorem forIn {list : List α} {body : α → PUnit → Compile (ForInStep PUnit)}
    (round : ∀ value ∈ list, Keeps invariant (body value PUnit.unit)
      fun step => step = .yield PUnit.unit) :
    Keeps invariant (ForIn.forIn list PUnit.unit body) anything := by
  intro subject state holds
  have rounds : ∀ value ∈ list, ∀ middle, invariant subject middle →
      Ensures (body value PUnit.unit) subject middle fun step after =>
        step = .yield PUnit.unit ∧ invariant subject after := by
    intro value member middle kept
    refine (round value member subject middle kept).mono ?_
    intro step after both
    exact ⟨both.2, both.1⟩
  refine (ensures_forIn (invariant subject ·) holds rounds).mono ?_
  intro value after kept
  exact ⟨kept, trivial⟩

theorem mapM {γ : Type} {change : α → Compile γ}
    (each : ∀ value, Keeps invariant (change value) anything) (list : List α) :
    Keeps invariant (list.mapM change) anything := by
  induction list with
  | nil => exact pure trivial
  | cons value rest ih =>
    rw [List.mapM_cons]
    exact (each value).andThen fun _ => ih.andThen fun _ => pure trivial

theorem machine {event : MachineEvent} {action : Compile Unit}
    (record : ∀ what, Keeps invariant (record what) anything)
    (inside : Keeps invariant action anything) :
    Keeps invariant (machine event action) anything :=
  (record _).andThen fun _ => inside.andThen fun _ => record _

theorem and {other : Subject → Compilation → Prop} {action : Compile α}
    (first : Keeps invariant action post) (second : Keeps other action anything) :
    Keeps (fun subject state => invariant subject state ∧ other subject state) action post := by
  intro subject state holds value after ends
  have left := first subject state holds.1 value after ends
  have right := second subject state holds.2 value after ends
  exact ⟨⟨left.1, right.1⟩, left.2⟩

end Keeps

/-- A branch to a block at a depth is taken from a layout to a join. -/
def lead (depth : Nat) (block : Block) (source join : Layout) : Compile Unit := do
  modifyBlock depth ({ · with join })
  mergeBranch join source block.branchArity
  branch block.label depth
  modifyBlock depth Block.markTarget

theorem branchTo_eq (depth : Nat) : branchTo depth = (do
    let block ← target depth
    let source := (← get).layout
    let join ← if block.targetReached then pure block.join
      else initJoin { base := block.join.base } source block.branchArity
    lead depth block source join) := rfl

/-- The else arm of the innermost block starts with a layout. -/
def startArm (label : Label) (layout : Layout) : Compile Unit := do
  modifyBlock 0 ({ · with kind := .elseArm })
  bind label 0
  let parent ← blockAt 1
  modifyLayout fun _ => layout
  modifyBlock 0 fun block =>
    { block with
      elseLayout := none
      reach := parent.innerReach
      pending := block.elseBody }

/-- The then arm leads from a layout to the join of its block, and the else arm starts. -/
def joinArms (block : Block) (source join : Layout) : Compile Unit := do
  modifyBlock 0 ({ · with join })
  mergeAll join source
  branch block.label 0
  modifyBlock 0 ({ · with endReached := true })
  startArm block.elseLabel (block.elseLayout.getD {})

theorem lowerElse_eq : lowerElse = (do
    let block ← innermost
    if block.kind ≠ .ifThen then malformed .elseOutside
    if block.isReached then
      let source := (← get).layout
      let join ← if block.endReached then pure block.join
        else initJoin block.join source block.arity
      joinArms block source join
    else startArm block.elseLabel (block.elseLayout.getD {})) := rfl

/-- The missing arm of an `if` leads from a layout to the join of its block. -/
def finishArm (block : Block) (source join : Layout) : Compile Unit := do
  bind block.elseLabel 0
  if block.endReached || block.isReached then
    mergeAll join source
    modifyLayout fun _ => join
  else modifyLayout fun _ => source

/-- The then arm of an `if` leads to the join of its block, and so does the missing arm. -/
def joinMissing (block : Block) (source join : Layout) : Compile Unit := do
  if block.isReached then
    mergeAll join (← get).layout
    branch block.label 0
  finishArm block source join

theorem finishOneArmed_eq (block : Block) : finishOneArmed block = (do
    if block.arity ≠ 0 then malformed (.ifWithoutElse block.arity)
    let source := block.elseLayout.getD {}
    let join ← if !block.endReached && block.isReached then initJoin block.join source 0
      else pure block.join
    joinMissing block source join) := rfl

/-- A block is closed, and the code behind it is executed if something leads there. -/
def leaveBlock (block : Block) : Compile Unit := do
  closeBlock
  let continues := block.isReached || block.endReached || block.isOneArmed
  modifyBlock 0 fun parent =>
    if !continues && parent.isReached then { parent with reach := .specOnly } else parent

theorem endBlock_eq (block : Block) : endBlock block = (do
    settleEnd block
    record (.controlEnd block.kind)
    if block.kind ≠ .loop then bind block.label 0
    leaveBlock block) := rfl

end WasmX64.Compile
