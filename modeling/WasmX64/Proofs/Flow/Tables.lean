import WasmX64.Proofs.Flow.Marks

/-!
# Branch tables

The search through a branch table comes to every entry.  A target that several entries share is
branched to once; afterwards its label has a position, and the other entries jump there.  So a
label with a position stands for a target that has been marked.
-/

namespace WasmX64

/-- A label gets no position on the way. -/
def Code.Spares (label : Label) (first second : Code) : Prop :=
  (second.label label).isBound = true → (first.label label).isBound = true

namespace Code.Spares

variable {label target : Label} {code first second third : Code}

theorem trans (left : Spares label first second) (right : Spares label second third) :
    Spares label first third :=
  fun bound => left (right bound)

theorem of_labels (same : second.labels = first.labels) : Spares label first second := by
  intro bound
  rw [Code.label, same] at bound
  exact bound

theorem fail (error : CodeError) : Spares label code (code.fail error) := by
  unfold Code.fail
  split
  · exact id
  · exact of_labels rfl

theorem append (bytes : List UInt8) : Spares label code (code.append bytes) :=
  of_labels (labels_append code bytes)

theorem setLabel {info : LabelInfo} (other : info.isBound = false ∨ target ≠ label) :
    Spares label code (code.setLabel target info) := by
  intro bound
  simp only [Code.label, Code.setLabel, Array.getElem?_setIfInBounds] at bound ⊢
  split at bound
  · rename_i same
    have equal : target = label := by
      cases target
      cases label
      exact congrArg Label.mk same
    have unbound := other.resolve_right fun different => different equal
    split at bound
    · rw [Option.getD_some, unbound] at bound
      cases bound
    · cases bound
  · exact bound

theorem link {distance : Distance} (unbound : (code.label target).isBound = false) :
    Spares label code (code.link target distance) := by
  refine (append _).trans (setLabel (.inl ?_))
  exact LabelInfo.isBound_use _ _ _ unbound

theorem jumpWith (short long : List UInt8) (distance : Distance) :
    Spares label code (code.jumpWith short long target distance) := by
  have far : ∀ code : Code, Spares label code (code.linkFar target) := by
    intro code
    cases bound : (code.label target).isBound with
    | true =>
      obtain ⟨position, state⟩ := LabelInfo.isBound_iff.mp bound
      rw [(bound_refused state).1]
      exact fail _
    | false =>
      rw [linkFar_eq bound]
      exact link bound
  have near : ∀ code : Code, Spares label code (code.linkNear target) := by
    intro code
    cases bound : (code.label target).isBound with
    | true =>
      obtain ⟨position, state⟩ := LabelInfo.isBound_iff.mp bound
      rw [(bound_refused state).2.1]
      exact fail _
    | false =>
      rw [linkNear_eq bound]
      split
      · exact fail _
      · exact link bound
  unfold Code.jumpWith
  split
  · dsimp only
    split
    · exact append _
    · split
      · exact fail _
      · exact append _
  · split
    · exact (append short).trans (near _)
    · exact (append long).trans (far _)

theorem bind (other : target ≠ label) : Spares label code (code.bind target) := by
  cases bound : (code.label target).isBound with
  | true =>
    obtain ⟨position, state⟩ := LabelInfo.isBound_iff.mp bound
    rw [(bound_refused state).2.2]
    exact fail _
  | false =>
    rw [bind_eq bound]
    exact (of_labels (Rewrites.fillIn code target).same.labels).trans (setLabel (.inr other))

theorem placeStep {base : Nat} {step : Step} (known : label.index < base)
    (complete : step.isComplete = true) (other : step ≠ .bind (.label label)) :
    Spares label code (placeStep base code step) := by
  cases step with
  | emit instruction =>
    unfold Code.placeStep Code.emit
    dsimp only
    split
    · exact append _
    · exact fail _
  | jump target distance => exact jumpWith _ _ _
  | jumpIf condition target distance => exact jumpWith _ _ _
  | bind target =>
    apply bind
    cases target with
    | label target =>
      rintro rfl
      exact other rfl
    | inner number =>
      rintro rfl
      rw [resolve] at known
      dsimp only at known
      omega
    | missing => cases complete
  | fail error => exact fail _

/-- A sequence that does not fix the label. -/
theorem place {steps : List Step} (known : label.index < code.labels.size)
    (other : .bind (.label label) ∉ steps) : Spares label code (code.place steps) := by
  have folds : ∀ (list : List Step) (start : Code), (∀ step ∈ list, step.isComplete = true ∧
      step ≠ .bind (.label label)) →
      Spares label start (list.foldl (Code.placeStep code.labels.size) start) := by
    intro list
    induction list with
    | nil => exact fun _ _ => id
    | cons step rest ih =>
      intro start each
      obtain ⟨complete, different⟩ := each step List.mem_cons_self
      refine (placeStep known complete different).trans (ih _ ?_)
      exact fun other member => each other (List.mem_cons_of_mem _ member)
  let kept := steps.takeWhile Step.isComplete
  let wide := code.reserve (kept.foldl (fun count step => max count step.innerPlaces) 0)
  have reserved : Spares label code wide := by
    intro bound
    simpa [wide, Code.reserve, Code.label, Array.getElem?_append, known] using bound
  have placed : Spares label wide (kept.foldl (Code.placeStep code.labels.size) wide) := by
    apply folds
    intro step member
    refine ⟨List.mem_takeWhile_imp member, ?_⟩
    rintro rfl
    exact other (List.takeWhile_subset _ member)
  have shrunk : Spares label (kept.foldl (Code.placeStep code.labels.size) wide)
      (code.place steps) := by
    intro bound
    unfold Code.place at bound
    simp only [Code.label, Array.shrink_eq_take, Array.take_eq_extract, Array.getElem?_extract,
      Nat.sub_zero, Nat.zero_add] at bound
    split at bound
    · exact bound
    · cases bound
  exact reserved.trans (placed.trans shrunk)

theorem newLabel (known : label.index < code.labels.size) : Spares label code code.newLabel.2 := by
  intro bound
  simpa [Code.newLabel, Code.label, Array.getElem?_push, Nat.ne_of_lt known] using bound

end Code.Spares

theorem Code.reserve_newLabel (code : Code) (count : Nat) :
    code.newLabel.2.reserve count = code.reserve (count + 1) := by
  simp only [newLabel, reserve, Code.mk.injEq, true_and]
  apply Array.toList_inj.mp
  simp [List.replicate_succ]

namespace Compile

open Mark

variable {marks : List Mark} {subject : Subject} {state : Compilation}

section Spared

variable {cases : Array Label} {among : Label → Prop} {start : Code}

/-- Of given labels, which are all known, some have got no position since the code was given. -/
def Spared (cases : Array Label) (among : Label → Prop) (start : Code) (_ : Subject)
    (state : Compilation) : Prop :=
  ∀ label ∈ cases, label.index < state.output.code.labels.size ∧
    (among label → start.Spares label state.output.code)

theorem spared_modify {change : Compilation → Compilation}
    (code : ∀ state, (change state).output.code = state.output.code) :
    Keeps (Spared cases among start) (modify change) anything := by
  apply Keeps.modify
  intro subject state spared
  unfold Spared
  rw [code]
  exact spared

theorem spared_emit {steps : List Step}
    (others : ∀ label ∈ cases, among label → .bind (.label label) ∉ steps) :
    Keeps (Spared cases among start) (emit steps) anything := by
  apply Keeps.modify
  intro subject state spared label member
  obtain ⟨known, kept⟩ := spared label member
  have grows := Code.Extends.place state.output.code steps
  refine ⟨Nat.lt_of_lt_of_le known grows.count, fun listed => (kept listed).trans ?_⟩
  exact .place known (others label member listed)

instance spared_calm : Calm (Spared cases among start) := by
  constructor
  · intro steps straight
    apply spared_emit
    intro label _ _ member
    cases (straight _ member).1
  · intro index
    exact spared_modify fun state => state.output.code_needSlot index
  · intro change
    exact spared_modify fun _ => rfl

theorem spared_record (what : Happening) : Keeps (Spared cases among start) (record what) anything :=
  Keeps.read.andThen fun _ => spared_modify fun _ => rfl

theorem spared_machine {event : MachineEvent} {action : Compile Unit}
    (inside : Keeps (Spared cases among start) action anything) :
    Keeps (Spared cases among start) (machine event action) anything :=
  Keeps.machine spared_record inside

theorem spared_newLabel : Keeps (Spared cases among start) newLabel fun label => label ∉ cases := by
  intro subject state spared
  refine ensures_modifyGet.mpr ⟨?_, ?_⟩
  · intro label member
    obtain ⟨known, kept⟩ := spared label member
    refine ⟨?_, fun listed => (kept listed).trans (.newLabel known)⟩
    simp only [Code.newLabel, Array.size_push]
    omega
  · intro member
    exact Nat.lt_irrefl _ (spared _ member).1

theorem spared_branch (label : Label) (depth : Nat) :
    Keeps (Spared cases among start) (branch label depth) anything := by
  refine spared_machine (spared_emit ?_)
  intro other _ _ member
  cases List.mem_singleton.mp member

theorem spared_branchIfAtLeast (label : Label) (value bound : Register) :
    Keeps (Spared cases among start) (branchIfAtLeast label value bound) anything := by
  refine spared_machine (spared_emit ?_)
  intro other _ _ member
  simp [Sequence.compareAndJump] at member
  split at member
  · cases member
  · cases member

theorem spared_bind {label : Label} (other : label ∈ cases → ¬ among label) (depth : Nat) :
    Keeps (Spared cases among start) (bind label depth) anything := by
  refine spared_machine (spared_emit ?_)
  intro spare member listed fixes
  cases List.mem_singleton.mp fixes
  exact other member listed

theorem spared_branchOrReturn (depth : Nat) :
    Keeps (Spared cases among start) (branchOrReturn depth) anything := by
  apply Branching.branchOrReturn
  constructor
  · exact fun none => spared_emit fun label _ _ => none (.label label)
  · exact spared_calm.needSlot
  · exact spared_record
  · exact fun _ => spared_modify fun _ => rfl

end Spared

section Tables

variable {cases : Array Label}

/-- The labels of a table, one for each depth: one with a position stands for a target that has
been marked. -/
structure Serving (cases : Array Label) (marks : List Mark) (subject : Subject)
    (state : Compilation) : Prop where
  noted : Noted marks subject state
  known : ∀ label ∈ cases, label.index < state.output.code.labels.size
  served : ∀ depth label, cases[depth]? = some label →
    (state.output.code.label label).isBound = true → Mark.target depth marks = marks

theorem Serving.spared (serving : Serving cases marks subject state) (among : Label → Prop) :
    Spared cases among state.output.code subject state :=
  fun label member => ⟨serving.known label member, fun _ => id⟩

theorem Serving.keep {after : Compilation} (serving : Serving cases marks subject state)
    (noted : Noted marks subject after)
    (spared : Spared cases (fun _ => True) state.output.code subject after) :
    Serving cases marks subject after := by
  refine ⟨noted, fun label member => (spared label member).1, ?_⟩
  intro depth label found bound
  exact serving.served depth label found
    ((spared label (Array.mem_of_getElem? found)).2 trivial bound)

theorem Serving.andThen {α β : Type} {action : Compile α} {next : α → Compile β}
    {post : β → Compilation → Prop} {holds : α → Prop} (serving : Serving cases marks subject state)
    (notes : Keeps (Noted marks) action anything)
    (spares : Keeps (Spared cases (fun _ => True) state.output.code) action holds)
    (second : ∀ value after, holds value → Serving cases marks subject after →
      Ensures (next value) subject after post) :
    Ensures (action >>= next) subject state post := by
  refine ((notes subject state serving.noted).and
    (spares subject state (serving.spared _))).andThen ?_
  rintro value after ⟨⟨noted, _⟩, spared, meets⟩
  exact second value after meets (serving.keep noted spared)

/-- Each label of a table has its own depth. -/
def Distinct (cases : Array Label) : Prop :=
  ∀ (first second : Nat) (label : Label),
    cases[first]? = some label → cases[second]? = some label → first = second

theorem lowerCase_serving (distinct : Distinct cases) (depth : Nat)
    (serving : Serving cases marks subject state) :
    Ensures (lowerCase cases depth) subject state fun _ after =>
      Serving cases (Mark.target depth marks) subject after := by
  unfold lowerCase
  split
  · exact ensures_throw
  · rename_i label found
    rw [ensures_bind, ensures_get]
    refine ensures_ite.mpr ⟨fun bound => ?_, fun _ => ?_⟩
    · rw [serving.served depth label found bound]
      refine ((noted_jump label depth subject state serving.noted).and
        (spared_branch label depth subject state (serving.spared fun _ => True))).mono ?_
      rintro _ after ⟨⟨noted, _⟩, spared, _⟩
      exact serving.keep noted spared
    · have spares : Keeps (Spared cases (· ≠ label) state.output.code) (do
          bind label depth
          branchOrReturn depth) anything :=
        (spared_bind (fun _ other => other rfl) depth).andThen fun _ =>
          spared_branchOrReturn depth
      have notes : Ensures (do
          bind label depth
          branchOrReturn depth) subject state fun _ after =>
          Noted (Mark.target depth marks) subject after :=
        serving.noted.andThen (noted_bind label depth) fun _ _ noted =>
          branchOrReturn_noted depth noted
      refine (notes.and (spares subject state (serving.spared _))).mono ?_
      rintro _ after ⟨noted, spared, _⟩
      refine ⟨noted, fun other member => (spared other member).1, ?_⟩
      intro other number listed bound
      by_cases same : number = label
      · subst same
        rw [distinct other depth number listed found]
        exact target_target
      · have kept := (spared number (Array.mem_of_getElem? listed)).2 same bound
        exact target_again (serving.served other number listed kept)

/-- The targets of a table are marked one after the other. -/
def targetAll (depths : List UInt32) (marks : List Mark) : List Mark :=
  depths.foldl (fun marks depth => Mark.target depth.toNat marks) marks

/-- The search comes to every entry between its bounds. -/
theorem lowerCases_serving (distinct : Distinct cases) (targets : Array UInt32)
    (value bound : Register) {fuel first last : Nat} (enough : last - first ≤ fuel)
    (some : first < last) (inside : last ≤ targets.size)
    (serving : Serving cases marks subject state) :
    Ensures (lowerCases cases targets value bound fuel first last) subject state fun _ after =>
      Serving cases (targetAll ((targets.toList.drop first).take (last - first)) marks) subject
        after := by
  induction fuel generalizing marks state first last with
  | zero => omega
  | succ fuel ih =>
    rw [lowerCases]
    refine ensures_ite.mpr ⟨fun single => ?_, fun several => ?_⟩
    · have entry : (targets.toList.drop first).take (last - first) =
          [targets[first]?.getD 0] := by
        have within : first < targets.toList.length := by
          rw [Array.length_toList]
          omega
        rw [single, List.drop_eq_getElem_cons within]
        simp [show first < targets.size by omega]
      rw [entry]
      exact lowerCase_serving distinct _ serving
    · have halves : (targets.toList.drop first).take (last - first) =
          (targets.toList.drop first).take (first + (last - first) / 2 - first) ++
            (targets.toList.drop (first + (last - first) / 2)).take
              (last - (first + (last - first) / 2)) := by
        have sum : last - first = (last - first) / 2 +
            (last - (first + (last - first) / 2)) := by omega
        rw [sum, List.take_add, List.drop_drop, Nat.add_sub_cancel_left, ← sum]
      rw [halves, targetAll, List.foldl_append]
      refine serving.andThen noted_newLabel spared_newLabel fun upper _ fresh serving => ?_
      refine serving.andThen (noted_emit _)
        (spared_calm.emit (Sequence.straight_loadConstant _ _ _)) fun _ _ _ serving => ?_
      refine serving.andThen (noted_branchIfAtLeast _ _ _) (spared_branchIfAtLeast _ _ _)
        fun _ _ _ serving => ?_
      refine (ih (by omega) (by omega) (by omega) serving).andThen fun _ _ serving => ?_
      refine serving.andThen (noted_bind _ _)
        (spared_bind (fun member => absurd member fresh) 0) fun _ _ _ serving => ?_
      exact ih (by omega) (by omega) inside serving

theorem newLabels_eq {α : Type} (list : List α) :
    Ensures (list.mapM fun _ => newLabel) subject state fun cases after =>
      cases = (List.range' state.output.code.labels.size list.length).map Label.mk ∧
        after = { state with
          output := { state.output with code := state.output.code.reserve list.length } } := by
  induction list generalizing state with
  | nil =>
    rw [List.mapM_nil, ensures_pure]
    exact ⟨rfl, by simp [Code.reserve]⟩
  | cons value rest ih =>
    rw [List.mapM_cons, ensures_bind]
    unfold newLabel at ih ⊢
    rw [ensures_modifyGet, ensures_bind]
    refine ih.mono ?_
    rintro others after ⟨rfl, rfl⟩
    rw [ensures_pure]
    refine ⟨?_, ?_⟩
    · simp [Code.newLabel, List.range'_succ]
    · rw [List.length_cons, ← Code.reserve_newLabel]

theorem newLabels_fresh {α : Type} (list : List α) :
    Ensures (list.mapM fun _ => newLabel) subject state fun cases after =>
      after = { state with
        output := { state.output with code := state.output.code.reserve list.length } } ∧
      Distinct cases.toArray ∧ ∀ label ∈ cases.toArray,
        label.index < after.output.code.labels.size ∧
        (after.output.code.label label).isBound = false := by
  refine (newLabels_eq list).mono ?_
  rintro _ after ⟨rfl, rfl⟩
  have numbered : ∀ (place : Nat) (label : Label),
      ((List.range' state.output.code.labels.size list.length).map Label.mk).toArray[place]? =
        some label → place < list.length ∧
          label.index = state.output.code.labels.size + place := by
    intro place label found
    rw [List.getElem?_toArray, List.getElem?_map, Option.map_eq_some_iff] at found
    obtain ⟨number, listed, rfl⟩ := found
    obtain ⟨below, rfl⟩ := List.getElem?_eq_some_iff.mp listed
    rw [List.length_range'] at below
    exact ⟨below, by simp⟩
  refine ⟨rfl, ?_, ?_⟩
  · intro first second label left right
    have := (numbered first label left).2
    have := (numbered second label right).2
    omega
  · intro label member
    obtain ⟨place, found⟩ := Array.getElem?_of_mem member
    obtain ⟨below, number⟩ := numbered place label found
    constructor
    · rw [Code.reserve, Array.size_append, Array.size_replicate]
      omega
    · rw [Code.label, Code.reserve, number, Array.getElem?_append_right (Nat.le_add_right _ _),
        Nat.add_sub_cancel_left, Array.getElem?_replicate, if_pos below]
      rfl

theorem newCases_serving {α : Type} (list : List α) (noted : Noted marks subject state) :
    Ensures (list.mapM fun _ => newLabel) subject state fun cases after =>
      Serving cases.toArray marks subject after ∧ Distinct cases.toArray := by
  refine (newLabels_fresh list).mono ?_
  rintro cases after ⟨rfl, distinct, fresh⟩
  refine ⟨⟨noted, fun label member => (fresh label member).1, ?_⟩, distinct⟩
  intro place label found bound
  rw [(fresh label (Array.mem_of_getElem? found)).2] at bound
  cases bound

theorem lowerBrTable_noted {mark : Mark} {outer : List Mark} (instr : Instr)
    (noted : Noted (mark :: outer) subject state) :
    Ensures (lowerBrTable instr) subject state fun _ after =>
      Noted ((if mark.isReached then targetAll (instr.targets ++ [instr.default]) (mark :: outer)
        else mark :: outer).modify 0 finished) subject after := by
  refine noted.andThen (.through (.target _)) fun default _ noted => ?_
  refine noted.andThen (.through (.demandTargets _ _)) fun _ _ noted => ?_
  refine noted.andThen (.through (.expect _ _)) fun _ _ noted => ?_
  refine (innermost_noted noted).andThen ?_
  rintro block middle ⟨rfl, rfl⟩
  rw [isReached_mark]
  refine ensures_ite.mpr ⟨fun dead => ?_, fun alive => ?_⟩
  · rw [if_neg (by simpa using dead)]
    exact noted.andThen (noted_calm.modifyLayout _) fun _ _ noted => finishBlock_noted noted
  · rw [if_pos (by simpa using alive)]
    refine noted.andThen (.through (.popRegister _)) fun value _ noted => ?_
    refine noted.andThen Keeps.get fun state _ noted => ?_
    refine (newCases_serving _ noted).andThen ?_
    rintro cases labelled ⟨serving, distinct⟩
    have last : ∀ {marks : List Mark} {before : Compilation},
        Serving cases.toArray marks subject before → Ensures (do
          lowerCase cases.toArray instr.default.toNat
          finishBlock) subject before fun _ after =>
            Noted ((Mark.target instr.default.toNat marks).modify 0 finished) subject after := by
      intro marks before serving
      refine (lowerCase_serving distinct _ serving).andThen fun _ _ serving => ?_
      exact finishBlock_noted serving.noted
    rw [targetAll, List.foldl_append]
    refine ensures_ite.mpr ⟨fun some => ?_, fun none => ?_⟩
    · refine serving.andThen (Keeps.through (.takeRegister _ _ _)) (Keeps.through (.takeRegister _ _ _))
        fun bound _ _ serving => ?_
      refine serving.andThen noted_newLabel spared_newLabel fun beyond _ fresh serving => ?_
      refine serving.andThen (noted_emit _)
        (spared_calm.emit (Sequence.straight_loadConstant _ _ _)) fun _ _ _ serving => ?_
      refine serving.andThen (noted_branchIfAtLeast _ _ _) (spared_branchIfAtLeast _ _ _)
        fun _ _ _ serving => ?_
      refine (lowerCases_serving distinct instr.targets.toArray value bound (by omega) some
        (by simp) serving).andThen fun _ _ serving => ?_
      refine serving.andThen (noted_bind _ _)
        (spared_bind (fun member => absurd member fresh) _) fun _ _ _ serving => ?_
      refine (last serving).mono fun _ after noted => ?_
      simpa [targetAll] using noted
    · have nothing : instr.targets = [] := by
        rw [← List.length_eq_zero_iff]
        omega
      rw [nothing]
      exact last serving

end Tables

end Compile

end WasmX64

/-!
## Constructs

Opening a block, passing from one arm to the other and closing a block change the notes as
`Mark.lower` says.
-/

namespace WasmX64.Compile

open Mark

variable {marks outer : List Mark} {mark : Mark} {subject : Subject} {state : Compilation}

theorem innerReach_mark (block : Block) : block.mark.innerReach = block.innerReach := by
  by_cases reached : block.reach = .reachable
  · simp [Block.innerReach, innerReach, isReached, Block.mark, reached]
  · simp [Block.innerReach, innerReach, isReached, Block.mark, reached]

theorem innerReach_head (blocks : List Block) (kind : BlockKind) (results : List ValueType) :
    (Block.opened blocks kind results).reach =
      (blocks.map Block.mark).head?.elim .reachable innerReach := by
  cases blocks with
  | nil => rfl
  | cons block others => exact (innerReach_mark block).symm

theorem enter_noted (kind : BlockKind) (instr : Instr) (noted : Noted marks subject state) :
    Ensures (enter kind instr) subject state fun _ after =>
      Noted (opened kind instr marks :: marks) subject after := by
  unfold enter
  refine ensures_ite.mpr ⟨fun _ => ensures_bind.mpr ensures_throw, fun _ => ?_⟩
  rw [ensures_bind, ensures_get]
  unfold openBlock
  refine noted.andThen noted_newLabel fun label _ noted => ?_
  refine noted.andThen noted_newLabel fun elseLabel after noted => ?_
  rw [ensures_modify, Noted, ← noted]
  have reach := innerReach_head after.blocks kind instr.results
  rw [← Compilation.marks] at reach
  rw [opened, ← reach]
  rfl

theorem lowerBlock_noted (instr : Instr) (noted : Noted marks subject state) :
    Ensures (lowerBlock instr) subject state fun _ after =>
      Noted (opened .block instr marks :: marks) subject after := by
  unfold lowerBlock
  refine (enter_noted .block instr noted).andThen fun _ _ noted => ?_
  exact noted.stays (noted_record _)

theorem lowerLoop_noted (instr : Instr) (noted : Noted marks subject state) :
    Ensures (lowerLoop instr) subject state fun _ after =>
      Noted (opened .loop instr marks :: marks) subject after := by
  unfold lowerLoop
  refine (enter_noted .loop instr noted).andThen fun _ _ noted => noted.stays ?_
  refine (Keeps.through .spillLocals).andThen fun _ => (noted_record _).andThen fun _ => ?_
  refine (Keeps.through .innermost).andThen fun block => (noted_bind _ _).andThen fun _ => ?_
  exact Keeps.get.andThen fun _ => noted_modifyBlock fun _ => rfl

theorem lowerIf_noted (instr : Instr) (noted : Noted marks subject state) :
    Ensures (lowerIf instr) subject state fun _ after =>
      Noted (opened .ifThen instr marks :: marks) subject after := by
  unfold lowerIf
  refine noted.andThen (.through (.expect _ _)) fun _ _ noted => ?_
  refine noted.andThen (.through (.popRegister _)) fun condition _ noted => ?_
  refine (enter_noted .ifThen instr noted).andThen fun _ _ noted => noted.stays ?_
  refine (noted_record _).andThen fun _ => (Keeps.through .innermost).andThen fun block => ?_
  refine (noted_branchIfZero _ _ _).andThen fun _ => Keeps.get.andThen fun _ => ?_
  exact noted_modifyBlock fun _ => rfl

theorem startArm_noted {label : Label} {layout : Layout}
    (noted : Noted (mark :: outer) subject state) :
    Ensures (startArm label layout) subject state fun _ after =>
      Noted ({ mark with
        course := { mark.course with kind := .elseArm, pending := mark.course.elseBody }
        reach := outer.head?.elim .reachable innerReach } :: outer) subject after := by
  refine (modifyBlock_noted
    (fun mark => { mark with course := { mark.course with kind := .elseArm } }) (fun _ => rfl)
    noted).andThen ?_
  intro _ armed noted
  rw [List.modify_zero_cons] at noted
  refine noted.andThen (noted_bind _ _) fun _ bound noted => ?_
  unfold blockAt
  rw [ensures_bind, ensures_bind, ensures_get]
  obtain ⟨block, others, opened, first, rest⟩ := List.map_eq_cons_iff.mp noted
  rw [opened]
  cases others with
  | nil => exact ensures_throw
  | cons parent around =>
    rw [List.getElem?_cons_succ, List.getElem?_cons_zero]
    dsimp only
    rw [ensures_pure]
    refine noted.andThen (noted_calm.modifyLayout _) fun _ placed noted => ?_
    refine (modifyBlock_noted (fun mark =>
      { mark with
        course := { mark.course with pending := mark.course.elseBody }
        reach := parent.innerReach }) (fun _ => rfl) noted).mono ?_
    intro _ after noted
    rw [List.modify_zero_cons] at noted
    rw [← rest] at noted ⊢
    rw [← innerReach_mark] at noted
    exact noted

theorem lowerElse_noted (instr : Instr) (noted : Noted (mark :: outer) subject state) :
    Ensures lowerElse subject state fun _ after =>
      Noted (Mark.lower subject.host .otherwise instr (mark :: outer)) subject after := by
  rw [lowerElse_eq]
  refine (innermost_noted noted).andThen ?_
  rintro block middle ⟨rfl, rfl⟩
  refine ensures_ite.mpr ⟨fun _ => ensures_bind.mpr ensures_throw, fun kind => ?_⟩
  have armed : Mark.lower subject.host .otherwise instr (block.mark :: outer) =
      block.mark.otherwise outer :: outer := by
    unfold Mark.lower
    exact if_pos (Decidable.not_not.mp kind)
  rw [armed, otherwise, isReached_mark]
  refine ensures_ite.mpr ⟨fun reached => ?_, fun dead => ?_⟩
  · rw [reached, Bool.or_true]
    rw [ensures_bind, ensures_get]
    have finish : ∀ (join : Layout) (before : Compilation),
        Noted (block.mark :: outer) subject before →
        Ensures (joinArms block middle.layout join) subject before fun _ after =>
        Noted (⟨{ block.mark.course with kind := .elseArm, pending := block.mark.course.elseBody },
          outer.head?.elim .reachable innerReach, true⟩ :: outer) subject after := by
      intro join before noted
      refine noted.andThen (noted_modifyBlock fun _ => rfl) fun _ _ noted => ?_
      refine noted.andThen (.through (.mergeAll False.elim)) fun _ _ noted => ?_
      refine noted.andThen (noted_jump _ _) fun _ _ noted => ?_
      refine (modifyBlock_noted (fun mark => { mark with endReached := true })
        (fun _ => rfl) noted).andThen fun _ _ noted => ?_
      exact startArm_noted noted
    refine ensures_ite.mpr ⟨fun _ => ?_, fun _ => ?_⟩
    · exact noted.andThen (.pure trivial) finish
    · exact noted.andThen (.through (.initJoin _ _ _)) finish
  · rw [Bool.eq_false_iff.mpr dead, Bool.or_false]
    exact startArm_noted noted

theorem noted_settleEnd (block : Block) : Keeps (Noted marks) (settleEnd block) anything := by
  have skip : ∀ join layout : Layout,
      Keeps (Noted marks) (finishArm block layout join) anything := by
    intro join layout
    refine (noted_bind _ _).andThen fun _ => .ite ?_ (noted_calm.modifyLayout _)
    exact (Keeps.through (.mergeAll False.elim)).andThen fun _ => noted_calm.modifyLayout _
  have finish : ∀ join layout : Layout,
      Keeps (Noted marks) (joinMissing block layout join) anything := by
    intro join layout
    refine .ite ?_ (skip join layout)
    refine Keeps.get.andThen fun state => (Keeps.through (.mergeAll False.elim)).andThen fun _ => ?_
    exact (noted_jump _ _).andThen fun _ => skip join layout
  have oneArmed : Keeps (Noted marks) (finishOneArmed block) anything := by
    refine Keeps.demand (.ite ?_ ?_)
    · exact (Keeps.through (.initJoin _ _ _)).andThen fun join => finish join _
    · exact (Keeps.pure trivial).andThen fun join => finish join _
  refine .ite oneArmed (.ite (.through (.resetToResults False.elim)) (.ite
    (.ite ?_ (noted_calm.modifyLayout _)) (.through (.demandEndHeight block))))
  refine Keeps.get.andThen fun state => ?_
  exact (Keeps.through (.mergeAll False.elim)).andThen fun _ => noted_calm.modifyLayout _

theorem closeBlock_noted (noted : Noted (mark :: outer) subject state) :
    Ensures closeBlock subject state fun _ after => Noted outer subject after := by
  refine ensures_modify.mpr ?_
  rw [Noted, Compilation.marks, List.map_tail]
  exact congrArg List.tail noted

theorem lowerEnd_noted (instr : Instr) (noted : Noted (mark :: outer) subject state) :
    Ensures lowerEnd subject state fun _ after =>
      Noted (Mark.lower subject.host .finish instr (mark :: outer)) subject after := by
  unfold lowerEnd
  refine (innermost_noted noted).andThen ?_
  rintro block middle ⟨rfl, rfl⟩
  rw [ensures_bind, ensures_get]
  have ends : Mark.lower subject.host .finish instr (block.mark :: outer) =
      if block.mark.continues then outer else outer.modify 0 demoted := rfl
  rw [ends]
  refine ensures_ite.mpr ⟨fun single => ?_, fun _ => ?_⟩
  · have nothing : outer = [] := by
      rw [← List.length_eq_zero_iff]
      have length := congrArg List.length noted
      rw [Compilation.marks, List.length_map, single, List.length_cons] at length
      omega
    rw [nothing, List.modify_nil, ite_self]
    rw [nothing] at noted
    have leave : ∀ before, Noted [block.mark] subject before → Ensures (do
        record (.controlEnd block.kind)
        closeBlock) subject before fun _ after => Noted [] subject after :=
      fun before noted => noted.andThen (noted_record _) fun _ _ noted => closeBlock_noted noted
    refine ensures_ite.mpr ⟨fun _ => ?_, fun _ => leave middle noted⟩
    refine noted.andThen (.through (.demandEndHeight block)) fun _ _ noted => ?_
    exact noted.andThen noted_returnFromFunction fun _ after noted => leave after noted
  · rw [endBlock_eq]
    have close : ∀ before, Noted (block.mark :: outer) subject before →
        Ensures (leaveBlock block) subject before fun _ after =>
        Noted (if block.mark.continues then outer else outer.modify 0 demoted) subject after := by
      intro before noted
      have same : (block.isReached || block.endReached || block.isOneArmed) =
          block.mark.continues := rfl
      unfold leaveBlock
      rw [same, ensures_bind]
      refine (closeBlock_noted noted).mono fun _ closed noted => ?_
      cases block.mark.continues with
      | true => exact noted.stays (noted_modifyBlock fun _ => rfl)
      | false =>
        refine modifyBlock_noted demoted ?_ noted
        intro parent
        by_cases reached : parent.reach = .reachable
        · simp [Block.isReached, demoted, isReached, Block.mark, Block.course, reached]
        · simp [Block.isReached, demoted, isReached, Block.mark, Block.course, reached]
    refine noted.andThen (noted_settleEnd block) fun _ _ noted => ?_
    refine noted.andThen (noted_record _) fun _ recorded noted => ?_
    refine ensures_ite.mpr ⟨fun _ => ?_, fun _ => close recorded noted⟩
    exact noted.andThen (noted_bind _ _) fun _ after noted => close after noted

theorem lower_noted (op : Opcode) (instr : Instr) (books : Books subject state)
    (noted : Noted (mark :: outer) subject state) :
    Ensures (lower op instr) subject state fun _ after =>
      Noted (Mark.lower subject.host op instr (mark :: outer)) subject after := by
  cases plain : op.isPlain with
  | true =>
    cases access : op.isAccess with
    | true =>
      cases op
      case load op => exact lowerLoad_noted op instr.offset noted
      case store op => exact lowerStore_noted op instr.offset noted
      all_goals cases access
    | false =>
      have same : Mark.lower subject.host op instr (mark :: outer) = mark :: outer := by
        cases op
        case load => cases access
        case store => cases access
        all_goals try rfl
        all_goals cases plain
      rw [same]
      exact plain_noted plain access instr books noted
  | false =>
    cases op
    case unreachable =>
      refine noted.andThen (noted_addTrap _) fun _ _ noted => ?_
      exact noted.andThen (noted_emit _) fun _ _ noted => finishBlock_noted noted
    case block => exact lowerBlock_noted instr noted
    case loop => exact lowerLoop_noted instr noted
    case branchIf => exact lowerIf_noted instr noted
    case otherwise => exact lowerElse_noted instr noted
    case finish => exact lowerEnd_noted instr noted
    case br => exact lowerBr_noted _ noted
    case brIf => exact lowerBrIf_noted _ noted
    case brTable => exact lowerBrTable_noted instr noted
    case ret =>
      exact noted.andThen noted_returnFromFunction fun _ _ noted => finishBlock_noted noted
    all_goals cases plain

end WasmX64.Compile
