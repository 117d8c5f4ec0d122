import WasmX64.Proofs.Execution.Dispatch

/-!
# Branch tables

What the compiler lays for a branch table is the code of a search through its entries, with the
default behind the last one.  Control comes to the branch of the entry that the operand names,
and every slot below the operand has the value it had.
-/

namespace WasmX64

namespace Compile

variable {subject : Subject} {origin state after : Compilation} {cases : Array Label}
  {laying : Laying}

/-- The code of a branch that starts from a layout and finds its target as it is among some
blocks. -/
def BranchCode (subject : Subject) (layout : Layout) (blocks : List Block) (depth : Nat)
    (parts : List Part) : Prop :=
  ∃ before after, before.layout = layout ∧ before.blocks.length = blocks.length ∧
    before.blocks[depth]? = blocks[depth]? ∧
    branchOrReturn depth subject before = .ok () after ∧ before.Gains parts after

/-- A compilation has come as far as was noted: the depths whose branches are there are those
whose labels have a position, and the blocks of the others are as they were. -/
structure Lays (cases : Array Label) (origin : Compilation) (laying : Laying)
    (state : Compilation) : Prop where
  layout : state.layout = origin.layout
  open_eq : state.blocks.length = origin.blocks.length
  blocks : ∀ depth, depth ∉ laying.depths → state.blocks[depth]? = origin.blocks[depth]?
  labels : laying.labels ≤ state.output.code.labels.size
  known : ∀ label ∈ cases, label.index < laying.labels
  bound : ∀ depth label, cases[depth]? = some label →
    ((state.output.code.label label).isBound = true ↔ depth ∈ laying.depths)

theorem Lays.inside (lays : Lays cases origin laying state) {label : Label}
    (member : label ∈ cases) : label.index < state.output.code.labels.size :=
  Nat.lt_of_lt_of_le (lays.known label member) lays.labels

/-- Nothing is done but code added that fixes none of the labels. -/
theorem Lays.keep (lays : Lays cases origin laying state) (layout : after.layout = state.layout)
    (blocks : after.blocks = state.blocks)
    (grows : state.output.code.Extends after.output.code)
    (spares : ∀ label ∈ cases, state.output.code.Spares label after.output.code) :
    Lays cases origin laying after where
  layout := layout.trans lays.layout
  open_eq := (congrArg List.length blocks).trans lays.open_eq
  blocks depth fresh := (congrArg (·[depth]?) blocks).trans (lays.blocks depth fresh)
  labels := Nat.le_trans lays.labels grows.count
  known := lays.known
  bound depth label named := by
    rw [← lays.bound depth label named]
    exact ⟨spares label (Array.mem_of_getElem? named), grows.isBound⟩

theorem Lays.place (lays : Lays cases origin laying state) {steps : List Step}
    (others : ∀ label ∈ cases, .bind (.label label) ∉ steps) (events : Array Event) :
    Lays cases origin laying { state with output := state.output.emit steps, events } :=
  lays.keep rfl rfl (Code.Extends.place state.output.code steps)
    fun label member => .place (lays.inside member) (others label member)

theorem emit_lays (lays : Lays cases origin laying state) {steps : List Step}
    (others : ∀ label ∈ cases, .bind (.label label) ∉ steps) :
    Ensures (emit steps) subject state fun _ after =>
      state.Gains [.steps steps] after ∧ Lays cases origin laying after :=
  ensures_emit.mpr ⟨rfl, lays.place others state.events⟩

theorem machine_emit (event : MachineEvent) (steps : List Step) :
    Ensures (machine event (emit steps)) subject state fun _ after =>
      ∃ events, after = { state with output := state.output.emit steps, events } := by
  unfold machine record
  simp only [ensures_bind, ensures_read, ensures_modify, ensures_emit]
  exact ⟨_, rfl⟩

theorem machine_lays (lays : Lays cases origin laying state) {steps : List Step}
    (others : ∀ label ∈ cases, .bind (.label label) ∉ steps) (event : MachineEvent) :
    Ensures (machine event (emit steps)) subject state fun _ after =>
      state.Gains [.steps steps] after ∧ Lays cases origin laying after := by
  refine (machine_emit event steps).mono ?_
  rintro _ _ ⟨events, rfl⟩
  exact ⟨rfl, lays.place others events⟩

theorem newLabel_lays (lays : Lays cases origin laying state) :
    Ensures newLabel subject state fun label after =>
      laying.labels ≤ label.index ∧ state.Gains [.label] after ∧
        Lays cases origin ⟨label.index + 1, laying.depths⟩ after := by
  have grows : Lays cases origin laying { state with
      output := { state.output with code := state.output.code.newLabel.2 } } :=
    lays.keep rfl rfl (.newLabel _) fun label member => .newLabel (lays.inside member)
  refine ensures_modifyGet.mpr ⟨lays.labels, rfl, { grows with labels := ?_, known := ?_ }⟩
  · simp [Code.newLabel]
  · exact fun label member => Nat.lt_succ_of_lt (lays.inside member)

theorem Lays.branch (distinct : Distinct cases) (lays : Lays cases origin laying state)
    {depth : Nat} {label : Label} (named : cases[depth]? = some label) {fixed : Compilation}
    (layout : fixed.layout = state.layout) (blocks : fixed.blocks = state.blocks)
    (code : fixed.output.code = state.output.code.bind label)
    (ends : branchOrReturn depth subject fixed = .ok () after) :
    Lays cases origin { laying with depths := depth :: laying.depths } after := by
  have branched := branchOrReturn_branched depth _ _ ends
  obtain ⟨parts, gains⟩ := branched.gains
  have binds : state.output.code.Extends fixed.output.code := by
    rw [code]
    exact .bind _ _
  have grows := gains.extends
  have spared : ∀ other ∈ cases, fixed.output.code.Spares other after.output.code := by
    intro other member
    obtain ⟨_, spares⟩ := (@spared_branchOrReturn cases (fun _ => True) fixed.output.code depth
      subject fixed (fun other member =>
        ⟨Nat.lt_of_lt_of_le (lays.inside member) binds.count, fun _ => id⟩) _ _ ends).1 other member
    exact spares trivial
  constructor
  · rw [branched.layout, layout]
    exact lays.layout
  · rw [branched.open_eq, blocks]
    exact lays.open_eq
  · intro other apart
    rw [List.mem_cons, not_or] at apart
    rw [branched.others other apart.1, blocks]
    exact lays.blocks other apart.2
  · exact Nat.le_trans lays.labels (Nat.le_trans binds.count grows.count)
  · exact lays.known
  · intro place other listed
    rw [List.mem_cons]
    constructor
    · intro bound
      by_cases same : label = other
      · subst same
        exact .inl (distinct place depth label listed named)
      · have stays := spared other (Array.mem_of_getElem? listed) bound
        rw [code] at stays
        exact .inr ((lays.bound place other listed).mp (Code.Spares.bind same stays))
    · rintro (rfl | old)
      · rw [named] at listed
        cases listed
        apply grows.isBound
        rw [code]
        exact Code.isBound_bind (lays.inside (Array.mem_of_getElem? named))
      · exact grows.isBound (binds.isBound ((lays.bound place other listed).mpr old))

/-- An action lays the code of a search, from wherever it starts. -/
def Searches (subject : Subject) (cases : Array Label) (origin : Compilation)
    (entries : Array UInt32) (value bound : Register) (first last : Nat)
    (action : Compile Unit) : Prop :=
  ∀ laying state, Lays cases origin laying state →
    Ensures action subject state fun _ after => ∃ pieces further,
      SearchCode (BranchCode subject origin.layout origin.blocks) cases entries value bound first
        last laying pieces further ∧
      state.Gains (pieces.flatMap Fragment.parts) after ∧ Lays cases origin further after

section Searches

variable {entries targets : Array UInt32} {value bound : Register} {first split last : Nat}
  (distinct : Distinct cases)

include distinct

theorem lowerCase_searches {target : UInt32} (found : entries[first]? = some target) :
    Searches subject cases origin entries value bound first (first + 1)
      (lowerCase cases target.toNat) := by
  intro laying state lays
  unfold lowerCase
  split
  · exact ensures_throw
  · rename_i label named
    have member := Array.mem_of_getElem? named
    rw [ensures_bind, ensures_get]
    refine ensures_ite.mpr ⟨fun served => ?_, fun unbound => ?_⟩
    · have jumps : ∀ other ∈ cases, .bind (.label other) ∉ [Step.jump (.label label) .far] := by
        simp
      refine (machine_lays lays jumps _).mono ?_
      rintro _ after ⟨gains, goes⟩
      have old := (lays.bound _ _ named).mp served
      exact ⟨_, _, .leaf found (.again old named), gains, goes⟩
    · have fresh : target.toNat ∉ laying.depths :=
        fun old => unbound ((lays.bound _ _ named).mpr old)
      refine (machine_emit _ _).andThen ?_
      rintro _ fixed ⟨events, same⟩ _ after ends
      have fixes : state.Gains [.steps [.bind (.label label)]] fixed := by
        rw [same]
        rfl
      have layout : fixed.layout = state.layout := by rw [same]
      have blocks : fixed.blocks = state.blocks := by rw [same]
      have code : fixed.output.code = state.output.code.bind label := by
        rw [same]
        exact Code.place_bind _ _
      obtain ⟨parts, gains⟩ := (branchOrReturn_branched target.toNat _ _ ends).gains
      have laid : BranchCode subject origin.layout origin.blocks target.toNat parts :=
        ⟨fixed, after, layout.trans lays.layout, by rw [blocks, lays.open_eq],
          by rw [blocks, lays.blocks _ fresh], ends, gains⟩
      refine ⟨_, _, .leaf found (.first fresh named laid), ?_,
        lays.branch distinct named layout blocks code ends⟩
      simpa [Fragment.parts] using fixes.append gains

omit distinct in
theorem parting_searches {lower higher : Compile Unit} {depth : Nat} (above : first < split)
    (below : split < last)
    (left : Searches subject cases origin entries value bound first split lower)
    (right : Searches subject cases origin entries value bound split last higher) :
    Searches subject cases origin entries value bound first last (do
      let upper ← newLabel
      emit (Sequence.loadConstant .i32 bound (.ofNat split))
      branchIfAtLeast upper value bound
      lower
      bind upper depth
      higher) := by
  intro laying state lays
  have known := lays.known
  refine (newLabel_lays lays).andThen ?_
  rintro upper labelled ⟨new, label, lays⟩
  have apart : upper ∉ cases := fun member =>
    Nat.lt_irrefl _ (Nat.lt_of_lt_of_le (known upper member) new)
  have loads : ∀ label ∈ cases, .bind (.label label) ∉
      Sequence.loadConstant .i32 bound (.ofNat split) :=
    fun _ _ member => nomatch Sequence.straight_loadConstant _ _ _ _ member
  have compares : ∀ label ∈ cases, .bind (.label label) ∉
      Sequence.compareAndJump .aboveEqual (.label upper) .i32 value bound := by
    intro label _ member
    simp only [Sequence.compareAndJump, List.mem_cons, reduceCtorEq, List.not_mem_nil,
      or_false] at member
    split at member
    · cases member
    · cases member
  have fixes : ∀ label ∈ cases, .bind (.label label) ∉ [Step.bind (.label upper)] := by
    intro label member fixed
    cases List.mem_singleton.mp fixed
    exact apart member
  refine (emit_lays lays loads).andThen ?_
  rintro _ loaded ⟨load, lays⟩
  refine (machine_lays lays compares _).andThen ?_
  rintro _ compared ⟨compare, lays⟩
  refine (left _ _ lays).andThen ?_
  rintro _ parted ⟨low, middle, lowCode, under, lays⟩
  refine (machine_lays lays fixes _).andThen ?_
  rintro _ joined ⟨fixed, lays⟩
  refine (right _ _ lays).mono ?_
  rintro _ after ⟨high, final, highCode, upward, lays⟩
  refine ⟨_, final, .node above below new lowCode highCode, ?_, lays⟩
  simpa [parting, Fragment.parts] using
    label.append (load.append (compare.append (under.append (fixed.append upward))))

theorem lowerCases_searches (same : ∀ index < targets.size, entries[index]? = targets[index]?)
    {fuel : Nat} (enough : last - first ≤ fuel) (some : first < last)
    (inside : last ≤ targets.size) :
    Searches subject cases origin entries value bound first last
      (lowerCases cases targets value bound fuel first last) := by
  induction fuel generalizing first last with
  | zero => omega
  | succ fuel ih =>
    rw [lowerCases]
    by_cases single : last - first = 1
    · rw [if_pos single]
      obtain rfl : last = first + 1 := by omega
      have found : entries[first]? = .some (targets[first]?.getD 0) := by
        rw [same first (by omega), Array.getElem?_eq_getElem (by omega)]
        rfl
      exact lowerCase_searches distinct found
    · rw [if_neg single]
      exact parting_searches (by omega) (by omega) (ih (by omega) (by omega) (by omega))
        (ih (by omega) (by omega) inside)

end Searches

theorem expect_offers (type : ValueType) :
    Ensures (expect 0 type) subject state fun _ after => after = state ∧ Offers state [type] := by
  unfold expect operandType innermost
  simp only [ensures_bind, ensures_get]
  split
  · rename_i block outer opened
    simp only [ensures_pure, ensures_ite, ensures_bind]
    refine ⟨fun _ => ensures_throw, fun above => ?_⟩
    split
    · rename_i slot found
      rw [ensures_pure]
      refine ⟨fun _ => ensures_throw, fun same => ⟨rfl, ⟨block, outer, opened, ?_⟩, ?_⟩⟩
      · rw [List.length_singleton]
        omega
      · intro depth other listed
        obtain ⟨rfl, rfl⟩ : depth = 0 ∧ type = other := by
          simpa [List.getElem?_singleton] using listed
        refine ⟨slot, ?_, not_not.mp same⟩
        rw [Layout.peek?] at found
        split at found
        · rw [← found]
          congr 1
          omega
        · cases found
    · exact ensures_throw
  · exact ensures_throw

theorem gains_reserve (state : Compilation) (count : Nat) :
    state.Gains (List.replicate count .label)
      { state with output := { state.output with code := state.output.code.reserve count } } := by
  have places : ∀ (code : Code) (refs : Array Reference),
      (List.replicate count Part.label).foldl Part.place (code, refs) =
        (code.reserve count, refs) := by
    induction count with
    | zero => exact fun code refs => by simp [Code.reserve]
    | succ count ih =>
      intro code refs
      rw [List.replicate_succ, List.foldl_cons, Part.place, ih, Code.reserve_newLabel]
  exact (places _ _).symm

theorem follow_labels (addresses : RefKind → UInt32 → BitVec 64) (machine : Processor)
    (count : Nat) : machine.followParts addresses (List.replicate count .label) =
      some (.falls machine) := by
  induction count with
  | zero => rfl
  | succ count ih => exact ih

/-- The code of a branch table behind the code that brings the operand into a register. -/
structure Dispatches (subject : Subject) (state : Compilation) (instr : Instr) (layout : Layout)
    (front : List Part) (pieces : List Fragment) : Prop where
  height : layout.height + 1 = state.layout.height
  once : (pieces.filterMap Fragment.depth?).Nodup
  depths : ∀ depth, depth ∈ pieces.filterMap Fragment.depth? ↔
    ∃ target ∈ instr.targets ++ [instr.default], target.toNat = depth
  branches : ∀ depth parts, .branch depth parts ∈ pieces →
    BranchCode subject layout state.blocks depth parts
  labels : (pieces.filterMap Fragment.label?).Nodup
  reaches : ∀ addresses (machine : Processor), ∃ ready place next parts,
    machine.followParts addresses front = some (.falls ready) ∧
      Processor.Threads addresses pieces 0 ready place next ∧
      pieces[place]? = some (.branch (instr.targets[(state.layout.operand machine 0).toNat]?.getD
        instr.default).toNat parts) ∧
      Layout.Persists nowhere layout.height state.layout layout machine next

/-- The entries of a table with the default behind them. -/
def entries (instr : Instr) : Array UInt32 := instr.targets.toArray.push instr.default

theorem entries_getElem? (instr : Instr) (index : Nat) :
    (entries instr)[min index instr.targets.length]? =
      some (instr.targets[index]?.getD instr.default) := by
  rcases Nat.lt_or_ge index instr.targets.length with below | above
  · rw [Nat.min_eq_left (Nat.le_of_lt below), entries, Array.getElem?_push_lt (by simpa using below)]
    simp [below]
  · rw [Nat.min_eq_right above, List.getElem?_eq_none above]
    simp [entries]

theorem mem_entries {instr : Instr} {target : UInt32} :
    target ∈ instr.targets ++ [instr.default] ↔
      ∃ index < instr.targets.length + 1, (entries instr)[index]? = some target := by
  have same : instr.targets ++ [instr.default] = (entries instr).toList := by simp [entries]
  have size : (entries instr).size = instr.targets.length + 1 := by simp [entries]
  rw [same, List.mem_iff_getElem?]
  simp only [Array.getElem?_toList]
  constructor
  · rintro ⟨index, found⟩
    exact ⟨index, size ▸ (Array.getElem?_eq_some_iff.mp found).1, found⟩
  · rintro ⟨index, _, found⟩
    exact ⟨index, found⟩

theorem dispatches_of_search {subject : Subject} {state : Compilation} {instr : Instr}
    {layout : Layout} {cases : Array Label} {value bound : Register} {labels : Nat}
    {further : Laying} {front : List Part} {pieces : List Fragment}
    (code : SearchCode (BranchCode subject layout state.blocks) cases (entries instr) value bound 0
      (instr.targets.length + 1) ⟨labels, []⟩ pieces further)
    (few : instr.targets.length < 2 ^ 32) (known : ∀ label ∈ cases, label.index < labels)
    (distinct : Distinct cases) (free : 0 < instr.targets.length → Suits .gp bound ∧ bound ≠ value)
    (loose : layout.Loose bound) (height : layout.height + 1 = state.layout.height)
    (follows : ∀ addresses (machine : Processor), ∃ ready,
      machine.followParts addresses front = some (.falls ready) ∧
        ready.low value = (state.layout.operand machine 0).toNat ∧
        Layout.Persists nowhere layout.height state.layout layout machine ready) :
    Dispatches subject state instr layout front pieces := by
  have laid := code.depths_eq
  rw [List.append_nil] at laid
  constructor
  case height => exact height
  case once =>
    have once := code.nodup .nil
    rwa [laid, List.nodup_reverse] at once
  case depths =>
    intro depth
    rw [← List.mem_reverse, ← laid, code.mem_depths]
    simp only [List.not_mem_nil, false_or, Nat.zero_le, true_and]
    constructor
    · rintro ⟨index, target, below, found, same⟩
      exact ⟨target, mem_entries.mpr ⟨index, below, found⟩, same⟩
    · rintro ⟨target, member, same⟩
      obtain ⟨index, below, found⟩ := mem_entries.mp member
      exact ⟨index, target, below, found, same⟩
  case branches => exact fun depth parts member => code.lays member
  case labels => exact code.nodup_labels known distinct
  case reaches =>
    intro addresses machine
    obtain ⟨ready, runs, selects, persists⟩ := follows addresses machine
    obtain ⟨place, next, target, parts, threads, found, branch, memory, regs⟩ :=
      @SearchCode.reaches _ _ _ _ pieces pieces [] [] addresses ready _ _ _ _ _ code
        (fun several => free (by omega)) (by omega) (by simp) nofun (Nat.zero_le _)
    rw [selects, Nat.add_sub_cancel, entries_getElem?] at found
    cases found
    refine ⟨ready, place, next, parts, runs, threads, branch, persists.trans ?_⟩
    apply Layout.Persists.of_loose memory
    intro reg tight
    apply regs
    rintro rfl
    exact tight loose

/-- A compilation with labels that are known and have no position. -/
theorem Lays.start (fresh : ∀ label ∈ cases, label.index < state.output.code.labels.size ∧
      (state.output.code.label label).isBound = false) :
    Lays cases state ⟨state.output.code.labels.size, []⟩ state where
  layout := rfl
  open_eq := rfl
  blocks _ _ := rfl
  labels := Nat.le_refl _
  known label member := (fresh label member).1
  bound depth label named := by
    rw [(fresh label (Array.mem_of_getElem? named)).2]
    simp

theorem Popped.selects {types : List ValueType} {slot : Slot} {reg : Register} {parts : List Part}
    (pops : Popped RegSet.empty subject state slot reg after parts) (offers : Offers state (.i32 :: types))
    (top : state.layout.top? = some slot) (type : slot.type = .i32)
    (addresses : RefKind → UInt32 → BitVec 64) (machine : Processor) : ∃ ready,
      machine.followParts addresses parts = some (.falls ready) ∧
        ready.low reg = (state.layout.operand machine 0).toNat ∧
        Layout.Persists nowhere after.layout.height state.layout after.layout machine ready := by
  obtain ⟨ready, runs, persists, _, value, _⟩ := pops.follows addresses machine
  refine ⟨ready, runs, ?_, persists⟩
  have small := offers.operand_lt machine
  have height : after.layout.height = state.layout.height - 1 := by
    have popped := pops.height
    omega
  rw [type, height, ← Layout.operand_top top] at value
  rw [Processor.low, ← ValueType.word_clip, value]
  change (BitVec.setWidth 32 _).toNat = _
  rw [BitVec.toNat_setWidth, Nat.mod_eq_of_lt small]

/-- A search from where nothing has been laid, before the innermost block ends. -/
theorem Searches.finished {entries : Array UInt32} {value bound : Register} {first last : Nat}
    {action : Compile Unit}
    (searches : Searches subject cases state entries value bound first last action)
    (fresh : ∀ label ∈ cases, label.index < state.output.code.labels.size ∧
      (state.output.code.label label).isBound = false) :
    Ensures (do
      action
      finishBlock) subject state fun _ after => ∃ pieces further,
        SearchCode (BranchCode subject state.layout state.blocks) cases entries value bound first
          last ⟨state.output.code.labels.size, []⟩ pieces further ∧
        state.Gains (pieces.flatMap Fragment.parts) after := by
  refine (searches _ state (.start fresh)).andThen ?_
  rintro _ searched ⟨pieces, further, code, gains, _⟩
  exact ensures_modifyBlock.mpr ⟨pieces, further, code, gains⟩

/-- The operand that selects has come to a register, and there are new labels for the targets. -/
structure Selecting (subject : Subject) (state : Compilation) (cases : Array Label)
    (value : Register) (front : List Part) (now : Compilation) : Prop where
  orderly : Orderly subject now
  blocks : now.blocks = state.blocks
  height : now.layout.height + 1 = state.layout.height
  gains : state.Gains front now
  distinct : Distinct cases
  fresh : ∀ label ∈ cases, label.index < now.output.code.labels.size ∧
    (now.output.code.label label).isBound = false
  follows : ∀ addresses (machine : Processor), ∃ ready,
    machine.followParts addresses front = some (.falls ready) ∧
      ready.low value = (state.layout.operand machine 0).toNat ∧
      Layout.Persists nowhere now.layout.height state.layout now.layout machine ready

namespace Selecting

variable {now : Compilation} {value : Register} {front : List Part} {instr : Instr}

theorem takes (selecting : Selecting subject state cases value front now) :
    Ensures (takeRegister .gp [] (RegSet.single value)) subject now fun bound after =>
      ∃ front, Selecting subject state cases value front after ∧ Suits .gp bound ∧ bound ≠ value ∧
        after.layout.Loose bound := by
  obtain ⟨spare, suits, apart⟩ := @exists_spare .gp [value] (by simp)
  have unpinned : (RegSet.single value).has spare = false := by
    simpa [RegSet.has_single] using fun _ => apart value
  have compiles := @takeRegister_compiles _ _ .gp [] _ selecting.orderly _ suits unpinned
  have spared : Spared cases (fun _ => True) now.output.code subject now :=
    fun label member => ⟨(selecting.fresh label member).1, fun _ => id⟩
  have spares := Keeps.through (.takeRegister .gp [] (RegSet.single value)) subject now spared
  refine (compiles.and spares).ensures.mono ?_
  rintro bound after ⟨spilling, gains, taken, spared, _⟩
  have height : after.layout.height = now.layout.height := taken.spills.height
  refine ⟨front ++ spilling, ?_, taken.suits, ?_,
    taken.orderly.books.sound.loose_of_isFree taken.free⟩
  · constructor
    case orderly => exact taken.orderly
    case blocks => exact taken.relaid.blocks.trans selecting.blocks
    case height =>
      rw [height]
      exact selecting.height
    case gains => exact selecting.gains.append gains
    case distinct => exact selecting.distinct
    case fresh =>
      intro label member
      obtain ⟨known, spares⟩ := spared label member
      refine ⟨known, Bool.eq_false_iff.mpr fun bound => ?_⟩
      have before := spares trivial bound
      rw [(selecting.fresh label member).2] at before
      cases before
    case follows =>
      intro addresses machine
      obtain ⟨ready, runs, selects, persists⟩ := selecting.follows addresses machine
      obtain ⟨next, spills, regs, kept⟩ := taken.spills.follows addresses ready
      refine ⟨next, (Processor.followParts_falls runs).trans spills, ?_, ?_⟩
      · rw [← selects, Processor.low, Processor.low, regs]
      · rw [height]
        exact persists.trans kept
  · have machine := Register.isMachine_of_isAllocable taken.suits.1
    have unpinned := taken.loose
    rintro rfl
    simp [RegSet.has_single, machine] at unpinned

theorem search (selecting : Selecting subject state cases value front now) {bound : Register}
    {action : Compile Unit}
    (searches : Searches subject cases now (entries instr) value bound 0 (instr.targets.length + 1)
      action)
    (few : instr.targets.length < 2 ^ 32)
    (free : 0 < instr.targets.length → Suits .gp bound ∧ bound ≠ value)
    (loose : now.layout.Loose bound) :
    Ensures (do
      action
      finishBlock) subject now fun _ after => ∃ layout front pieces,
        state.Gains (front ++ pieces.flatMap Fragment.parts) after ∧
          Dispatches subject state instr layout front pieces := by
  refine (searches.finished selecting.fresh).mono ?_
  rintro _ after ⟨pieces, further, code, gains⟩
  rw [selecting.blocks] at code
  exact ⟨now.layout, front, pieces, selecting.gains.append gains,
    dispatches_of_search code few (fun label member => (selecting.fresh label member).1)
      selecting.distinct free loose selecting.height selecting.follows⟩

end Selecting

theorem lowerBrTable_dispatches {block : Block} {outer : List Block} (instr : Instr)
    (orderly : Orderly subject state) (opened : state.blocks = block :: outer)
    (reached : block.isReached = true) (few : instr.targets.length < 2 ^ 32) :
    Ensures (lowerBrTable instr) subject state fun _ after => ∃ layout front pieces,
      state.Gains (front ++ pieces.flatMap Fragment.parts) after ∧
        Dispatches subject state instr layout front pieces := by
  unfold lowerBrTable
  refine (target_finds _).andThen ?_
  rintro default state ⟨rfl, _⟩
  refine (demandTargets_finds _ _).andThen ?_
  rintro _ state ⟨rfl, _⟩
  refine (expect_offers .i32).andThen ?_
  rintro _ state ⟨rfl, offers⟩
  refine (innermost_finds opened).andThen ?_
  rintro block state ⟨rfl, rfl⟩
  refine ensures_ite.mpr ⟨fun dead => absurd reached (by simpa using dead), fun _ => ?_⟩
  obtain ⟨spare, suits, _⟩ := @exists_spare .gp [] (by decide)
  refine (popRegister_compiles orderly offers suits (RegSet.has_empty spare)).ensures.andThen ?_
  rintro value popped ⟨popping, gains, slot, top, type, pops⟩
  rw [ensures_bind, ensures_get, ensures_bind]
  refine (newLabels_fresh _).mono ?_
  rintro cases labelled ⟨same, distinct, fresh⟩
  have selecting : Selecting subject state cases.toArray value
      (popping ++ List.replicate (List.range popped.blocks.length).length .label) labelled := by
    subst same
    refine ⟨pops.orderly.keep rfl rfl, pops.relaid.blocks, pops.height,
      gains.append (gains_reserve _ _), distinct, fresh, ?_⟩
    intro addresses machine
    obtain ⟨ready, runs, selects, persists⟩ := pops.selects offers top type addresses machine
    exact ⟨ready, (Processor.followParts_falls runs).trans (follow_labels _ _ _), selects, persists⟩
  refine ensures_ite.mpr ⟨fun several => ?_, fun none => ?_⟩
  · refine selecting.takes.andThen ?_
    rintro bound ready ⟨front, selecting, suits, apart, loose⟩
    have listed : ∀ index < instr.targets.toArray.size,
        (entries instr)[index]? = instr.targets.toArray[index]? := by
      intro index below
      rw [entries, Array.getElem?_push_lt below, Array.getElem?_eq_getElem below]
    have found : (entries instr)[instr.targets.length]? = some instr.default := by
      simp [entries]
    have left := @lowerCases_searches subject ready _ (entries instr) instr.targets.toArray value
      bound 0 _ distinct listed instr.targets.length (Nat.le_refl _) several (by simp)
    have right := @lowerCase_searches subject ready _ (entries instr) value bound _ distinct _ found
    have searches := @parting_searches subject ready _ (entries instr) value bound 0 _ _ _ _
      instr.default.toNat several (Nat.lt_succ_self _) left right
    have ensured := selecting.search searches few (fun _ => ⟨suits, apart⟩) loose
    simpa only [bind_assoc] using ensured
  · have nothing : instr.targets.length = 0 := by omega
    have found : (entries instr)[0]? = some instr.default := by
      simp [entries, List.eq_nil_of_length_eq_zero nothing]
    have searches := @lowerCase_searches subject labelled _ (entries instr) value .r10 0 distinct
      instr.default found
    have all : 0 + 1 = instr.targets.length + 1 := by rw [nothing]
    rw [all] at searches
    refine selecting.search searches few (fun several => absurd several none) ?_
    exact selecting.orderly.books.sound.loose_of_reserved (by decide) (by decide) (by decide)

end Compile

open Compile

/-- A branch table in code that is executed is lowered to code that dispatches: control comes to the
branch of the entry that the operand names, or to that of the default if there is no such entry, and
all slots below the operand have the values they had.  The branch to each depth is there once. -/
theorem branchTable_dispatches {subject : Subject} {state after : Compilation} {block : Block}
    {outer : List Block} {instr : Instr} (orderly : Orderly subject state)
    (opened : state.blocks = block :: outer) (reached : block.isReached = true)
    (few : instr.targets.length < 2 ^ 32)
    (lowers : lowerBrTable instr subject state = .ok () after) :
    ∃ layout front pieces, state.Gains (front ++ pieces.flatMap Fragment.parts) after ∧
      Dispatches subject state instr layout front pieces :=
  lowerBrTable_dispatches instr orderly opened reached few () after lowers

/-- The bodies of a function and of a block in it, where an operand is on the stack. -/
def choosing (value : Int32) : Compilation :=
  { offering value with
    blocks := Block.opened (offering value).blocks .block [] :: (offering value).blocks }

theorem choosing_orderly (limits : Limits) (host : Host) (value : Int32) :
    Orderly (serving limits host) (choosing value) := by
  have outside := offering_orderly limits host value
  refine outside.replace ⟨outside.books.sound, outside.books.tall, fun block member => ?_⟩ rfl
  apply outside.books.blocks
  simpa [choosing, offering, Block.opened, Block.innerReach] using member

/-- A table whose targets repeat. -/
def alternating : Instr where
  op := .brTable
  targets := [0, 1, 0]
  default := 1

theorem branchTable_dispatches_alternating :
    ∃ after, lowerBrTable alternating (growing 1) (choosing 2) = .ok () after ∧
      ∃ layout front pieces, (choosing 2).Gains (front ++ pieces.flatMap Fragment.parts) after ∧
        Dispatches (growing 1) (choosing 2) alternating layout front pieces := by
  obtain ⟨_, after, lowers⟩ : ∃ value after,
      lowerBrTable alternating (growing 1) (choosing 2) = .ok value after :=
    exists_of_ends (by decide +kernel)
  exact ⟨after, lowers, branchTable_dispatches (choosing_orderly _ _ 2) rfl rfl (by decide) lowers⟩

end WasmX64
