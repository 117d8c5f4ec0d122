import WasmX64.Proofs.Stack.Sketch

/-!
# Plain instructions and calls inside the frame

The operations behind plain instructions keep books and sketch, calls among them: what a call
pushes it takes off again.
-/

namespace WasmX64

open Sequence

/-- Books in order and a sketch of the code of a function that is placed by its type. -/
structure Sketching (origin : List Part) (floor : Int) (stage : Stage) (labels : List Label)
    (subject : Subject) (state : Compilation) : Prop where
  signature : subject.signature = .ofType subject.type
  books : Compile.Books subject state
  sketched : Sketched origin floor stage labels subject state

namespace Compile

variable {origin : List Part} {floor : Int} {stage : Stage} {words : Nat}
  {labels : List Label}
  {subject : Subject} {state : Compilation}

theorem sketched_materialize {reg : Register} {slot : Slot} {index : Int}
    (ordinary : reg.Ordinary) (provided : slot.Provided floor index) :
    Keeps (Sketched origin floor (.body words) labels) (materialize reg slot index) anything := by
  refine sketched_of_drafted (.materialize _ _ _) fun more others higher _ => ?_
  unfold materialize
  cases place : slot.place with
  | frame =>
    obtain ⟨positive, below⟩ := provided place
    exact drafted_straight (straight_loadFrom _ _ _)
      (tame_fill _ ordinary positive (Int.lt_of_lt_of_le below higher))
  | const value => exact drafted_straight (straight_loadConstant _ _ _) (tame_loadConstant _ ordinary _)
  | reg source => exact drafted_straight (straight_move _ _ _) (tame_move _ ordinary _)
  | unknown code => exact .done

theorem provided_top {slots : Int} {layout : Layout} {slot : Slot} (stored : layout.Stored slots)
    (top : layout.top? = some slot) : slot.Provided slots layout.pop.height := by
  have found : layout.slots[layout.pop.height]? = some slot := by
    rw [Layout.height, Layout.pop, Array.size_pop]
    rw [Layout.top?, Array.back?_eq_getElem?] at top
    exact top
  exact stored.held found

theorem takeRegister_sketches (books : Books subject state)
    (sketched : Sketched origin floor (.body words) labels subject state) (bank : RegClass)
    (wishes : List Register) (pinned : RegSet) :
    Ensures (takeRegister bank wishes pinned) subject state fun reg after =>
      Sketched origin state.output.frameSlots (.body words) labels subject after ∧
        after.layout.height = state.layout.height ∧ Suits bank reg := by
  refine ((stays_takeRegister bank wishes pinned _ _ _ subject state books.held).and
    (sketched_takeRegister bank wishes pinned subject state sketched.raise)).mono ?_
  rintro reg after ⟨⟨held, suits⟩, kept, _⟩
  exact ⟨kept, held.height, suits⟩

theorem popRegister_sketches (books : Books subject state)
    (sketched : Sketched origin floor (.body words) labels subject state) (pinned : RegSet) :
    Ensures (popRegister pinned) subject state fun _ after =>
      Sketched origin floor (.body words) labels subject after := by
  unfold popRegister
  refine (popSlot_before books).andThen ?_
  rintro slot _ ⟨top, rfl, tall⟩
  have stored := sketched.layout.pop
  split
  · simp only [ensures_bind, ensures_modifyLayout, ensures_pure]
    exact sketched.relayout (stored.congr Layout.slots_release)
  · rename_i place
    have below := books.relayout (books.sound.pop_plain top place) tall
    refine (takeRegister_sketches below (sketched.relayout stored) _ _ _).andThen ?_
    rintro reg taken ⟨kept, height, suits⟩
    rw [ensures_bind, ensures_get, ensures_bind, height]
    have provided := provided_top sketched.layout top
    refine (sketched_materialize suits.ordinary provided subject taken kept).mono ?_
    rintro _ after ⟨filled, _⟩
    exact ensures_pure.mpr (filled.lower sketched.drafted.room)

theorem dropOperand_sketches (books : Books subject state)
    (sketched : Sketched origin floor stage labels subject state) :
    Ensures dropOperand subject state fun _ after =>
      Sketched origin floor stage labels subject after := by
  unfold dropOperand
  refine (popSlot_before books).andThen ?_
  rintro slot _ ⟨top, rfl, tall⟩
  split
  · exact ensures_modifyLayout.mpr
      (sketched.relayout (sketched.layout.pop.congr Layout.slots_release))
  · exact ensures_pure.mpr (sketched.relayout sketched.layout.pop)

theorem sketched_push {slot : Slot} (outside : slot.place ≠ .frame)
    (known : ∀ code, slot.place ≠ .unknown code) :
    Keeps (Sketched origin floor stage labels) (modifyLayout (·.push slot)) anything :=
  sketched_modifyLayout fun _ _ stored => stored.push known fun place => absurd place outside

theorem sketched_pushRegister (type : ValueType) (reg : Register) :
    Keeps (Sketched origin floor stage labels) (pushRegister type reg) anything :=
  sketched_push (by simp [Slot.inReg]) (by simp [Slot.inReg])

theorem sketched_pushConst (type : ValueType) (value : Int32) :
    Keeps (Sketched origin floor stage labels) (pushConst type value) anything :=
  sketched_push (by simp [Slot.ofConst]) (by simp [Slot.ofConst])

theorem sketched_fill {type : ValueType} {reg : Register} {index : Int} (ordinary : reg.Ordinary)
    (positive : 0 ≤ index) (below : index < floor) :
    Keeps (Sketched origin floor (.body words) labels) (emit (fill type reg index)) anything :=
  sketched_of_drafted (.emit _) fun _ _ higher _ =>
    drafted_straight (straight_loadFrom _ _ _)
      (tame_fill _ ordinary positive (Int.lt_of_lt_of_le below higher))

theorem localGet_sketches (books : Books subject state)
    (sketched : Sketched origin floor (.body words) labels subject state) (index : UInt32) :
    Ensures (lowerLocalGet index) subject state fun _ after =>
      Sketched origin floor (.body words) labels subject after := by
  unfold lowerLocalGet
  refine (localSlot_finds index).andThen ?_
  rintro slot _ ⟨rfl, inside, found⟩
  split
  · exact (sketched_pushRegister _ _ subject _ sketched).mono fun _ _ => And.left
  · exact (sketched_pushConst _ _ subject _ sketched).mono fun _ _ => And.left
  · rename_i place
    refine (takeRegister_sketches books sketched _ _ _).andThen ?_
    rintro reg taken ⟨kept, _, suits⟩
    obtain ⟨positive, below⟩ := sketched.layout.held found place
    refine (Keeps.andThen (sketched_fill suits.ordinary positive below)
      (fun _ => sketched_pushRegister slot.type reg) subject taken kept).mono ?_
    exact fun _ _ both => both.1.lower sketched.drafted.room
  · exact ensures_pure.mpr sketched

theorem setLocalFromFrame_sketches {index : Nat} {slot top : Slot} (books : Books subject state)
    (sketched : Sketched origin floor (.body words) labels subject state)
    (found : state.layout.slots[index]? = some slot) (isTop : state.layout.top? = some top)
    (place : top.place = .frame) :
    Ensures (setLocalFromFrame index slot) subject state fun _ after =>
      Sketched origin floor (.body words) labels subject after := by
  have last : state.layout.slots[state.layout.height - 1]? = some top := by
    rw [← isTop, Layout.top?, Array.back?_eq_getElem?]
    rfl
  obtain ⟨positive, below⟩ := sketched.layout.held last place
  have plain : state.layout.PlainAt (state.layout.height - 1) := by
    intro other here
    rw [last] at here
    cases here
    exact Layout.reg?_plain (by simp [place])
  unfold setLocalFromFrame
  rw [ensures_bind, ensures_get]
  dsimp only
  split
  · rename_i reg held
    have own : slot.reg? = some reg := (Option.filter_eq_some_iff.mp held).1
    have ordinary := books.sound.ordinary (Array.mem_of_getElem? found) reg
      (Slot.reg?_eq_some_iff.mp own)
    refine (sketched_fill ordinary positive below subject state sketched.raise).mono ?_
    exact fun _ _ both => both.1.lower sketched.drafted.room
  · refine ((releaseLocal_balanced books.sound found).and
      (drafted_modifyLayout _ subject state sketched.whole)).andThen ?_
    rintro _ released ⟨⟨blocks, slots, balanced⟩, drafted, _⟩
    have freed := books.freed found plain blocks slots balanced
    -- the local is marked as stored before it is, so only the other slots are provided
    have hole : Spilling origin state.output.frameSlots words
        (labels ++ state.blocks.flatMap fun block => [block.label, block.elseLabel])
        (released.layout.setSlot index (.inFrame slot.type)) state.blocks subject
        { released with layout := released.layout.setSlot index (.inFrame slot.type) } :=
      ⟨drafted.congr rfl rfl rfl, fun _ _ found => .inl found, blocks⟩
    rw [ensures_bind, ensures_modifyLayout, ensures_bind]
    refine ((stays_takeRegister slot.type.regClass [] RegSet.empty _ _ _ subject _ freed).and
      (spilling_takeRegister slot.type.regClass [] RegSet.empty subject _ hole)).mono ?_
    rintro reg taken ⟨⟨_, suits⟩, spilling, _⟩
    rw [ensures_bind, ensures_emit, ensures_modifyLayout]
    have filled := spilling.drafted.straight (straight_loadFrom slot.type reg _)
      (tame_fill slot.type suits.ordinary positive below)
    constructor
    · exact ((filled.lower sketched.drafted.room).forget
        fun _ => List.mem_append_left _).congr rfl rfl rfl
    · refine sketched.layout.evolve filled.room fun place other listed => ?_
      rw [Layout.slots_retain, Layout.getElem?_setSlot] at listed
      split at listed
      · cases listed
        exact .inr (by simp [Slot.inReg])
      · rename_i outside
        cases spilling.slots place other listed with
        | inr framed => exact .inr ⟨by simp [framed.1], fun _ => framed.2⟩
        | inl before =>
          rw [Layout.getElem?_setSlot, slots] at before
          split at before
          · rename_i here
            refine absurd ⟨here.1, ?_⟩ outside
            rw [← here.1] at listed
            exact (Array.getElem?_eq_some_iff.mp listed).1
          · exact .inl before
    · exact spilling.blocks ▸ sketched.drawn (filled.congr rfl rfl rfl)

theorem sketched_takeOver {top : Slot} (index : Nat) (outside : top.place ≠ .frame)
    (known : ∀ code, top.place ≠ .unknown code) {next : Compile Unit}
    (rest : Keeps (Sketched origin floor stage labels) next anything) :
    Keeps (Sketched origin floor stage labels) (do
      releaseLocal index
      modifyLayout (·.setSlot index top)
      next) anything := by
  have releases : Keeps (Sketched origin floor stage labels) (releaseLocal index) anything := by
    refine sketched_sameSlots fun layout => ?_
    split
    · exact Layout.slots_release
    · rfl
  have places : Keeps (Sketched origin floor stage labels) (modifyLayout (·.setSlot index top))
      anything :=
    sketched_modifyLayout fun _ _ stored =>
      stored.setSlot index known fun place => absurd place outside
  exact releases.andThen fun _ => places.andThen fun _ => rest

theorem localSet_sketches (books : Books subject state)
    (sketched : Sketched origin floor (.body words) labels subject state) (index : UInt32) (keep : Bool) :
    Ensures (lowerLocalSet index keep) subject state fun _ after =>
      Sketched origin floor (.body words) labels subject after := by
  have pops : Keeps (Sketched origin floor (.body words) labels)
      (if !keep then modifyLayout Layout.pop else pure ()) anything :=
    .ite (sketched_modifyLayout fun _ _ => Layout.Stored.pop) .done
  unfold lowerLocalSet
  refine (localSlot_finds index).andThen ?_
  rintro slot _ ⟨rfl, inside, found⟩
  refine (expect_above books 0 slot.type).andThen ?_
  rintro _ after ⟨rfl, above⟩
  rw [ensures_bind, ensures_get]
  split
  · exact ensures_throw
  · rename_i top isTop
    cases place : top.place with
    | reg reg =>
      have retains : Keeps (Sketched origin floor (.body words) labels) (do
          if keep then modifyLayout (·.retain reg)
          if !keep then modifyLayout Layout.pop) anything :=
        .ite ((sketched_sameSlots fun _ => Layout.slots_retain).andThen fun _ => pops) pops
      refine (sketched_takeOver index.toNat (by simp [place]) (by simp [place]) retains
        subject after sketched).mono fun _ _ => And.left
    | const value =>
      refine (sketched_takeOver index.toNat (by simp [place]) (by simp [place]) pops
        subject after sketched).mono fun _ _ => And.left
    | frame =>
      dsimp only
      refine (setLocalFromFrame_sketches books sketched found isTop place).andThen ?_
      exact fun _ middle kept => (pops subject middle kept).mono fun _ _ => And.left
    | unknown code => exact (pops subject after sketched).mono fun _ _ => And.left

section Rules

theorem sketched_record (what : Happening) :
    Keeps (Sketched origin floor stage labels) (record what) anything :=
  sketched_of_drafted (.record what) fun _ _ _ _ => drafted_record what

theorem sketched_loadRef {target : Register} (general : target.General) (kind : RefKind)
    (index : UInt32) :
    Keeps (Sketched origin floor (.body words) labels) (loadRef target kind index) anything :=
  sketched_of_drafted (.loadRef _ _ _) fun _ _ _ _ => drafted_loadRef general kind index

theorem newLabel_sketches (sketched : Sketched origin floor stage labels subject state) :
    Ensures newLabel subject state fun label after =>
      Sketched origin floor stage (label :: labels) subject after := by
  refine (drafted_newLabel sketched.whole).mono ?_
  rintro label made ⟨drafted, layout, blocks, _⟩
  have all : Drafted origin state.output.frameSlots stage ((label :: labels) ++
      state.blocks.flatMap fun block => [block.label, block.elseLabel]) subject made := drafted
  constructor
  · exact (all.lower sketched.drafted.room).forget fun _ => List.mem_append_left _
  · rw [layout]
    exact sketched.layout.mono all.room
  · rw [blocks]
    exact sketched.drawn all

/-- A stub gets a label of its own. -/
theorem addTrap_sketches (sketched : Sketched origin floor stage labels subject state)
    (kind : TrapKind) : Ensures (addTrap kind) subject state fun label after =>
      Sketched origin floor stage (label :: labels) subject after := by
  unfold addTrap
  refine (newLabel_sketches sketched).andThen ?_
  intro label made kept
  rw [ensures_bind, ensures_modify, ensures_pure]
  refine ⟨⟨kept.drafted.room, kept.drafted.draws, kept.drafted.known, ?_⟩, kept.layout, kept.blocks⟩
  intro stub member
  cases Array.mem_push.mp member with
  | inl before => exact kept.drafted.stubs stub before
  | inr here =>
    rw [here]
    exact kept.drafted.known label List.mem_cons_self

theorem keeps_sketching {α : Type} {action : Compile α} {post : α → Prop}
    (books : Keeps Books action post)
    (sketches : ∀ subject state, Sketching origin floor stage labels subject state →
      Ensures action subject state fun _ after =>
        Sketched origin floor stage labels subject after) :
    Keeps (Sketching origin floor stage labels) action post := by
  intro subject state sketching
  refine ((books subject state sketching.books).and (sketches subject state sketching)).mono ?_
  exact fun _ _ both => ⟨⟨sketching.signature, both.1.1, both.2⟩, both.1.2⟩

theorem sketching_and {α : Type} {action : Compile α} {post : α → Prop}
    (books : Keeps Books action post)
    (sketches : Keeps (Sketched origin floor stage labels) action anything) :
    Keeps (Sketching origin floor stage labels) action post :=
  keeps_sketching books fun subject state sketching =>
    (sketches subject state sketching.sketched).mono fun _ _ => And.left

/-- The rules for plain instructions other than calls. -/
theorem sketching_regular (positive : 0 ≤ floor) (faults : List TrapKind) :
    Routine True faults fun labels => Sketching origin floor (.body 0) labels := by
  constructor
  · intro labels steps closed tame
    refine sketching_and (Books.idle (.emit steps)) ?_
    exact sketched_of_drafted (.emit steps) fun _ _ higher known =>
      drafted_jump closed known ((tame trivial).mono (Int.le_trans positive higher))
  · intro labels what
    exact sketching_and (Books.idle (.record what)) (sketched_record what)
  · intro labels target general kind index
    exact sketching_and (Books.idle (.loadRef target kind index))
      (sketched_loadRef (general trivial) kind index)
  · intro labels kind _ subject state sketching
    refine ((Books.idle (.addTrap kind) subject state sketching.books).and
      (addTrap_sketches sketching.sketched kind)).mono ?_
    exact fun _ _ both => ⟨sketching.signature, both.1.1, both.2⟩
  · intro label labels subject state sketching
    exact { sketching with
      sketched := sketching.sketched.forget fun _ => List.mem_cons_of_mem _ }
  · intro labels bank wishes pinned
    exact sketching_and (Books.keeps (stays_takeRegister bank wishes pinned))
      (sketched_takeRegister bank wishes pinned)
  · intro labels pinned
    exact keeps_sketching (keeps_popRegister pinned) fun _ _ sketching =>
      popRegister_sketches sketching.books sketching.sketched pinned
  · intro labels
    exact keeps_sketching keeps_dropOperand fun _ _ sketching =>
      dropOperand_sketches sketching.books sketching.sketched
  · intro labels depth
    exact Keeps.through (.operandType depth)
  · intro labels type reg suits
    exact sketching_and (keeps_pushRegister suits) (sketched_pushRegister type reg)
  · intro labels type value
    exact sketching_and (keeps_pushConst type value) (sketched_pushConst type value)
  · intro labels reg allocable
    exact sketching_and (Books.keeps (stays_vacate allocable))
      (sketched_of_spilling fun _ _ _ _ => spilling_vacate reg)
  · intro labels index
    exact keeps_sketching (keeps_localGet index) fun _ _ sketching =>
      localGet_sketches sketching.books sketching.sketched index
  · intro labels index keep
    exact keeps_sketching (keeps_localSet index keep) fun _ _ sketching =>
      localSet_sketches sketching.books sketching.sketched index keep
  · exact fun calls => absurd trivial calls

end Rules

end Compile

end WasmX64

/-!
## Calls inside the frame

Before a call as many words are pushed as there are parameters on the stack, and one more if that
number is odd; behind the call they are taken off again.
-/

namespace WasmX64

open Sequence

namespace Sketched

variable {origin : List Part} {floor : Int} {stage next : Stage} {words pushed : Nat}
  {labels : List Label} {subject : Subject} {state after : Compilation} {steps : List Step}

/-- A sequence leads from one stage to another. -/
theorem emit (sketched : Sketched origin floor stage labels subject state)
    (straight : Straight steps) (inside : ∀ step ∈ steps, step.Inside state.output.frameSlots)
    (goes : stage.through steps = some next) :
    Sketched origin floor next labels subject
      { state with output := state.output.emit steps } := by
  have closed : Closed [] steps := straight.closed
  have drafted := sketched.whole.emit closed (fun _ member => nomatch member) inside goes
  refine ⟨?_, sketched.layout, sketched.drawn drafted⟩
  exact (drafted.lower sketched.drafted.room).forget fun _ => List.mem_append_left _

/-- What a transfer adds. -/
theorem lays (sketched : Sketched origin floor (.body words) labels subject state)
    {output : Output} (lays : state.output.Lays words output pushed) :
    Sketched origin floor (.body pushed) labels subject { state with output } := by
  have drafted := sketched.whole.lays lays
  refine ⟨?_, sketched.layout.mono drafted.room, sketched.drawn drafted⟩
  exact (drafted.lower sketched.drafted.room).forget fun _ => List.mem_append_left _

end Sketched

/-- The arguments of a call with the places they come from: as many are passed on the stack as the
signature says. -/
theorem Signature.countP_arguments (type : FuncType) {slots : List (Slot × Nat)}
    (enough : type.params.length ≤ slots.length) :
    ((ofType type).params.zip slots).countP (·.1.onStack) = (ofType type).stackParams := by
  have length : (ofType type).params.length = type.params.length := by
    rw [← ofType_types, List.length_map]
  have params : ((ofType type).params.zip slots).map Prod.fst = (ofType type).params :=
    List.map_fst_zip (length ▸ enough)
  have counted := congrArg (List.countP Passing.onStack) params
  rw [List.countP_map, ofType_count] at counted
  exact counted

namespace TransferM

open Transfer

variable {slots : Int} {layout : Layout}

theorem passes_arguments (type : FuncType) (stored : layout.Stored slots) (first : Nat) :
    ∀ argument ∈ (Signature.ofType type).params.zip
        ((layout.slots.toList.drop first).zipIdx first), Passes slots argument := by
  rintro ⟨passing, slot, index⟩ member
  have passed := (List.of_mem_zip member).1
  have found : layout.slots[index]? = some slot := by
    have listed := List.mem_zipIdx_iff_le_and_getElem?_sub.mp (List.of_mem_zip member).2
    obtain ⟨above, there⟩ := listed
    rw [List.getElem?_drop, Nat.add_sub_cancel' above, Array.getElem?_toList] at there
    exact there
  constructor
  · rintro param reg rfl
    exact (Compile.passing_suits type passed).ordinary
  · exact stored.known slot (Array.mem_of_getElem? found)
  · exact stored.held found

/-- A register that may hold the target of a call is not one of those that delimit the frame. -/
theorem ordinary_first (free : RegSet) (reserved : ∀ reg, free.has reg = true →
    RegSet.reserved.has reg = false) : free.first.Ordinary := by
  unfold RegSet.first
  cases found : free.first? with
  | none => decide
  | some reg =>
    have member := reserved reg (RegSet.has_of_first? found)
    constructor
    · rintro rfl
      exact absurd member (by decide)
    · rintro rfl
      exact absurd member (by decide)

end TransferM

namespace Compile

open TransferM Transfer

variable {origin : List Part} {floor : Int} {stage : Stage} {words : Nat} {labels : List Label}
  {subject : Subject} {state : Compilation}

theorem passArguments_sketches {arguments : List (Passing × Slot × Nat)}
    (sketched : Sketched origin floor (.body words) labels subject state)
    (passes : ∀ argument ∈ arguments, Passes state.output.frameSlots argument) (layout : Layout)
    (moves : Prop) [Decidable moves] {held : Register} (ordinary : held.Ordinary)
    (target : Register) :
    Ensures (transfer layout do
      passArguments arguments
      if moves then TransferM.moveRegister held target .i64
      TransferM.execute) subject state fun _ after =>
        Sketched origin floor (.body (words + arguments.countP (·.1.onStack))) labels subject after ∧
          after.layout = state.layout := by
  have leads : Leads (Fenced state.output words words state.output.frameSlots) (do
      passArguments arguments
      if moves then TransferM.moveRegister held target .i64
      TransferM.execute) fun _ => Fenced state.output words
        (words + arguments.countP (·.1.onStack)) state.output.frameSlots := by
    refine (leads_passArguments passes).bind fun _ => Leads.ite (fun _ => ?_) fun _ => leads_execute
    exact (leads_moveRegister ordinary target .i64).bind fun _ => leads_execute
  refine (transfer_lays leads).mono ?_
  rintro _ after ⟨done, reached, rfl⟩
  exact ⟨sketched.lays reached.lays, rfl⟩

theorem prepareCall_sketches (books : Books subject state)
    (sketched : Sketched origin floor (.body 0) labels subject state) (type : FuncType)
    {target : Register} (ordinary : target.Ordinary) :
    Ensures (prepareCall type (.ofType type) target) subject state fun _ after =>
      Sketched origin floor (.body (Signature.ofType type).words) labels subject after := by
  unfold prepareCall innermost
  rw [ensures_bind, ensures_bind, ensures_get]
  split
  · rename_i block outer opened
    have floored := (books.blocks block (opened ▸ List.mem_cons_self)).floor
    rw [ensures_pure, ensures_bind, ensures_get]
    refine ensures_ite.mpr ⟨fun _ => ensures_bind.mpr ensures_throw, fun above => ?_⟩
    refine (demandArguments_finds type.params).andThen ?_
    rintro _ after ⟨rfl, _⟩
    refine ((storeBelow_plain _).and (sketched_of_spilling
      (fun _ _ _ _ => spilling_storeBelow _) subject after sketched)).andThen ?_
    rintro _ stored ⟨⟨_, height, _⟩, sketched, _⟩
    -- the arguments are passed with or without a word of padding below them
    have passes (words : Nat) {middle : Compilation}
        (sketched : Sketched origin floor (.body words) labels subject middle)
        (same : middle.layout = stored.layout) (moves : Prop) [Decidable moves] {held : Register}
        (ordinary : held.Ordinary) : Ensures (do
          transfer middle.layout do
            passArguments ((Signature.ofType type).params.zip ((middle.layout.slots.toList.drop
              (after.layout.height - type.params.length)).zipIdx
                (after.layout.height - type.params.length))).reverse
            if moves then TransferM.moveRegister held target .i64
            TransferM.execute
          modifyLayout fun layout =>
            { layout.forgetAll with
              slots := layout.slots.extract 0 (after.layout.height - type.params.length) }
          return held) subject middle fun _ final =>
            Sketched origin floor (.body (words + (Signature.ofType type).stackParams)) labels
              subject final := by
      have count : ((Signature.ofType type).params.zip ((middle.layout.slots.toList.drop
          (after.layout.height - type.params.length)).zipIdx
            (after.layout.height - type.params.length))).reverse.countP (·.1.onStack) =
          (Signature.ofType type).stackParams := by
        rw [List.countP_reverse]
        apply Signature.countP_arguments
        rw [List.length_zipIdx, List.length_drop, Array.length_toList, same]
        simp only [Layout.height] at above height ⊢
        omega
      refine (passArguments_sketches sketched (fun argument member => passes_arguments type
        sketched.layout _ argument (List.mem_reverse.mp member)) _ moves ordinary _).andThen ?_
      rintro _ passed ⟨kept, _⟩
      rw [ensures_bind, ensures_modifyLayout, ensures_pure]
      rw [count] at kept
      exact kept.relayout (kept.layout.extract _)
    have holds (signature : Signature) : (if target ≠ .absent ∧ signature.registers.has target then
        (((RegSet.ofClass .gp).diff signature.registers).diff RegSet.reserved).first
        else target).Ordinary := by
      split
      · apply ordinary_first
        intro reg free
        rw [RegSet.has_diff, Bool.and_eq_true, Bool.not_eq_true'] at free
        exact free.2
      · exact ordinary
    refine ensures_ite.mpr ⟨fun padded => ?_, fun plain => ?_⟩
    · have pushed := sketched.emit (@straight_one (.push .rax) rfl)
        (by simp [Step.Inside, Instruction.Inside]) (Stage.through_cons.mpr ⟨.body 1, rfl, rfl⟩)
      have words : (Signature.ofType type).words = 1 + (Signature.ofType type).stackParams := by
        rw [Signature.words, if_pos padded, Nat.add_comm]
      rw [ensures_bind, ensures_emit, ensures_bind, ensures_get, words]
      exact passes 1 pushed rfl _ (holds _)
    · have words : (Signature.ofType type).words = 0 + (Signature.ofType type).stackParams := by
        rw [Signature.words, if_neg plain, Nat.zero_add, Nat.add_zero]
      rw [ensures_bind, ensures_get, words]
      exact passes 0 sketched rfl _ (holds _)
  · exact ensures_throw

/-- A call with nothing pushed goes on inside the frame, any other stands before the words are
taken off. -/
theorem through_call (reg : Register) (signature : Signature) :
    (Stage.body signature.words).through [.emit (.callReg reg)] =
      some (if signature.words = 0 then .body 0 else .called signature.words) := by
  have even := signature.words_even
  refine Stage.through_cons.mpr ⟨_, ?_, rfl⟩
  rw [Stage.pass, Stage.after, Stage.inside, if_neg (by simp [Instruction.steady]), Stage.stir,
    if_neg (by omega)]
  split
  · rfl
  · rfl

/-- The result of a call is put on top. -/
theorem pushResult_sketches (signature : Signature)
    (sketched : Sketched origin floor (.body 0) labels subject state) :
    Ensures (match signature.result with
      | some (type, reg) => pushRegister type reg
      | none => pure ()) subject state fun _ after =>
        Sketched origin floor (.body 0) labels subject after := by
  split
  · exact (sketched_pushRegister _ _ subject state sketched).mono fun _ _ => And.left
  · exact ensures_pure.mpr sketched

theorem finishCall_sketches (type : FuncType) (sketched : Sketched origin floor
    (if (Signature.ofType type).words = 0 then .body 0 else .called (Signature.ofType type).words)
    labels subject state) :
    Ensures (finishCall (.ofType type)) subject state fun _ after =>
      Sketched origin floor (.body 0) labels subject after := by
  unfold finishCall
  refine ensures_ite.mpr ⟨fun pushed => ?_, fun nothing => ?_⟩
  · have some : (Signature.ofType type).words ≠ 0 := by
      rw [Signature.words]
      omega
    rw [if_neg some] at sketched
    rw [ensures_bind, ensures_emit]
    apply pushResult_sketches
    refine sketched.emit (straight_one (by rfl)) (by simp [Step.Inside, Instruction.Inside]) ?_
    exact Stage.through_cons.mpr ⟨_, if_pos rfl, rfl⟩
  · have none : (Signature.ofType type).words = 0 := by
      have zero : (Signature.ofType type).stackParams = 0 := by omega
      simp [Signature.words, Signature.needsPadding, zero]
    rw [if_pos none] at sketched
    exact pushResult_sketches _ sketched

theorem sketching_call (type : FuncType) {target : Register} (ordinary : target.Ordinary)
    (event : MachineEvent) {action : Register → Compile Unit}
    (books : ∀ held, Keeps Books (action held) anything)
    (makes : ∀ held subject state, Books subject state →
      Sketched origin floor (.body (Signature.ofType type).words) labels subject state →
      Ensures (action held) subject state fun _ after =>
        Sketched origin floor (if (Signature.ofType type).words = 0 then .body 0
          else .called (Signature.ofType type).words) labels subject after) :
    Keeps (Sketching origin floor (.body 0) labels) (do
      let held ← prepareCall type (.ofType type) target
      machine event (action held)
      finishCall (.ofType type)) anything := by
  have keeps : Keeps Books (do
      let held ← prepareCall type (.ofType type) target
      machine event (action held)
      finishCall (.ofType type)) anything :=
    (keeps_prepareCall _ _ _).andThen fun held =>
      (Keeps.machine (fun what => Books.idle (.record what)) (books held)).andThen fun _ =>
        @Routine.finishCall [] _ [] (routine []) type
  refine keeps_sketching keeps fun subject state sketching => ?_
  refine ((keeps_prepareCall type (.ofType type) target subject state sketching.books).and
    (prepareCall_sketches sketching.books sketching.sketched type ordinary)).andThen ?_
  rintro held prepared ⟨⟨books, _⟩, pushed⟩
  refine (ensures_machine fun events => ?_).andThen fun _ _ => finishCall_sketches type
  have seen : Sketched origin floor (.body (Signature.ofType type).words) labels subject
      { prepared with events } := ⟨pushed.drafted.congr rfl rfl rfl, pushed.layout, pushed.blocks⟩
  have kept : Books subject { prepared with events } := ⟨books.sound, books.tall, books.blocks⟩
  refine (makes held subject _ kept seen).mono ?_
  exact fun _ after made events => ⟨made.drafted.congr rfl rfl rfl, made.layout, made.blocks⟩

theorem callReg_sketches (type : FuncType) (reg : Register)
    (sketched : Sketched origin floor (.body (Signature.ofType type).words) labels subject state) :
    Ensures (emit [.emit (.callReg reg)]) subject state fun _ after =>
      Sketched origin floor (if (Signature.ofType type).words = 0 then .body 0
        else .called (Signature.ofType type).words) labels subject after :=
  ensures_emit.mpr (sketched.emit (straight_one (by rfl)) (by simp [Step.Inside, Instruction.Inside])
    (through_call reg _))

theorem sketching_lowerCall (index : UInt32) :
    Keeps (Sketching origin floor (.body 0) labels) (lowerCall index) anything := by
  refine Keeps.read.andThen fun subject => ?_
  split
  · exact .throw
  · rename_i type found
    refine (Routine.calleeSignature type).bind ?_
    rintro _ rfl
    refine sketching_call type (by decide) _ ?_ ?_
    · intro _
      exact (Books.keeps (stays_takeRegister _ _ _)).bind fun _ _ =>
        (Books.idle (.loadRef _ _ _)).andThen fun _ => Books.idle (.emit _)
    · intro _ subject state books sketched
      refine (takeRegister_sketches books sketched _ _ _).andThen ?_
      rintro address taken ⟨kept, _, suits⟩
      refine (sketched_loadRef suits.general _ _ subject taken kept).andThen ?_
      rintro _ loaded ⟨kept, _⟩
      exact callReg_sketches type address (kept.lower sketched.drafted.room)

theorem sketching_lowerCallIndirect (positive : 0 ≤ floor) (index : UInt32) :
    Keeps (Sketching origin floor (.body 0) labels) (lowerCallIndirect index) anything := by
  have rules := @sketching_regular origin floor positive Opcode.callIndirect.faults
  refine Keeps.read.andThen fun subject => ?_
  dsimp only
  split
  · exact .throw
  · rename_i type found
    refine (Routine.calleeSignature type).bind ?_
    rintro _ rfl
    refine (rules.expect _ _).andThen fun _ => (rules.popRegister _).andThen fun place =>
      (rules.takeRegister _ _ _).bind fun table held =>
      (rules.takeRegister _ _ _).bind fun entry suits =>
      rules.trap (by simp [Opcode.faults]) fun undefined =>
      (rules.loadRef (fun _ => held.general) _ _).andThen fun _ => (rules.emitTame ⟨[], ?_, (by simp)⟩ ?_).andThen
      fun _ => rules.trap (by simp [Opcode.faults]) fun mismatch =>
      (rules.loadRef (fun _ => held.general) _ _).andThen fun _ => (rules.emitTame ⟨[], ?_, (by simp)⟩ ?_).andThen
      fun _ => (rules.loadRef (fun _ => held.general) _ _).andThen fun _ =>
      (rules.emitStraight (straight_one (by rfl)) ?_).andThen fun _ =>
      sketching_call type suits.ordinary _ (fun _ => Books.idle (.emit _))
        fun callee _ _ _ sketched => callReg_sketches type callee sketched
    · simp +decide [Step.Resolves, Target.Known]
      exact ⟨rfl, rfl⟩
    · simp [Instruction.tame_iff, held.ordinary, @outside_frame 0 (.based table 0) held.ordinary]
    · simp +decide [Step.Resolves, Target.Known]
      exact ⟨rfl, rfl⟩
    · simp [Instruction.tame_iff, held.ordinary,
        @outside_frame 0 ⟨table, place, 4, 0⟩ held.ordinary]
    · simp [Instruction.tame_iff, suits.ordinary,
        @outside_frame 0 ⟨table, place, 8, 0⟩ held.ordinary]

end Compile

end WasmX64
