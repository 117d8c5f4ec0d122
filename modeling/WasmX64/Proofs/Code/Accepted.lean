import WasmX64.Proofs.Code.Continued

/-!
# Short sequences are accepted

A sequence whose instructions may be given their operands, which fixes each of its places once
and which is short enough for one-byte displacements is placed without an error, whatever the
code before it is.
-/

namespace WasmX64

namespace Step

/-- An instruction has operands that it may be given, and no error is reported. -/
def Valid : Step → Prop
  | .emit instruction => instruction.Valid
  | .fail _ => False
  | _ => True

/-- As many bytes as a step may take. -/
def room : Step → Nat
  | .emit instruction => instruction.length
  | .jump _ _ | .jumpIf _ _ _ => 6
  | _ => 0

/-- The place that a step fixes. -/
def place? : Step → Option Nat
  | .bind (.inner number) => some number
  | _ => none

end Step

/-- As many bytes as a sequence may take. -/
def Sequence.room : List Step → Nat
  | [] => 0
  | step :: rest => step.room + room rest

theorem Sequence.room_append (first second : List Step) :
    room (first ++ second) = room first + room second := by
  induction first with
  | nil => exact (Nat.zero_add _).symm
  | cons step rest ih =>
    rw [List.cons_append, room, room, ih, Nat.add_assoc]

/-! ## Instructions without an address -/

section Lengths

/-- An encoding, if there is one, takes ten bytes at most. -/
def Brief (result : Except CodeError (List UInt8)) : Prop :=
  ∀ bytes, result = .ok bytes → bytes.length ≤ 10

variable {α : Type}

theorem brief_bind {first : Except CodeError α} {next : α → Except CodeError (List UInt8)}
    (brief : ∀ value, Brief (next value)) : Brief (first >>= next) := by
  cases first with
  | error error => exact fun _ same => nomatch same
  | ok value => exact brief value

theorem brief_ok {bytes : List UInt8} (few : bytes.length ≤ 10) : Brief (.ok bytes) :=
  fun _ same => Except.ok.inj same ▸ few

theorem brief_pure {bytes : List UInt8} (few : bytes.length ≤ 10) : Brief (pure bytes) :=
  brief_ok few

theorem OpcodeForm.length_rex_le (form : OpcodeForm) (reg rm : UInt8) :
    (form.rex reg rm).length ≤ 1 := by
  unfold OpcodeForm.rex
  dsimp only
  split
  · exact Nat.zero_le 1
  · exact Nat.le_refl 1

theorem OpcodeForm.length_withReg_le (form : OpcodeForm) (reg : UInt8) (rm : Register) :
    (form.withReg reg rm).length ≤ form.opcode.length + 3 := by
  have legacy : form.legacy.toList.length ≤ 1 := by
    cases form.legacy with
    | none => exact Nat.zero_le 1
    | some byte => exact Nat.le_refl 1
  have rex := form.length_rex_le reg (RmOperand.ofRegister rm).rex
  simp only [OpcodeForm.withReg, OpcodeForm.bytes, RmOperand.bytes, RmOperand.ofRegister,
    Option.toList_none, List.length_append, List.length_cons, List.length_nil] at rex ⊢
  omega

theorem length_shortForm_le (wide : Bool) (opcode : UInt8) (reg : Register) :
    (Instruction.shortForm wide opcode reg).length ≤ 2 := by
  have single (rex : UInt8) : (if rex = 0 then [] else [rex]).length ≤ 1 := by
    split
    · exact Nat.zero_le 1
    · exact Nat.le_refl 1
  unfold Instruction.shortForm
  rw [List.length_append]
  exact Nat.succ_le_succ (single _)

theorem Extension.length_opcode_le (extension : Extension) : extension.opcode.length ≤ 2 := by
  unfold Extension.opcode
  repeat' split
  all_goals exact Nat.le_of_ble_eq_true rfl

theorem brief_withReg {form : OpcodeForm} (few : form.opcode.length ≤ 3) (reg : UInt8)
    (rm : Register) : Brief (pure (form.withReg reg rm)) := by
  apply brief_pure
  have front := form.length_withReg_le reg rm
  omega

/-- The same before an immediate of four bytes at most. -/
theorem brief_withReg_imm {form : OpcodeForm} {imm : List UInt8}
    (few : form.opcode.length ≤ 3) (short : imm.length ≤ 4) (reg : UInt8) (rm : Register) :
    Brief (pure (form.withReg reg rm ++ imm)) := by
  apply brief_pure
  have front := form.length_withReg_le reg rm
  rw [List.length_append]
  omega

theorem brief_shortForm_imm {imm : List UInt8} (short : imm.length ≤ 8) (wide : Bool)
    (opcode : UInt8) (reg : Register) :
    Brief (pure (Instruction.shortForm wide opcode reg ++ imm)) := by
  apply brief_pure
  have front := length_shortForm_le wide opcode reg
  rw [List.length_append]
  omega

theorem brief_withImm {short long : List UInt8} (few : short.length ≤ 6)
    (others : long.length ≤ 6) (imm : Int32) :
    Brief (Instruction.withImm imm (.ok short) (.ok long)) := by
  unfold Instruction.withImm
  split
  · apply brief_pure
    rw [List.length_append]
    exact Nat.le_trans (Nat.add_le_add_right few 1) (by decide)
  · apply brief_pure
    rw [List.length_append]
    exact Nat.add_le_add_right others 4

theorem brief_moveConstant (dst : Register) (imm : Int64) :
    Brief (pure (Instruction.moveConstant dst imm)) := by
  unfold Instruction.moveConstant
  split
  · exact brief_withReg_imm (by simp [Instruction.integerForm]) (by simp [length_bytes32]) _ _
  · split
    · exact brief_shortForm_imm (by simp [length_bytes32]) _ _ _
    · exact brief_shortForm_imm (by simp [length_bytes64]) _ _ _

/-- An instruction without an address takes ten bytes at most. -/
theorem Instruction.encode_brief {instruction : Instruction}
    (registers : instruction.demands.addresses = []) : Brief instruction.encode := by
  cases instruction with
  | aluLoad | lea | load | store | extendLoad | aluStoreImm | storeImm | storeByte | storeWord
  | pushLoad | jmpLoad | floatLoad | floatStore => cases registers
  | mov type dst src =>
    rw [encode]
    split
    · exact brief_bind fun _ => brief_withReg (by simp) _ _
    · exact brief_bind fun _ => brief_bind fun _ => brief_withReg (by simp [integerForm]) _ _
  | movImm type dst imm =>
    refine brief_bind fun _ => brief_bind fun _ => ?_
    split
    · exact brief_shortForm_imm (by simp [length_bytes32]) _ _ _
    · exact brief_moveConstant _ _
  | movabs =>
    exact brief_bind fun _ => brief_shortForm_imm (by simp [length_bytes64]) _ _ _
  | aluImm =>
    refine brief_bind fun _ => brief_bind fun _ => brief_withImm ?_ ?_ _
    · exact Nat.le_trans (OpcodeForm.length_withReg_le _ _ _) (by simp [integerForm])
    · exact Nat.le_trans (OpcodeForm.length_withReg_le _ _ _) (by simp [integerForm])
  | pushImm imm => exact brief_withImm (by simp) (by simp) imm
  | enterFrame =>
    exact brief_withReg_imm (by simp [integerForm]) (by simp [length_bytes32]) _ _
  | extend extension =>
    refine brief_bind fun _ => brief_bind fun _ => brief_withReg ?_ _ _
    exact Nat.le_succ_of_le extension.length_opcode_le
  | _ =>
    rw [encode]
    repeat' first
      | exact brief_withReg (by simp [integerForm]) _ _
      | exact brief_withReg_imm (by simp [integerForm]) (by simp [length_bytes32]) _ _
      | exact brief_pure (Nat.le_trans (length_shortForm_le _ _ _) (by decide))
      | exact brief_ok (by decide)
      | refine brief_bind fun _ => ?_

theorem Instruction.length_le {instruction : Instruction}
    (registers : instruction.demands.addresses = []) : instruction.length ≤ 10 := by
  cases encodes : instruction.encode with
  | error error =>
    rw [length, encodes]
    exact Nat.zero_le 10
  | ok bytes =>
    rw [length_eq encodes]
    exact encode_brief registers bytes encodes

end Lengths

/-! ## Sequences that fit -/

/-- The steps of a sequence are accepted and take no more bytes than a bound. -/
structure Sequence.Fits (bound : Nat) (steps : List Step) : Prop where
  valid : ∀ step ∈ steps, step.Valid
  room : Sequence.room steps ≤ bound

namespace Sequence

variable {bound more : Nat} {first second steps : List Step} {instruction : Instruction}

theorem Fits.mono (fits : Fits bound steps) (few : bound ≤ more) : Fits more steps :=
  ⟨fits.valid, Nat.le_trans fits.room few⟩

theorem Fits.append (front : Fits bound first) (back : Fits more second) :
    Fits (bound + more) (first ++ second) := by
  constructor
  · exact fun step member => (List.mem_append.mp member).elim (front.valid step)
      (back.valid step)
  · rw [Sequence.room_append]
    exact Nat.add_le_add front.room back.room

theorem Fits.ite {condition : Prop} [Decidable condition] (yes : Fits bound first)
    (no : Fits bound second) : Fits bound (if condition then first else second) := by
  split
  · exact yes
  · exact no

theorem fits_nil : Fits 0 [] := ⟨List.forall_mem_nil _, Nat.le_refl 0⟩

theorem fits_one {step : Step} (valid : step.Valid) (room : step.room ≤ bound) :
    Fits bound [step] :=
  ⟨fun _ member => List.mem_singleton.mp member ▸ valid, room⟩

theorem fits_emit (valid : instruction.Valid)
    (registers : instruction.demands.addresses = []) : Fits 10 [.emit instruction] :=
  fits_one valid (Instruction.length_le registers)

theorem fits_jump (target : Target) (distance : Distance) : Fits 6 [.jump target distance] :=
  fits_one trivial (Nat.le_refl 6)

theorem fits_jumpIf (condition : Condition) (target : Target) (distance : Distance) :
    Fits 6 [.jumpIf condition target distance] :=
  fits_one trivial (Nat.le_refl 6)

theorem fits_bind (target : Target) : Fits 0 [.bind target] :=
  fits_one trivial (Nat.le_refl 0)

end Sequence

namespace Code

section Sizes

variable {code : Code} {target : Label} {distance : Distance}

theorem size_append_le (code : Code) (bytes : List UInt8) :
    (code.append bytes).size ≤ code.size + bytes.length := by
  cases failed : code.error with
  | none => exact Nat.le_of_eq (size_append failed)
  | some error =>
    rw [append, failed]
    exact Nat.le_add_right _ _

theorem size_fail (code : Code) (error : CodeError) : (code.fail error).size = code.size :=
  (Rewrites.fail code error).same.size

theorem size_await_le : (code.await target distance).size ≤ code.size + distance.width := by
  have linked : (code.link target distance).size ≤ code.size + distance.width := by
    have appended := size_append_le code (distance.bytes (code.reference target distance))
    rwa [Distance.length_bytes] at appended
  have refused (error : CodeError) : (code.fail error).size ≤ code.size + distance.width :=
    Nat.le_trans (Nat.le_of_eq (size_fail code error)) (Nat.le_add_right _ _)
  cases bound : (code.label target).isBound with
  | true =>
    obtain ⟨position, state⟩ := LabelInfo.isBound_iff.mp bound
    obtain ⟨far, near, _⟩ := bound_refused state
    cases distance with
    | near =>
      rw [await, near]
      exact refused _
    | far =>
      rw [await, far]
      exact refused _
  | false =>
    cases distance with
    | far =>
      rw [await, linkFar_eq bound]
      exact linked
    | near =>
      rw [await, linkNear_eq bound]
      split
      · exact refused _
      · exact linked

theorem length_jumpOpcode_le (condition : Option Condition) (distance : Distance) :
    (Item.jumpOpcode condition distance).length + distance.width ≤ 6 := by
  cases condition with
  | none => cases distance <;> decide
  | some condition => cases distance <;> exact Nat.le_of_ble_eq_true rfl

/-- A jump takes six bytes at most. -/
theorem size_jumpWith_le (condition : Option Condition) :
    (code.jumpWith (Item.jumpOpcode condition .near) (Item.jumpOpcode condition .far) target
      distance).size ≤ code.size + 6 := by
  have near := length_jumpOpcode_le condition .near
  have far := length_jumpOpcode_le condition .far
  have width := length_jumpOpcode_le condition distance
  cases bound : (code.label target).isBound with
  | false =>
    rw [jumpWith_unbound bound, Assembled.opcode_jumpOpcode]
    have opened := size_append_le code (Item.jumpOpcode condition distance)
    have linked : ((code.append (Item.jumpOpcode condition distance)).await target distance).size ≤
        (code.append (Item.jumpOpcode condition distance)).size + distance.width := size_await_le
    omega
  | true =>
    obtain ⟨position, state⟩ := LabelInfo.isBound_iff.mp bound
    unfold jumpWith
    rw [state]
    dsimp only
    split
    · apply Nat.le_trans (size_append_le _ _)
      rw [List.length_append]
      exact Nat.add_le_add_left near _
    · split
      · rw [size_fail]
        exact Nat.le_add_right _ _
      · apply Nat.le_trans (size_append_le _ _)
        rw [List.length_append]
        exact Nat.add_le_add_left far _

theorem size_emit_le (code : Code) (instruction : Instruction) :
    (code.emit instruction).size ≤ code.size + instruction.length := by
  cases encodes : instruction.encode with
  | error error =>
    rw [emit, encodes, size_fail]
    exact Nat.le_add_right _ _
  | ok bytes =>
    rw [emit, encodes, Instruction.length_eq encodes]
    exact size_append_le code bytes

theorem size_placeStep_le (base : Nat) (code : Code) (step : Step) :
    (placeStep base code step).size ≤ code.size + step.room := by
  cases step with
  | emit instruction => exact size_emit_le code instruction
  | jump => exact size_jumpWith_le none
  | jumpIf condition => exact size_jumpWith_le (some condition)
  | bind target => exact Nat.le_of_eq (size_bind code _)
  | fail error => exact Nat.le_of_eq (size_fail code error)

theorem size_placeSteps_le (base : Nat) (steps : List Step) (code : Code) :
    (steps.foldl (placeStep base) code).size ≤ code.size + Sequence.room steps := by
  induction steps generalizing code with
  | nil => exact Nat.le_refl _
  | cons step rest ih =>
    have here := size_placeStep_le base code step
    have later := ih (placeStep base code step)
    have total : Sequence.room (step :: rest) = step.room + Sequence.room rest := rfl
    rw [List.foldl_cons]
    omega

end Sizes

section Acceptance

variable {base start : Nat} {labels : List Label} {places : List Nat} {code : Code}
  {listing : List Placed} {pending : List Use} {settled : List Landing} {step : Step}
  {steps : List Step} {target : Label} {distance : Distance}

theorem Linked.bind_accepted (linked : Linked code pending settled)
    (small : code.size < 2147483648) (unbound : (code.label target).isBound = false)
    (close : ¬ Strays pending target code.size) : (code.bind target).error = none := by
  have far := (linked.walk_far small target).1
  have error := (linked.walk_near far close).1.error
  rw [bind_eq unbound]
  change (code.fillIn target).error = none
  rw [fillIn, error, far.error, linked.sound]

/-- A jump is accepted if a one-byte displacement reaches the position of its label, or the use
before it. -/
theorem Linked.jump_accepted (linked : Linked code pending settled)
    (condition : Option Condition)
    (reaches : distance = .near → ∀ position, (code.label target).state = .bound position →
      code.size ≤ position + 126)
    (chains : distance = .near → ∀ use ∈ pending, use.target = target →
      code.size ≤ use.site + 127) :
    (code.jumpWith (Item.jumpOpcode condition .near) (Item.jumpOpcode condition .far) target
      distance).error = none := by
  have single : (Item.jumpOpcode condition .near).length = 1 := by cases condition <;> rfl
  cases bound : (code.label target).isBound with
  | false =>
    rw [jumpWith_unbound bound, Assembled.opcode_jumpOpcode]
    have grown := linked.append (Item.jumpOpcode condition distance)
    have unbound : ((code.append (Item.jumpOpcode condition distance)).label target).isBound =
        false := by rwa [Code.label, labels_append]
    cases distance with
    | far =>
      rw [Code.await, linkFar_eq unbound, link_error]
      exact grown.sound
    | near =>
      rw [Code.await, linkNear_eq unbound, if_neg, link_error]
      · exact grown.sound
      · have size : (code.append (Item.jumpOpcode condition .near)).size = code.size + 1 := by
          rw [size_append linked.sound, single]
        rw [reference]
        cases found : ((code.append (Item.jumpOpcode condition .near)).label target).latest
            .near with
        | none => simp
        | some site =>
          have latest := linked.latest .near target
          rw [Code.label, labels_append] at found
          have waits : site ∈ sites pending .near target :=
            List.mem_of_mem_head? (latest.symm.trans found)
          have close := chains rfl _ (mem_sites.mp waits) rfl
          simp only [Option.getD_some, size]
          dsimp only at close
          omega
  | true =>
    obtain ⟨position, state⟩ := LabelInfo.isBound_iff.mp bound
    have behind := linked.behind target position state
    unfold Code.jumpWith
    rw [state]
    dsimp only
    split
    · rw [error_append]
      exact linked.sound
    · rename_i long
      split
      · rename_i near
        have close := reaches near position state
        refine absurd ?_ long
        rw [single]
        simp only [fitsInt8, Bool.and_eq_true, decide_eq_true_eq]
        omega
      · rw [error_append]
        exact linked.sound

/-- The labels from a base on are used and fixed from an offset on. -/
structure Confined (base start : Nat) (code : Code) (pending : List Use) : Prop where
  uses : ∀ use ∈ pending, base ≤ use.target.index → start ≤ use.site
  places : ∀ label position, base ≤ label.index →
    (code.label label).state = .bound position → start ≤ position

theorem bound_placeStep (reserved : Reserved base labels places code)
    (resolves : step.Resolves labels places) (fine : (placeStep base code step).error = none)
    {label : Label} {position : Nat}
    (found : ((placeStep base code step).label label).state = .bound position) :
    (code.label label).state = .bound position ∨
      (∃ number, step.place? = some number ∧ label = ⟨base + number⟩) ∧ position = code.size := by
  cases step with
  | emit instruction =>
    obtain ⟨_, bytes, encodes⟩ := emit_clean fine
    rw [placeStep, emit, encodes] at found
    dsimp only at found
    rw [Code.label, labels_append] at found
    exact .inl found
  | jump => exact .inl (bound_jumpWith (reserved.known resolves).1 fine found)
  | jumpIf => exact .inl (bound_jumpWith (reserved.known resolves.2).1 fine found)
  | fail error => exact absurd fine (fail_error code error)
  | bind target =>
    obtain ⟨number, member, rfl⟩ := resolves
    have known := reserved.inside number member
    by_cases same : label = ⟨base + number⟩
    · subst same
      cases bound : (code.label ⟨base + number⟩).isBound with
      | true =>
        obtain ⟨there, state⟩ := LabelInfo.isBound_iff.mp bound
        change (code.bind ⟨base + number⟩).error = none at fine
        rw [(bound_refused state).2.2] at fine
        exact absurd fine (fail_error code _)
      | false =>
        have here := label_bind known bound ⟨base + number⟩
        change ((code.bind ⟨base + number⟩).label ⟨base + number⟩).state = _ at found
        rw [here, if_pos rfl] at found
        cases found
        exact .inr ⟨⟨number, rfl, rfl⟩, rfl⟩
    · rw [← label_bind_other known same]
      exact .inl found

theorem Confined.placeStep {uses : List Use} {more : List Placed} {landings : List Landing}
    {fixed : Label → Prop} {kind : Label → Prop} (confined : Confined base start code pending)
    (reserved : Reserved base labels places code) (resolves : step.Resolves labels places)
    (fine : (Code.placeStep base code step).error = none) (behind : start ≤ code.size)
    (goes : Continued fixed (fun use => kind use.target ∧ code.size ≤ use.site)
      listing pending settled more uses landings) :
    Confined base start (Code.placeStep base code step) uses := by
  constructor
  · intro use member inner
    cases goes.later use member with
    | inl earlier => exact confined.uses use earlier inner
    | inr late => exact Nat.le_trans behind late.2
  · intro label position inner found
    cases bound_placeStep reserved resolves fine found with
    | inl earlier => exact confined.places label position inner earlier
    | inr here => exact here.2 ▸ behind

theorem Assembled.step_accepted (assembled : Assembled code listing pending settled)
    (confined : Confined base start code pending)
    (resolves : step.Resolves labels places) (valid : step.Valid)
    (free : ∀ number, step.place? = some number →
      (code.label ⟨base + number⟩).isBound = false)
    (room : code.size + step.room ≤ start + 127) (small : code.size < 2147483648) :
    (Code.placeStep base code step).error = none := by
  have linked := assembled.linked
  have jumps (condition : Option Condition) {target : Target} {distance : Distance}
      (known : target.Known labels places distance) (short : code.size + 6 ≤ start + 127) :
      (code.jumpWith (Item.jumpOpcode condition .near) (Item.jumpOpcode condition .far)
        (resolve base target) distance).error = none := by
    cases target with
    | missing => cases known
    | label label =>
      rw [known.2]
      exact linked.jump_accepted condition nofun nofun
    | inner number =>
      apply linked.jump_accepted condition
      · intro _ position state
        have late := confined.places _ position (Nat.le_add_right base number) state
        omega
      · intro _ use member same
        have late := confined.uses use member (same ▸ Nat.le_add_right base number)
        omega
  cases step with
  | emit instruction => exact (emitted_decodes code instruction).2.1 resolves valid linked.sound
  | jump target distance => exact jumps none resolves room
  | jumpIf condition target distance => exact jumps (some condition) resolves.2 room
  | fail error => cases valid
  | bind target =>
    obtain ⟨number, member, rfl⟩ := resolves
    refine linked.bind_accepted small (free number rfl) ?_
    rintro ⟨use, waits, same, near, beyond⟩
    have late := confined.uses use waits (same ▸ Nat.le_add_right base number)
    have finish : use.finish = use.site + use.distance.width := rfl
    rw [near] at finish
    simp only [Step.room, Distance.width] at room finish
    omega

theorem Assembled.steps_accepted (assembled : Assembled code listing pending settled)
    (reserved : Reserved base labels places code) (confined : Confined base start code pending)
    (behind : start ≤ code.size) (resolves : ∀ step ∈ steps, step.Resolves labels places)
    (valid : ∀ step ∈ steps, step.Valid)
    (once : (steps.filterMap Step.place?).Nodup)
    (free : ∀ number ∈ steps.filterMap Step.place?,
      (code.label ⟨base + number⟩).isBound = false)
    (room : code.size + Sequence.room steps ≤ start + 127) (small : start + 127 < 2147483648) :
    (steps.foldl (Code.placeStep base) code).error = none := by
  induction steps generalizing code listing pending settled with
  | nil => exact assembled.linked.sound
  | cons step rest ih =>
    have total : Sequence.room (step :: rest) = step.room + Sequence.room rest := rfl
    have known := resolves step List.mem_cons_self
    have sized := size_placeStep_le base code step
    have grows := Extends.placeStep base code step
    have here : ∀ number, step.place? = some number →
        number ∈ (step :: rest).filterMap Step.place? := fun number fixes =>
      List.mem_filterMap.mpr ⟨step, List.mem_cons_self, fixes⟩
    have later : ∀ number ∈ rest.filterMap Step.place?,
        number ∈ (step :: rest).filterMap Step.place? := by
      intro number member
      obtain ⟨other, there, fixes⟩ := List.mem_filterMap.mp member
      exact List.mem_filterMap.mpr ⟨other, List.mem_cons_of_mem _ there, fixes⟩
    have fine := assembled.step_accepted confined known (valid step List.mem_cons_self)
      (fun number fixes => free number (here number fixes)) (by omega) (by omega)
    obtain ⟨_, _, _, reads, goes⟩ := assembled.placeStep reserved known fine (by omega)
    apply ih reads (reserved.extends grows)
      (confined.placeStep reserved known fine behind goes) (Nat.le_trans behind grows.size)
    · exact fun step member => resolves step (List.mem_cons_of_mem _ member)
    · exact fun step member => valid step (List.mem_cons_of_mem _ member)
    · rw [List.filterMap_cons] at once
      split at once
      · exact once
      · exact once.of_cons
    · intro number member
      apply Bool.eq_false_iff.mpr
      intro bound
      obtain ⟨position, state⟩ := LabelInfo.isBound_iff.mp bound
      cases bound_placeStep reserved known fine state with
      | inl earlier =>
        have unbound := free number (later number member)
        rw [LabelInfo.isBound, earlier] at unbound
        cases unbound
      | inr late =>
        obtain ⟨⟨other, fixes, same⟩, _⟩ := late
        have equal : number = other := Nat.add_left_cancel (congrArg Label.index same)
        rw [List.filterMap_cons, fixes, ← equal] at once
        exact (List.nodup_cons.mp once).1 member
    · omega

theorem Assembled.place_accepted (assembled : Assembled code listing pending settled)
    (closed : Sequence.Closed labels steps)
    (known : ∀ label ∈ labels, label.index < code.labels.size)
    (fits : Sequence.Fits 127 steps) (once : (steps.filterMap Step.place?).Nodup)
    (small : code.size + 127 < 2147483648) :
    (code.place steps).error = none ∧ (code.place steps).size ≤ code.size + 127 := by
  obtain ⟨places, resolves, fixes⟩ := closed
  have reserved := Reserved.of_known known fixes
  have grown := assembled.reserve (Step.innerCount steps)
  have unused : ∀ label : Label, code.labels.size ≤ label.index →
      (code.reserve (Step.innerCount steps)).label label = {} := by
    intro label outside
    rw [label_reserve, Code.label, Array.getElem?_eq_none outside]
    rfl
  have confined : Confined code.labels.size code.size (code.reserve (Step.innerCount steps))
      pending := by
    constructor
    · intro use member outside
      exact absurd (assembled.linked.index_lt member) (Nat.not_lt_of_le outside)
    · intro label position outside found
      rw [unused label outside] at found
      cases found
  rw [place_eq resolves]
  constructor
  · apply grown.steps_accepted reserved confined (Nat.le_refl _) resolves fits.valid once
    · intro number _
      rw [unused _ (Nat.le_add_right _ _)]
      rfl
    · exact Nat.add_le_add_left fits.room _
    · exact small
  · exact Nat.le_trans (size_placeSteps_le _ steps _) (Nat.add_le_add_left fits.room _)

end Acceptance

end Code

end WasmX64
