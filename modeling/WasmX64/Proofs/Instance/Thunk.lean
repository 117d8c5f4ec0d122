import WasmX64.Instance.Thunk
import WasmX64.Proofs.Processor.Stack
import WasmX64.Proofs.Traps.Report

/-!
# Running a thunk

A thunk runs straight through, but for the call.  Behind the call it goes on where the callee
returns to, or, when the callee traps, where the trap cell says; on either way the words that it
has pushed bring back the registers of the host.
-/

namespace WasmX64

theorem Instruction.encodeAll_append_ok {first second : List Instruction} {bytes : List UInt8}
    (encodes : encodeAll (first ++ second) = .ok bytes) :
    ∃ front back, encodeAll first = .ok front ∧ encodeAll second = .ok back ∧
      bytes = front ++ back := by
  induction first generalizing bytes with
  | nil => exact ⟨[], bytes, rfl, encodes, rfl⟩
  | cons instruction rest ih =>
    obtain ⟨row, others, encoded, further, rfl⟩ := encodeAll_cons_ok encodes
    obtain ⟨front, back, left, right, rfl⟩ := ih further
    exact ⟨row ++ front, back, encodeAll_cons encoded left, right,
      (List.append_assoc row front back).symm⟩

theorem Code.foldl_emit_fine {base : Nat} {instructions : List Instruction} {code : Code}
    (fine : ((instructions.map Step.emit).foldl (placeStep base) code).error = none) :
    ∃ bytes, Instruction.encodeAll instructions = .ok bytes := by
  induction instructions generalizing code with
  | nil => exact ⟨[], rfl⟩
  | cons instruction rest ih =>
    rw [List.map_cons, List.foldl_cons] at fine
    obtain ⟨more, others⟩ := ih fine
    have sound := (Extends.placeSteps base _ _).error fine
    cases encodes : instruction.encode with
    | ok bytes => exact ⟨bytes ++ more, Instruction.encodeAll_cons encodes others⟩
    | error error =>
      rw [placeStep, Code.emit, encodes] at sound
      exact absurd sound (fail_error code error)

theorem Code.place_fine {instructions : List Instruction} {code : Code}
    (fine : (code.place (instructions.map Step.emit)).error = none) :
    ∃ bytes, Instruction.encodeAll instructions = .ok bytes := by
  have complete : (instructions.map Step.emit).takeWhile Step.isComplete =
      instructions.map Step.emit := by
    rw [List.takeWhile_eq_self_iff]
    intro step member
    obtain ⟨instruction, _, rfl⟩ := List.mem_map.mp member
    rfl
  unfold place at fine
  rw [complete] at fine
  exact foldl_emit_fine fine

/-- Bytes in the middle of code are overwritten. -/
theorem Code.toList_overwrite (front old new back : List UInt8)
    (length : new.length = old.length) :
    (overwrite (front ++ old ++ back).toArray front.length new).toList = front ++ new ++ back := by
  induction new generalizing front old with
  | nil =>
    rw [List.length_nil, eq_comm, List.length_eq_zero_iff] at length
    simp [overwrite, length]
  | cons byte rest ih =>
    cases old with
    | nil => cases length
    | cons first others =>
      have replaced : (front ++ first :: others ++ back).toArray.setIfInBounds front.length byte
          = (front ++ [byte] ++ others ++ back).toArray := by
        simp [List.setIfInBounds_toArray]
      have further := ih (front ++ [byte]) others (Nat.succ.inj length)
      rw [List.length_append, List.length_singleton] at further
      rw [overwrite, replaced, further]
      simp

namespace Signature

/-- The number of words a caller pushes: the parameters on the stack and the padding. -/
def words (signature : Signature) : Nat :=
  signature.stackParams + if signature.needsPadding then 1 else 0

theorem words_even (signature : Signature) : signature.words % 2 = 0 := by
  unfold words needsPadding
  by_cases odd : signature.stackParams % 2 = 1
  · simp [odd]
    omega
  · simp [odd]
    omega

end Signature

/-- Whether a thunk can load a parameter: what is passed in a register has one of the four
types. -/
def Passing.isPassable : Passing → Bool
  | .reg type _ => type.isValid
  | .stack _ _ => true

/-- Whether a thunk can load every parameter. -/
def Signature.isPassable (signature : Signature) : Bool :=
  signature.params.all Passing.isPassable

/-- Whether a parameter is passed on the stack. -/
def Passing.onStack : Passing → Bool
  | .reg _ _ => false
  | .stack _ _ => true

theorem Signature.assign_count (gp fp : List Register) (taken : Nat) (types : List ValueType) :
    (assign gp fp taken types).2 =
      taken + (assign gp fp taken types).1.countP Passing.onStack := by
  induction types generalizing gp fp taken with
  | nil => rfl
  | cons type rest ih =>
    cases float : type.isFloat with
    | true =>
      cases fp with
      | nil =>
        simp [assign, float, List.countP_cons, Passing.onStack, ih gp [] (taken + 1)]
        omega
      | cons reg more => simp [assign, float, Passing.onStack, ih gp more taken]
    | false =>
      cases gp with
      | nil =>
        simp [assign, float, List.countP_cons, Passing.onStack, ih [] fp (taken + 1)]
        omega
      | cons reg more => simp [assign, float, Passing.onStack, ih more fp taken]

theorem Signature.ofType_count (type : FuncType) :
    (ofType type).params.countP Passing.onStack = (ofType type).stackParams := by
  have total := assign_count Register.gpArguments Register.fpArguments 0 type.params
  rw [Nat.zero_add] at total
  exact total.symm

namespace Thunk

/-- The instructions that keep the registers of the host on the stack and its stack pointer in
the trap cell. -/
def saving (cell : UInt64) : List Instruction :=
  saved.map .push ++
    [.aluImm .sub .i64 .rsp 8, .mov .i64 .rbx .rdi, .movabs .r10 cell,
      .store .i64 (.based .r10 trapCell.stackPointer) .rsp]

/-- The instructions that keep the address to resume at in the trap cell. -/
def marking (resume : UInt64) : List Instruction :=
  [.movabs .r11 resume, .store .i64 (.based .r10 trapCell.resume) .r11]

/-- The instructions that push the arguments on the stack. -/
def pushing (params : List (Passing × Nat)) : List Instruction :=
  params.reverse.flatMap fun (passing, index) =>
    match passing with
    | .stack _ _ => [.pushLoad (argument index)]
    | .reg _ _ => []

/-- The instructions that load the arguments in registers. -/
def loading (params : List (Passing × Nat)) : List Instruction :=
  params.flatMap fun (passing, index) =>
    match passing with
    | .reg type reg =>
      if type.isFloat then [.floatLoad type reg (argument index)]
      else [.load type reg (argument index)]
    | .stack _ _ => []

/-- The instructions that place the arguments. -/
def placing (signature : Signature) : List Instruction :=
  (if signature.needsPadding then [.pushImm 0] else []) ++
    pushing signature.params.zipIdx ++ loading signature.params.zipIdx

/-- The instructions that take the arguments from the stack. -/
def dropping (signature : Signature) : List Instruction :=
  if signature.words = 0 then []
  else [.aluImm .add .i64 .rsp (Int32.ofNat (8 * signature.words))]

/-- The instruction that brings a float result into `rax`. -/
def returning (signature : Signature) : List Instruction :=
  match signature.result with
  | some (.f32, _) => [.movFromFp .i32 .rax (.xmm 0)]
  | some (.f64, _) => [.movFromFp .i64 .rax (.xmm 0)]
  | _ => []

/-- The instructions that restore the registers of the host. -/
def restoring : List Instruction :=
  .aluImm .add .i64 .rsp 8 :: saved.reverse.map .pop

theorem placeArguments_eq (signature : Signature) :
    placeArguments signature = (placing signature).map .emit := by
  have pushes : ∀ params, pushStackArguments params = (pushing params).map .emit := by
    intro params
    unfold pushStackArguments pushing
    rw [List.map_flatMap]
    congr 1
    funext ⟨passing, index⟩
    cases passing <;> rfl
  have loads : ∀ params, loadRegisterArguments params = (loading params).map .emit := by
    intro params
    unfold loadRegisterArguments loading
    rw [List.map_flatMap]
    congr 1
    funext ⟨passing, index⟩
    cases passing with
    | stack _ _ => rfl
    | reg type reg =>
      dsimp only
      split
      · rfl
      · rfl
  unfold placeArguments placing
  simp only [pushes, loads, List.map_append]
  split
  · rfl
  · rfl

theorem collectResult_eq (signature : Signature) :
    collectResult signature = (dropping signature ++ returning signature).map .emit := by
  have drops : (dropping signature).map Step.emit =
      if signature.words = 0 then []
      else [.emit (.aluImm .add .i64 .rsp (Int32.ofNat (8 * signature.words)))] := by
    unfold dropping
    split
    · rfl
    · rfl
  have returns : (returning signature).map Step.emit =
      match signature.result with
      | some (.f32, _) => [.emit (.movFromFp .i32 .rax (.xmm 0))]
      | some (.f64, _) => [.emit (.movFromFp .i64 .rax (.xmm 0))]
      | _ => [] := by
    unfold returning
    split
    · rfl
    · rfl
    · rfl
  rw [List.map_append, drops, returns]
  rfl

/-- The bytes of a linked thunk: up to the call, from the call to where a trap resumes, and from
there to the final return. -/
structure Laid (signature : Signature) (target cell resume : UInt64)
    (code front middle back : List UInt8) : Prop where
  opens : Instruction.encodeAll (saving cell ++ marking resume ++ placing signature ++
    [.movabs .rax target]) = .ok front
  collects : Instruction.encodeAll (dropping signature ++ returning signature) = .ok middle
  restores : Instruction.encodeAll restoring = .ok back
  whole : code = front ++ [0xff, 0xd0] ++ middle ++ back ++ [0xc3]

theorem marking_encodes : ∃ rest, ∀ resume, Instruction.encodeAll (marking resume) =
    .ok ([0x49, 0xbb] ++ bytes64 resume ++ rest) :=
  ⟨_, fun _ => rfl⟩

end Thunk

theorem Code.grows_emit {instruction : Instruction} {bytes : List UInt8} (code : Code)
    (encodes : instruction.encode = .ok bytes) :
    code.Grows [instruction] (code.emit instruction) := by
  refine ⟨bytes ++ [], Instruction.encodeAll_cons encodes rfl, ?_⟩
  rw [Code.emit, encodes, List.append_nil]

namespace Thunk

/-- The code of a thunk has grown by its instructions, the address to resume at behind those that
save the host. -/
theorem build_grows {signature : Signature} {target cell : UInt64} {thunk : Thunk}
    (built : build signature target cell = .ok thunk) :
    ∃ opened called code : Code,
      Code.Grows {} (saving cell) opened ∧
      opened.Grows (marking placeholder ++ placing signature ++ [.movabs .rax target] ++
        .callReg .rax :: (dropping signature ++ returning signature)) called ∧
      called.Grows (restoring ++ [.ret]) code ∧
      thunk = ⟨code.bytes.toList, opened.size + 2, called.size⟩ := by
  unfold build at built
  rw [placeArguments_eq, collectResult_eq] at built
  simp only [Code.loadWide_eq] at built
  generalize entered : Code.place {} enter = code₁ at built
  generalize located : code₁.emit (.movabs .r10 cell) = code₂ at built
  generalize kept : code₂.place [.emit (.store .i64 (.based .r10 trapCell.stackPointer) .rsp)] =
    code₃ at built
  generalize marked : code₃.emit (.movabs .r11 placeholder) = code₄ at built
  generalize recorded : code₄.place [.emit (.store .i64 (.based .r10 trapCell.resume) .r11)] =
    code₅ at built
  generalize passed : code₅.place ((placing signature).map .emit) = code₆ at built
  generalize aimed : code₆.emit (.movabs .rax target) = code₇ at built
  generalize called : code₇.place
    (.emit (.callReg .rax) :: (dropping signature ++ returning signature).map .emit) =
      code₈ at built
  generalize left : code₈.place leave = code₉ at built
  cases fine : code₉.error with
  | some error =>
    rw [fine] at built
    cases built
  | none =>
    rw [fine] at built
    have fine₈ : code₈.error = none := (left ▸ Code.Extends.place code₈ leave).error fine
    have fine₇ : code₇.error = none := (called ▸ Code.Extends.place code₇ _).error fine₈
    have fine₆ : code₆.error = none := (aimed ▸ Code.Extends.emit code₆ _).error fine₇
    have fine₅ : code₅.error = none := (passed ▸ Code.Extends.place code₅ _).error fine₆
    have fine₄ : code₄.error = none := (recorded ▸ Code.Extends.place code₄ _).error fine₅
    have fine₃ : code₃.error = none := (marked ▸ Code.Extends.emit code₃ _).error fine₄
    have saves : Code.Grows {} (saving cell) code₃ := by
      have front : Code.Grows {} (saved.map .push ++
          [.aluImm .sub .i64 .rsp 8, .mov .i64 .rbx .rdi]) code₁ :=
        entered ▸ Code.grows_place {} rfl
      subst located kept
      exact (front.trans (Code.grows_emit _ rfl)).trans (Code.grows_place _ rfl)
    have marks : code₃.Grows (marking placeholder) code₅ := by
      subst marked recorded
      exact (Code.grows_emit _ rfl).trans (Code.grows_place _ rfl)
    have places : code₅.Grows (placing signature) code₆ := by
      obtain ⟨bytes, encodes⟩ := Code.place_fine (passed ▸ fine₆)
      subst passed
      exact Code.grows_place _ encodes
    have aims : code₆.Grows [.movabs .rax target] code₇ := by
      subst aimed
      exact Code.grows_emit _ rfl
    have calls : code₇.Grows (.callReg .rax :: (dropping signature ++ returning signature))
        code₈ := by
      change code₇.place ((Instruction.callReg .rax ::
        (dropping signature ++ returning signature)).map .emit) = code₈ at called
      obtain ⟨bytes, encodes⟩ := Code.place_fine (called ▸ fine₈)
      subst called
      exact Code.grows_place _ encodes
    have leaves : code₈.Grows (restoring ++ [.ret]) code₉ := by
      subst left
      exact Code.grows_place code₈ rfl
    refine ⟨code₃, code₈, code₉, saves, ((marks.trans places).trans aims).trans calls, leaves, ?_⟩
    rw [← Except.ok.inj built, Code.offset_loadWide fine₃ rfl]

/-- The thunk of a signature has its instructions one after the other, and resumes behind the
result. -/
theorem build_laid {signature : Signature} {target cell : UInt64} {thunk : Thunk}
    (built : build signature target cell = .ok thunk) (address : UInt64) :
    ∃ front middle back,
      Laid signature target cell (address + UInt64.ofNat thunk.resumeAt) (thunk.link address)
        front middle back ∧
      thunk.resumeAt = front.length + 2 + middle.length := by
  obtain ⟨opened, called, code, ⟨kept, saves, rfl⟩, ⟨more, goesOn, rfl⟩, ⟨last, leaves, rfl⟩, rfl⟩ :=
    build_grows built
  obtain ⟨opens, closes, opening, closing, rfl⟩ := Instruction.encodeAll_append_ok goesOn
  obtain ⟨front, aimed, placing, aims, rfl⟩ := Instruction.encodeAll_append_ok opening
  obtain ⟨marked, placed, marks, places, rfl⟩ := Instruction.encodeAll_append_ok placing
  obtain ⟨call, middle, calls, collects, rfl⟩ := Instruction.encodeAll_cons_ok closing
  obtain ⟨back, ret, restores, returns, rfl⟩ := Instruction.encodeAll_append_ok leaves
  obtain ⟨rest, marking⟩ := marking_encodes
  have call_eq : [0xff, 0xd0] = call := Except.ok.inj calls
  have ret_eq : [0xc3] = ret := Except.ok.inj returns
  cases (marking placeholder).symm.trans marks
  subst call_eq ret_eq
  have size : ∀ bytes : List UInt8, (Code.append {} bytes).size = bytes.length := fun bytes => by
    simp [Code.append, Code.size]
  have bytes : ∀ bytes : List UInt8, (Code.append {} bytes).bytes.toList = bytes := fun bytes => by
    simp [Code.append]
  simp only [Code.append_append, size, bytes]
  have eight : ∀ word, (bytes64 word).length = 8 := fun _ => rfl
  unfold link
  dsimp only
  generalize address + UInt64.ofNat _ = resume
  refine ⟨kept ++ ([0x49, 0xbb] ++ bytes64 resume ++ rest) ++ placed ++ aimed, middle, back,
    ⟨?_, collects, restores, ?_⟩, ?_⟩
  · exact Instruction.encodeAll_append (Instruction.encodeAll_append
      (Instruction.encodeAll_append saves (marking _)) places) aims
  · have place : ((kept.length : Int) + 2).toNat = (kept ++ [0x49, 0xbb]).length := by
      simp
      omega
    have linked := Code.toList_overwrite (kept ++ [0x49, 0xbb]) (bytes64 placeholder)
      (bytes64 resume) (rest ++ placed ++ aimed ++ [0xff, 0xd0] ++ middle ++ back ++ [0xc3])
      ((eight _).trans (eight _).symm)
    rw [place]
    simp only [List.append_assoc] at linked ⊢
    exact linked
  · simp [eight]
    omega

theorem pushing_encodes (params : List (Passing × Nat)) :
    ∃ bytes, Instruction.encodeAll (pushing params) = .ok bytes := by
  unfold pushing
  induction params.reverse with
  | nil => exact ⟨[], rfl⟩
  | cons param rest ih =>
    obtain ⟨bytes, encodes⟩ := ih
    obtain ⟨passing, index⟩ := param
    cases passing with
    | reg type reg => exact ⟨bytes, encodes⟩
    | stack type offset => exact ⟨_, Instruction.encodeAll_cons rfl encodes⟩

theorem argument_encodes {type : ValueType} {reg : Register} (valid : type.isValid = true)
    (suits : Compile.Suits type.regClass reg) (index : Nat) :
    ∃ row, (if type.isFloat then Instruction.floatLoad type reg (argument index)
      else .load type reg (argument index)).encode = .ok row := by
  have based : (argument index).encode = .ok (Address.encodeBase .rbx _) :=
    Address.encode_based rfl _
  cases float : type.isFloat with
  | true =>
    have vector : reg.isFp = true := by
      apply Register.isFp_of_regClass
      rw [suits.2, ValueType.regClass, float]
      rfl
    simp only [if_true, Instruction.encode, Instruction.needFloat, float, Instruction.needFp_cons,
      vector, Instruction.needFp_nil, OpcodeForm.withAddress, based]
    exact ⟨_, rfl⟩
  | false =>
    have general : reg.isGp = true := by
      apply Register.isGp_of_regClass (Register.isMachine_of_isAllocable suits.1)
      rw [suits.2, ValueType.regClass, float]
      rfl
    have integer : type.isInteger = true := by
      cases type with
      | i32 => rfl
      | i64 => rfl
      | f32 => cases float
      | f64 => cases float
      | unknown code => cases valid
    simp only [Bool.false_eq_true, if_false, Instruction.encode, Instruction.needInteger, integer,
      Instruction.needGp_cons, general, Instruction.needGp_nil, OpcodeForm.withAddress, based,
      if_true]
    exact ⟨_, rfl⟩

theorem loading_encodes {params : List (Passing × Nat)}
    (suits : ∀ type reg index, (.reg type reg, index) ∈ params →
      type.isValid = true ∧ Compile.Suits type.regClass reg) :
    ∃ bytes, Instruction.encodeAll (loading params) = .ok bytes := by
  unfold loading
  induction params with
  | nil => exact ⟨[], rfl⟩
  | cons param rest ih =>
    obtain ⟨bytes, encodes⟩ := ih fun type reg index member =>
      suits type reg index (List.mem_cons_of_mem _ member)
    obtain ⟨passing, index⟩ := param
    cases passing with
    | stack type offset => exact ⟨bytes, encodes⟩
    | reg type reg =>
      obtain ⟨valid, suited⟩ := suits type reg index List.mem_cons_self
      obtain ⟨row, encoded⟩ := argument_encodes valid suited index
      refine ⟨row ++ bytes, ?_⟩
      rw [List.flatMap_cons, ← Instruction.encodeAll_cons encoded encodes]
      dsimp only
      split
      · rfl
      · rfl

theorem placing_encodes {type : FuncType} (passable : (Signature.ofType type).isPassable = true) :
    ∃ bytes, Instruction.encodeAll (placing (.ofType type)) = .ok bytes := by
  obtain ⟨padding, pads⟩ : ∃ bytes, Instruction.encodeAll
      (if (Signature.ofType type).needsPadding then [.pushImm 0] else []) = .ok bytes := by
    split
    · exact ⟨_, rfl⟩
    · exact ⟨_, rfl⟩
  obtain ⟨pushed, pushes⟩ := pushing_encodes (Signature.ofType type).params.zipIdx
  obtain ⟨loaded, loads⟩ : ∃ bytes, Instruction.encodeAll
      (loading (Signature.ofType type).params.zipIdx) = .ok bytes := by
    apply loading_encodes
    intro param reg index member
    have listed := List.fst_mem_of_mem_zipIdx member
    exact ⟨List.all_eq_true.mp passable _ listed, Compile.passing_suits type listed⟩
  exact ⟨_, Instruction.encodeAll_append (Instruction.encodeAll_append pads pushes) loads⟩

theorem collecting_encodes (signature : Signature) :
    ∃ bytes, Instruction.encodeAll (dropping signature ++ returning signature) = .ok bytes := by
  have drops : ∃ bytes, Instruction.encodeAll (dropping signature) = .ok bytes := by
    unfold dropping
    split
    · exact ⟨_, rfl⟩
    · generalize Int32.ofNat (8 * signature.words) = imm
      obtain ⟨row, encoded⟩ : ∃ row, (Instruction.aluImm .add .i64 .rsp imm).encode = .ok row := by
        change ∃ row, Instruction.withImm imm (.ok _) (.ok _) = .ok row
        unfold Instruction.withImm
        split
        · exact ⟨_, rfl⟩
        · exact ⟨_, rfl⟩
      exact ⟨_, Instruction.encodeAll_cons encoded rfl⟩
  have returns : ∃ bytes, Instruction.encodeAll (returning signature) = .ok bytes := by
    unfold returning
    split
    · exact ⟨_, rfl⟩
    · exact ⟨_, rfl⟩
    · exact ⟨_, rfl⟩
  obtain ⟨dropped, drops⟩ := drops
  obtain ⟨returned, returns⟩ := returns
  exact ⟨_, Instruction.encodeAll_append drops returns⟩

/-- Functions whose arguments can be loaded have a thunk. -/
theorem build_of_passable {type : FuncType} (passable : (Signature.ofType type).isPassable = true)
    (target cell : UInt64) : ∃ thunk, build (.ofType type) target cell = .ok thunk := by
  obtain ⟨placed, places⟩ := placing_encodes passable
  obtain ⟨middle, collects⟩ := collecting_encodes (.ofType type)
  have places_sound : ∀ {instructions bytes} {code : Code},
      Instruction.encodeAll instructions = .ok bytes → code.error = none →
      (code.place (instructions.map .emit)).error = none := by
    intro instructions bytes code encodes sound
    rw [Code.place_emit _ encodes, Code.error_append, sound]
  have emits_sound : ∀ {instruction : Instruction} {bytes} {code : Code},
      instruction.encode = .ok bytes → code.error = none →
      (code.emit instruction).error = none := by
    intro instruction bytes code encodes sound
    rw [Code.emit, encodes, Code.error_append, sound]
  unfold build
  rw [placeArguments_eq, collectResult_eq]
  simp only [Code.loadWide_eq]
  have calls : Instruction.encodeAll (.callReg .rax :: (dropping (.ofType type) ++
      returning (.ofType type))) = .ok ([0xff, 0xd0] ++ middle) :=
    Instruction.encodeAll_cons rfl collects
  have leaves : ∃ bytes, Instruction.encodeAll (restoring ++ [.ret]) = .ok bytes := ⟨_, rfl⟩
  obtain ⟨back, leaves⟩ := leaves
  split
  case h_1 error failed =>
    have opened := places_sound (by rfl : Instruction.encodeAll (saved.map .push ++
      [.aluImm .sub .i64 .rsp 8, .mov .i64 .rbx .rdi]) = .ok _) (rfl : Code.error {} = none)
    have kept := places_sound (by rfl : Instruction.encodeAll
      [.store .i64 (.based .r10 trapCell.stackPointer) .rsp] = .ok _)
      (emits_sound (by rfl : (Instruction.movabs .r10 cell).encode = .ok _) opened)
    have marked := places_sound (by rfl : Instruction.encodeAll
      [.store .i64 (.based .r10 trapCell.resume) .r11] = .ok _)
      (emits_sound (by rfl : (Instruction.movabs .r11 placeholder).encode = .ok _) kept)
    have aimed := emits_sound (by rfl : (Instruction.movabs .rax target).encode = .ok _)
      (places_sound places marked)
    have fine := places_sound leaves (places_sound calls aimed)
    cases failed.symm.trans fine
  case h_2 fine => exact ⟨_, rfl⟩

theorem build_succeeds {type : FuncType} (valid : ∀ param ∈ type.params, param.isValid = true)
    (target cell : UInt64) : ∃ thunk, build (.ofType type) target cell = .ok thunk := by
  refine build_of_passable (List.all_eq_true.mpr fun passing listed => ?_) target cell
  cases passing with
  | stack param offset => rfl
  | reg param reg =>
    have typed := List.mem_map_of_mem (f := Passing.type) listed
    rw [Signature.ofType_types] at typed
    exact valid param typed

end Thunk

end WasmX64
