import Mathlib.Order.Bounds.Basic
import WasmX64.Instance.Load
import WasmX64.Proofs.Execution.Compiles

/-!
# Signature checks

An indirect call compares a number that the table holds for its entry with a number that the
compiler has put into the code.  Both are canonical indices of types, so the call goes on
exactly if the signature of the entry is the wanted one.
-/

namespace WasmX64

theorem Output.Adds.parts {first second : Output} (adds : first.Adds second)
    (refs : Array Reference) :
    ∃ parts, (second.code, refs) = List.foldl Part.place (first.code, refs) parts := by
  induction adds with
  | none => exact ⟨[], rfl⟩
  | @code middle _ steps _ ih =>
    obtain ⟨parts, placed⟩ := ih
    refine ⟨parts ++ [.steps steps], ?_⟩
    rw [List.foldl_append, ← placed]
    rfl
  | slot _ index ih =>
    rw [Output.code_needSlot]
    exact ih

/-- The check of a signature: the number of the entry is loaded from the table and compared
with the wanted one. -/
def signatureCheck (table index : Register) (mismatch : Label) (wanted : Int32) : List Part :=
  [.address table .tableSigs 0,
    .steps [.emit (.load .i32 table ⟨table, index, 4, 0⟩),
      .emit (.aluImm .cmp .i32 table wanted), .jumpIf .notEqual mismatch .far]]

namespace Compile

variable {α β : Type} {recording : Recording} {subject : Subject} {state origin : Compilation}

/-- An action that, if it ends without a fault, has put parts of code behind the code. -/
def Assembles ⦃α : Type⦄ (_ : Recording) (action : Compile α) : Prop :=
  ∀ subject before, Ensures action subject before fun _ after =>
    ∃ parts, before.Gains parts after

namespace Assembles

theorem bind {action : Compile α} {next : α → Compile β} (first : Assembles recording action)
    (second : ∀ value, Assembles recording (next value)) :
    Assembles recording (action >>= next) := by
  intro subject before
  refine (first subject before).andThen ?_
  rintro value middle ⟨parts, gained⟩
  refine (second value subject middle).mono ?_
  rintro _ after ⟨others, gains⟩
  exact ⟨parts ++ others, gained.append gains⟩

theorem silent {change : Compilation → Compilation}
    (same : ∀ state, (change state).text = state.text) :
    Assembles recording (modify change) := by
  intro subject before
  rw [ensures_modify]
  exact ⟨[], .of_text (same before)⟩

theorem record (what : Happening) : Assembles recording (record what) := by
  rintro subject before _ _ ⟨⟩
  exact ⟨[], rfl⟩

theorem transfer (source : Layout) {action : TransferM Unit} (calm : action.Calm) :
    Assembles recording (transfer source action) := by
  intro subject before
  refine (transfer_adds source calm).mono ?_
  rintro _ _ ⟨output, adds, rfl⟩
  obtain ⟨parts, placed⟩ := adds.parts before.refs
  exact ⟨parts, placed⟩

end Assembles

instance : Law (Unbounded Assembles) (fun _ _ => True) (fun _ => True) False where
  pure _ := fun _ _ => ensures_pure.mpr ⟨[], rfl⟩
  throw _ := fun _ _ => ensures_throw
  bind := Assembles.bind
  mono assembles _ := assembles
  look each _ := Assembles.bind (fun _ _ => ensures_get.mpr ⟨[], rfl⟩)
    fun state => each state False.elim
  askNames each _ := Assembles.bind (fun _ _ => ensures_read.mpr ⟨[], rfl⟩)
    fun subject => each subject fun _ _ _ => trivial
  lone _ _ := trivial
  emit steps := fun _ _ => ensures_emit.mpr ⟨[.steps steps], rfl⟩
  loadRef target kind index _ := fun _ _ =>
    ensures_modify.mpr ⟨[.address target kind index], rfl⟩
  newLabel := fun _ _ => ensures_modifyGet.mpr ⟨[.label], rfl⟩
  note silent _ _ := Assembles.silent fun state => Prod.ext (silent state).code (silent state).refs
  transfer _ within := Assembles.transfer _ within.calm
  machine _ _ _ inside :=
    (Assembles.record _).bind fun _ => Assembles.bind inside fun _ => Assembles.record _
  block _ := Assembles.record _

/-- An action goes on behind the parts that were added before. -/
theorem Assembles.onward {high : Nat} {action : Compile α} {next : α → Compile β}
    {parts : List Part} {post : β → Compilation → Prop}
    (assembles : Obeys (Unbounded Assembles) .machine 0 high action)
    (gained : origin.Gains parts state)
    (rest : ∀ value middle more, origin.Gains more middle →
      Ensures (next value) subject middle post) :
    Ensures (action >>= next) subject state post := by
  refine (assembles subject state).andThen ?_
  rintro value middle ⟨more, gains⟩
  exact rest value middle _ (gained.append gains)

def Stubbed (label : Label) (kind : TrapKind) (_ : Subject) (state : Compilation) : Prop :=
  ∃ stub ∈ state.stubs.toList, stub.label = label ∧ stub.kind = kind

/-- Nothing that is emitted takes a stub away. -/
instance stubbed_calm (label : Label) (kind : TrapKind) : Calm (Stubbed label kind) :=
  ⟨fun _ => Keeps.modify fun _ _ => id, fun _ => Keeps.modify fun _ _ => id,
    fun _ => Keeps.modify fun _ _ => id⟩

/-- What is emitted for an indirect call holds a check against the canonical index of the wanted
type, which jumps to a stub that reports a mismatch. -/
theorem lowerCallIndirect_checks (index : UInt32) :
    Ensures (lowerCallIndirect index) subject state fun _ after =>
      ∃ front table entry mismatch back,
        state.Gains (front ++ signatureCheck table entry mismatch
          (subject.module.canonicalType index).toInt32 ++ back) after ∧
        Stubbed mismatch .typeMismatch subject after := by
  unfold lowerCallIndirect
  rw [ensures_bind, ensures_read]
  dsimp only
  split
  · exact ensures_throw
  rename_i type found
  have start : state.Gains [] state := rfl
  refine Assembles.onward (Obeys.calleeSignature type) start fun signature _ _ gained => ?_
  refine Assembles.onward (Obeys.expect _ _) gained fun _ _ _ gained => ?_
  refine Assembles.onward (Obeys.popRegister _) gained fun entry _ _ gained => ?_
  refine Assembles.onward (Obeys.takeRegister _ _ _) gained fun table _ _ gained => ?_
  refine Assembles.onward (Obeys.takeRegister _ _ _) gained fun target _ _ gained => ?_
  refine Assembles.onward (Obeys.addTrap trivial) gained fun undefined _ _ gained => ?_
  refine Assembles.onward (Obeys.loadLone _ rfl _) gained fun _ _ _ gained => ?_
  refine Assembles.onward (Obeys.emit _) gained fun _ before front gained => ?_
  have traps : Ensures (addTrap .typeMismatch) subject before fun mismatch after =>
      before.Gains [.label] after ∧ Stubbed mismatch .typeMismatch subject after := by
    unfold addTrap newLabel
    simp only [ensures_bind, ensures_modifyGet, ensures_modify, ensures_pure]
    refine ⟨rfl, ⟨⟨before.output.code.labels.size⟩, .typeMismatch, before.instr⟩, ?_, rfl, rfl⟩
    rw [Array.toList_push]
    exact List.mem_concat_self
  refine traps.andThen ?_
  rintro mismatch labelled ⟨gains, stubbed⟩
  have assembles : Obeys (Unbounded Assembles) .machine 0 1 (do
      loadRef table .table 0
      emit [.emit (.load .i64 target ⟨table, entry, 8, 0⟩)]
      let callee ← prepareCall type signature target
      machine { kind := .call, index } (emit [.emit (.callReg callee)])
      finishCall signature) := by
    refine (Obeys.loadLone _ rfl _).andThen fun _ => (Obeys.emit _).andThen fun _ => ?_
    refine (Obeys.prepareCall _ _ _).andThen fun callee => ?_
    exact (Obeys.machine (by decide) (Obeys.emit _)).andThen fun _ => Obeys.finishCall _
  have keeps : Keeps (Stubbed mismatch .typeMismatch) (do
      loadRef table .table 0
      emit [.emit (.load .i64 target ⟨table, entry, 8, 0⟩)]
      let callee ← prepareCall type signature target
      machine { kind := .call, index } (emit [.emit (.callReg callee)])
      finishCall signature) anything := by
    have emits : ∀ steps, Keeps (Stubbed mismatch .typeMismatch) (emit steps) anything :=
      fun _ => Keeps.modify fun _ _ => id
    refine Keeps.andThen (Keeps.modify fun _ _ => id) fun _ => (emits _).andThen fun _ => ?_
    refine (Keeps.through (.prepareCall _ _ _)).andThen fun callee => ?_
    have records : ∀ what, Keeps (Stubbed mismatch .typeMismatch) (record what) anything :=
      fun _ => Keeps.read.andThen fun _ => Keeps.modify fun _ _ => id
    refine (Keeps.machine records (emits _)).andThen fun _ => ?_
    unfold finishCall
    dsimp only
    refine .ite ((emits _).andThen fun _ => ?_) ?_
    all_goals
      split
      · exact (stubbed_calm _ _).modifyLayout _
      · exact .done
  unfold loadRef at assembles keeps ⊢
  rw [ensures_bind, ensures_modify, ensures_bind, ensures_emit]
  refine ((assembles subject _).and (keeps subject _ ?_)).mono ?_
  · exact stubbed
  rintro _ after ⟨⟨back, last⟩, held, _⟩
  have checks : labelled.Gains (signatureCheck table entry mismatch
      (subject.module.canonicalType index).toInt32 ++ back) after := last
  refine ⟨front ++ [.label], table, entry, mismatch, back, ?_, held⟩
  rw [List.append_assoc]
  exact (gained.append gains).append checks

end Compile

namespace Module

variable {module : Module}

theorem firstError_passes {α ε : Type} {check : Nat → α → Option ε} {index : Nat} {list : List α}
    (fine : firstError check index list = .ok ()) :
    ∀ item ∈ list, ∃ place, check place item = none := by
  induction list generalizing index with
  | nil => nofun
  | cons head rest ih =>
    unfold firstError at fine
    cases passed : check index head with
    | some error =>
      rw [passed] at fine
      cases fine
    | none =>
      rw [passed] at fine
      intro item member
      cases List.mem_cons.mp member with
      | inl here => exact ⟨index, here ▸ passed⟩
      | inr later => exact ih fine item later

theorem table_typed (valid : module.validate = .ok ()) {slot : Nat} {entry : UInt32}
    (held : module.table[slot]? = some entry) :
    ∃ function found, module.functions[entry.toNat]? = some function ∧
      module.types[function.type.toNat]? = some found := by
  unfold Module.validate at valid
  obtain ⟨_, _, rest⟩ := Except.bind_inv valid
  obtain ⟨_, functions, rest⟩ := Except.bind_inv rest
  obtain ⟨_, table, _⟩ := Except.bind_inv rest
  have listed : entry ∈ module.table.toList := List.mem_of_getElem? (by simpa using held)
  obtain ⟨_, inside⟩ := firstError_passes table entry listed
  have inside : entry.toNat < module.functions.size := by
    by_contra outside
    rw [if_pos (Nat.le_of_not_lt outside)] at inside
    cases inside
  have declared : module.functions[entry.toNat]? = some module.functions[entry.toNat] :=
    Array.getElem?_eq_getElem inside
  obtain ⟨_, typed⟩ := firstError_passes functions module.functions[entry.toNat]
    (Array.getElem_mem_toList inside)
  have typed : module.functions[entry.toNat].type.toNat < module.types.size := by
    by_contra outside
    rw [if_pos (Nat.le_of_not_lt outside)] at typed
    cases typed
  exact ⟨_, _, declared, Array.getElem?_eq_getElem typed⟩

theorem canonicalType_least {index : UInt32} {type : FuncType}
    (found : module.types[index.toNat]? = some type) :
    IsLeast {place : Nat | module.types[place]? = some type} (module.canonicalType index).toNat := by
  refine ⟨types_canonicalType found, ?_⟩
  intro place there
  rw [toNat_canonicalType found, ← FuncType.firstBefore_eq there]
  exact FuncType.firstBefore_le

theorem canonicalType_idem (index : UInt32) :
    module.canonicalType (module.canonicalType index) = module.canonicalType index := by
  cases found : module.types[index.toNat]? with
  | none => rw [canonicalType_of_none found, canonicalType_of_none found]
  | some type => exact (canonicalType_inj (types_canonicalType found) found).mpr rfl

end Module

/-- The signature check of an indirect call is equality of types.  The canonical index of a type
is the first place where the type stands in the module, the same from the table that validation
fills as from a search, and it is its own canonical index.  So in a valid module, where the
entries of the table are functions with types, the number that the table of an instance holds
for an entry is the one that the code of an indirect call compares it with exactly if the type
of the function is the wanted one; otherwise the call goes to a stub for mismatches. -/
theorem callIndirect_structural (module : Module) :
    (∀ index type, module.types[index.toNat]? = some type →
      IsLeast {place : Nat | module.types[place]? = some type}
        (module.canonicalType index).toNat) ∧
    module.tabulate.canonicalType = module.canonicalType ∧
    (∀ index, module.canonicalType (module.canonicalType index) = module.canonicalType index) ∧
    (module.validate = .ok () → ∀ (slot : Nat) (entry : UInt32),
      module.table[slot]? = some entry →
      ∃ function found, module.functions[entry.toNat]? = some function ∧
        module.types[function.type.toNat]? = some found ∧
        ∀ index wanted, module.types[index.toNat]? = some wanted →
          ∀ (inst : Instance) (subject : Subject) (state after : Compilation),
            (inst.module = module ∨ inst.module = module.tabulate) →
            (subject.module = module ∨ subject.module = module.tabulate) →
            Compile.lowerCallIndirect index subject state = .ok () after →
            ∃ (immediate : Int32) (front back : List Part) (table operand : Register)
                (mismatch : Label),
              state.Gains (front ++ signatureCheck table operand mismatch immediate ++ back)
                after ∧
              Compile.Stubbed mismatch .typeMismatch subject after ∧
              (inst.tableSignature entry = immediate.toUInt32 ↔ found = wanted)) := by
  have cached : module.tabulate.canonicalType = module.canonicalType :=
    Module.canonicalType_congr rfl
  refine ⟨fun _ _ => Module.canonicalType_least, cached, Module.canonicalType_idem, ?_⟩
  intro valid slot entry held
  obtain ⟨function, found, declared, typed⟩ := Module.table_typed valid held
  refine ⟨function, found, declared, typed, ?_⟩
  intro index wanted stands inst subject state after loads compiles ran
  obtain ⟨front, table, operand, mismatch, back, gains, stubbed⟩ :=
    Compile.lowerCallIndirect_checks index () after ran
  have canonical : subject.module.canonicalType = module.canonicalType := by
    cases compiles with
    | inl plain => rw [plain]
    | inr tabulated => rw [tabulated, cached]
  have holds : inst.tableSignature entry = module.canonicalType function.type := by
    unfold Instance.tableSignature
    cases loads with
    | inl plain => rw [plain, declared, Option.map_some, Option.getD_some]
    | inr tabulated =>
      have same : module.tabulate.functions = module.functions := rfl
      rw [tabulated, same, declared, Option.map_some, Option.getD_some, cached]
  refine ⟨_, front, back, table, operand, mismatch, gains, stubbed, ?_⟩
  rw [holds, canonical, UInt32.toUInt32_toInt32]
  exact Module.canonicalType_inj typed stands

/-- A signature that is declared twice, with another one between. -/
def repeatedTypes : Module where
  types := #[⟨[.i32], [.i32]⟩, ⟨[], []⟩, ⟨[.i32], [.i32]⟩]
  functions := #[
    { name := "same", type := 0, locals := [], body := [{ op := .localGet }] },
    { name := "none", type := 1, locals := [], body := [] }]
  table := #[0, 1]

/-- An argument and an index on the operand stack. -/
def callingIndirect : Compilation where
  layout := (({} : Layout).push (.ofConst .i32 7)).push (.ofConst .i32 0)
  blocks := [.opened [] .block []]

/-- A call that wants the type with the last index goes through to the function whose type has
the first one, and not to the other function. -/
theorem callIndirect_structural_repeatedTypes :
    repeatedTypes.validate = .ok () ∧ ∃ after immediate front back table operand mismatch,
      Compile.lowerCallIndirect 2 { (default : Subject) with module := repeatedTypes.tabulate }
        callingIndirect = .ok () after ∧
      callingIndirect.Gains (front ++ signatureCheck table operand mismatch immediate ++ back)
        after ∧
      ({ (default : Instance) with module := repeatedTypes }).tableSignature 0 =
        immediate.toUInt32 := by
  have valid : repeatedTypes.validate = .ok () := by decide +kernel
  let subject : Subject := { (default : Subject) with module := repeatedTypes.tabulate }
  have lowers : (Compile.lowerCallIndirect 2 subject callingIndirect matches .ok _ _) = true := by
    decide +kernel
  cases ran : Compile.lowerCallIndirect 2 subject callingIndirect with
  | error fault after =>
    rw [ran] at lowers
    cases lowers
  | ok done after =>
    obtain ⟨function, found, declared, typed, checks⟩ :=
      (callIndirect_structural repeatedTypes).2.2.2 valid 0 0 rfl
    obtain ⟨immediate, front, back, table, operand, mismatch, gains, _, same⟩ :=
      checks 2 ⟨[.i32], [.i32]⟩ rfl { (default : Instance) with module := repeatedTypes } subject
        callingIndirect after (.inl rfl) (.inr rfl) ran
    cases declared
    cases typed
    exact ⟨valid, after, immediate, front, back, table, operand, mismatch, rfl, gains,
      same.mpr rfl⟩

end WasmX64
