import WasmX64.Proofs.Traps.Visits
import WasmX64.Wasm.Document

/-!
# Modules that are built

Bodies that are read from text are tidy: markers are no instructions of their own, and only an
`if` has an else arm.  A module built from a document has such bodies and numeric types, and it
passes its checks.
-/

namespace WasmX64

theorem Opcode.not_marker_of_name {name : String} {op : Opcode} (found : ofName? name = some op)
    (notEnd : name ≠ "end") (notElse : name ≠ "else") : op ≠ .otherwise ∧ op ≠ .finish := by
  obtain ⟨entry, here, rfl⟩ := Option.map_eq_some_iff.mp found
  obtain ⟨op, _, rfl⟩ := List.mem_map.mp (List.mem_of_find?_eq_some here)
  obtain rfl : op.name = name := by simpa using List.find?_some here
  constructor
  · rintro rfl
    exact notElse rfl
  · rintro rfl
    exact notEnd rfl

theorem Instr.allTidy_iff {body : List Instr} :
    Instr.allTidy body = true ↔ ∀ instr ∈ body, instr.isTidy = true := by
  induction body with
  | nil => simp [allTidy]
  | cons instr rest ih => rw [allTidy_cons, ih, List.forall_mem_cons]

theorem Instr.allTidy_reverse {body : List Instr} :
    Instr.allTidy body.reverse = true ↔ Instr.allTidy body = true := by
  simp only [allTidy_iff, List.mem_reverse]

namespace Body

section Operands

variable {op : Opcode} {operands : List String} {instr start : Instr}

/-- An instruction without other instructions in it. -/
def Bare (op : Opcode) (instr : Instr) : Prop :=
  instr.op = op ∧ instr.body = [] ∧ instr.elseBody = [] ∧ instr.hasElse = false

theorem readTargets_bare (bare : Bare op start) (reads : readTargets start operands = .ok instr) :
    Bare op instr := by
  induction operands generalizing instr with
  | nil => cases reads
  | cons text rest ih =>
    cases rest with
    | nil =>
      obtain ⟨target, _, rfl⟩ := Except.map_inv reads
      exact bare
    | cons next rest =>
      obtain ⟨target, _, reads⟩ := Except.bind_inv reads
      obtain ⟨later, others, reads⟩ := Except.bind_inv reads
      cases reads
      exact (ih others : Bare op later)

theorem readMemoryArguments_bare (bare : Bare op start)
    (reads : readMemoryArguments start operands = .ok instr) : Bare op instr := by
  induction operands generalizing start with
  | nil =>
    cases reads
    exact bare
  | cons argument rest ih =>
    rw [readMemoryArguments] at reads
    dsimp only at reads
    split at reads
    · cases reads
    · obtain ⟨value, _, reads⟩ := Except.bind_inv reads
      split at reads
      · exact ih (show Bare op { start with offset := value } from bare) reads
      · split at reads
        · exact ih (show Bare op { start with align := value } from bare) reads
        · cases reads

theorem readConst_bare {type : ValueType} (reads : readConst op type operands = .ok instr) :
    Bare op instr := by
  obtain ⟨text, _, reads⟩ := Except.bind_inv reads
  split at reads
  · cases reads
    exact ⟨rfl, rfl, rfl, rfl⟩
  · cases reads

theorem readInstr_bare (reads : readInstr op operands = .ok instr) : Bare op instr := by
  have single {op : Opcode} {build : UInt32 → Instr} (bare : ∀ index, Bare op (build index))
      (reads : (readSingle operands >>= fun text => readIndex text >>= fun index =>
        pure (build index)) = .ok instr) : Bare op instr := by
    obtain ⟨text, _, reads⟩ := Except.bind_inv reads
    obtain ⟨index, _, reads⟩ := Except.bind_inv reads
    cases reads
    exact bare index
  unfold readInstr at reads
  split at reads
  all_goals
    first
    | exact readTargets_bare ⟨rfl, rfl, rfl, rfl⟩ reads
    | exact readMemoryArguments_bare ⟨rfl, rfl, rfl, rfl⟩ reads
    | exact readConst_bare reads
    | exact single (fun _ => ⟨rfl, rfl, rfl, rfl⟩) reads
    | obtain ⟨_, _, rfl⟩ := Except.map_inv reads
      exact ⟨rfl, rfl, rfl, rfl⟩

end Operands

/-- An open construct of which only an `if` has an else arm, around tidy bodies. -/
structure Open.Tidy (construct : Open) : Prop where
  structured : construct.instr.op.isStructured = true
  arms : construct.instr.hasElse = true → construct.instr.op = .branchIf
  body : Instr.allTidy construct.instr.body = true
  elseBody : Instr.allTidy construct.instr.elseBody = true

/-- A reading of tidy instructions. -/
structure Reading.Tidy (reading : Reading) : Prop where
  finished : Instr.allTidy reading.finished = true
  opened : ∀ construct ∈ reading.opened, construct.Tidy

variable {reading after : Reading} {construct : Open} {instr : Instr}

theorem Bare.isTidy {op : Opcode} (bare : Bare op instr) (notElse : op ≠ .otherwise)
    (notEnd : op ≠ .finish) : instr.isTidy = true := by
  obtain ⟨rfl, body, elseBody, noElse⟩ := bare
  refine Instr.isTidy_iff.mpr ⟨notElse, notEnd, fun hasElse => ?_, ?_, ?_⟩
  · rw [noElse] at hasElse
    cases hasElse
  · rw [body]
    rfl
  · rw [elseBody]
    rfl

theorem Open.Tidy.append (tidy : construct.Tidy) (tidyInstr : instr.isTidy = true) :
    (construct.append instr).Tidy := by
  unfold Open.append
  cases construct.inElse with
  | true => exact ⟨tidy.structured, tidy.arms, tidy.body,
      Instr.allTidy_cons.mpr ⟨tidyInstr, tidy.elseBody⟩⟩
  | false => exact ⟨tidy.structured, tidy.arms,
      Instr.allTidy_cons.mpr ⟨tidyInstr, tidy.body⟩, tidy.elseBody⟩

theorem Open.Tidy.close (tidy : construct.Tidy) : construct.close.isTidy = true := by
  refine Instr.isTidy_iff.mpr ⟨fun marker => ?_, fun marker => ?_, tidy.arms,
    Instr.allTidy_reverse.mpr tidy.body, Instr.allTidy_reverse.mpr tidy.elseBody⟩
  all_goals
    have structured := tidy.structured
    rw [show construct.instr.op = _ from marker] at structured
    cases structured

theorem Reading.Tidy.append (tidy : reading.Tidy) (tidyInstr : instr.isTidy = true) :
    (reading.append instr).Tidy := by
  unfold Reading.append
  cases opened : reading.opened with
  | nil => exact ⟨Instr.allTidy_cons.mpr ⟨tidyInstr, tidy.finished⟩, by simp⟩
  | cons top rest =>
    obtain ⟨first, others⟩ := List.forall_mem_cons.mp (opened ▸ tidy.opened)
    exact ⟨tidy.finished, List.forall_mem_cons.mpr ⟨first.append tidyInstr, others⟩⟩

theorem readLine_tidy {number : Nat} {line : List Char} (tidy : reading.Tidy)
    (reads : readLine reading number line = .ok after) : after.Tidy := by
  unfold readLine at reads
  split at reads
  · cases reads
    exact tidy
  · next name operands _ =>
    split at reads
    · cases opened : reading.opened with
      | nil =>
        rw [opened] at reads
        cases reads
      | cons top rest =>
        obtain ⟨first, others⟩ := List.forall_mem_cons.mp (opened ▸ tidy.opened)
        rw [opened] at reads
        cases reads
        exact Reading.Tidy.append ⟨tidy.finished, others⟩ first.close
    · next notEnd =>
      split at reads
      · cases opened : reading.opened with
        | nil =>
          rw [opened] at reads
          cases reads
        | cons top rest =>
          obtain ⟨first, others⟩ := List.forall_mem_cons.mp (opened ▸ tidy.opened)
          rw [opened] at reads
          dsimp only at reads
          split at reads
          · cases reads
          · next known =>
            cases reads
            have isIf : top.instr.op = .branchIf := by simpa using fun other => known (.inl other)
            exact ⟨tidy.finished, List.forall_mem_cons.mpr
              ⟨⟨first.structured, fun _ => isIf, first.body, first.elseBody⟩, others⟩⟩
      · next notElse =>
        split at reads
        · cases reads
        · next op named =>
          obtain ⟨notOtherwise, notFinish⟩ := Opcode.not_marker_of_name named notEnd notElse
          split at reads
          · cases reads
          · next instr built =>
            have bare := readInstr_bare built
            split at reads
            · next structured =>
              cases reads
              obtain ⟨rfl, body, elseBody, noElse⟩ := bare
              refine ⟨tidy.finished, List.forall_mem_cons.mpr
                ⟨⟨structured, fun hasElse => ?_, ?_, ?_⟩, tidy.opened⟩⟩
              · exact absurd (noElse.symm.trans hasElse) Bool.false_ne_true
              · exact congrArg Instr.allTidy body
              · exact congrArg Instr.allTidy elseBody
            · cases reads
              exact tidy.append (bare.isTidy notOtherwise notFinish)

theorem readLines_tidy {number : Nat} {lines : List (List Char)} (tidy : reading.Tidy)
    (reads : readLines reading number lines = .ok after) : after.Tidy := by
  induction lines generalizing reading number with
  | nil =>
    cases reads
    exact tidy
  | cons line rest ih =>
    rw [readLines] at reads
    split at reads
    · cases reads
    · next middle first => exact ih (readLine_tidy tidy first) reads

theorem parse_tidy {text : String} {body : List Instr} (reads : parse text = .ok body) :
    Instr.allTidy body = true := by
  unfold parse at reads
  dsimp only at reads
  split at reads
  · cases reads
  · next reading lines =>
    have tidy := readLines_tidy ⟨rfl, by simp⟩ lines
    split at reads
    · cases reads
    · split at reads
      · cases reads
      · cases reads
        exact Instr.allTidy_reverse.mpr tidy.finished

theorem readTypes_valid {names : List String} {types : List ValueType}
    (reads : readTypes names = .ok types) : ∀ type ∈ types, type.isValid = true := by
  induction names generalizing types with
  | nil =>
    cases reads
    simp
  | cons name rest ih =>
    rw [readTypes] at reads
    split at reads
    · cases reads
    · next type named =>
      obtain ⟨others, read, rfl⟩ := Except.map_inv reads
      refine List.forall_mem_cons.mpr ⟨?_, ih read⟩
      unfold ValueType.ofName? at named
      split_ifs at named <;> cases named <;> rfl

end Body

/-- A module that a document describes: its checks pass, its canonical types are tabulated, its
types are numeric and its bodies are tidy. -/
structure Module.Built (module : Module) : Prop where
  valid : module.validate = .ok ()
  tabulated : module.tabulate = module
  types : ∀ type ∈ module.types, ∀ value ∈ type.params ++ type.results, value.isValid = true
  locals : ∀ function ∈ module.functions, ∀ value ∈ function.locals, value.isValid = true
  bodies : ∀ function ∈ module.functions, Instr.allTidy function.body = true

namespace ModuleDocument

theorem readTypes_valid {index : Nat} {documents : List TypeDocument} {types : List FuncType}
    (reads : readTypes index documents = .ok types) :
    ∀ type ∈ types, ∀ value ∈ type.params ++ type.results, value.isValid = true := by
  induction documents generalizing index types with
  | nil =>
    cases reads
    simp
  | cons document rest ih =>
    obtain ⟨params, first, reads⟩ := Except.bind_inv reads
    obtain ⟨results, second, reads⟩ := Except.bind_inv reads
    obtain ⟨others, later, reads⟩ := Except.bind_inv reads
    cases reads
    exact List.forall_mem_cons.mpr ⟨List.forall_mem_append.mpr
      ⟨Body.readTypes_valid (Except.mapError_inv first),
        Body.readTypes_valid (Except.mapError_inv second)⟩, ih later⟩

theorem readFunctions_types {module after : Module} {index : Nat}
    {documents : List FunctionDocument}
    (reads : readFunctions module index documents = .ok after) : after.types = module.types := by
  induction documents generalizing index module with
  | nil =>
    cases reads
    rfl
  | cons document rest ih =>
    obtain ⟨locals, _, reads⟩ := Except.bind_inv reads
    obtain ⟨body, _, reads⟩ := Except.bind_inv reads
    dsimp only at reads
    split at reads
    · split at reads
      · cases reads
      · exact (ih reads).trans rfl
    · exact (ih reads).trans rfl

theorem readFunctions_each {P : Function → Prop} {module after : Module} {index : Nat}
    {documents : List FunctionDocument}
    (each : ∀ name type locals body names text, Body.readTypes names = .ok locals →
      Body.parse text = .ok body → P ⟨name, type, locals, body⟩)
    (before : ∀ function ∈ module.functions, P function)
    (reads : readFunctions module index documents = .ok after) :
    ∀ function ∈ after.functions, P function := by
  induction documents generalizing index module with
  | nil =>
    cases reads
    exact before
  | cons document rest ih =>
    obtain ⟨locals, readLocals, reads⟩ := Except.bind_inv reads
    obtain ⟨body, readBody, reads⟩ := Except.bind_inv reads
    have grown : ∀ function ∈ module.functions.push ⟨document.name, document.type, locals, body⟩,
        P function := by
      intro function member
      obtain member | rfl := Array.mem_push.mp member
      · exact before function member
      · exact each _ _ _ _ _ _ (Except.mapError_inv readLocals) (Except.mapError_inv readBody)
    dsimp only at reads
    split at reads
    · split at reads
      · cases reads
      · exact ih grown reads
    · exact ih grown reads

/-- What is built passes its checks, has numeric types and tidy bodies. -/
theorem built {document : ModuleDocument} {module : Module}
    (builds : document.build = .ok module) : module.Built := by
  obtain ⟨types, readTypes, builds⟩ := Except.bind_inv builds
  obtain ⟨globals, readGlobals, builds⟩ := Except.bind_inv builds
  obtain ⟨read, readFunctions, builds⟩ := Except.bind_inv builds
  obtain ⟨_, valid, builds⟩ := Except.bind_inv builds
  cases builds
  have none : ∀ function : Function, function ∉ (#[] : Array Function) := Array.not_mem_empty
  have locals : ∀ function ∈ read.functions, ∀ value ∈ function.locals, value.isValid = true := by
    refine readFunctions_each ?_ (fun function member => absurd member (none function)) readFunctions
    exact fun _ _ _ _ _ _ locals _ => Body.readTypes_valid locals
  have bodies : ∀ function ∈ read.functions, Instr.allTidy function.body = true := by
    refine readFunctions_each ?_ (fun function member => absurd member (none function)) readFunctions
    exact fun _ _ _ _ _ _ _ body => Body.parse_tidy body
  have listed : read.types.toList = types := congrArg Array.toList (readFunctions_types readFunctions)
  refine ⟨Except.mapError_inv valid, rfl, fun type member => ?_, locals, bodies⟩
  exact readTypes_valid readTypes type (listed ▸ member.val)

end ModuleDocument

end WasmX64
