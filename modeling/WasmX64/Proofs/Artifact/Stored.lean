import WasmX64.Command.Run
import WasmX64.Proofs.Artifact.RoundTrip
import WasmX64.Proofs.Compile.Frames
import WasmX64.Proofs.Traps.Attribution
import WasmX64.Proofs.Wasm.Build

/-!
# Artifacts loaded for a module

A loaded artifact has as many functions as its module, and each has the type of the function whose
number it carries.  An instance takes the number of a function from its place, which no check
compares with the number carried.
-/

namespace WasmX64

namespace Command

variable {ε α : Type} {session after : Session} {module : Module} {path : String}

theorem require_inv {cause : ε → CommandError} {outcome : Except ε α} {value : α}
    (goesOn : require cause outcome session = .ok value after) :
    outcome = .ok value ∧ after = session := by
  cases outcome with
  | error error => cases goesOn
  | ok result =>
    cases goesOn
    exact ⟨rfl, rfl⟩

theorem checkStored_inv {functions : List StoredFunction}
    (passes : checkStored path module functions session = .ok () after) :
    after = session ∧ ∀ stored ∈ functions, module.functionType stored.index = .ok stored.type := by
  induction functions with
  | nil =>
    cases passes
    exact ⟨rfl, by simp⟩
  | cons stored rest ih =>
    obtain ⟨type, middle, finds, goesOn⟩ := EStateM.bind_inv passes
    obtain ⟨found, rfl⟩ := require_inv finds
    dsimp only at goesOn
    split at goesOn
    · cases goesOn
    · rename_i same
      obtain ⟨unchanged, others⟩ := ih goesOn
      refine ⟨unchanged, List.forall_mem_cons.mpr ⟨?_, others⟩⟩
      rw [found, Decidable.not_not.mp same]

theorem loadArtifact_inv {functions : List Compiled}
    (loads : loadArtifact path module session = .ok functions after) :
    ∃ artifact : Artifact, functions = artifact.toCompiled ∧
      artifact.functions.length = module.functions.size ∧
      ∀ stored ∈ artifact.functions, module.functionType stored.index = .ok stored.type := by
  obtain ⟨bytes, opened, _, goesOn⟩ := EStateM.bind_inv loads
  obtain ⟨artifact, decoded, _, goesOn⟩ := EStateM.bind_inv goesOn
  dsimp only at goesOn
  split at goesOn
  · cases goesOn
  · rename_i count
    obtain ⟨_, checked, passes, goesOn⟩ := EStateM.bind_inv goesOn
    obtain ⟨_, informed, _, goesOn⟩ := EStateM.bind_inv goesOn
    cases goesOn
    exact ⟨artifact, rfl, Decidable.not_not.mp count, (checkStored_inv passes).2⟩

end Command

/-- A function is the one with a number, as an instance takes it to be at that place. -/
def Compiled.Serves (compiled : Compiled) (module : Module) (place : Nat) : Prop :=
  compiled.index.toNat = place ∧
    ∃ type, module.functionType (UInt32.ofNat place) = .ok type ∧
      compiled.signature = .ofType type

/-- A loaded artifact has one function for each of the module, and each has the signature of the
function whose number it carries.  They serve at their places if and only if the numbers are in
order. -/
theorem loaded_serve_iff {path : String} {module : Module} {session after : Session}
    {functions : List Compiled}
    (loads : Command.loadArtifact path module session = .ok functions after) :
    functions.length = module.functions.size ∧
      (∀ compiled ∈ functions, ∃ type, module.functionType compiled.index = .ok type ∧
        compiled.signature = .ofType type) ∧
      ((∀ (place : Nat) (compiled : Compiled), functions[place]? = some compiled →
          compiled.Serves module place) ↔
        functions.map (fun compiled => compiled.index.toNat) = List.range functions.length) := by
  obtain ⟨artifact, rfl, count, typed⟩ := Command.loadArtifact_inv loads
  have signed : ∀ compiled ∈ artifact.toCompiled, ∃ type,
      module.functionType compiled.index = .ok type ∧ compiled.signature = .ofType type :=
    List.forall_mem_map.mpr fun stored member => ⟨stored.type, typed stored member, rfl⟩
  refine ⟨(List.length_map _).trans count, signed, ?_⟩
  constructor
  · intro serves
    apply List.ext_getElem?
    intro place
    rw [List.getElem?_map]
    cases here : artifact.toCompiled[place]? with
    | none => simpa using List.getElem?_eq_none_iff.mp here
    | some compiled =>
      obtain ⟨within, -⟩ := List.getElem?_eq_some_iff.mp here
      rw [List.getElem?_range within, Option.map_some, (serves place compiled here).1]
  · intro ordered place compiled here
    obtain ⟨within, -⟩ := List.getElem?_eq_some_iff.mp here
    have numbered : compiled.index.toNat = place := by
      have entry := congrArg (·[place]?) ordered
      simpa [here, List.getElem?_range within] using entry
    refine ⟨numbered, ?_⟩
    rw [← numbered, UInt32.ofNat_toNat]
    exact signed compiled (List.mem_of_getElem? here)

/-- A module of two functions of different types. -/
def twoTypes : Module :=
  { types := #[⟨[], []⟩, ⟨[.i32], []⟩]
    functions := #[⟨"first", 0, [], []⟩, ⟨"second", 1, [], []⟩] }

/-- A record of a function that only returns. -/
def returning (index : UInt32) (params : List ValueType) : StoredFunction :=
  ⟨index, ⟨params, []⟩, [0xc3], [], 0, [], []⟩

/-- A session with one file, an artifact of some functions. -/
def storing (functions : List StoredFunction) : Session :=
  { files := ⟨[(["code"], .file (artifactHeader ++ (Artifact.mk functions).encode))]⟩ }

/-- Records in another order than their numbers are loaded, and neither function serves at its
place. -/
theorem swapped_loaded :
    twoTypes.validate = .ok () ∧ ∃ functions after first second,
      Command.loadArtifact "code" twoTypes (storing [returning 1 [.i32], returning 0 []]) =
        .ok functions after ∧ functions = [first, second] ∧
      ¬first.Serves twoTypes 0 ∧ ¬second.Serves twoTypes 1 := by
  refine ⟨rfl, _, _, _, _, rfl, rfl, ?_, ?_⟩
  · exact fun serves => absurd serves.1 (by decide)
  · exact fun serves => absurd serves.1 (by decide)

theorem loaded_serve_iff_inOrder :
    ∃ functions after,
      Command.loadArtifact "code" twoTypes (storing [returning 0 [], returning 1 [.i32]]) =
        .ok functions after ∧
      functions.length = twoTypes.functions.size ∧
      ∀ (place : Nat) (compiled : Compiled), functions[place]? = some compiled →
        compiled.Serves twoTypes place := by
  have loads : ∃ functions after,
      Command.loadArtifact "code" twoTypes (storing [returning 0 [], returning 1 [.i32]]) =
        .ok functions after ∧
      functions.map (fun compiled => compiled.index.toNat) = List.range functions.length :=
    ⟨_, _, rfl, rfl⟩
  obtain ⟨functions, after, loaded, ordered⟩ := loads
  obtain ⟨count, -, serve⟩ := loaded_serve_iff loaded
  exact ⟨functions, after, loaded, count, serve.mpr ordered⟩

/-! ## Compiled modules stored and loaded

What the compiler returns for a module that was built from a document can be stored in an
artifact, and what is loaded again is the same: the format can represent every number, the source
map is in order and the signature is that of the function's type.
-/

mutual

/-- Each node has at most two markers. -/
theorem Instr.count_le : (instr : Instr) → instr.count ≤ 3 * instr.nodes
  | ⟨op, _, body, elseBody, hasElse, _, _, _, _, _, _⟩ => by
    have arm := Instr.countAll_le body
    have elseArm := Instr.countAll_le elseBody
    rw [Instr.count, Instr.nodes]
    split
    · split
      · omega
      · omega
    · omega

theorem Instr.countAll_le : (body : List Instr) → Instr.countAll body ≤ 3 * Instr.nodesAll body
  | [] => Nat.le_refl 0
  | instr :: rest => by
    have first := Instr.count_le instr
    have others := Instr.countAll_le rest
    rw [Instr.countAll, Instr.nodesAll]
    omega

end

/-- A function that is compiled to less than `2 ^ 26` bytes, with shorter lists than that. -/
structure Compiled.Short (compiled : Compiled) (type : FuncType) (function : Function) :
    Prop where
  params : type.params.length < 2 ^ 26
  locals : function.locals.length < 2 ^ 26
  body : Instr.nodesAll function.body < 2 ^ 26
  code : compiled.program.code.size < 2 ^ 26
  refs : compiled.program.refs.length < 2 ^ 26
  traps : compiled.traps.length < 2 ^ 26
  sources : compiled.sources.size < 2 ^ 26

instance (compiled : Compiled) (type : FuncType) (function : Function) :
    Decidable (compiled.Short type function) :=
  decidable_of_iff
    (type.params.length < 2 ^ 26 ∧ function.locals.length < 2 ^ 26 ∧
      Instr.nodesAll function.body < 2 ^ 26 ∧ compiled.program.code.size < 2 ^ 26 ∧
      compiled.program.refs.length < 2 ^ 26 ∧ compiled.traps.length < 2 ^ 26 ∧
      compiled.sources.size < 2 ^ 26)
    ⟨fun ⟨params, locals, body, code, refs, traps, sources⟩ =>
      ⟨params, locals, body, code, refs, traps, sources⟩,
    fun ⟨params, locals, body, code, refs, traps, sources⟩ =>
      ⟨params, locals, body, code, refs, traps, sources⟩⟩

section Function

variable {module : Module} {host : Host} {index : UInt32} {function : Function} {type : FuncType}
  {compiled : Compiled}

/-- What is needed of a function to store it and to load it again. -/
structure Compiled.Kept (compiled : Compiled) (type : FuncType) : Prop where
  fits : (StoredFunction.ofCompiled type compiled).Representable
  named : (StoredFunction.ofCompiled type compiled).Named
  same : (StoredFunction.ofCompiled type compiled).toCompiled = compiled

/-- The compiler's numbers are words of the format. -/
theorem Compiled.Bounded.frame_isWord {subject : Subject} (bounded : compiled.Bounded subject)
    (proper : subject.Proper) (short : compiled.Short subject.type subject.function) :
    IsWord compiled.program.frameSlots := by
  obtain ⟨positive, below⟩ := bounded.frame
  have locals : subject.locals = subject.type.params.length + subject.function.locals.length := by
    rw [proper.locals, Subject.scope, List.length_append]
  have params := short.params
  have declared := short.locals
  have body := short.body
  refine ⟨positive, ?_⟩
  rw [Compile.rounds] at below
  omega

theorem SourceMap.Covers.isWord {body : List Instr} {sources : SourceMap}
    (covers : sources.Covers body) (few : Instr.nodesAll body < 2 ^ 26) :
    ∀ entry ∈ sources.descending, IsWord entry.instr := by
  intro entry member
  obtain ⟨_, place, number, visit, found, _⟩ := covers.entries entry member
  have below := (List.getElem?_eq_some_iff.mp found).1
  have count := Instr.countAll_le body
  rw [Instr.allVisits, List.length_append, Instr.length_visitsAll, List.length_singleton] at below
  exact ⟨by omega, by omega⟩

theorem compiled_kept (valid : ∀ value ∈ type.params ++ type.results, value.isValid = true)
    (found : module.functions[index.toNat]? = some function)
    (tidy : Instr.allTidy function.body = true)
    (typed : module.typeAt function.type = .ok type)
    (compiles : (compileFunction (some module) host index).outcome = .ok compiled)
    (short : compiled.Short type function) : compiled.index = index ∧ compiled.Kept type := by
  obtain ⟨⟨named, sites⟩, covers, inside⟩ := compiled_attributed found tidy compiles
  obtain ⟨subject, final, frame, start, made, ran, begun⟩ := compileFunction_ok compiles
  have proper := Subject.of_proper made
  obtain ⟨_, _, same, has⟩ := Subject.of_ok made
  obtain rfl : function = subject.function := Option.some.inj (found.symm.trans same)
  obtain rfl : type = subject.type := Except.ok.inj (typed.symm.trans has)
  have bounded := Compile.function_bounded proper compiled final ran
  have small := short.code
  have count := Instr.countAll_le subject.function.body
  have body := short.body
  refine ⟨named, ⟨⟨?_, ?_, ?_, ?_, ?_, ?_, ?_, ?_, ?_⟩, ⟨?_, ?_, ?_⟩, ?_⟩⟩
  · exact ⟨Nat.le_of_lt short.params, Nat.le_trans proper.few (by decide), valid⟩
  · exact Nat.le_of_lt short.code
  · exact Nat.le_of_lt short.refs
  · exact Nat.le_of_lt short.traps
  · exact Nat.le_trans (Nat.le_of_eq (List.length_reverse ..)) (Nat.le_of_lt short.sources)
  · exact bounded.frame_isWord proper short
  · intro ref member
    obtain ⟨_, positive, below⟩ := bounded.refs ref member
    exact ⟨positive, by omega⟩
  · intro site member
    obtain ⟨instr, _, names, _⟩ := sites site member
    obtain ⟨place, number, visit⟩ := names.number
    have below := (List.getElem?_eq_some_iff.mp visit).1
    rw [Instr.length_visitsAll] at below
    obtain ⟨positive, within⟩ := inside.sites site member
    have offset := within (by omega)
    exact ⟨⟨by omega, by omega⟩, ⟨positive, by omega⟩⟩
  · intro entry member
    have listed := List.mem_reverse.mp member
    have below := inside.entries entry listed
    exact ⟨⟨(covers.entries entry listed).1, by omega⟩, covers.isWord short.body entry listed⟩
  · exact fun ref member => RefKind.ofCode_code _ (bounded.refs ref member).1
  · intro site member
    obtain ⟨instr, _, names, _⟩ := sites site member
    exact Opcode.fault_ofCode_code names.raises
  · exact fun entry member =>
      Opcode.ofCode_code (bounded.sources entry (List.mem_reverse.mp member))
  · have sources : SourceMap.ofList compiled.sources.toList = compiled.sources :=
      SourceMap.ofList_reverse covers.descends
    have signature : Signature.ofType subject.type = compiled.signature :=
      (bounded.signature.trans proper.signature).symm
    rw [StoredFunction.toCompiled, StoredFunction.ofCompiled]
    dsimp only
    rw [sources, signature, Array.toArray_toList]

end Function

section Module

variable {module : Module} {host : Host} {functions : List Compiled}

theorem Module.mem_of_typeAt {index : UInt32} {type : FuncType}
    (typed : module.typeAt index = .ok type) : type ∈ module.types := by
  unfold typeAt at typed
  split at typed
  · next other listed =>
    cases typed
    exact Array.mem_of_getElem? listed
  · cases typed

/-- Functions come out of the compiler in the order of their indices. -/
theorem compileFrom_at {index count : Nat}
    (compiles : (compileFrom module host index count).mapM Attempt.outcome = .ok functions) :
    functions.length = count ∧ ∀ (place : Nat) (compiled : Compiled),
      functions[place]? = some compiled →
        (compileFunction (some module) host (UInt32.ofNat (index + place))).outcome =
          .ok compiled := by
  induction count generalizing index functions with
  | zero =>
    cases compiles
    exact ⟨rfl, by simp⟩
  | succ count ih =>
    rw [compileFrom] at compiles
    split at compiles
    · next fault =>
      rw [List.mapM_cons] at compiles
      obtain ⟨_, impossible, _⟩ := Except.bind_inv compiles
      rw [fault] at impossible
      cases impossible
    · rw [List.mapM_cons] at compiles
      obtain ⟨first, begins, compiles⟩ := Except.bind_inv compiles
      obtain ⟨others, goes, compiles⟩ := Except.bind_inv compiles
      cases compiles
      obtain ⟨length, each⟩ := ih goes
      refine ⟨congrArg Nat.succ length, fun place compiled here => ?_⟩
      cases place with
      | zero =>
        cases here
        exact begins
      | succ place =>
        have later := each place compiled here
        rwa [Nat.add_right_comm] at later

theorem compileModule_at
    (compiles : (compileModule (some module) host).1 = .ok functions) :
    functions.length = module.functions.size ∧ ∀ (place : Nat) (compiled : Compiled),
      functions[place]? = some compiled →
        (compileFunction (some module.tabulate) host (UInt32.ofNat place)).outcome =
          .ok compiled := by
  unfold compileModule at compiles
  dsimp only at compiles
  split at compiles
  · cases compiles
  · obtain ⟨length, each⟩ := compileFrom_at (Except.mapError_inv compiles)
    refine ⟨length, fun place compiled here => ?_⟩
    have at_place := each place compiled here
    rwa [Nat.zero_add] at at_place

/-- Functions that the format keeps are stored, and they are loaded as they were. -/
theorem ofCompiled_kept (each : ∀ compiled ∈ functions, ∃ type,
      module.functionType compiled.index = .ok type ∧ compiled.Kept type) :
    ∃ artifact, Artifact.ofCompiled module functions = .ok artifact ∧
      artifact.functions.length = functions.length ∧
      (∀ stored ∈ artifact.functions, stored.Representable ∧ stored.Named) ∧
      artifact.toCompiled = functions := by
  let store (compiled : Compiled) : Except ModuleError StoredFunction := do
    return StoredFunction.ofCompiled (← module.functionType compiled.index) compiled
  have all : ∃ stored, functions.mapM store = .ok stored ∧ stored.length = functions.length ∧
      (∀ function ∈ stored, function.Representable ∧ function.Named) ∧
      stored.map StoredFunction.toCompiled = functions := by
    induction functions with
    | nil => exact ⟨[], rfl, rfl, by simp, rfl⟩
    | cons compiled rest ih =>
      obtain ⟨⟨type, typed, kept⟩, others⟩ := List.forall_mem_cons.mp each
      obtain ⟨stored, stores, length, fit, same⟩ := ih others
      refine ⟨.ofCompiled type compiled :: stored, ?_, congrArg Nat.succ length,
        List.forall_mem_cons.mpr ⟨⟨kept.fits, kept.named⟩, fit⟩, ?_⟩
      · have first : store compiled = .ok (.ofCompiled type compiled) := by
          change (module.functionType compiled.index >>= fun type =>
            pure (StoredFunction.ofCompiled type compiled)) = _
          rw [typed]
          rfl
        rw [List.mapM_cons, first, stores]
        rfl
      · rw [List.map_cons, kept.same, same]
  obtain ⟨stored, stores, length, fit, same⟩ := all
  refine ⟨⟨stored⟩, ?_, length, fit, same⟩
  change (functions.mapM store >>= fun stored => pure (Artifact.mk stored)) = _
  rw [stores]
  rfl

end Module

/-- Loading a stored module is as good as compiling it: what is compiled from a module that was
built from a document can be stored, what is written can be read, and the functions come back as
they were, in their order. -/
theorem stored_loads {document : ModuleDocument} {module : Module} {host : Host}
    {functions : List Compiled} (builds : document.build = .ok module)
    (compiles : (compileModule (some module) host).1 = .ok functions)
    (few : module.functions.size < 2 ^ 32)
    (short : ∀ (place : Nat) (function : Function) (type : FuncType) (compiled : Compiled),
      module.functions[place]? = some function → module.typeAt function.type = .ok type →
      functions[place]? = some compiled → compiled.Short type function) :
    ∃ artifact, Artifact.ofCompiled module functions = .ok artifact ∧
      Artifact.read artifactHeader artifact.encode = .ok artifact ∧
      artifact.toCompiled = functions := by
  obtain ⟨_, tabulated, types, _, bodies⟩ := ModuleDocument.built builds
  obtain ⟨length, each⟩ := compileModule_at compiles
  rw [tabulated] at each
  have kept : ∀ compiled ∈ functions, ∃ type,
      module.functionType compiled.index = .ok type ∧ compiled.Kept type := by
    intro compiled member
    obtain ⟨place, here⟩ := List.mem_iff_getElem?.mp member
    obtain ⟨within, -⟩ := List.getElem?_eq_some_iff.mp here
    have number : (UInt32.ofNat place).toNat = place :=
      UInt32.toNat_ofNat_of_lt' (Nat.lt_trans within (show functions.length < 2 ^ 32 by omega))
    obtain ⟨subject, _, _, _, made, _⟩ := compileFunction_ok (each place compiled here)
    obtain ⟨_, _, found, typed⟩ := Subject.of_ok made
    have numeric := types _ (Module.mem_of_typeAt typed)
    have tidy := bodies _ (Array.mem_of_getElem? found)
    obtain ⟨index, kept⟩ := compiled_kept numeric found tidy typed
      (each place compiled here) (short place _ _ compiled (number ▸ found) typed here)
    refine ⟨subject.type, ?_, kept⟩
    rw [index, Module.functionType, found]
    exact typed
  obtain ⟨artifact, stores, count, fits, same⟩ := ofCompiled_kept kept
  refine ⟨artifact, stores, ?_, same⟩
  have reads := readArtifact_encode ⟨by omega, fun stored member => (fits stored member).1⟩
    (fun stored member => (fits stored member).2) []
  rw [List.append_nil] at reads
  change (Artifact.decode artifact.encode).mapError ArtifactError.records = _
  rw [Artifact.decode_eq, reads]
  rfl

/-- A division and a function that calls it. -/
def halves : ModuleDocument :=
  { types := [⟨["i32", "i32"], ["i32"]⟩, ⟨["i32"], ["i32"]⟩]
    functions := [
      { name := "divide", type := 0, body := "local.get 0\nlocal.get 1\ni32.div_s" },
      { name := "half", type := 1, locals := ["i64"],
        body := "local.get 0\ni32.const 2\ncall 0" }] }

theorem stored_loads_halves :
    ∃ module functions artifact, halves.build = .ok module ∧
      (compileModule (some module) {}).1 = .ok functions ∧ functions.length = 2 ∧
      Artifact.ofCompiled module functions = .ok artifact ∧
      Artifact.read artifactHeader artifact.encode = .ok artifact ∧
      artifact.toCompiled = functions := by
  have fine : halves.build.toOption.any (fun module =>
      module.functions.size < 2 ^ 32 ∧
      (compileModule (some module) {}).1.toOption.any fun functions =>
        functions.length = 2 ∧ ∀ place < functions.length,
          ∀ function ∈ module.functions[place]?, ∀ type ∈ (module.typeAt function.type).toOption,
          ∀ compiled ∈ functions[place]?, compiled.Short type function) = true := by decide +kernel
  obtain ⟨module, builds, few, fine⟩ := Except.exists_of_any fine
  obtain ⟨functions, compiles, two, short⟩ := Except.exists_of_any fine
  obtain ⟨artifact, stores, reads, same⟩ := stored_loads builds compiles few
    fun place function type compiled found typed here =>
      short place (List.getElem?_eq_some_iff.mp here).1 function found type (typed ▸ rfl)
        compiled here
  exact ⟨module, functions, artifact, builds, compiles, two, stores, reads, same⟩

end WasmX64
