import WasmX64.Proofs.Wires.Function

/-!
# Functions compile by themselves

The compiler looks at the function it compiles and at what the module declares, and never at
what it has recorded.  Two compilations of one function, in modules that declare the same and
with whatever has been recorded before, go side by side: in states that differ in their events
only they do the same, up to the fault or the code in the end.  The references of the code are to
globals and functions that the module has, or to the memory, the table and the cells that every
instance has.
-/

namespace WasmX64

/-- What a function is compiled from; its name does not matter. -/
def Function.content (function : Function) : UInt32 × List ValueType × List Instr :=
  (function.type, function.locals, function.body)

/-- A state of which the events are forgotten. -/
def Compilation.quiet (state : Compilation) : Compilation := { state with events := #[] }

/-- States that differ in their events only. -/
theorem Compilation.eq_of_quiet {left right : Compilation} (same : left.quiet = right.quiet) :
    right = { left with events := right.events } := by
  cases left
  cases right
  simp only [quiet, Compilation.mk.injEq] at same
  simp only [same]

namespace Compile

variable {α β : Type} {subject : Subject} {state : Compilation}

/-- How a run ends, when its events are forgotten. -/
def quietly : EStateM.Result Fault Compilation α → EStateM.Result Fault Compilation α
  | .ok value after => .ok value after.quiet
  | .error fault after => .error fault after.quiet

/-- Two actions do the same in modules that declare the same, whatever has been recorded. -/
def Matches (left right : Compile α) : Prop :=
  ∀ first second : Subject, first.Alike second → ∀ before other : Compilation,
    before.quiet = other.quiet → quietly (left first before) = quietly (right second other)

namespace Matches

variable {left right : Compile α}

theorem bind {next goes : α → Compile β} (begins : Matches left right)
    (rest : ∀ value, Matches (next value) (goes value)) :
    Matches (left >>= next) (right >>= goes) := by
  intro first second alike before other same
  have middle := begins first second alike before other same
  rw [bind_run, bind_run]
  cases ran : left first before with
  | error fault after =>
    cases runs : right second other with
    | error cause stopped =>
      rw [ran, runs] at middle
      simp only [quietly, EStateM.Result.error.injEq] at middle ⊢
      exact middle
    | ok value stopped =>
      rw [ran, runs] at middle
      cases middle
  | ok value after =>
    cases runs : right second other with
    | error cause stopped =>
      rw [ran, runs] at middle
      cases middle
    | ok result stopped =>
      rw [ran, runs] at middle
      simp only [quietly, EStateM.Result.ok.injEq] at middle
      obtain ⟨rfl, alikes⟩ := middle
      exact rest value first second alike after stopped alikes

theorem pure {value : α} : Matches (pure value) (pure value) := by
  intro _ _ _ before other same
  exact congrArg (EStateM.Result.ok value) same

theorem throw {fault : Fault} : Matches (throw fault : Compile α) (throw fault) := by
  intro _ _ _ before other same
  exact congrArg (EStateM.Result.error fault) same

theorem ask {next goes : Subject → Compile α}
    (each : ∀ first second : Subject, first.Alike second →
      Matches (next first) (goes second)) :
    Matches (read >>= next) (read >>= goes) := by
  intro first second alike before other same
  rw [bind_run, bind_run, read_run, read_run]
  exact each first second alike first second alike before other same

theorem look {next : Compilation → Compile α}
    (each : ∀ state, Matches (next state) (next state))
    (blind : ∀ (state : Compilation) (events : Array Event),
      next { state with events } = next state) :
    Matches (get >>= next) (get >>= next) := by
  intro first second alike before other same
  rw [bind_run, bind_run, get_run, get_run]
  dsimp only
  have together : next other = next before := by
    rw [Compilation.eq_of_quiet same]
    exact blind before other.events
  rw [together]
  exact each before first second alike before other same

theorem change {change : Compilation → α × Compilation}
    (blind : ∀ (state : Compilation) (events : Array Event),
      change { state with events } =
        ((change state).1, { (change state).2 with events })) :
    Matches (modifyGet change) (modifyGet change) := by
  intro first second alike before other same
  have together := Compilation.eq_of_quiet same
  rw [modifyGet_run, modifyGet_run, together, blind before other.events]
  rfl

theorem note {change : Compilation → Compilation}
    (blind : ∀ (state : Compilation) (events : Array Event),
      change { state with events } = { change state with events }) :
    Matches (modify change) (modify change) :=
  Matches.change fun state events => congrArg (Prod.mk ()) (blind state events)

theorem record (what other : Happening) : Matches (record what) (record other) := by
  intro first second alike before others same
  exact congrArg (EStateM.Result.ok ()) same

theorem transfer (source : Layout) (action : TransferM Unit) :
    Matches (transfer source action) (transfer source action) := by
  refine look (fun state => ?_) fun _ _ => rfl
  split
  · exact note fun _ _ => rfl
  · exact (note fun _ _ => rfl).bind fun _ => throw

end Matches

/-- An action that does the same in modules that declare the same, whatever has been recorded. -/
def Blind ⦃α : Type⦄ (_ : Recording) (action : Compile α) : Prop := Matches action action

instance : Framed Blind (fun _ _ => True) where
  pure _ := Matches.pure
  throw _ := Matches.throw
  bind := Matches.bind
  mono blind _ := blind
  look each := Matches.look fun state => each state False.elim
  askNames each same := by
    refine Matches.ask fun first second alike => ?_
    rw [← same first second alike]
    exact each first fun _ _ _ => trivial
  lone _ _ := trivial
  emit _ := Matches.note fun _ _ => rfl
  loadRef _ _ _ _ := Matches.note fun _ _ => rfl
  newLabel := Matches.change fun _ _ => rfl
  openFrame := Matches.change fun _ _ => rfl
  setFrame _ := Matches.note fun _ _ => rfl
  note _ blind _ := Matches.note blind
  transfer _ _ := Matches.transfer _ _
  machine event _ _ inside :=
    (Matches.record _ _).bind fun _ => Matches.bind inside fun _ => Matches.record _ _
  block _ := Matches.record _ _

theorem matches_next (block : Block) : Matches (next block) (next block) := by
  unfold next
  split
  · exact (Matches.note fun _ _ => rfl).bind fun _ => Matches.pure
  · exact Matches.pure

theorem matches_step (instr : Option Instr) (op : Opcode) :
    Matches (step instr op) (step instr op) := by
  have lowers : Obeys (Unbounded Blind) .blocks 0 1 (lower op (instr.getD { op })) :=
    Obeys.lower Recording.blocks_loud _ _ (fun _ _ => trivial) (.inl rfl)
  have looks : Matches innermost innermost :=
    (Obeys.innermost : Obeys (Unbounded Blind) .nothing 0 0 _)
  have sound : Matches demandSound demandSound :=
    (Obeys.demandSound : Obeys (Unbounded Blind) .nothing 0 0 _)
  refine (Matches.note fun _ _ => rfl).bind fun _ => looks.bind fun block => ?_
  dsimp only
  split
  · exact Matches.note fun _ _ => rfl
  · refine (Matches.note fun _ _ => rfl).bind fun _ => (Matches.record _ _).bind fun _ => ?_
    refine Matches.bind lowers fun _ => sound.bind fun _ => ?_
    refine Matches.bind (Matches.look (fun _ => Matches.pure) fun _ _ => rfl) fun shot => ?_
    exact (Matches.record _ _).bind fun _ => Matches.note fun _ _ => rfl

/-- Rounds go side by side. -/
theorem matches_steps (fuel : Nat) : Matches (steps fuel) (steps fuel) := by
  induction fuel with
  | zero => exact Matches.pure
  | succ fuel ih =>
    refine Matches.look (fun state => ?_) fun _ _ => rfl
    split
    · exact Matches.pure
    · refine (matches_next _).bind fun taken => ?_
      exact (matches_step _ _).bind fun _ => ih

theorem matches_begin : Matches begin begin := by
  intro first second alike before other same
  rw [begin_run, begin_run]
  have places : Matches places places := (obeys_places : Blind .nothing _)
  refine places.bind (fun frame => ?_) first second alike _ _ same
  exact (Matches.note fun _ _ => rfl).bind fun _ => Matches.pure

theorem matches_conclude (frame : Nat) : Matches (conclude frame) (conclude frame) := by
  intro first second alike before other same
  rw [conclude_run, conclude_run, alike.index, alike.signature]
  have reports : Matches (reports frame) (reports frame) :=
    (obeys_reports frame : Blind .nothing _)
  refine reports.bind (fun traps => ?_) first second alike before other same
  refine (Matches.note fun _ _ => rfl).bind fun _ => (Matches.record _ _).bind fun _ => ?_
  exact Matches.look (fun _ => Matches.pure) fun _ _ => rfl

/-- Compilations of one function go side by side. -/
theorem matches_function : Matches function function := by
  intro first second alike before other same
  have rounds : rounds first = rounds second := by rw [Compile.rounds, Compile.rounds, alike.body]
  rw [function_rounds (Nat.le_refl _), function_rounds (Nat.le_refl _), rounds]
  refine matches_begin.bind (fun frame => ?_) first second alike before other same
  refine (matches_steps _).bind fun _ => (matches_steps _).bind fun _ => ?_
  exact matches_conclude frame

/-- What a compilation of a function comes to. -/
def outcome (index : UInt32) :
    EStateM.Result Fault Compilation Compiled → Except CompileError Compiled
  | .ok compiled _ => .ok compiled
  | .error fault state => .error ⟨index, state.instr, state.op, fault⟩

/-- The outcome does not tell the events. -/
theorem outcome_quietly (index : UInt32) (result : EStateM.Result Fault Compilation Compiled) :
    outcome index (quietly result) = outcome index result := by
  cases result with
  | ok compiled state => rfl
  | error fault state => rfl

end Compile

section

variable {first second : Module} {host : Host} {index : UInt32}

theorem compileFunction_outcome {module : Option Module} :
    (compileFunction module host index).outcome =
      match Subject.of module host index with
      | .error fault => .error ⟨index, -1, .unreachable, fault⟩
      | .ok subject => Compile.outcome index (Compile.function subject {}) := by
  unfold compileFunction
  cases Subject.of module host index with
  | error fault => rfl
  | ok subject =>
    dsimp only
    cases Compile.function subject {} with
    | ok compiled state => rfl
    | error fault state => rfl

/-- A function is looked up in both modules with the same fault, or its compilations read alike
subjects. -/
inductive Subject.Together (first second : Except Fault Subject) : Prop
  | fault {fault : Fault} (left : first = .error fault) (right : second = .error fault)
  | subject {one other : Subject} (left : first = .ok one) (right : second = .ok other)
      (alike : one.Alike other)

theorem Subject.of_together (alike : first.Alike second)
    (content : first.functions[index.toNat]?.map Function.content =
      second.functions[index.toNat]?.map Function.content) :
    Subject.Together (Subject.of (some first) host index) (Subject.of (some second) host index) := by
  unfold Subject.of
  dsimp only
  cases left : first.functions[index.toNat]? with
  | none =>
    cases right : second.functions[index.toNat]? with
    | none => exact .fault rfl rfl
    | some other => simp [left, right] at content
  | some function =>
    cases right : second.functions[index.toNat]? with
    | none => simp [left, right] at content
    | some other =>
      simp only [left, right, Option.map_some, Option.some.injEq, Function.content,
        Prod.mk.injEq] at content
      obtain ⟨type, locals, body⟩ := content
      dsimp only
      rw [← alike.typeAt, ← type]
      cases first.typeAt function.type with
      | error cause => exact .fault rfl rfl
      | ok found =>
        dsimp only
        by_cases many : 1 < found.results.length
        · rw [if_pos many, if_pos many]
          exact .fault rfl rfl
        · rw [if_neg many, if_neg many]
          refine .subject rfl rfl ⟨alike, ?_, rfl, locals, body, rfl, rfl, ?_⟩
          · rw [alike.memory]
          · rw [locals]

/-- The code of a function depends on the rest of the module through declarations only: modules
with equal types, type indices of functions, declarations of globals and limits of the memory
compile a function of equal type, locals and body to the same result, be it an error or code
with its references, frame, signature, source map and trap sites.  What has been recorded when
the compilation starts makes no difference either. -/
theorem compileFunction_declarations (alike : first.Alike second)
    (content : first.functions[index.toNat]?.map Function.content =
      second.functions[index.toNat]?.map Function.content) :
    (compileFunction (some first) host index).outcome =
        (compileFunction (some second) host index).outcome ∧
      ∀ subject events, Subject.of (some second) host index = .ok subject →
        Compile.outcome index (Compile.function subject { events }) =
          (compileFunction (some first) host index).outcome := by
  rw [compileFunction_outcome, compileFunction_outcome]
  have together : Subject.Together (Subject.of (some first) host index)
      (Subject.of (some second) host index) := Subject.of_together alike content
  cases together with
  | fault left right =>
    rw [left, right]
    refine ⟨rfl, fun subject events made => ?_⟩
    cases made
  | @subject one other left right alikes =>
    rw [left, right]
    have runs : ∀ events, Compile.outcome index (Compile.function one {}) =
        Compile.outcome index (Compile.function other { events }) := by
      intro events
      have quiet := Compile.matches_function one other alikes {} { events } rfl
      rw [← Compile.outcome_quietly, quiet, Compile.outcome_quietly]
    refine ⟨runs #[], fun subject events made => ?_⟩
    cases made
    exact (runs events).symm

end

/-- The first function reads a global, calls the second one through the table and directly, and
reads the memory. -/
def globalCaller : Module where
  types := #[⟨[.i32], [.i32]⟩, ⟨[.i32], [.i32]⟩]
  functions := #[
    { name := "caller", type := 0, locals := [.i64]
      body := [
        { op := .globalGet }, { op := .localGet }, { op := .callIndirect, index := 1 },
        { op := .call, index := 1 }, { op := .load .i32 }] },
    { name := "same", type := 1, locals := [], body := [{ op := .localGet }] }]
  globals := #[⟨.i32, false, ⟨.i32, 7⟩⟩]
  table := #[1]
  memory := some ⟨1, none⟩
  exports := [("caller", 0)]

/-- The same declarations and the same first function, with the canonical types tabulated. -/
def globalCallerTabulated : Module :=
  Module.tabulate
    { types := globalCaller.types
      functions := #[
        { globalCaller.functions[0] with name := "entry" },
        { name := "trap", type := 1, locals := [.f64], body := [{ op := .unreachable }] }]
      globals := #[⟨.i32, false, ⟨.i32, 9⟩⟩]
      memory := globalCaller.memory }

/-- The two modules compile their first function to the same code, of which there is some. -/
theorem compileFunction_declarations_globalCaller :
    globalCaller.Alike globalCallerTabulated ∧
      globalCaller.canonical ≠ globalCallerTabulated.canonical ∧
      (compileFunction (some globalCaller) { bounds := .dynamic, maxPages := 4 } 0).outcome =
        (compileFunction (some globalCallerTabulated)
          { bounds := .dynamic, maxPages := 4 } 0).outcome ∧
      (compileFunction (some globalCaller)
        { bounds := .dynamic, maxPages := 4 } 0).outcome.toOption.any
          (fun compiled => compiled.program.refs.length = 10) = true := by
  have alike : globalCaller.Alike globalCallerTabulated :=
    ⟨rfl, by simp [globalCaller, globalCallerTabulated, Module.tabulate],
      by simp [globalCaller, globalCallerTabulated, Module.tabulate, Global.declaration], rfl⟩
  have tabulated : globalCallerTabulated.canonical.size = 2 := FuncType.size_firstPlaces
  refine ⟨alike, fun same => ?_, ?_, by decide +kernel⟩
  · rw [← same] at tabulated
    cases tabulated
  · exact (compileFunction_declarations alike rfl).1

/-! ## What compiled code refers to -/

namespace Compile

variable {module : Module} {α β : Type} {subject : Subject} {state : Compilation}

/-- What is referred to so far is in the module that is compiled. -/
structure Naming (module : Module) (subject : Subject) (state : Compilation) : Prop where
  about : subject.module = module
  named : ∀ ref ∈ state.refs, module.Names ref.kind ref.index

def Refers (module : Module) ⦃α : Type⦄ (_ : Recording) (action : Compile α) : Prop :=
  Keeps (Naming module) action anything

theorem Ensures.of_run {action next : Compile α} {other : Compilation}
    {post : α → Compilation → Prop} (same : action subject state = next subject other)
    (ensures : Ensures next subject other post) : Ensures action subject state post := by
  unfold Ensures
  rw [same]
  exact ensures

/-- What loads no reference. -/
theorem Naming.modify {change : Compilation → Compilation}
    (refs : ∀ state, (change state).refs = state.refs) :
    Keeps (Naming module) (modify change) anything :=
  Keeps.modify fun _ state naming => ⟨naming.about, refs state ▸ naming.named⟩

theorem Naming.record (what : Happening) : Keeps (Naming module) (record what) anything :=
  Keeps.read.andThen fun _ => Naming.modify fun _ => rfl

instance : Framed (Refers module) module.Names where
  pure _ := Keeps.pure trivial
  throw _ := Keeps.throw
  bind := Keeps.andThen
  mono refers _ := refers
  look each _ := Keeps.get.andThen fun state => each state False.elim
  askNames each _ := by
    intro subject state naming
    rw [ensures_bind, ensures_read]
    refine each subject (fun kind index named => ?_) subject state naming
    exact naming.about ▸ named
  lone _ lone := Module.names_lone lone
  emit _ := Naming.modify fun _ => rfl
  loadRef _ _ _ named := Keeps.modify fun _ state naming => by
    refine ⟨naming.about, fun ref member => ?_⟩
    rcases Array.mem_push.mp member with old | rfl
    · exact naming.named ref old
    · exact named
  newLabel := Keeps.modifyGet fun _ _ naming => ⟨naming.about, naming.named⟩
  openFrame := Keeps.modifyGet fun _ _ naming => ⟨naming.about, naming.named⟩
  setFrame _ := Naming.modify fun _ => rfl
  note silent _ _ := Naming.modify fun state => (silent state).refs
  transfer _ _ := by
    refine Keeps.get.andThen fun state => ?_
    split
    · exact Naming.modify fun _ => rfl
    · exact Keeps.andThen (Naming.modify fun _ => rfl) fun _ => Keeps.throw
  machine event _ _ inside := Keeps.machine Naming.record inside
  block _ := Naming.record _

theorem naming_step (instr : Option Instr) (op : Opcode) :
    Keeps (Naming module) (step instr op) anything := by
  have lowers : Obeys (Unbounded (Refers module)) .blocks 0 1 (lower op (instr.getD { op })) :=
    Obeys.lower Recording.blocks_loud _ _ (fun _ _ => trivial) (.inl rfl)
  have looks : Obeys (Unbounded (Refers module)) .nothing 0 0 innermost := Obeys.innermost
  have sound : Obeys (Unbounded (Refers module)) .nothing 0 0 demandSound := Obeys.demandSound
  refine Keeps.andThen (Naming.modify fun _ => rfl) fun _ => Keeps.andThen looks fun block => ?_
  dsimp only
  split
  · exact Naming.modify fun _ => rfl
  · refine Keeps.andThen (Naming.modify fun _ => rfl) fun _ => (Naming.record _).andThen fun _ => ?_
    refine Keeps.andThen lowers fun _ => Keeps.andThen sound fun _ => ?_
    refine Keeps.andThen (Keeps.get.andThen fun _ => Keeps.pure trivial) fun shot => ?_
    exact (Naming.record _).andThen fun _ => Naming.modify fun _ => rfl

theorem naming_steps (fuel : Nat) : Keeps (Naming module) (steps fuel) anything := by
  induction fuel with
  | zero => exact Keeps.done
  | succ fuel ih =>
    refine Keeps.get.andThen fun state => ?_
    split
    · exact Keeps.done
    · refine Keeps.andThen ?_ fun taken => (naming_step _ _).andThen fun _ => ih
      unfold next
      split
      · exact Keeps.andThen (Naming.modify fun _ => rfl) fun _ => Keeps.pure trivial
      · exact Keeps.pure trivial

theorem naming_begin : Keeps (Naming module) begin anything := by
  have placed : Keeps (Naming module) places anything :=
    (obeys_places : Refers module .nothing places)
  intro subject state naming
  refine Ensures.of_run begin_run ?_
  refine placed.andThen (fun frame => ?_) subject _ ⟨naming.about, naming.named⟩
  exact Keeps.andThen (Naming.modify fun _ => rfl) fun _ => Keeps.pure trivial

/-- What is returned in the end has the references that were made. -/
theorem naming_conclude (frame : Nat) :
    Keeps (Naming module) (conclude frame) fun compiled =>
      ∀ ref ∈ compiled.program.refs, module.Names ref.kind ref.index := by
  have reported : Keeps (Naming module) (reports frame) anything :=
    (obeys_reports frame : Refers module .nothing _)
  intro subject state naming
  refine Ensures.of_run (conclude_run frame) ?_
  refine reported.andThen (fun traps => ?_) subject _ naming
  refine Keeps.andThen (Naming.modify fun _ => rfl) fun _ => (Naming.record _).andThen fun _ => ?_
  intro subject last naming
  rw [ensures_bind, ensures_get, ensures_pure]
  exact ⟨naming, fun ref member => naming.named ref (Array.mem_toList_iff.mp member)⟩

theorem naming_function :
    Keeps (Naming module) function fun compiled =>
      ∀ ref ∈ compiled.program.refs, module.Names ref.kind ref.index := by
  intro subject state naming
  refine Ensures.of_run (function_rounds (Nat.le_refl _)) ?_
  refine naming_begin.andThen (fun frame => ?_) subject _ naming
  exact (naming_steps _).andThen fun _ => (naming_steps _).andThen fun _ => naming_conclude frame

end Compile

theorem compileFunction_names {module : Module} {host : Host} {index : UInt32} {compiled : Compiled}
    (compiles : (compileFunction (some module) host index).outcome = .ok compiled) :
    ∀ ref ∈ compiled.program.refs, module.Names ref.kind ref.index := by
  obtain ⟨subject, final, _, _, made, ran, _⟩ := compileFunction_ok compiles
  have about := (Subject.of_ok made).2.1
  exact (Compile.naming_function subject {} ⟨about, by simp⟩ compiled final ran).2

end WasmX64
