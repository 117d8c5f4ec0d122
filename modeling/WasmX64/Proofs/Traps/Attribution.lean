import WasmX64.Proofs.Artifact.Reading
import WasmX64.Proofs.Traps.Report
import WasmX64.Proofs.Traps.Visits
import WasmX64.Proofs.Wires.Function

/-!
# Trap reports name their instructions

Every trap site of a compiled function names the instruction that registered it: by its number
in the visiting order, by the entry of the source map and by what its stub writes into the trap
cell.  Storing the function in an artifact and loading it again changes none of this.
-/

namespace WasmX64

namespace Opcode

theorem isValid_of_faults {op : Opcode} (faults : op.faults ≠ []) : op.isValid = true := by
  cases op with
  | unknown code => exact absurd rfl faults
  | _ => rfl

/-- The faults of instructions are known by their numbers. -/
theorem fault_ofCode_code {op : Opcode} {kind : TrapKind} (raised : kind ∈ op.faults) :
    TrapKind.ofCode kind.code = kind := by
  have known : ∀ kind ∈ TrapKind.list, TrapKind.ofCode kind.code = kind := by decide
  have listed : op.faults ⊆ TrapKind.list := by
    unfold faults
    split
    all_goals decide
  exact known kind (listed raised)

end Opcode

structure TrapSite.Names (site : TrapSite) (body : List Instr) (sources : SourceMap)
    (instr : Instr) : Prop where
  number : ∃ index : Nat, site.instr = index ∧
    (Instr.visitsAll body)[index]? = some (some instr, instr.op)
  raises : site.kind ∈ instr.op.faults
  entry : ∃ entry ∈ sources.descending, entry.instr = site.instr ∧ entry.op = instr.op
  opcode : sources.opcodeOf site.instr = instr.op

/-- The code at a trap site makes the report of the site, once the address of the trap cell has
been filled in where a reference asks for it. -/
structure Program.Reports (program : Program) (func : UInt32) (site : TrapSite) : Prop where
  ref : ⟨site.offset + 2, .trap, 0⟩ ∈ program.refs
  code : ∀ cell, ∃ row,
    Instruction.encodeAll (trapReport cell site.kind site.instr func) = .ok row ∧
      Code.Holds { bytes := Code.overwrite program.code (site.offset + 2).toNat (bytes64 cell) }
        site.offset.toNat row
  report : ∀ (machine : Processor) (cell : UInt64), ∃ after,
    machine.executes (trapReport cell site.kind site.instr func).dropLast = some after ∧
      machine.Reports after cell.toBitVec site.kind site.instr func

namespace Compile

variable {subject : Subject}

/-- The frame is opened and locals are placed without entries and stubs. -/
theorem begin_blank :
    Ensures begin subject {} fun _ start =>
      start.sources = {} ∧ start.stubs = #[] ∧ start.instr = 0 := by
  let blank (_ : Subject) (state : Compilation) : Prop := state.sources = {} ∧ state.stubs = #[]
  have calm : Calm blank := by
    constructor
    · intro steps _
      exact Keeps.modify fun _ _ => id
    · intro index
      exact Keeps.modify fun _ _ => id
    · intro change
      exact Keeps.modify fun _ _ => id
  unfold begin
  rw [ensures_bind, ensures_read, ensures_bind]
  unfold record
  rw [ensures_bind, ensures_read, ensures_modify, ensures_bind, ensures_modifyGet, ensures_bind]
  have places (params : List Passing) : Keeps blank (placeParams params) anything :=
    .through (.placeParams params)
  refine (places _ subject _ ⟨rfl, rfl⟩).mono ?_
  rintro _ passed ⟨params, _⟩
  refine (Keeps.through (.placeLocals _ _) subject _ params).andThen ?_
  rintro _ placed ⟨locals, _⟩
  unfold openBlock newLabel
  simp only [ensures_bind, ensures_modifyGet, ensures_modify, ensures_modifyLayout, ensures_pure]
  exact ⟨locals.1, locals.2, trivial⟩

/-- Nothing is registered before the first round. -/
theorem begin_traced (tidy : Instr.allTidy subject.function.body = true) :
    Ensures begin subject {} fun _ start =>
      Traced subject.function.body subject start start := by
  have opens := @begin_between (fun _ => False) subject
  refine (opens.and begin_blank).mono ?_
  rintro _ start ⟨⟨_, _, courses⟩, sources, stubs, number⟩
  constructor
  · constructor
    · rw [courses]
      intro course member
      rw [List.mem_singleton.mp member]
      exact ⟨tidy, rfl⟩
    · refine ⟨[], ?_, number⟩
      rw [courses]
      simp [Course.visits, Course.allVisits]
  · rw [sources]
    exact List.Pairwise.nil
  · rw [sources]
    intro entry member
    cases member
  · rw [stubs]
    intro stub member
    cases member

/-- The rounds of a function register its stubs. -/
theorem steps_traced (proper : subject.Proper)
    (tidy : Instr.allTidy subject.function.body = true) {frame : Nat} {start : Compilation}
    (begun : begin subject {} = .ok frame start) (count : Nat) :
    Ensures (steps count) subject start fun _ after =>
      Traced subject.function.body subject start after := by
  apply steps_keep (begin_books proper frame start begun) (begin_traced tidy frame start begun)
  intro count before after block outer reached goesOn opened books traced ran
  exact round_traced books traced opened reached goesOn ran

end Compile

theorem Subject.index_of {module : Module} {host : Host} {index : UInt32} {subject : Subject}
    (made : Subject.of (some module) host index = .ok subject) : subject.index = index := by
  obtain ⟨_, _, found, typed⟩ := Subject.of_ok made
  unfold Subject.of at made
  dsimp only at made
  rw [found] at made
  dsimp only at made
  rw [typed] at made
  dsimp only at made
  split at made
  · cases made
  · exact (congrArg Subject.index (Except.ok.inj made)).symm

theorem Program.reports_of_row {program : Program} {func : UInt32} {site : TrapSite}
    {code : Code} {listing : List Placed} {finish : Nat} (bytes : code.bytes = program.code)
    (listed : code.Listed listing finish) (positive : 0 ≤ site.offset)
    (among : ∀ placed ∈ site.row func, placed ∈ listing)
    (ref : ⟨site.offset + 2, .trap, 0⟩ ∈ program.refs) : program.Reports func site := by
  obtain ⟨rest, encodes⟩ := trapReport_bytes site.kind site.instr func
  have holds := listed.holds_row (encodes placeholder) among
  have place : (site.offset + 2).toNat = site.offset.toNat + 2 := by omega
  refine ⟨ref, fun cell => ⟨_, encodes cell, ?_⟩, fun machine cell => executes_trapReport ..⟩
  rw [place, ← bytes]
  have eight : ∀ word, (bytes64 word).length = 8 := fun _ => rfl
  exact holds.overwrite ((eight cell).trans (eight placeholder).symm)

/-- A round of the driver over a function takes an instruction and registers the stub of a
site. -/
def TrapSite.RegisteredBy (site : TrapSite) (module : Module) (host : Host) (index : UInt32)
    (instr : Instr) : Prop :=
  ∃ count before after block outer pending,
    compilingAfter (some module) host index count = .ok before ∧
    compilingAfter (some module) host index (count + 1) = .ok after ∧
    before.blocks = block :: outer ∧ block.pending = instr :: pending ∧
    before.instr = site.instr ∧
    ∃ added stub, after.stubs.toList = before.stubs.toList ++ added ∧ stub ∈ added ∧
      stub.kind = site.kind ∧ stub.instr = site.instr

/-- Entries of the source map for the visits of a body. -/
structure SourceMap.Covers (sources : SourceMap) (body : List Instr) : Prop where
  descends : sources.Descends
  entries : ∀ entry ∈ sources.descending,
    0 ≤ entry.offset ∧ ∃ index : Nat, entry.instr = index ∧
      ∃ visit, (Instr.allVisits body)[index]? = some visit ∧ visit.2 = entry.op

/-- Entries with the number of an instruction have its opcode. -/
theorem SourceMap.Covers.op_eq {sources : SourceMap} {body : List Instr}
    (covers : sources.Covers body) {entry : SourceEntry} (member : entry ∈ sources.descending)
    {index : Nat} {instr : Instr} (named : entry.instr = index)
    (visit : (Instr.visitsAll body)[index]? = some (some instr, instr.op)) :
    entry.op = instr.op := by
  obtain ⟨_, number, same, other, found, op⟩ := covers.entries entry member
  obtain rfl : number = index := by omega
  rw [Instr.allVisits, List.getElem?_append_left (List.getElem?_eq_some_iff.mp visit).1, visit]
    at found
  cases found
  exact op.symm

/-- Every site of a function names the instruction that registered it, and its code reports
just that. -/
def Compiled.Attributed (compiled : Compiled) (module : Module) (host : Host) (index : UInt32)
    (body : List Instr) : Prop :=
  compiled.index = index ∧ ∀ site ∈ compiled.traps, ∃ instr,
    site.RegisteredBy module host index instr ∧ site.Names body compiled.sources instr ∧
      (compiled.program.code.size < 2147483648 → compiled.program.Reports index site)

/-- The offsets of a function lie in its code. -/
structure Compiled.Inside (compiled : Compiled) : Prop where
  entries : ∀ entry ∈ compiled.sources.descending, entry.offset ≤ compiled.program.code.size
  sites : ∀ site ∈ compiled.traps, 0 ≤ site.offset ∧
    (compiled.program.code.size < 2147483648 → site.offset < 2147483648)

section Compiled

variable {module : Module} {host : Host} {index : UInt32} {function : Function}
  {compiled : Compiled}

theorem compiled_attributed (found : module.functions[index.toNat]? = some function)
    (tidy : Instr.allTidy function.body = true)
    (compiles : (compileFunction (some module) host index).outcome = .ok compiled) :
    compiled.Attributed module host index function.body ∧
      compiled.sources.Covers function.body ∧ compiled.Inside := by
  obtain ⟨subject, final, frame, start, made, ran, begun⟩ := compileFunction_ok compiles
  have proper := Subject.of_proper made
  obtain ⟨_, _, same, _⟩ := Subject.of_ok made
  obtain rfl : function = subject.function := Option.some.inj (found.symm.trans same)
  obtain ⟨before, reached, _, concluded⟩ := Compile.function_concluded proper begun ran
  have traced := Compile.steps_traced proper tidy begun _ _ before reached
  have covers : compiled.sources.Covers subject.function.body := by
    rw [concluded.sources]
    refine ⟨traced.descends, fun entry member => ?_⟩
    obtain ⟨positive, _, named⟩ := traced.entries entry member
    exact ⟨positive, named⟩
  have rows : compiled.program.code.size < 2147483648 → ∃ listing finish,
      final.output.code.Listed listing finish ∧ finish = compiled.program.code.size ∧
      ∀ site ∈ compiled.traps, ∀ placed ∈ site.row index, placed ∈ listing := by
    intro small
    have size : final.output.code.size = compiled.program.code.size := by
      rw [Code.size, concluded.bytes]
    obtain ⟨listing, finished, rows⟩ := concluded.finished (size ▸ small)
    rw [Subject.index_of made] at rows
    exact ⟨listing, _, finished.listed, size, rows⟩
  refine ⟨⟨concluded.index.trans (Subject.index_of made), ?_⟩, covers, ?_, ?_⟩
  · intro site member
    obtain ⟨stub, registered, kind, number, _⟩ := concluded.used site member
    obtain ⟨entry, listed, names, _, raised, instr, op, round, place, counted, visit⟩ :=
      traced.stubs stub registered
    rw [← concluded.sources] at listed
    refine ⟨instr, ?_, ?_, ?_⟩
    · obtain ⟨count, earlier, later, block, outer, pending, added, comes, goes, opened, next, same,
        all, new⟩ := round
      exact ⟨count, earlier, later, block, outer, pending,
        compilingAfter_of_steps made begun comes, compilingAfter_of_steps made begun goes,
        opened, next, same.trans number, added, stub, all, new, kind, number⟩
    · refine ⟨⟨place, number ▸ counted, visit⟩, ?_, ⟨entry, listed, names.trans number, op.symm⟩, ?_⟩
      · rw [← kind, op]
        exact raised
      · apply SourceMap.opcodeOf_eq ⟨entry, listed, names.trans number⟩
        intro other among same
        exact covers.op_eq among (same.trans (number.symm.trans counted)) visit
    · intro small
      obtain ⟨listing, finish, stands, _, among⟩ := rows small
      exact Program.reports_of_row concluded.bytes stands (concluded.offsets site member)
        (among site member) (concluded.refs site member)
  · intro entry member
    rw [concluded.sources] at member
    have below := (traced.entries entry member).2.1
    have grows := concluded.grows
    have size : before.output.code.bytes.size = before.output.code.size := rfl
    omega
  · intro site member
    have positive := concluded.offsets site member
    refine ⟨positive, fun small => ?_⟩
    obtain ⟨listing, finish, stands, ends, among⟩ := rows small
    obtain ⟨last, first, inside⟩ := stands.mem_stands (among site member _ List.mem_cons_self)
    have behind := Placed.offset_lt first
    dsimp only at behind
    omega

end Compiled

section Loaded

variable {module : Module} {host : Host} {index : UInt32} {body : List Instr}
  {compiled : Compiled} {type : FuncType}

/-- Sites whose numbers fit come back as they were. -/
theorem TrapSite.restored_eq {site : TrapSite} {instr : Instr} {sources : SourceMap}
    (names : site.Names body sources instr) (few : Instr.countAll body < 4294967296)
    (positive : 0 ≤ site.offset) (inside : site.offset < 2147483648) : site.restored = site := by
  obtain ⟨place, number, visit⟩ := names.number
  have below := (List.getElem?_eq_some_iff.mp visit).1
  rw [Instr.length_visitsAll] at below
  rw [restored, Opcode.fault_ofCode_code names.raises, wrapped_eq (by omega) (by omega),
    wrapped_eq positive (by omega)]

/-- A source map whose numbers fit comes back with the opcodes of its numbers. -/
theorem SourceMap.Covers.restored {sources : SourceMap} (covers : sources.Covers body)
    (inside : ∀ entry ∈ sources.descending, entry.offset < 4294967296) :
    SourceMap.ofList (sources.toList.map SourceEntry.restored) =
      ⟨sources.descending.map SourceEntry.restored⟩ := by
  rw [toList, List.map_reverse]
  apply ofList_reverse
  apply List.pairwise_map.mpr
  apply List.Pairwise.imp_of_mem _ covers.descends
  intro later earlier first second above
  dsimp only [SourceEntry.restored]
  rw [wrapped_eq (covers.entries later first).1 (inside later first),
    wrapped_eq (covers.entries earlier second).1 (inside earlier second)]
  exact above

theorem TrapSite.Names.restored {site : TrapSite} {instr : Instr} {sources : SourceMap}
    (names : site.Names body sources instr) (covers : sources.Covers body)
    (few : Instr.countAll body < 4294967296) :
    site.Names body ⟨sources.descending.map SourceEntry.restored⟩ instr := by
  have valid := Opcode.isValid_of_faults (List.ne_nil_of_mem names.raises)
  have number : ∀ entry ∈ sources.descending, entry.restored.instr = entry.instr := by
    intro entry member
    obtain ⟨_, place, same, visit, found, _⟩ := covers.entries entry member
    have below := (List.getElem?_eq_some_iff.mp found).1
    rw [Instr.allVisits, List.length_append, Instr.length_visitsAll, List.length_singleton] at below
    exact wrapped_eq (by omega) (by omega)
  obtain ⟨entry, member, named, op⟩ := names.entry
  have kept : entry.restored.op = instr.op := by
    dsimp only [SourceEntry.restored]
    rw [op, Opcode.ofCode_code valid]
  have found : entry.restored ∈ sources.descending.map SourceEntry.restored :=
    List.mem_map_of_mem member
  have same := (number entry member).trans named
  refine ⟨names.number, names.raises, ⟨entry.restored, found, same, kept⟩, ?_⟩
  apply SourceMap.opcodeOf_eq ⟨entry.restored, found, same⟩
  intro other listed equal
  obtain ⟨before, among, rfl⟩ := List.mem_map.mp listed
  obtain ⟨place, counted, visit⟩ := names.number
  rw [number before among, counted] at equal
  dsimp only [SourceEntry.restored]
  rw [covers.op_eq among equal visit, Opcode.ofCode_code valid]

/-- A function that is stored and loaded again has the same sites, and they are attributed to
the same instructions. -/
theorem restored_attributed (attributed : compiled.Attributed module host index body)
    (covers : compiled.sources.Covers body) (inside : compiled.Inside)
    (small : compiled.program.code.size < 2147483648)
    (few : Instr.countAll body < 4294967296) :
    (StoredFunction.ofCompiled type compiled).restored.toCompiled.traps = compiled.traps ∧
      (StoredFunction.ofCompiled type compiled).restored.toCompiled.Attributed module host index
        body := by
  obtain ⟨same, sites⟩ := attributed
  have traps : compiled.traps.map TrapSite.restored = compiled.traps := by
    have each : ∀ site ∈ compiled.traps, site.restored = id site := by
      intro site member
      obtain ⟨instr, _, names, _⟩ := sites site member
      obtain ⟨positive, below⟩ := inside.sites site member
      exact TrapSite.restored_eq names few positive (below small)
    rw [List.map_congr_left each, List.map_id]
  have sources : (StoredFunction.ofCompiled type compiled).restored.toCompiled.sources =
      ⟨compiled.sources.descending.map SourceEntry.restored⟩ := by
    apply covers.restored
    intro entry member
    have below := inside.entries entry member
    omega
  have code : (StoredFunction.ofCompiled type compiled).restored.toCompiled.program.code =
      compiled.program.code := Array.toArray_toList
  refine ⟨traps, same, ?_⟩
  rw [sources]
  intro site member
  have before : site ∈ compiled.traps := traps ▸ member
  obtain ⟨instr, registered, names, reports⟩ := sites site before
  refine ⟨instr, registered, names.restored covers few, fun _ => ?_⟩
  obtain ⟨ref, stub, report⟩ := reports small
  refine ⟨?_, ?_, report⟩
  · have back : (Reference.mk (site.offset + 2) .trap 0).restored = ⟨site.offset + 2, .trap, 0⟩ := by
      have bounds := inside.sites site before
      have below := bounds.2 small
      rw [Reference.restored, wrapped_eq (by dsimp only; omega) (by dsimp only; omega)]
      rfl
    rw [← back]
    exact List.mem_map_of_mem ref
  · rw [code]
    exact stub

theorem loaded_at {functions : List Compiled} {artifact loaded : Artifact} {place : Nat}
    (stores : Artifact.ofCompiled module functions = .ok artifact)
    (count : artifact.functions.length < 4294967296)
    (measured : ∀ stored ∈ artifact.functions, stored.Measured)
    (decodes : Artifact.decode artifact.encode = .ok loaded)
    (here : functions[place]? = some compiled) :
    ∃ type, loaded.toCompiled[place]? =
      some (StoredFunction.ofCompiled type compiled).restored.toCompiled := by
  obtain ⟨type, stored⟩ := Artifact.ofCompiled_at stores here
  refine ⟨type, ?_⟩
  rw [Artifact.toCompiled, Artifact.decode_restores count measured decodes, List.getElem?_map,
    List.getElem?_map, stored]
  rfl

end Loaded

/-- Trap reports name the right instruction.  Every site of a compiled function has the number
of the instruction that registered it, whose opcode can raise the fault of the site; the source
map still has an entry of that instruction, so that its opcode is found by the number; and the
code of the site writes fault, number and function into the trap cell.  The same holds after
the function has been stored in an artifact and loaded again. -/
theorem traps_attributed {module : Module} {host : Host} {index : UInt32} {function : Function}
    {compiled : Compiled} (found : module.functions[index.toNat]? = some function)
    (tidy : Instr.allTidy function.body = true)
    (compiles : (compileFunction (some module) host index).outcome = .ok compiled) :
    compiled.Attributed module host index function.body ∧
      (compiled.program.code.size < 2147483648 → Instr.countAll function.body < 4294967296 →
        ∀ (functions : List Compiled) (artifact loaded : Artifact) (place : Nat),
          functions[place]? = some compiled →
          Artifact.ofCompiled module functions = .ok artifact →
          artifact.functions.length < 4294967296 →
          (∀ stored ∈ artifact.functions, stored.Measured) →
          Artifact.decode artifact.encode = .ok loaded →
          ∃ restored, loaded.toCompiled[place]? = some restored ∧
            restored.traps = compiled.traps ∧
            restored.Attributed module host index function.body) := by
  obtain ⟨attributed, covers, inside⟩ := compiled_attributed found tidy compiles
  refine ⟨attributed, ?_⟩
  intro small few functions artifact loaded place here stores count measured decodes
  obtain ⟨type, back⟩ := loaded_at stores count measured decodes here
  obtain ⟨same, kept⟩ := @restored_attributed _ _ _ _ _ type attributed covers inside small few
  exact ⟨_, back, same, kept⟩

/-- Both sites of a division, as compiled and as loaded. -/
theorem traps_attributed_loopingDivision :
    ∃ compiled artifact loaded restored,
      (compileFunction (some loopingDivision) {} 0).outcome = .ok compiled ∧
      compiled.traps.map TrapSite.kind = [.divideByZero, .integerOverflow] ∧
      compiled.Attributed loopingDivision {} 0 loopingDivision.functions[0].body ∧
      Artifact.ofCompiled loopingDivision [compiled] = .ok artifact ∧
      Artifact.decode artifact.encode = .ok loaded ∧ loaded.toCompiled[0]? = some restored ∧
      restored.Attributed loopingDivision {} 0 loopingDivision.functions[0].body := by
  have fine : (compileFunction (some loopingDivision) {} 0).outcome.toOption.any
      (fun compiled => compiled.traps.map TrapSite.kind = [.divideByZero, .integerOverflow] ∧
        compiled.program.code.size < 2147483648 ∧
        (Artifact.ofCompiled loopingDivision [compiled]).toOption.any fun artifact =>
          artifact.functions.length < 4294967296 ∧
            (∀ stored ∈ artifact.functions, stored.Measured) ∧
            (Artifact.decode artifact.encode).toOption.any fun _ => true) = true := by decide +kernel
  obtain ⟨compiled, compiles, kinds, small, kept⟩ := Except.exists_of_any fine
  obtain ⟨artifact, stores, count, measured, reads⟩ := Except.exists_of_any kept
  obtain ⟨loaded, decodes, _⟩ := Except.any_inv reads
  obtain ⟨attributed, again⟩ := @traps_attributed loopingDivision {} 0 _ compiled rfl (by decide)
    compiles
  obtain ⟨restored, found, _, same⟩ := again small (by decide) [compiled] artifact loaded 0 rfl
    stores count measured decodes
  exact ⟨compiled, artifact, loaded, restored, compiles, kinds, attributed, stores, decodes, found,
    same⟩

end WasmX64
