import WasmX64.Proofs.Wires.Plain

/-!
# Stubs

Behind the body stand the stubs that are jumped to, each with the code that reports its
fault.  Once they stand, no field waits for a label any more.
-/

namespace WasmX64

/-- What a stub does: it writes its report into the trap cell, takes back the stack and
leaves the code. -/
def trapReport (cell : UInt64) (kind : TrapKind) (instr : Int) (func : UInt32) :
    List Instruction :=
  [.movabs .r10 cell,
    .storeImm .i32 (.based .r10 trapCell.kind) kind.code.toInt32,
    .storeImm .i32 (.based .r10 trapCell.instr) (Int32.ofInt instr),
    .storeImm .i32 (.based .r10 trapCell.func) func.toInt32,
    .load .i64 .rsp (.based .r10 trapCell.stackPointer),
    .jmpLoad (.based .r10 trapCell.resume)]

theorem trapReport_encodes (cell : UInt64) (kind : TrapKind) (instr : Int) (func : UInt32) :
    ∃ bytes, Instruction.encodeAll (trapReport cell kind instr func) = .ok bytes :=
  ⟨_, rfl⟩

theorem trapReport_declared (cell : UInt64) (kind : TrapKind) (instr : Int) (func : UInt32) :
    ∀ instruction ∈ trapReport cell kind instr func, instruction.Declared := by
  simp only [trapReport, List.forall_mem_cons]
  exact ⟨rfl, rfl, rfl, rfl, rfl, rfl, List.forall_mem_nil _⟩

/-- The code of the stub at a site. -/
def TrapSite.row (site : TrapSite) (func : UInt32) : List Placed :=
  Placed.row site.offset.toNat (trapReport placeholder site.kind site.instr func)

/-- Code whose fields wait for the labels of stubs only. -/
structure Stubbing (stubs : List TrapStub) (kept : List Placed) (lands : Landing → Prop)
    (code : Code) : Prop where
  distinct : (stubs.map TrapStub.label).Nodup
  known : ∀ stub ∈ stubs, stub.label.index < code.labels.size
  wired : code.error = none → code.size < 2147483648 →
    code.Wired kept (fun use => use.distance = .far ∧ ∃ stub ∈ stubs, stub.label = use.target)
      lands

namespace Stubbing

variable {stub : TrapStub} {rest : List TrapStub} {kept : List Placed} {lands : Landing → Prop}
  {code : Code}

/-- Nothing waits for a label that was never used. -/
theorem skip (stubbing : Stubbing (stub :: rest) kept lands code)
    (unused : (code.label stub.label).state = .unused) : Stubbing rest kept lands code := by
  constructor
  · exact (List.nodup_cons.mp stubbing.distinct).2
  · intro other member
    exact stubbing.known other (List.mem_cons_of_mem _ member)
  · intro fine small
    obtain ⟨listing, pending, settled, assembled, within, accepted, landed⟩ :=
      stubbing.wired fine small
    refine ⟨listing, pending, settled, assembled, within, ?_, landed⟩
    intro use member
    obtain ⟨far, other, listed, same⟩ := accepted use member
    refine ⟨far, other, (List.mem_cons.mp listed).resolve_left ?_, same⟩
    rintro rfl
    have latest := assembled.linked.latest .far other.label
    have found : use.site ∈ Code.sites pending .far other.label := by
      rw [Code.mem_sites, same, ← far]
      exact member
    rw [LabelInfo.latest, unused] at latest
    rw [List.head?_eq_none_iff.mp latest.symm] at found
    cases found

theorem report (stubbing : Stubbing (stub :: rest) kept lands code) {bytes : List UInt8}
    {func : UInt32}
    (encodes : Instruction.encodeAll (trapReport placeholder stub.kind stub.instr func) = .ok bytes) :
    Stubbing rest
      (TrapSite.row ⟨stub.kind, stub.instr, code.size⟩ func ++ kept) lands
      ((code.bind stub.label).append bytes) := by
  have known := stubbing.known stub List.mem_cons_self
  have grows := (Code.Extends.bind code stub.label).trans (.append _ bytes)
  constructor
  · exact (List.nodup_cons.mp stubbing.distinct).2
  · intro other member
    exact Nat.lt_of_lt_of_le (stubbing.known other (List.mem_cons_of_mem _ member)) grows.count
  · intro fine small
    rw [Code.error_append] at fine
    have before := Nat.lt_of_le_of_lt grows.size small
    have sound := (Code.Extends.bind code stub.label).error fine
    have wired := stubbing.wired sound before
    have bound := (wired.bind known fine before).emitAll (trapReport_declared _ _ _ _) encodes
    rw [Code.size_bind] at bound
    apply bound.mono
    · rintro use ⟨⟨far, other, listed, same⟩, different⟩
      refine ⟨far, other, (List.mem_cons.mp listed).resolve_left ?_, same⟩
      rintro rfl
      exact different same.symm
    · rintro landing ⟨none, _⟩
      cases none

end Stubbing

/-- Stubs have been placed behind the code, with the sites of those that are jumped to. -/
structure Reported (func : UInt32) (stubs : List TrapStub) (kept : List Placed)
    (lands : Landing → Prop) (before after : Code) (sites : List TrapSite) : Prop where
  grows : before.Extends after
  wired : after.error = none → after.size < 2147483648 →
    after.Wired (sites.flatMap (·.row func) ++ kept) (fun _ => False) lands
  offsets : ∀ site ∈ sites, 0 ≤ site.offset
  used : ∀ site ∈ sites, ∃ stub ∈ stubs, stub.kind = site.kind ∧ stub.instr = site.instr ∧
    (before.label stub.label).state ≠ .unused

namespace Reported

variable {func : UInt32} {stub : TrapStub} {rest : List TrapStub} {kept : List Placed}
  {lands : Landing → Prop} {code after : Code} {sites : List TrapSite}

theorem skip (reported : Reported func rest kept lands code after sites) :
    Reported func (stub :: rest) kept lands code after sites := by
  refine ⟨reported.grows, reported.wired, reported.offsets, ?_⟩
  intro site member
  obtain ⟨other, listed, facts⟩ := reported.used site member
  exact ⟨other, List.mem_cons_of_mem _ listed, facts⟩

theorem cons {middle : Code} {bytes : List UInt8}
    (stubbing : Stubbing (stub :: rest) kept lands code)
    (used : (code.label stub.label).state ≠ .unused)
    (appends : middle = (code.bind stub.label).append bytes)
    (reported : Reported func rest
      (TrapSite.row ⟨stub.kind, stub.instr, code.size⟩ func ++ kept) lands middle after sites) :
    Reported func (stub :: rest) kept lands code after
      (⟨stub.kind, stub.instr, code.size⟩ :: sites) := by
  subst appends
  constructor
  · exact ((Code.Extends.bind code stub.label).trans (.append _ bytes)).trans reported.grows
  · intro fine small
    obtain ⟨listing, pending, settled, assembled, within, rest⟩ := reported.wired fine small
    refine ⟨listing, pending, settled, assembled, ?_, rest⟩
    intro placed member
    apply within
    simp only [List.flatMap_cons, List.mem_append] at member ⊢
    rcases member with (here | others) | kept
    · exact .inr (.inl here)
    · exact .inl others
    · exact .inr (.inr kept)
  · intro site member
    cases List.mem_cons.mp member with
    | inl here =>
      subst here
      exact Int.natCast_nonneg _
    | inr there => exact reported.offsets site there
  · intro site member
    cases List.mem_cons.mp member with
    | inl here =>
      subst here
      exact ⟨stub, List.mem_cons_self, rfl, rfl, used⟩
    | inr there =>
      obtain ⟨other, listed, kind, instr, stays⟩ := reported.used site there
      refine ⟨other, List.mem_cons_of_mem _ listed, kind, instr, ?_⟩
      have different : other.label ≠ stub.label := by
        intro same
        apply (List.nodup_cons.mp stubbing.distinct).1
        rw [← same]
        exact List.mem_map_of_mem listed
      rw [Code.label, Code.labels_append, ← Code.label, Code.label_bind_other
        (stubbing.known stub List.mem_cons_self) different] at stays
      exact stays

end Reported

/-- Finished code: it reads as a listing, no label is waited for, and every displacement leads
to an item of the listing.  Only stray ones lead to the very end of the code. -/
structure Code.Finished (strays : Nat → Prop) (code : Code) (listing : List Placed) :
    Prop where
  listed : code.Listed listing code.size
  labels : ∀ label distance, (code.label label).latest distance = none
  leads : ∀ placed ∈ listing, ∀ field, placed.field? = some field →
    ∃ position : Nat, code.displacement field = position - field.finish ∧
      (position < code.size ∧ Starts listing position ∨ position = code.size ∧ strays field.site)

theorem Code.Wired.finished {strays : Nat → Prop} {kept : List Placed} {code : Code}
    (wired : code.Wired kept (fun _ => False) fun landing => strays landing.site) :
    ∃ listing, code.Finished strays listing ∧ ∀ placed ∈ kept, placed ∈ listing := by
  obtain ⟨listing, pending, settled, assembled, within, accepted, landed⟩ := wired
  have none : pending = [] := List.eq_nil_iff_forall_not_mem.mpr accepted
  subst none
  refine ⟨listing, ⟨assembled.listed, ?_, ?_⟩, within⟩
  · intro label distance
    exact assembled.linked.latest distance label
  · intro placed member field jumps
    cases assembled.jumps placed member field jumps with
    | inl waits =>
      obtain ⟨use, waiting, _⟩ := waits
      cases waiting
    | inr leads =>
      obtain ⟨landing, settles, rfl⟩ := leads
      refine ⟨landing.position, assembled.linked.reads landing settles, ?_⟩
      cases assembled.leads landing settles with
      | inl here => exact .inr ⟨here, landed landing settles here⟩
      | inr starts =>
        obtain ⟨target, found, same⟩ := starts
        obtain ⟨last, stands, below⟩ := assembled.listed.mem_stands found
        have above := Placed.offset_lt stands
        exact .inl ⟨by omega, target, found, same⟩

/-- The instruction that opens the frame, with the size of the frame. -/
def frameSized (slots : Int) : Placed := ⟨4, .plain (.enterFrame (Program.frameSize slots))⟩

theorem frameSized_stands {code : Code} {last : Nat} {size : UInt32} (slots : Int)
    (stands : Placed.Stands code ⟨4, .plain (.enterFrame size)⟩ last) (inside : last ≤ code.size) :
    last = 11 ∧ (frameSized slots).Stands (code.setFrame 7 slots) last ∧
      Code.SameBut (fun offset => 7 ≤ offset ∧ offset < 11) code (code.setFrame 7 slots) := by
  cases stands with
  | @plain offset instruction bytes _ encodes holds =>
    have split : bytes = (Instruction.integerForm .i64 [0x81]).withReg AluOp.sub.code .rsp ++
        bytes32 size := (Except.ok.inj encodes).symm
    have eleven : 4 + bytes.length = 11 := by
      rw [split]
      rfl
    rw [eleven] at inside ⊢
    obtain ⟨same, written, _⟩ :=
      @Code.patch_same code 7 (bytes32 (Program.frameSize slots)) inside
    refine ⟨rfl, ?_, same⟩
    have opcode : (code.setFrame 7 slots).Holds 4
        ((Instruction.integerForm .i64 [0x81]).withReg AluOp.sub.code .rsp) := by
      rw [split] at holds
      apply same.holds _ (Code.holds_append_iff.mp holds).1
      intro index below covered
      have short : index < 3 := below
      omega
    exact .plain (by rfl) rfl (Code.holds_append_iff.mpr ⟨opcode, written⟩)

theorem Code.Finished.setFrame {strays : Nat → Prop} {code : Code} {listing : List Placed}
    (finished : code.Finished strays listing) (opens : frameOpening ∈ listing) (slots : Int) :
    (code.setFrame 7 slots).Finished strays
      (listing.map fun placed => if placed = frameOpening then frameSized slots else placed) := by
  obtain ⟨last, stands, below⟩ := finished.listed.mem_stands opens
  obtain ⟨eleven, written, same⟩ := frameSized_stands slots stands below
  have starts : ∀ position, Starts listing position →
      Starts (listing.map fun placed =>
        if placed = frameOpening then frameSized slots else placed) position := by
    rintro position ⟨placed, member, rfl⟩
    refine ⟨_, List.mem_map_of_mem member, ?_⟩
    split
    · rename_i here
      rw [here]
      rfl
    · rfl
  constructor
  · rw [same.size]
    apply finished.listed.replace opens stands written rfl
    intro offset outside
    apply same.bytes
    have four : frameOpening.offset = 4 := rfl
    omega
  · intro label distance
    rw [Code.label, same.labels]
    exact finished.labels label distance
  · intro placed member field jumps
    obtain ⟨before, listed, changed⟩ := List.mem_map.mp member
    by_cases here : before = frameOpening
    · rw [if_pos here] at changed
      subst changed
      cases jumps
    · rw [if_neg here] at changed
      subst changed
      obtain ⟨position, reads, leads⟩ := finished.leads before listed field jumps
      refine ⟨position, ?_, ?_⟩
      · rw [← reads]
        apply same.displacement
        intro offset covers covered
        obtain ⟨stop, stood, _⟩ := finished.listed.mem_stands listed
        have fields := Placed.field_inside stood jumps
        have four : frameOpening.offset = 4 := rfl
        rcases finished.listed.apart listed opens here stood stands with early | late
        · have := covers.2
          omega
        · have := covers.1
          omega
      · rw [same.size]
        exact leads.imp_left fun inside => ⟨inside.1, starts position inside.2⟩

namespace Compile

variable {subject : Subject} {state : Compilation} {kept : List Placed} {lands : Landing → Prop}

theorem emitStubs_reported {stubs : List TrapStub}
    (stubbing : Stubbing stubs kept lands state.output.code) :
    Ensures (emitStubs stubs) subject state fun sites after =>
      Reported subject.index stubs kept lands state.output.code after.output.code sites ∧
        after.sources = state.sources ∧ (∀ ref ∈ state.refs, ref ∈ after.refs) ∧
        (after.output.code.error = none →
          ∀ site ∈ sites, ⟨site.offset + 2, .trap, 0⟩ ∈ after.refs) := by
  induction stubs generalizing state kept with
  | nil =>
    rw [emitStubs, ensures_pure]
    refine ⟨⟨.refl _, ?_, by simp, by simp⟩, rfl, fun _ => id, by simp⟩
    intro fine small
    apply (stubbing.wired fine small).mono
    · rintro use ⟨_, stub, member, _⟩
      cases member
    · exact fun _ => id
  | cons stub rest ih =>
    rw [emitStubs, ensures_bind, ensures_get]
    dsimp only
    rw [ensures_ite]
    constructor
    · intro unused
      refine (ih (stubbing.skip unused)).mono ?_
      rintro sites after ⟨reported, same⟩
      exact ⟨reported.skip, same⟩
    · intro used
      obtain ⟨bytes, encodes⟩ := trapReport_encodes placeholder stub.kind stub.instr subject.index
      obtain ⟨first, others, encoded, further, rfl⟩ := Instruction.encodeAll_cons_ok encodes
      have appends : ((state.output.code.place [.bind (.label stub.label)]).loadWide .r10
          placeholder).2.place
            ((trapReport placeholder stub.kind stub.instr subject.index).tail.map Step.emit) =
          (state.output.code.bind stub.label).append (first ++ others) := by
        rw [Code.place_bind, Code.loadWide_eq, Code.emit, encoded]
        exact (Code.place_emit _ further).trans (Code.append_append _ _ _)
      unfold bindLabel loadRef
      rw [ensures_bind, ensures_emit, ensures_bind, ensures_modify, ensures_bind, ensures_read,
        ensures_bind, ensures_emit]
      have stands : Stubbing rest
          (TrapSite.row ⟨stub.kind, stub.instr, state.output.code.size⟩ subject.index ++ kept)
          lands (((state.output.code.place [.bind (.label stub.label)]).loadWide .r10
            placeholder).2.place
              ((trapReport placeholder stub.kind stub.instr subject.index).tail.map Step.emit)) := by
        rw [appends]
        exact stubbing.report encodes
      refine (ih stands).andThen ?_
      rintro sites after ⟨reported, sources, kept, refs⟩
      rw [ensures_pure]
      refine ⟨.cons stubbing used appends reported, sources, ?_, ?_⟩
      · intro ref member
        exact kept ref (Array.mem_push_of_mem _ member)
      · intro fine site member
        cases List.mem_cons.mp member with
        | inr there => exact refs fine site there
        | inl here =>
          subst here
          have sound : (state.output.code.place [.bind (.label stub.label)]).error = none := by
            have placed := reported.grows.error fine
            dsimp only [Output.emit] at placed
            rw [Code.place_bind]
            exact Code.error_append.symm.trans ((congrArg Code.error appends).symm.trans placed)
          have size : (state.output.code.place [.bind (.label stub.label)]).size =
              state.output.code.size := by rw [Code.place_bind, Code.size_bind]
          apply kept
          apply Array.mem_push.mpr
          right
          rw [← size]
          exact congrArg (Reference.mk · _ _) (Code.offset_loadWide sound rfl placeholder).symm

end Compile

end WasmX64
