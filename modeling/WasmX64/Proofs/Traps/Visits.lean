import WasmX64.Proofs.Compile.Progress

/-!
# The visiting order

Instructions and markers of a body are numbered in the order in which they are visited: a
node comes before what it contains, and a marker closes each arm.  The driver keeps to that
order.  It counts one for what it lowers, and for dead code all that it skips.
-/

namespace WasmX64

/-- An instruction with its opcode, or a marker. -/
abbrev Visit := Option Instr × Opcode

mutual

/-- A node and what it contains, with its markers, in the order of their numbers. -/
def Instr.visits : Instr → List Visit
  | instr@⟨op, _, body, elseBody, hasElse, _, _, _, _, _, _⟩ =>
    (some instr, op) ::
      if op.isStructured then
        Instr.visitsAll body ++
          (if hasElse then (none, .otherwise) :: Instr.visitsAll elseBody else []) ++
          [(none, .finish)]
      else []

/-- The nodes of a body with what they contain, without the end of the body. -/
def Instr.visitsAll : List Instr → List Visit
  | [] => []
  | instr :: rest => instr.visits ++ Instr.visitsAll rest

end

mutual

theorem Instr.length_visits : (instr : Instr) → instr.visits.length = instr.count
  | ⟨op, _, body, elseBody, hasElse, _, _, _, _, _, _⟩ => by
    have arm := Instr.length_visitsAll body
    have elseArm := Instr.length_visitsAll elseBody
    rw [Instr.visits, Instr.count]
    cases op.isStructured with
    | false => rfl
    | true =>
      cases hasElse with
      | false =>
        simp [arm]
        omega
      | true =>
        simp [arm, elseArm]
        omega

theorem Instr.length_visitsAll : (body : List Instr) →
    (Instr.visitsAll body).length = Instr.countAll body
  | [] => rfl
  | instr :: rest => by
    have first := Instr.length_visits instr
    have others := Instr.length_visitsAll rest
    rw [Instr.visitsAll, Instr.countAll, List.length_append, first, others]

end

mutual

/-- A tree in which only `if` has an else arm and no node is a marker. -/
def Instr.isTidy : Instr → Bool
  | ⟨op, _, body, elseBody, hasElse, _, _, _, _, _, _⟩ =>
    op ≠ .otherwise && op ≠ .finish && (!hasElse || op = .branchIf) &&
      Instr.allTidy body && Instr.allTidy elseBody

/-- A body of such trees. -/
def Instr.allTidy : List Instr → Bool
  | [] => true
  | instr :: rest => instr.isTidy && Instr.allTidy rest

end

theorem Instr.isTidy_iff {instr : Instr} :
    instr.isTidy = true ↔ instr.op ≠ .otherwise ∧ instr.op ≠ .finish ∧
      (instr.hasElse = true → instr.op = .branchIf) ∧ Instr.allTidy instr.body = true ∧
        Instr.allTidy instr.elseBody = true := by
  obtain ⟨op, _, body, elseBody, hasElse, _⟩ := instr
  rw [isTidy]
  simp only [Bool.and_eq_true, decide_eq_true_eq, Bool.or_eq_true, Bool.not_eq_true', and_assoc]
  cases hasElse with
  | false => simp
  | true => simp

theorem Instr.allTidy_cons {instr : Instr} {rest : List Instr} :
    Instr.allTidy (instr :: rest) = true ↔ instr.isTidy = true ∧ Instr.allTidy rest = true := by
  rw [allTidy, Bool.and_eq_true]

namespace Course

/-- The visits that are still to come of a block. -/
def visits (course : Course) : List Visit :=
  Instr.visitsAll course.pending ++
    (if course.kind = .ifThen ∧ course.hasElse = true then
      (none, .otherwise) :: Instr.visitsAll course.elseBody
    else []) ++
    [(none, .finish)]

/-- The visits that are still to come of the open blocks. -/
def allVisits (courses : List Course) : List Visit := courses.flatMap visits

/-- What is still to come is tidy. -/
def IsTidy (course : Course) : Prop :=
  Instr.allTidy course.pending = true ∧ Instr.allTidy course.elseBody = true

variable {course : Course} {outer : List Course} {instr : Instr} {pending : List Instr}

@[simp] theorem allVisits_cons : allVisits (course :: outer) = course.visits ++ allVisits outer :=
  List.flatMap_cons

/-- Behind an instruction with all it contains the rest of its block is still to come. -/
theorem allVisits_pending (next : course.pending = instr :: pending) :
    allVisits (course :: outer) = instr.visits ++ allVisits (course.rest :: outer) := by
  simp [visits, rest, next, Instr.visitsAll]

/-- What a construct contains comes before the rest of its block. -/
theorem visits_opened {kind : BlockKind} (structured : instr.op.isStructured = true)
    (arms : instr.hasElse = true → kind = .ifThen) :
    instr.visits = (some instr, instr.op) :: (opened kind instr).visits := by
  obtain ⟨op, results, body, elseBody, hasElse, _⟩ := instr
  have both : (kind = .ifThen ∧ hasElse = true) ↔ hasElse = true :=
    and_iff_right_of_imp arms
  rw [Instr.visits]
  simp only [visits, opened, both]
  rw [if_pos structured]

/-- An instruction that contains nothing is one visit. -/
theorem visits_flat (flat : instr.op.isStructured = false) :
    instr.visits = [(some instr, instr.op)] := by
  obtain ⟨op, results, body, elseBody, hasElse, _⟩ := instr
  rw [Instr.visits]
  exact congrArg _ (if_neg (by simpa using flat))

theorem IsTidy.rest (tidy : course.IsTidy) : course.rest.IsTidy := by
  obtain ⟨body, elseBody⟩ := tidy
  refine ⟨?_, elseBody⟩
  unfold Course.rest
  cases pending : course.pending with
  | nil => rfl
  | cons instr others =>
    rw [pending] at body
    exact (Instr.allTidy_cons.mp body).2

/-- The next visit is that of the next instruction or marker, and lowering it leaves the
others. -/
theorem allVisits_lower (tidy : course.IsTidy) :
    allVisits (course :: outer) = course.first ::
      allVisits (lower course.first.2 (course.first.1.getD { op := course.first.2 })
        (course.rest :: outer)) := by
  cases pending : course.pending with
  | nil =>
    by_cases arms : course.kind = .ifThen ∧ course.hasElse = true
    · simp [first, lower, Course.rest, visits, pending, arms, Instr.visitsAll]
    · simp [first, lower, visits, pending, arms, Instr.visitsAll]
  | cons instr others =>
    have next : course.first = (some instr, instr.op) := by rw [first, pending]
    obtain ⟨notElse, notEnd, arms, _, _⟩ :=
      Instr.isTidy_iff.mp (Instr.allTidy_cons.mp (pending ▸ tidy.1)).1
    rw [allVisits_pending pending, next]
    dsimp only [Option.getD_some]
    cases structured : instr.op.isStructured with
    | true =>
      have opens : ∃ kind, lower instr.op instr (course.rest :: outer) =
          opened kind instr :: course.rest :: outer ∧
          (instr.hasElse = true → kind = .ifThen) := by
        cases op : instr.op
        case block => exact ⟨.block, rfl, fun has => absurd (op.symm.trans (arms has)) (by decide)⟩
        case loop => exact ⟨.loop, rfl, fun has => absurd (op.symm.trans (arms has)) (by decide)⟩
        case branchIf => exact ⟨.ifThen, rfl, fun _ => rfl⟩
        all_goals
          rw [op] at structured
          cases structured
      obtain ⟨kind, lowers, both⟩ := opens
      rw [visits_opened structured both, lowers]
      simp
    | false =>
      have stays : lower instr.op instr (course.rest :: outer) = course.rest :: outer := by
        cases op : instr.op
        case otherwise => exact absurd op notElse
        case finish => exact absurd op notEnd
        case block =>
          rw [op] at structured
          cases structured
        case loop =>
          rw [op] at structured
          cases structured
        case branchIf =>
          rw [op] at structured
          cases structured
        all_goals rfl
      rw [visits_flat structured, stays]
      rfl

theorem tidy_lower {op : Opcode} {operands : Instr} {courses : List Course}
    (tidy : ∀ course ∈ courses, course.IsTidy)
    (inner : Instr.allTidy operands.body = true ∧ Instr.allTidy operands.elseBody = true) :
    ∀ course ∈ lower op operands courses, course.IsTidy := by
  have opens : ∀ kind, ∀ course ∈ opened kind operands :: courses, course.IsTidy := by
    intro kind course member
    cases List.mem_cons.mp member with
    | inl here => exact here ▸ inner
    | inr there => exact tidy course there
  unfold lower
  split
  · exact opens .block
  · exact opens .loop
  · exact opens .ifThen
  · rename_i head others
    split
    · intro course member
      cases List.mem_cons.mp member with
      | inl here =>
        have both := tidy head List.mem_cons_self
        exact here ▸ ⟨both.2, both.2⟩
      | inr there => exact tidy course (List.mem_cons_of_mem _ there)
    · exact tidy
  · intro course member
    exact tidy course (List.mem_of_mem_tail member)
  · exact tidy

end Course

/-- A compilation has visited the first instructions and markers of a body, as many as it has
counted, and the others are still to come. -/
structure Compilation.Visiting (body : List Instr) (state : Compilation) : Prop where
  tidy : ∀ course ∈ state.courses, course.IsTidy
  place : ∃ visited, Instr.visitsAll body ++ [(none, .finish)] =
    visited ++ Course.allVisits state.courses ∧ state.instr = visited.length

namespace Compile

open Course

variable {body : List Instr} {subject : Subject} {state : Compilation} {block : Block}
  {outer : List Block}

theorem round_visiting (books : Books subject state) (visiting : state.Visiting body)
    (opened : state.blocks = block :: outer) :
    Ensures (next block >>= fun (instr, op) => step instr op) subject state fun _ after =>
      after.Visiting body := by
  obtain ⟨tidy, visited, order, count⟩ := visiting
  have start : state.courses = block.course :: outer.map Block.course := by
    rw [Compilation.courses, opened, List.map_cons]
  rw [start] at tidy order
  have starts := tidy block.course List.mem_cons_self
  have rests : ∀ course ∈ block.course.rest :: outer.map Block.course, course.IsTidy := by
    intro course member
    cases List.mem_cons.mp member with
    | inl head => exact head ▸ starts.rest
    | inr other => exact tidy course (List.mem_cons_of_mem _ other)
  refine ((next_takes opened).and (keeps_next block subject state books)).andThen ?_
  rintro taken middle ⟨⟨rfl, same⟩, books, _⟩
  have blocks : middle.blocks = { block with pending := block.pending.tail } :: outer := by
    rw [same]
  have courses : middle.courses = block.course.rest :: outer.map Block.course := by
    rw [Compilation.courses, blocks, List.map_cons]
    rfl
  have counted : middle.instr = visited.length := by rw [same, count]
  by_cases dead : block.reach = .unreachable ∧ block.course.first.2 ≠ .finish ∧
      block.course.first.2 ≠ .otherwise
  · refine (step_dead blocks dead).mono ?_
    intro _ after skipped
    obtain ⟨instr, others, pending⟩ := pending_of_first dead.2
    have further : after.instr = middle.instr + (instr.count : Nat) := by
      rw [skipped, pending]
      rfl
    have unchanged : after.courses = block.course.rest :: outer.map Block.course := by
      rw [skipped, ← courses]
      rfl
    constructor
    · rw [unchanged]
      exact rests
    · refine ⟨visited ++ instr.visits, ?_, ?_⟩
      · rw [unchanged, order, allVisits_pending pending, List.append_assoc]
      · rw [further, List.length_append, Instr.length_visits, counted]
        rfl
  · refine (step_here blocks dead books).mono ?_
    rintro _ after ⟨lowered, events, here, _, rfl⟩
    have lowers := here.courses
    rw [courses] at lowers
    have further : lowered.instr = visited.length := here.instr.trans counted
    have inner : Instr.allTidy (block.course.first.1.getD { op := block.course.first.2 }).body =
        true ∧ Instr.allTidy (block.course.first.1.getD { op := block.course.first.2 }).elseBody =
        true := by
      rw [first]
      split
      · rename_i instr others pending
        have tidied := starts.1
        rw [pending] at tidied
        exact (Instr.isTidy_iff.mp (Instr.allTidy_cons.mp tidied).1).2.2.2
      · exact ⟨rfl, rfl⟩
    constructor
    · intro course member
      exact tidy_lower rests inner course (lowers ▸ member)
    · refine ⟨visited ++ [block.course.first], ?_, ?_⟩
      · rw [order, allVisits_lower starts, List.append_assoc]
        exact congrArg _ (congrArg _ (congrArg allVisits lowers.symm))
      · rw [List.length_append]
        exact congrArg (· + 1) further

end Compile

/-! ## Stubs and the source map

Every entry of the source map names a visit of the body with its opcode.  A stub is
registered while its instruction is being lowered, and the entry of that instruction stays:
later entries have offsets behind the code that the instruction has added.
-/

namespace SourceMap

/-- Offsets descend. -/
def Descends (sources : SourceMap) : Prop :=
  sources.descending.Pairwise fun later earlier => earlier.offset < later.offset

theorem insert_last {sources : SourceMap} {entry : SourceEntry} (descends : sources.Descends)
    (last : ∀ other ∈ sources.descending, other.offset ≤ entry.offset) :
    ∃ earlier, (sources.insert entry).descending = entry :: earlier ∧
      (∀ other, other ∈ earlier ↔ other ∈ sources.descending ∧ other.offset < entry.offset) ∧
      (sources.insert entry).Descends := by
  cases entries : sources.descending with
  | nil =>
    refine ⟨[], by simp [insert, insertInto, entries], by simp, ?_⟩
    simp [Descends, insert, insertInto, entries]
  | cons head rest =>
    unfold Descends at descends
    rw [entries] at descends last
    obtain ⟨first, others⟩ := List.pairwise_cons.mp descends
    have top := last head List.mem_cons_self
    by_cases below : head.offset < entry.offset
    · have placed : (sources.insert entry).descending = entry :: head :: rest := by
        rw [insert, entries, insertInto, if_pos below]
      refine ⟨head :: rest, placed, ?_, ?_⟩
      · intro other
        constructor
        · intro member
          refine ⟨member, ?_⟩
          cases List.mem_cons.mp member with
          | inl here => exact here ▸ below
          | inr there => exact Int.lt_trans (first other there) below
        · exact And.left
      · rw [Descends, placed]
        refine List.pairwise_cons.mpr ⟨?_, descends⟩
        intro other member
        cases List.mem_cons.mp member with
        | inl here => exact here ▸ below
        | inr there => exact Int.lt_trans (first other there) below
    · have equal : head.offset = entry.offset := by omega
      have placed : (sources.insert entry).descending = entry :: rest := by
        rw [insert, entries, insertInto, if_neg below, if_pos equal]
      refine ⟨rest, placed, ?_, ?_⟩
      · intro other
        constructor
        · intro member
          exact ⟨List.mem_cons_of_mem _ member, equal ▸ first other member⟩
        · rintro ⟨member, before⟩
          refine (List.mem_cons.mp member).resolve_left ?_
          rintro rfl
          exact below before
      · rw [Descends, placed]
        exact List.pairwise_cons.mpr ⟨fun other member => equal ▸ first other member, others⟩

/-- Descending entries make a map when they come in ascending order. -/
theorem ofList_reverse {entries : List SourceEntry}
    (descends : entries.Pairwise fun later earlier => earlier.offset < later.offset) :
    ofList entries.reverse = ⟨entries⟩ := by
  unfold ofList
  rw [List.foldl_reverse]
  induction entries with
  | nil => rfl
  | cons entry rest ih =>
    obtain ⟨first, others⟩ := List.pairwise_cons.mp descends
    rw [List.foldr_cons, ih others, insert]
    cases rest with
    | nil => rfl
    | cons head rest => rw [insertInto, if_pos (first head List.mem_cons_self)]

theorem opcodeOf_eq {sources : SourceMap} {number : Int} {op : Opcode}
    (found : ∃ entry ∈ sources.descending, entry.instr = number)
    (same : ∀ entry ∈ sources.descending, entry.instr = number → entry.op = op) :
    sources.opcodeOf number = op := by
  obtain ⟨entry, member, named⟩ := found
  unfold opcodeOf
  cases first : sources.toList.find? fun entry => entry.instr = number with
  | none =>
    have missing := List.find?_eq_none.mp first entry (List.mem_reverse.mpr member)
    exact absurd (decide_eq_true named) missing
  | some other =>
    have listed := List.mem_reverse.mp (List.mem_of_find?_eq_some first)
    have named := List.find?_some first
    exact same other listed (of_decide_eq_true named)

end SourceMap

/-- The visits of a body, its end among them. -/
def Instr.allVisits (body : List Instr) : List Visit :=
  Instr.visitsAll body ++ [(none, .finish)]

/-- A round of the driver has taken an instruction and registered a stub for it. -/
def Registered (subject : Subject) (start : Compilation) (stub : TrapStub) (instr : Instr) :
    Prop :=
  ∃ count before after block outer pending added,
    Compile.steps count subject start = .ok () before ∧
    Compile.steps (count + 1) subject start = .ok () after ∧
    before.blocks = block :: outer ∧ block.pending = instr :: pending ∧
    before.instr = stub.instr ∧
    after.stubs.toList = before.stubs.toList ++ added ∧ stub ∈ added

/-- Between rounds the entries of the source map name visits, and every stub was registered in
a round for an instruction whose entry is out of reach of later ones. -/
structure Traced (body : List Instr) (subject : Subject) (start state : Compilation) : Prop where
  visiting : state.Visiting body
  descends : state.sources.Descends
  entries : ∀ entry ∈ state.sources.descending,
    0 ≤ entry.offset ∧ entry.offset ≤ state.output.code.size ∧
      ∃ index : Nat, entry.instr = index ∧
        ∃ visit, (Instr.allVisits body)[index]? = some visit ∧ visit.2 = entry.op
  stubs : ∀ stub ∈ state.stubs.toList, ∃ entry ∈ state.sources.descending,
    entry.instr = stub.instr ∧ entry.offset < state.output.code.size ∧
      stub.kind ∈ entry.op.faults ∧
      ∃ instr, instr.op = entry.op ∧ Registered subject start stub instr ∧
        ∃ index : Nat, stub.instr = index ∧
          (Instr.visitsAll body)[index]? = some (some instr, instr.op)

theorem Instr.visit_of_faults {body : List Instr} {index : Nat} {visit : Visit}
    (found : (Instr.allVisits body)[index]? = some visit) (faults : visit.2.faults ≠ []) :
    (Instr.visitsAll body)[index]? = some visit := by
  rw [allVisits, List.getElem?_append] at found
  split at found
  · exact found
  · obtain ⟨rfl⟩ : visit = (none, .finish) := by
      have member := List.mem_of_getElem? found
      exact List.mem_singleton.mp member
    exact absurd rfl faults

namespace Compile

open Course

variable {body : List Instr} {subject : Subject} {start before after : Compilation}
  {block : Block} {outer : List Block}

theorem visit_next (visiting : before.Visiting body) (opened : before.blocks = block :: outer) :
    ∃ index : Nat, before.instr = index ∧
      (Instr.allVisits body)[index]? = some block.course.first := by
  obtain ⟨tidy, visited, order, count⟩ := visiting
  have courses : before.courses = block.course :: outer.map Block.course := by
    rw [Compilation.courses, opened, List.map_cons]
  rw [courses, allVisits_lower (tidy _ (courses ▸ List.mem_cons_self))] at order
  refine ⟨visited.length, count, ?_⟩
  rw [Instr.allVisits, order]
  simp

/-- A round keeps stubs and entries together. -/
theorem round_traced (books : Books subject before) (traced : Traced body subject start before)
    (opened : before.blocks = block :: outer) {count : Nat}
    (reached : steps count subject start = .ok () before)
    (goesOn : steps (count + 1) subject start = .ok () after)
    (ran : (next block >>= fun (instr, op) => step instr op) subject before = .ok () after) :
    Traced body subject start after := by
  have visiting := round_visiting books traced.visiting opened () after ran
  obtain ⟨index, counted, visit⟩ := visit_next traced.visiting opened
  have round : Ensures (next block >>= fun (instr, op) => step instr op) subject before
      fun _ after => after.Visiting body → steps (count + 1) subject start = .ok () after →
        Traced body subject start after := by
    refine ((next_takes opened).and (keeps_next block subject before books)).andThen ?_
    rintro taken middle ⟨⟨rfl, same⟩, books, _⟩
    have blocks : middle.blocks = { block with pending := block.pending.tail } :: outer := by
      rw [same]
    have sources : middle.sources = before.sources := by rw [same]
    have stubs : middle.stubs = before.stubs := by rw [same]
    have code : middle.output.code = before.output.code := by rw [same]
    have instr : middle.instr = index := by rw [same, counted]
    by_cases dead : block.reach = .unreachable ∧ block.course.first.2 ≠ .finish ∧
        block.course.first.2 ≠ .otherwise
    · refine (step_dead blocks dead).mono ?_
      rintro _ after rfl visiting _
      refine ⟨visiting, ?_, ?_, ?_⟩
      · exact sources ▸ traced.descends
      · dsimp only
        rw [sources, code]
        exact traced.entries
      · dsimp only
        rw [sources, code, stubs]
        exact traced.stubs
    · refine (step_here blocks dead books).mono ?_
      rintro _ after ⟨lowered, events, here, advances, rfl⟩ visiting goesOn
      have entry : lowered.sources = before.sources.insert
          ⟨before.output.code.size, index, block.course.first.2⟩ := by
        rw [here.sources, ← sources, ← code, ← instr]
        rfl
      have grows : before.output.code.size ≤ lowered.output.code.size := by
        rw [← code]
        exact here.grows
      obtain ⟨earlier, inserted, kept, descends⟩ := @SourceMap.insert_last before.sources
        ⟨before.output.code.size, index, block.course.first.2⟩ traced.descends
        fun other member => (traced.entries other member).2.1
      rw [← entry] at inserted descends
      refine ⟨visiting, descends, ?_, ?_⟩
      · intro other member
        dsimp only at member ⊢
        rw [inserted] at member
        cases List.mem_cons.mp member with
        | inl first =>
          subst first
          exact ⟨by simp, by simpa using grows, index, rfl, _, visit, rfl⟩
        | inr old =>
          obtain ⟨positive, inside, named⟩ := traced.entries other ((kept other).mp old).1
          exact ⟨positive, by omega, named⟩
      · obtain ⟨added, all, registered⟩ := here.stubs
        intro stub member
        dsimp only at member ⊢
        rw [all] at member
        cases List.mem_append.mp member with
        | inl old =>
          have known : stub ∈ before.stubs.toList := by
            rw [← stubs]
            exact old
          obtain ⟨found, listed, same, inside, rest⟩ := traced.stubs stub known
          refine ⟨found, ?_, same, by omega, rest⟩
          rw [inserted]
          exact List.mem_cons_of_mem _ ((kept found).mpr ⟨listed, inside⟩)
        | inr new =>
          obtain ⟨number, raised⟩ := registered stub new
          have faults : block.course.first.2.faults ≠ [] := List.ne_nil_of_mem raised
          have further := advances faults
          rw [code] at further
          have named : stub.instr = index := number.trans instr
          have unmarked : block.course.first.2 ≠ .finish ∧ block.course.first.2 ≠ .otherwise := by
            constructor
            · intro marker
              exact faults (by rw [marker]; rfl)
            · intro marker
              exact faults (by rw [marker]; rfl)
          obtain ⟨node, pending, next⟩ := pending_of_first unmarked
          have first : block.course.first = (some node, node.op) := by rw [Course.first, next]
          have place := Instr.visit_of_faults visit faults
          refine ⟨⟨before.output.code.size, index, block.course.first.2⟩, ?_, named.symm, ?_,
            raised, node, ?_, ?_, index, named, first ▸ place⟩
          · rw [inserted]
            exact List.mem_cons_self
          · simpa using further
          · rw [first]
          · refine ⟨count, before, _, block, outer, pending, added, reached, goesOn, opened, next,
              counted.trans named.symm, ?_, new⟩
            rw [← stubs]
            exact all
  exact round () after ran visiting goesOn

end Compile

end WasmX64
