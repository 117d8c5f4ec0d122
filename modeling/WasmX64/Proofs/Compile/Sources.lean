import WasmX64.Proofs.Flow.Reachability

/-!
# Looking up source maps

The entries of a source map stand in the order of the code and of the visits alike.  An offset in
the code of an instruction or marker leads back to it: its entry is the last at or before the
offset, and what is lowered later adds entries behind its code only.
-/

namespace WasmX64

namespace SourceMap

variable {sources : SourceMap} {entry : SourceEntry} {offset : Int}

theorem find?_insert (last : ∀ other ∈ sources.descending, other.offset ≤ entry.offset)
    (before : offset < entry.offset) : (sources.insert entry).find? offset = sources.find? offset := by
  have hidden : ∀ other : SourceEntry, other.offset = entry.offset →
      decide (other.offset ≤ offset) = false := by
    intro other same
    exact decide_eq_false (by omega)
  unfold find? insert
  dsimp only
  cases entries : sources.descending with
  | nil => rw [insertInto, List.find?_cons_of_neg (by simp [before])]
  | cons head rest =>
    have top := last head (entries ▸ List.mem_cons_self)
    rw [insertInto]
    split
    · rw [List.find?_cons, hidden entry rfl]
    · rw [if_pos (by omega), List.find?_cons, hidden entry rfl, List.find?_cons,
        hidden head (by omega)]

theorem find?_insert_self (descends : sources.Descends)
    (last : ∀ other ∈ sources.descending, other.offset ≤ entry.offset)
    (behind : entry.offset ≤ offset) : (sources.insert entry).find? offset = some entry := by
  obtain ⟨earlier, inserted, _⟩ := insert_last descends last
  rw [find?, inserted]
  exact List.find?_cons_of_pos (by simpa using behind)

theorem find?_eq_none_iff {first : SourceEntry} {rest : List SourceEntry}
    (entries : sources.toList = first :: rest)
    (ascends : sources.toList.Pairwise fun earlier later => earlier.offset < later.offset) :
    sources.find? offset = none ↔ offset < first.offset := by
  have listed : ∀ entry, entry ∈ sources.descending ↔ entry ∈ first :: rest := by
    intro entry
    rw [← entries, toList, List.mem_reverse]
  rw [find?, List.find?_eq_none]
  constructor
  · intro missing
    have behind := missing first ((listed first).mpr List.mem_cons_self)
    simpa using behind
  · intro before entry member
    rw [entries] at ascends
    have least : first.offset ≤ entry.offset := by
      cases List.mem_cons.mp ((listed entry).mp member) with
      | inl here => exact Int.le_of_eq (congrArg _ here.symm)
      | inr there => exact Int.le_of_lt (List.rel_of_pairwise_cons ascends there)
    simpa using Int.lt_of_lt_of_le before least

end SourceMap

/-- Between rounds the entries of the source map are in the order of the code and of the visits,
none behind what has been reached of either. -/
structure Compilation.Indexed (state : Compilation) : Prop where
  descends : state.sources.Descends
  rises : ∀ later ∈ state.sources.descending, ∀ earlier ∈ state.sources.descending,
    earlier.offset < later.offset → earlier.instr < later.instr
  inside : ∀ entry ∈ state.sources.descending,
    entry.offset ≤ state.output.code.size ∧ entry.instr < state.instr

/-- What a round does to the source map when it takes an instruction or marker: the code it adds
leads to that, all code of before leads where it did. -/
structure Compilation.Charted (before after : Compilation) (op : Opcode) : Prop where
  grows : before.output.code.size ≤ after.output.code.size
  kept : ∀ offset : Int, offset < before.output.code.size →
    after.sources.find? offset = before.sources.find? offset
  added : ∀ offset : Int, before.output.code.size ≤ offset → offset < after.output.code.size →
    after.sources.find? offset = some ⟨before.output.code.size, before.instr, op⟩
  present : before.sources.descending ≠ [] → after.sources.descending ≠ []

namespace Compile

variable {subject : Subject} {start before : Compilation} {block : Block} {outer : List Block}

/-- A round keeps the order of the entries. -/
theorem round_charted (books : Books subject before) (indexed : before.Indexed)
    (opened : before.blocks = block :: outer) :
    Ensures (next block >>= fun (instr, op) => step instr op) subject before fun _ after =>
      after.Indexed ∧ before.Charted after block.course.first.2 ∧
        (block.reach ≠ .unreachable → after.sources.descending ≠ []) := by
  refine ((next_takes opened).and (keeps_next block subject before books)).andThen ?_
  rintro taken middle ⟨⟨rfl, same⟩, books, _⟩
  have blocks : middle.blocks = { block with pending := block.pending.tail } :: outer := by
    rw [same]
  have sources : middle.sources = before.sources := by rw [same]
  have code : middle.output.code = before.output.code := by rw [same]
  have instr : middle.instr = before.instr := by rw [same]
  by_cases dead : block.reach = .unreachable ∧ block.course.first.2 ≠ .finish ∧
      block.course.first.2 ≠ .otherwise
  · refine (step_dead blocks dead).mono ?_
    rintro _ after rfl
    refine ⟨⟨?_, ?_, ?_⟩, ⟨?_, ?_, ?_, ?_⟩, fun alive => absurd dead.1 alive⟩
    · exact sources ▸ indexed.descends
    · exact sources ▸ indexed.rises
    · dsimp only
      rw [sources, code, instr]
      intro entry member
      have known := indexed.inside entry member
      omega
    · exact Nat.le_of_eq (congrArg Code.size code.symm)
    · intro offset _
      exact congrArg (SourceMap.find? · offset) sources
    · intro offset behind below
      dsimp only at below
      rw [code] at below
      omega
    · exact fun some => sources ▸ some
  · refine (step_here blocks dead books).mono ?_
    rintro _ after ⟨lowered, events, here, _, rfl⟩
    let entry : SourceEntry := ⟨before.output.code.size, before.instr, block.course.first.2⟩
    have noted : lowered.sources = before.sources.insert entry := by
      rw [here.sources]
      change middle.sources.insert ⟨middle.output.code.size, middle.instr, _⟩ = _
      rw [sources, code, instr]
    have number : lowered.instr = before.instr := here.instr.trans instr
    have grows : before.output.code.size ≤ lowered.output.code.size := by
      rw [← code]
      exact here.grows
    have last : ∀ other ∈ before.sources.descending, other.offset ≤ entry.offset :=
      fun other member => (indexed.inside other member).1
    obtain ⟨earlier, inserted, old, descends⟩ := SourceMap.insert_last indexed.descends last
    rw [← noted] at inserted descends
    have cases : ∀ other ∈ lowered.sources.descending,
        other = entry ∨ other ∈ before.sources.descending := by
      rw [inserted]
      intro other member
      exact (List.mem_cons.mp member).imp_right fun among => ((old other).mp among).1
    refine ⟨⟨descends, ?_, ?_⟩, ⟨grows, ?_, ?_, ?_⟩, ?_⟩
    · intro later second sooner first above
      rcases cases later second, cases sooner first with ⟨rfl | late, rfl | soon⟩
      · exact absurd above (Int.lt_irrefl _)
      · exact (indexed.inside sooner soon).2
      · exact absurd (last later late) (Int.not_le.mpr above)
      · exact indexed.rises later late sooner soon above
    · intro other member
      dsimp only at member ⊢
      rw [number]
      cases cases other member with
      | inl here =>
        subst here
        dsimp only [entry]
        omega
      | inr there =>
        have known := indexed.inside other there
        omega
    · intro offset below
      dsimp only
      rw [noted]
      exact SourceMap.find?_insert last below
    · intro offset behind _
      dsimp only
      rw [noted]
      exact SourceMap.find?_insert_self indexed.descends last behind
    · intro _
      dsimp only
      rw [inserted]
      exact List.cons_ne_nil _ _
    · intro _
      dsimp only
      rw [inserted]
      exact List.cons_ne_nil _ _

theorem begin_indexed :
    Ensures begin subject {} fun _ start => start.Indexed := by
  refine begin_blank.mono ?_
  rintro _ start ⟨sources, _, _⟩
  constructor
  · rw [sources]
    exact List.Pairwise.nil
  · rw [sources]
    intro later member
    cases member
  · rw [sources]
    intro entry member
    cases member

/-- Rounds keep the order of the entries, and what the code so far leads to. -/
theorem steps_indexed (books : Books subject start) (indexed : start.Indexed) (count : Nat) :
    Ensures (steps count) subject start fun _ after =>
      after.Indexed ∧ start.output.code.size ≤ after.output.code.size ∧
        (∀ offset : Int, offset < start.output.code.size →
          after.sources.find? offset = start.sources.find? offset) ∧
        (start.sources.descending ≠ [] → after.sources.descending ≠ []) := by
  apply steps_keep books ⟨indexed, Nat.le_refl _, fun _ _ => rfl, id⟩
  intro _ before after block outer _ _ opened books ⟨indexed, grows, kept, present⟩ ran
  obtain ⟨indexes, charted, _⟩ := round_charted books indexed opened () after ran
  refine ⟨indexes, Nat.le_trans grows charted.grows, ?_, charted.present ∘ present⟩
  intro offset below
  rw [charted.kept offset (by omega), kept offset below]

variable {count total : Nat} {after final : Compilation}

/-- The rounds behind one that takes an instruction or marker lead to where all rounds lead. -/
theorem steps_rest (reached : steps count subject start = .ok () before)
    (goesOn : steps (count + 1) subject start = .ok () after)
    (opened : before.blocks = block :: outer)
    (all : steps total subject start = .ok () final) (closed : final.blocks = []) :
    ∃ more, steps more subject after = .ok () final := by
  by_cases few : total ≤ count
  · have same : steps count subject start = .ok () final := by
      rw [← Nat.add_sub_cancel' few, steps_add, bind_run, all]
      exact steps_of_closed _ closed
    cases reached.symm.trans same
    exact nomatch opened.symm.trans closed
  · refine ⟨total - (count + 1), ?_⟩
    have split := @steps_add subject start (count + 1) (total - (count + 1))
    rw [Nat.add_sub_cancel' (by omega), bind_run, goesOn, all] at split
    exact split.symm

theorem steps_lead (books : Books subject start) (blank : start.Indexed)
    (reached : steps count subject start = .ok () before)
    (goesOn : steps (count + 1) subject start = .ok () after)
    (opened : before.blocks = block :: outer)
    (all : steps total subject start = .ok () final) (closed : final.blocks = [])
    {offset : Int} (behind : before.output.code.size ≤ offset)
    (below : offset < after.output.code.size) :
    final.sources.find? offset =
      some ⟨before.output.code.size, before.instr, block.course.first.2⟩ := by
  have ran := goesOn
  rw [steps_add, bind_run, reached] at ran
  dsimp only at ran
  rw [steps_one opened] at ran
  have booked := (keeps_steps count subject start books () before reached).1
  have indexed := (steps_indexed books blank count () before reached).1
  obtain ⟨indexes, charted, _⟩ := round_charted booked indexed opened () after ran
  obtain ⟨more, rest⟩ := steps_rest reached goesOn opened all closed
  have books := (keeps_steps (count + 1) subject start books () after goesOn).1
  obtain ⟨_, _, kept, _⟩ := steps_indexed books indexes more () final rest
  rw [kept offset below, charted.added offset behind below]

/-- The body leaves at least one entry. -/
theorem steps_present (books : Books subject start) (blank : start.Indexed) {course : Course}
    (marks : start.marks = [⟨course, .reachable, false⟩])
    (all : steps total subject start = .ok () final) (closed : final.blocks = []) :
    final.sources.descending ≠ [] := by
  obtain ⟨block, opened, mark⟩ := List.map_eq_singleton_iff.mp marks
  have alive : block.reach ≠ .unreachable := by
    rw [show block.reach = .reachable from congrArg Mark.reach mark]
    exact Reachability.noConfusion
  cases total with
  | zero =>
    cases all
    exact nomatch opened.symm.trans closed
  | succ count =>
    rw [Nat.add_comm, steps_add, bind_run, steps_one opened] at all
    cases ran : (next block >>= fun (instr, op) => step instr op) subject start with
    | error fault after =>
      rw [ran] at all
      cases all
    | ok done after =>
      rw [ran] at all
      obtain ⟨indexed, _, present⟩ := round_charted books blank opened done after ran
      have books := (((keeps_next block).andThen fun taken => keeps_step taken.1 taken.2) subject
        start books done after ran).1
      exact (steps_indexed books indexed count () final all).2.2.2 (present alive)

end Compile

section Function

variable {module : Module} {host : Host} {index : UInt32} {compiled : Compiled}

/-- The source map of a compiled function is an index of its code.  Its entries ascend strictly
both in their offsets and in the numbers of their instructions.  Every offset in the code that a
round of the driver adds leads to the number of the instruction or marker that the round takes,
with its opcode.  Nothing is found exactly in front of the first entry. -/
theorem sources_index_code
    (compiles : (compileFunction (some module) host index).outcome = .ok compiled) :
    (compiled.sources.toList.Pairwise fun earlier later =>
      earlier.offset < later.offset ∧ earlier.instr < later.instr) ∧
    (∀ count before after block outer,
      compilingAfter (some module) host index count = .ok before →
      compilingAfter (some module) host index (count + 1) = .ok after →
      before.blocks = block :: outer →
      ∀ offset : Int, before.output.code.size ≤ offset → offset < after.output.code.size →
        ∃ entry ∈ compiled.sources.toList, compiled.sources.find? offset = some entry ∧
          entry.instr = before.instr ∧ entry.op = block.course.first.2) ∧
    ∃ first rest, compiled.sources.toList = first :: rest ∧
      ∀ offset, compiled.sources.find? offset = none ↔ offset < first.offset := by
  obtain ⟨subject, final, frame, start, made, ran, begun⟩ := compileFunction_ok compiles
  have proper := Subject.of_proper made
  have books := Compile.begin_books proper frame start begun
  have blank := Compile.begin_indexed frame start begun
  obtain ⟨before, reached, closed, concluded⟩ := Compile.function_concluded proper begun ran
  obtain ⟨indexed, _⟩ := Compile.steps_indexed books blank _ () before reached
  have ascends : before.sources.toList.Pairwise fun earlier later =>
      earlier.offset < later.offset ∧ earlier.instr < later.instr := by
    refine List.pairwise_reverse.mpr (indexed.descends.imp_of_mem ?_)
    exact fun late soon above => ⟨above, indexed.rises _ late _ soon above⟩
  rw [concluded.sources]
  refine ⟨ascends, ?_, ?_⟩
  · intro count earlier later block outer comes goes opened offset behind below
    have comes := steps_of_compilingAfter made begun comes
    have goes := steps_of_compilingAfter made begun goes
    have leads := Compile.steps_lead books blank comes goes opened reached closed behind below
    exact ⟨_, List.mem_reverse.mpr (List.mem_of_find?_eq_some leads), leads, rfl, rfl⟩
  · have some := Compile.steps_present books blank (Compile.begin_marks frame start begun) reached
      closed
    cases entries : before.sources.toList with
    | nil => exact absurd (List.reverse_eq_nil_iff.mp entries) some
    | cons first rest =>
      refine ⟨first, rest, rfl, fun offset => ?_⟩
      exact SourceMap.find?_eq_none_iff entries (ascends.imp And.left)

end Function

/-- What is skipped leaves no entry: behind the branch comes the division with number eight. -/
theorem sources_index_code_skippedLoop :
    ∃ compiled, (compileFunction (some skippedLoop) {} 0).outcome = .ok compiled ∧
      compiled.sources.toList.map (fun entry => (entry.offset, entry.instr)) =
        [(11, 1), (16, 8), (43, 9)] ∧
      ∀ offset, compiled.sources.find? offset = none ↔ offset < 11 := by
  have fine : (compileFunction (some skippedLoop) {} 0).outcome.toOption.any (fun compiled =>
      compiled.sources.toList.map (fun entry => (entry.offset, entry.instr)) =
        [(11, 1), (16, 8), (43, 9)]) = true := by decide +kernel
  obtain ⟨compiled, compiles, places⟩ := Except.exists_of_any fine
  obtain ⟨_, _, first, rest, entries, missing⟩ := sources_index_code compiles
  have start := congrArg List.head? places
  rw [entries, List.map_cons, List.head?_cons, List.head?_cons] at start
  have offset : first.offset = 11 := congrArg Prod.fst (Option.some.inj start)
  exact ⟨compiled, compiles, places, offset ▸ missing⟩

end WasmX64
