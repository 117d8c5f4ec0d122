import WasmX64.Proofs.Flow.Tables
import WasmX64.Proofs.LinearMemory.Limits
import WasmX64.Proofs.Processor.Integers

/-!
# The code of a branch table

A branch table is lowered to a binary search.  Its leaves are the branches to the targets, each
laid once behind a label; where a target is needed again the search jumps back to that label.
Control that enters the search with a number leaves it at the branch of that entry.
-/

namespace WasmX64

/-- A piece of code that control goes through: one part, or the whole code of the branch to a
depth, at which it stops. -/
inductive Fragment where
  | part (part : Part)
  | branch (depth : Nat) (parts : List Part)

namespace Fragment

/-- The code of a piece. -/
def parts : Fragment → List Part
  | part one => [one]
  | branch _ parts => parts

/-- The depth that a piece branches to. -/
def depth? : Fragment → Option Nat
  | part _ => none
  | branch depth _ => some depth

/-- The label that a piece fixes. -/
def label? : Fragment → Option Label
  | part (.steps [.bind (.label label)]) => some label
  | _ => none

theorem label?_eq_some {piece : Fragment} {label : Label} :
    piece.label? = some label ↔ piece = .part (.steps [.bind (.label label)]) := by
  constructor
  · intro fixes
    unfold label? at fixes
    split at fixes
    · cases fixes
      rfl
    · cases fixes
  · rintro rfl
    rfl

end Fragment

/-- Control comes from one place in a list of pieces to another.  Behind a jump it goes on where
the label is fixed. -/
inductive Processor.Threads (addresses : RefKind → UInt32 → BitVec 64) (pieces : List Fragment) :
    Nat → Processor → Nat → Processor → Prop
  | here (place : Nat) (machine : Processor) :
      Threads addresses pieces place machine place machine
  | falls {place finish : Nat} {part : Part} {machine next last : Processor}
      (found : pieces[place]? = some (.part part))
      (falls : machine.followParts addresses [part] = some (.falls next))
      (rest : Threads addresses pieces (place + 1) next finish last) :
      Threads addresses pieces place machine finish last
  | jumps {place target finish : Nat} {part : Part} {label : Label}
      {machine next last : Processor} (found : pieces[place]? = some (.part part))
      (leaves : machine.followParts addresses [part] = some (.leaves label next))
      (lands : pieces[target]? = some (.part (.steps [.bind (.label label)])))
      (rest : Threads addresses pieces target next finish last) :
      Threads addresses pieces place machine finish last

namespace Processor

variable {addresses : RefKind → UInt32 → BitVec 64} {pieces : List Fragment}
  {machine next last : Processor}

theorem Threads.trans {start place finish : Nat}
    (first : Threads addresses pieces start machine place next)
    (second : Threads addresses pieces place next finish last) :
    Threads addresses pieces start machine finish last := by
  induction first with
  | here => exact second
  | falls found falls _ ih => exact .falls found falls (ih second)
  | jumps found leaves lands _ ih => exact .jumps found leaves lands (ih second)

theorem Threads.straight {parts : List Part} {front back : List Fragment}
    (falls : machine.followParts addresses parts = some (.falls next)) :
    Threads addresses (front ++ (parts.map .part ++ back)) front.length machine
      (front.length + parts.length) next := by
  induction parts generalizing front machine with
  | nil =>
    cases falls
    exact .here _ _
  | cons part rest ih =>
    have one : machine.followParts addresses (part :: rest) =
        machine.followParts addresses ([part] ++ rest) := rfl
    rw [one, followParts_append] at falls
    cases first : machine.followParts addresses [part] with
    | none =>
      rw [first] at falls
      cases falls
    | some exit =>
      rw [first] at falls
      cases exit with
      | leaves label middle => cases falls
      | falls middle =>
        have step := @ih middle (front ++ [.part part]) falls
        rw [List.length_append, List.length_singleton, List.append_assoc] at step
        refine .falls (by simp) first ?_
        rw [List.length_cons, ← Nat.add_assoc, Nat.add_right_comm]
        exact step

/-- Only one register has changed, and flags. -/
def Sets (reg : Register) (before after : Processor) : Prop :=
  after.memory = before.memory ∧ ∀ other, other ≠ reg → after.regs other = before.regs other

theorem Sets.trans {reg : Register} (first : Sets reg machine next) (second : Sets reg next last) :
    Sets reg machine last := by
  refine ⟨second.1.trans first.1, fun other apart => ?_⟩
  rw [second.2 other apart, first.2 other apart]

/-- The low half of a register. -/
def low (machine : Processor) (reg : Register) : Nat := (ValueType.i32.word (machine.regs reg)).toNat

theorem follow_number {reg : Register} (suits : Compile.Suits .gp reg) {number : Nat}
    (small : number < 2 ^ 32) (machine : Processor) :
    ∃ next, follow none machine (Sequence.loadConstant .i32 reg (.ofNat number)) =
        some (.falls next) ∧ Sets reg machine next ∧ next.low reg = number := by
  have fits : Suits .i32 reg := ⟨rfl, Register.isMachine_of_isAllocable suits.1, suits.2⟩
  have bits : Slot.constBits .i32 (UInt32.ofNat number).toInt32 = .ofNat number := by
    apply UInt64.toNat_inj.mp
    simp [Slot.constBits]
    omega
  obtain ⟨instructions, next, runs, memory, regs⟩ :=
    Sequence.loadConstant_runs fits rfl (UInt32.ofNat number).toInt32 machine
  rw [bits] at runs regs
  refine ⟨next, follow_runs runs, ⟨memory, ?_⟩, ?_⟩
  · intro other apart
    rw [regs, regs_setReg, if_neg apart]
  · rw [low, regs, regs_setReg, if_pos rfl, ValueType.word_clip]
    change number % 2 ^ 64 % 2 ^ 32 = number
    omega

theorem follow_atLeast {value bound : Register} (present : bound ≠ .absent) (label : Label)
    (machine : Processor) :
    ∃ next, follow none machine
        (Sequence.compareAndJump .aboveEqual (.label label) .i32 value bound) =
        some (if machine.low bound ≤ machine.low value then .leaves label next
          else .falls next) ∧
      next.memory = machine.memory ∧ next.regs = machine.regs := by
  let flags := AluOp.cmp.flags (ValueType.i32.word (machine.regs value))
    (ValueType.i32.word (machine.regs bound))
    (ValueType.i32.word (machine.regs value) - ValueType.i32.word (machine.regs bound))
  have compares : machine.perform (.alu .cmp .i32 value bound) = some { machine with flags } := rfl
  have above : Condition.aboveEqual.holds flags =
      decide (machine.low bound ≤ machine.low value) := by
    change (decide (machine.low value < machine.low bound) != true) = _
    by_cases less : machine.low value < machine.low bound
    · simp [less, Nat.not_le_of_lt less]
    · simp [less, Nat.le_of_not_lt less]
  refine ⟨{ machine with flags }, ?_, rfl, rfl⟩
  rw [Sequence.compareAndJump, if_neg present, follow_emit, compares, Option.bind_some,
    follow_jumpIf_label, above]
  by_cases upper : machine.low bound ≤ machine.low value
  · simp [upper]
  · simp [upper]

end Processor

/-- How far code has been laid: the number of its labels, and the depths whose branches are
there, latest first. -/
structure Laying where
  labels : Nat
  depths : List Nat

section Code

variable (laid : Nat → List Part → Prop) (cases : Array Label)

/-- The code of a case.  The branch to a depth is laid behind the label of the depth; once it is
there, a jump leads to it. -/
inductive CaseCode (depth : Nat) : Laying → List Fragment → Laying → Prop
  | first {before : Laying} {label : Label} {parts : List Part} (fresh : depth ∉ before.depths)
      (named : cases[depth]? = some label) (lays : laid depth parts) :
      CaseCode depth before [.part (.steps [.bind (.label label)]), .branch depth parts]
        { before with depths := depth :: before.depths }
  | again {before : Laying} {label : Label} (known : depth ∈ before.depths)
      (named : cases[depth]? = some label) :
      CaseCode depth before [.part (.steps [.jump (.label label) .far])] before

/-- The code that parts a search at a number: from there on it continues behind a label. -/
def parting (upper : Label) (value bound : Register) (split : Nat) : List Part :=
  [.label, .steps (Sequence.loadConstant .i32 bound (.ofNat split)),
    .steps (Sequence.compareAndJump .aboveEqual (.label upper) .i32 value bound)]

/-- The code of the search for a number between two bounds, with new labels for the upper
halves. -/
inductive SearchCode (targets : Array UInt32) (value bound : Register) :
    Nat → Nat → Laying → List Fragment → Laying → Prop
  | leaf {first : Nat} {target : UInt32} {before after : Laying} {pieces : List Fragment}
      (found : targets[first]? = some target)
      (code : CaseCode laid cases target.toNat before pieces after) :
      SearchCode targets value bound first (first + 1) before pieces after
  | node {first split last : Nat} {upper : Label} {before middle after : Laying}
      {lower higher : List Fragment} (above : first < split) (below : split < last)
      (new : before.labels ≤ upper.index)
      (left : SearchCode targets value bound first split ⟨upper.index + 1, before.depths⟩ lower
        middle)
      (right : SearchCode targets value bound split last middle higher after) :
      SearchCode targets value bound first last before
        ((parting upper value bound split).map .part ++ lower ++
          .part (.steps [.bind (.label upper)]) :: higher) after

end Code

theorem Fragment.label?_steps {steps : List Step} (other : ∀ label, steps ≠ [.bind (.label label)]) :
    (Fragment.part (.steps steps)).label? = none := by
  cases fixes : (Fragment.part (.steps steps)).label? with
  | none => rfl
  | some label =>
    cases label?_eq_some.mp fixes
    exact absurd rfl (other label)

theorem Fragment.filterMap_depth? (parts : List Part) :
    (parts.map Fragment.part).filterMap depth? = [] := by
  rw [List.filterMap_map]
  exact List.filterMap_eq_nil_iff.mpr fun _ _ => rfl

/-- The code in front of the halves of a search fixes no label. -/
theorem Fragment.label?_parting (upper : Label) (value bound : Register) (split : Nat) :
    ((parting upper value bound split).map Fragment.part).filterMap label? = [] := by
  have loads : ∀ label, Sequence.loadConstant .i32 bound (.ofNat split) ≠ [.bind (.label label)] := by
    intro label same
    have straight := Sequence.straight_loadConstant .i32 bound (.ofNat split)
    rw [same] at straight
    cases (straight _ List.mem_cons_self).1
  have compares : ∀ label, Sequence.compareAndJump .aboveEqual (.label upper) .i32 value bound ≠
      [.bind (.label label)] := by
    intro label same
    cases congrArg List.length same
  rw [parting, List.map_cons, List.map_cons, List.map_cons, List.map_nil,
    List.filterMap_cons_none rfl, List.filterMap_cons_none (label?_steps loads),
    List.filterMap_cons_none (label?_steps compares)]
  rfl

section Laid

variable {laid : Nat → List Part → Prop} {cases : Array Label} {depth : Nat}
  {before after : Laying} {pieces : List Fragment}

namespace CaseCode

theorem labels (code : CaseCode laid cases depth before pieces after) :
    after.labels = before.labels := by
  cases code with
  | first => rfl
  | again => rfl

theorem depths_eq (code : CaseCode laid cases depth before pieces after) :
    after.depths = (pieces.filterMap Fragment.depth?).reverse ++ before.depths := by
  cases code with
  | first => rfl
  | again => rfl

theorem nodup (code : CaseCode laid cases depth before pieces after)
    (distinct : before.depths.Nodup) : after.depths.Nodup := by
  cases code with
  | first fresh => exact List.nodup_cons.mpr ⟨fresh, distinct⟩
  | again => exact distinct

theorem mem_depths (code : CaseCode laid cases depth before pieces after) {other : Nat} :
    other ∈ after.depths ↔ other ∈ before.depths ∨ other = depth := by
  cases code with
  | first => rw [List.mem_cons, or_comm]
  | again known =>
    refine ⟨.inl, fun either => either.elim id ?_⟩
    rintro rfl
    exact known

theorem lays (code : CaseCode laid cases depth before pieces after) {other : Nat}
    {parts : List Part} (member : .branch other parts ∈ pieces) : laid other parts := by
  cases code with
  | first _ _ lays =>
    simp only [List.mem_cons, reduceCtorEq, Fragment.branch.injEq, List.not_mem_nil, or_false,
      false_or] at member
    rw [member.1, member.2]
    exact lays
  | again => simp at member

theorem labels_eq (code : CaseCode laid cases depth before pieces after) :
    (pieces.filterMap Fragment.label? = [] ∧ after.depths = before.depths) ∨
      ∃ label, cases[depth]? = some label ∧ pieces.filterMap Fragment.label? = [label] ∧
        depth ∉ before.depths ∧ after.depths = depth :: before.depths := by
  cases code with
  | @first label parts fresh named =>
    exact .inr ⟨label, named, rfl, fresh, rfl⟩
  | again => exact .inl ⟨rfl, rfl⟩

end CaseCode

/-- Labels that code has fixed on its way: new ones, and those of depths that it has laid. -/
def Laying.Fixes (cases : Array Label) (before after : Laying) (label : Label) : Prop :=
  before.labels ≤ label.index ∧ label.index < after.labels ∨
    ∃ depth ∈ after.depths, depth ∉ before.depths ∧ cases[depth]? = some label

theorem Laying.Fixes.ne {first second third fourth : Laying} {early late : Label}
    (left : first.Fixes cases second early) (right : third.Fixes cases fourth late)
    (later : second.labels ≤ third.labels) (grows : first.labels ≤ third.labels)
    (kept : ∀ depth ∈ second.depths, depth ∈ third.depths)
    (known : ∀ label ∈ cases, label.index < first.labels) (distinct : Compile.Distinct cases) :
    early ≠ late := by
  rintro rfl
  rcases left with ⟨low, high⟩ | ⟨depth, added, _, named⟩
  · rcases right with ⟨above, _⟩ | ⟨depth, _, _, named⟩
    · omega
    · have old := known early (Array.mem_of_getElem? named)
      omega
  · rcases right with ⟨above, _⟩ | ⟨other, _, fresh, also⟩
    · have old := known early (Array.mem_of_getElem? named)
      omega
    · obtain rfl := distinct depth other early named also
      exact fresh (kept depth added)

theorem CaseCode.fixes (code : CaseCode laid cases depth before pieces after) {label : Label}
    (member : label ∈ pieces.filterMap Fragment.label?) : before.Fixes cases after label := by
  rcases code.labels_eq with ⟨none, _⟩ | ⟨own, named, one, fresh, depths⟩
  · rw [none] at member
    cases member
  · rw [one, List.mem_singleton] at member
    subst member
    rw [Laying.Fixes, depths]
    exact .inr ⟨depth, List.mem_cons_self, fresh, named⟩

theorem CaseCode.nodup_labels (code : CaseCode laid cases depth before pieces after) :
    (pieces.filterMap Fragment.label?).Nodup := by
  rcases code.labels_eq with ⟨none, _⟩ | ⟨own, _, one, _⟩
  · rw [none]
    exact .nil
  · rw [one]
    exact List.nodup_singleton own

namespace SearchCode

variable {targets : Array UInt32} {value bound : Register} {first last : Nat}

theorem grows (code : SearchCode laid cases targets value bound first last before pieces after) :
    before.labels ≤ after.labels := by
  induction code with
  | leaf _ code => exact Nat.le_of_eq code.labels.symm
  | node _ _ new _ _ left right =>
    dsimp only at left
    omega

theorem depths_eq (code : SearchCode laid cases targets value bound first last before pieces after) :
    after.depths = (pieces.filterMap Fragment.depth?).reverse ++ before.depths := by
  induction code with
  | leaf _ code => exact code.depths_eq
  | node _ _ _ _ _ left right =>
    rw [right, left, List.filterMap_append, List.filterMap_append, Fragment.filterMap_depth?,
      List.filterMap_cons_none rfl, List.nil_append, List.reverse_append, List.append_assoc]

theorem nodup (code : SearchCode laid cases targets value bound first last before pieces after)
    (distinct : before.depths.Nodup) : after.depths.Nodup := by
  induction code with
  | leaf _ code => exact code.nodup distinct
  | node _ _ _ _ _ left right => exact right (left distinct)

/-- The branches that are there behind a search are those of its entries. -/
theorem mem_depths (code : SearchCode laid cases targets value bound first last before pieces after)
    {depth : Nat} :
    depth ∈ after.depths ↔ depth ∈ before.depths ∨
      ∃ index target, first ≤ index ∧ index < last ∧ targets[index]? = some target ∧
        target.toNat = depth := by
  induction code with
  | @leaf first target _ _ _ found code =>
    rw [code.mem_depths]
    refine or_congr_right ⟨?_, ?_⟩
    · rintro rfl
      exact ⟨first, target, Nat.le_refl _, Nat.lt_succ_self _, found, rfl⟩
    · rintro ⟨index, other, above, below, here, rfl⟩
      obtain rfl : index = first := by omega
      rw [found] at here
      cases here
      rfl
  | @node first split last _ _ _ _ _ _ above below _ _ _ left right =>
    rw [right, left, or_assoc]
    refine or_congr_right ⟨?_, ?_⟩
    · rintro (⟨index, target, low, high, found⟩ | ⟨index, target, low, high, found⟩)
      · exact ⟨index, target, low, by omega, found⟩
      · exact ⟨index, target, by omega, high, found⟩
    · rintro ⟨index, target, low, high, found⟩
      rcases Nat.lt_or_ge index split with small | large
      · exact .inl ⟨index, target, low, small, found⟩
      · exact .inr ⟨index, target, large, high, found⟩

theorem lays (code : SearchCode laid cases targets value bound first last before pieces after)
    {depth : Nat} {parts : List Part} (member : .branch depth parts ∈ pieces) :
    laid depth parts := by
  induction code with
  | leaf _ code => exact code.lays member
  | node _ _ _ _ _ left right =>
    simp only [List.mem_append, List.mem_map, List.mem_cons, reduceCtorEq, and_false,
      exists_false, false_or] at member
    exact member.elim left right

theorem kept_depths
    (code : SearchCode laid cases targets value bound first last before pieces after) {depth : Nat}
    (member : depth ∈ before.depths) : depth ∈ after.depths :=
  code.mem_depths.mpr (.inl member)

theorem fixes (code : SearchCode laid cases targets value bound first last before pieces after)
    {label : Label} (member : label ∈ pieces.filterMap Fragment.label?) :
    before.Fixes cases after label := by
  induction code with
  | leaf _ code => exact code.fixes member
  | @node first split last upper before middle after lower higher above below new code further left
      right =>
      have rises := code.grows
      have climbs := further.grows
      dsimp only at rises
      rw [List.filterMap_append, List.filterMap_append, Fragment.label?_parting, List.nil_append,
        @List.filterMap_cons_some _ _ Fragment.label? _ _ upper rfl, List.mem_append, List.mem_cons] at member
      rcases member with early | rfl | late
      · rcases left early with ⟨low, high⟩ | ⟨depth, added, fresh, named⟩
        · dsimp only at low
          exact .inl ⟨by omega, by omega⟩
        · exact .inr ⟨depth, further.kept_depths added, fresh, named⟩
      · exact .inl ⟨new, by omega⟩
      · rcases right late with ⟨low, high⟩ | ⟨depth, added, fresh, named⟩
        · exact .inl ⟨by omega, high⟩
        · exact .inr ⟨depth, added, fun old => fresh (code.kept_depths old), named⟩

theorem nodup_labels
    (code : SearchCode laid cases targets value bound first last before pieces after)
    (known : ∀ label ∈ cases, label.index < before.labels) (distinct : Compile.Distinct cases) :
    (pieces.filterMap Fragment.label?).Nodup := by
  induction code with
  | leaf _ code => exact code.nodup_labels
  | @node first split last upper before middle after lower higher above below new code further left
      right =>
      have rises := code.grows
      dsimp only at rises
      have older : ∀ label ∈ cases, label.index < upper.index := fun label member =>
        Nat.lt_of_lt_of_le (known label member) new
      have lowers := left fun label member => Nat.lt_succ_of_lt (older label member)
      have highers := right fun label member => by
        have old := older label member
        omega
      have own : ∀ {start finish : Laying} {label : Label}, upper.index < start.labels →
          start.Fixes cases finish label → upper ≠ label := by
        rintro start finish label later (⟨low, _⟩ | ⟨depth, _, _, named⟩) rfl
        · omega
        · exact Nat.lt_irrefl _ (older _ (Array.mem_of_getElem? named))
      rw [List.filterMap_append, List.filterMap_append, Fragment.label?_parting, List.nil_append,
        @List.filterMap_cons_some _ _ Fragment.label? _ _ upper rfl]
      refine List.nodup_append.mpr ⟨lowers, List.nodup_cons.mpr ⟨?_, highers⟩, ?_⟩
      · intro member
        exact own (by omega) (further.fixes member) rfl
      · intro early member late other
        rcases List.mem_cons.mp other with rfl | other
        · exact (own (Nat.lt_succ_self _) (code.fixes member)).symm
        · refine (code.fixes member).ne (further.fixes other) (Nat.le_refl _) rises
            (fun _ => id) ?_ distinct
          exact fun label inside => Nat.lt_succ_of_lt (older label inside)

end SearchCode

end Laid

/-! ## Following the search -/

def Served (cases : Array Label) (whole : List Fragment) (depth : Nat) : Prop :=
  ∃ label place parts, cases[depth]? = some label ∧
    whole[place]? = some (.part (.steps [.bind (.label label)])) ∧
    whole[place + 1]? = some (.branch depth parts)

section Follow

variable {laid : Nat → List Part → Prop} {cases : Array Label} {depth : Nat}
  {before after : Laying} {pieces whole front back : List Fragment}
  {addresses : RefKind → UInt32 → BitVec 64} {machine : Processor}

theorem CaseCode.served (code : CaseCode laid cases depth before pieces after)
    (lies : whole = front ++ (pieces ++ back))
    (served : ∀ other ∈ before.depths, Served cases whole other) :
    ∀ other ∈ after.depths, Served cases whole other := by
  cases code with
  | @first label parts fresh named =>
    refine List.forall_mem_cons.mpr ⟨⟨label, front.length, parts, named, ?_, ?_⟩, served⟩
    · simp [lies]
    · simp [lies]
  | again => exact served

theorem CaseCode.reaches (code : CaseCode laid cases depth before pieces after)
    (lies : whole = front ++ (pieces ++ back))
    (served : ∀ other ∈ before.depths, Served cases whole other) :
    ∃ place parts, Processor.Threads addresses whole front.length machine place machine ∧
      whole[place]? = some (.branch depth parts) := by
  cases code with
  | @first label parts =>
    have enters : whole[front.length]? = some (.part (.steps [.bind (.label label)])) := by
      simp [lies]
    refine ⟨front.length + 1, parts, .falls enters rfl (.here _ _), ?_⟩
    simp [lies]
  | @again label known named =>
    obtain ⟨own, place, parts, same, lands, branch⟩ := served depth known
    rw [named] at same
    cases same
    have jumps : whole[front.length]? = some (.part (.steps [.jump (.label label) .far])) := by
      simp [lies]
    exact ⟨place + 1, parts, .jumps jumps rfl lands (.falls lands rfl (.here _ _)), branch⟩

namespace SearchCode

variable {targets : Array UInt32} {value bound : Register} {first last : Nat}

theorem halves_lie {lead lower higher : List Fragment} {fixed : Fragment}
    (lies : whole = front ++ (lead ++ lower ++ fixed :: higher ++ back)) :
    whole = (front ++ lead) ++ (lower ++ fixed :: (higher ++ back)) ∧
      whole = (front ++ (lead ++ lower ++ [fixed])) ++ (higher ++ back) := by
  constructor
  · simp [lies]
  · simp [lies]

theorem served (code : SearchCode laid cases targets value bound first last before pieces after)
    (lies : whole = front ++ (pieces ++ back))
    (served : ∀ depth ∈ before.depths, Served cases whole depth) :
    ∀ depth ∈ after.depths, Served cases whole depth := by
  induction code generalizing front back with
  | leaf _ code => exact code.served lies served
  | @node _ split _ upper _ _ _ lower higher _ _ _ _ _ left right =>
    obtain ⟨lowerLies, higherLies⟩ := halves_lie lies
    exact right higherLies (left lowerLies served)

/-- Control that enters a search with a number at or above its first bound comes to the branch of
that entry, or of the last one if the number is beyond. -/
theorem reaches (code : SearchCode laid cases targets value bound first last before pieces after)
    (free : first + 1 < last → Compile.Suits .gp bound ∧ bound ≠ value) (small : last ≤ 2 ^ 32)
    (lies : whole = front ++ (pieces ++ back))
    (served : ∀ depth ∈ before.depths, Served cases whole depth)
    (above : first ≤ machine.low value) :
    ∃ place next target parts,
      Processor.Threads addresses whole front.length machine place next ∧
        targets[min (machine.low value) (last - 1)]? = some target ∧
        whole[place]? = some (.branch target.toNat parts) ∧ machine.Sets bound next := by
  induction code generalizing front back machine with
  | @leaf first target _ _ _ found code =>
    obtain ⟨place, parts, threads, branch⟩ := code.reaches lies served
    have entry : min (machine.low value) (first + 1 - 1) = first := Nat.min_eq_right above
    rw [entry]
    exact ⟨place, machine, target, parts, threads, found, branch, rfl, fun _ _ => rfl⟩
  | @node first split last upper _ _ _ lower higher under rest _ code further left right =>
    obtain ⟨suits, apart⟩ := free (by omega)
    obtain ⟨lowerLies, higherLies⟩ := halves_lie lies
    obtain ⟨loaded, loads, sets, number⟩ :=
      Processor.follow_number suits (show split < 2 ^ 32 by omega) machine
    obtain ⟨next, compares, memory, regs⟩ :=
      @Processor.follow_atLeast value bound suits.present upper loaded
    have same : loaded.low value = machine.low value := by
      rw [Processor.low, Processor.low, sets.2 value apart.symm]
    have kept : machine.Sets bound next :=
      sets.trans ⟨memory, fun other _ => congrFun regs other⟩
    have still : next.low value = machine.low value := by
      rw [← same, Processor.low, Processor.low, regs]
    have leads : machine.followParts addresses [.label,
        .steps (Sequence.loadConstant .i32 bound (.ofNat split))] = some (.falls loaded) :=
      Processor.followParts_steps loads
    have starts : Processor.Threads addresses whole front.length machine (front.length + 2)
        loaded := by
      rw [lies]
      simpa [parting] using @Processor.Threads.straight addresses machine loaded _ front _ leads
    have compared : whole[front.length + 2]? = some (.part (.steps
        (Sequence.compareAndJump .aboveEqual (.label upper) .i32 value bound))) := by
      simp [lies, parting]
    rw [number, same] at compares
    by_cases upperHalf : split ≤ machine.low value
    · rw [if_pos upperHalf] at compares
      have jumps : loaded.followParts addresses [.steps
          (Sequence.compareAndJump .aboveEqual (.label upper) .i32 value bound)] =
          some (.leaves upper next) := by
        rw [Processor.followParts, compares]
      have lands : whole[(front ++ ((parting upper value bound split).map Fragment.part ++ lower)).length]? =
          some (.part (.steps [.bind (.label upper)])) := by
        simp [lies]
      obtain ⟨place, final, target, parts, threads, entry, branch, ends⟩ :=
        right (fun _ => ⟨suits, apart⟩) small higherLies (code.served lowerLies served)
          (still.symm ▸ upperHalf)
      refine ⟨place, final, target, parts, ?_, still ▸ entry, branch, kept.trans ends⟩
      refine starts.trans (.jumps compared jumps lands (.falls lands rfl ?_))
      simpa [Nat.add_assoc] using threads
    · rw [if_neg upperHalf] at compares
      have passes : loaded.followParts addresses [.steps
          (Sequence.compareAndJump .aboveEqual (.label upper) .i32 value bound)] =
          some (.falls next) := Processor.followParts_steps compares
      obtain ⟨place, final, target, parts, threads, entry, branch, ends⟩ :=
        left (fun _ => ⟨suits, apart⟩) (by omega) lowerLies served (still.symm ▸ above)
      have index : min (next.low value) (split - 1) = min (machine.low value) (last - 1) := by
        omega
      refine ⟨place, final, target, parts, ?_, index ▸ entry, branch, kept.trans ends⟩
      refine starts.trans (.falls compared passes ?_)
      simpa [parting] using threads

end SearchCode

end Follow

end WasmX64
