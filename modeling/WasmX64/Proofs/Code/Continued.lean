import WasmX64.Proofs.Code.Wiring
import WasmX64.Proofs.Machine.Encoded

/-!
# Sequences behind the code

What placing a sequence of steps does to a listing: the items and positions that there are stay,
and so do the fields that wait for other labels than the places of the sequence.  New fields stand
behind the code and wait for labels of the sequence.
-/

namespace WasmX64

def Step.jump? : Step → Option (Option Condition × Target × Distance)
  | .jump target distance => some (none, target, distance)
  | .jumpIf condition target distance => some (some condition, target, distance)
  | _ => none

namespace Code

/-- A buffer goes on from another one: only fields of labels that are fixed cease to wait, and
only fields of a kind begin to. -/
structure Continued (fixed : Label → Prop) (fresh : Use → Prop) (listing : List Placed) (pending : List Use)
    (settled : List Landing) (more : List Placed) (uses : List Use) (landings : List Landing) :
    Prop where
  items : ∀ placed ∈ listing, placed ∈ more
  positions : ∀ landing ∈ settled, landing ∈ landings
  waits : ∀ use ∈ pending, ¬ fixed use.target → use ∈ uses
  later : ∀ use ∈ uses, use ∈ pending ∨ fresh use

namespace Continued

variable {fixed : Label → Prop} {fresh : Use → Prop} {listing more most : List Placed}
  {pending uses waiting : List Use} {settled landings positions : List Landing}

theorem refl : Continued fixed fresh listing pending settled listing pending settled :=
  ⟨fun _ => id, fun _ => id, fun _ member _ => member, fun _ => .inl⟩

theorem trans (first : Continued fixed fresh listing pending settled more uses landings)
    (second : Continued fixed fresh more uses landings most waiting positions) :
    Continued fixed fresh listing pending settled most waiting positions := by
  constructor
  · exact fun placed member => second.items placed (first.items placed member)
  · exact fun landing member => second.positions landing (first.positions landing member)
  · exact fun use member free => second.waits use (first.waits use member free) free
  · intro use member
    cases second.later use member with
    | inl earlier => exact first.later use earlier
    | inr late => exact .inr late

theorem mono {places : Label → Prop} {kind : Use → Prop}
    (continued : Continued fixed fresh listing pending settled more uses landings)
    (further : ∀ label, fixed label → places label) (wider : ∀ use, fresh use → kind use) :
    Continued places kind listing pending settled more uses landings :=
  ⟨continued.items, continued.positions,
    fun use member free => continued.waits use member fun fixes => free (further _ fixes),
    fun use member => (continued.later use member).imp_right (wider _)⟩

end Continued

namespace Assembled

variable {code : Code} {listing : List Placed} {pending : List Use} {settled : List Landing}
  {target : Label} {distance : Distance}

theorem placeJump (assembled : Assembled code listing pending settled)
    {condition : Option Condition} (declared : ∀ given ∈ condition, given.code < 16)
    (known : target.index < code.labels.size)
    (fine : (code.jumpWith (Item.jumpOpcode condition .near) (Item.jumpOpcode condition .far)
      target distance).error = none)
    (small : (code.jumpWith (Item.jumpOpcode condition .near) (Item.jumpOpcode condition .far)
      target distance).size < 2147483648) :
    ∃ more uses landings field,
      Assembled (code.jumpWith (Item.jumpOpcode condition .near)
        (Item.jumpOpcode condition .far) target distance) more uses landings ∧
      Continued (fun _ => False) (fun use => use.target = target ∧ code.size ≤ use.site)
        listing pending settled more uses landings ∧
      ⟨code.size, .jump condition field.distance⟩ ∈ more ∧
      field.site = code.size + (Item.jumpOpcode condition field.distance).length ∧
      field.finish = (code.jumpWith (Item.jumpOpcode condition .near)
        (Item.jumpOpcode condition .far) target distance).size ∧
      ((code.label target).isBound = false ∧ ⟨field, target⟩ ∈ uses ∨
        ∃ position, (code.label target).state = .bound position ∧
          ⟨field, position⟩ ∈ landings) := by
  have ends {after : Code} {width : Distance} {rest : List Placed} {uses : List Use}
      {landings : List Landing}
      (reads : Assembled after (⟨code.size, .jump condition width⟩ :: rest) uses landings) :
      Field.finish ⟨width, code.size + (Item.jumpOpcode condition width).length⟩ = after.size := by
    have listed := reads.listed
    generalize after.size = finish at listed
    cases listed with
    | cons before stands =>
      cases stands with
      | jump => rfl
  obtain ⟨width, outcome⟩ := assembled.jump declared known fine small
  cases outcome with
  | inl waits =>
    obtain ⟨unbound, rfl, reads⟩ := waits
    refine ⟨_, _, _, ⟨_, _⟩, reads, ?_, List.mem_cons_self, rfl, ends reads,
      .inl ⟨unbound, List.mem_cons_self⟩⟩
    constructor
    · exact fun _ => List.mem_cons_of_mem _
    · exact fun _ => id
    · exact fun _ member _ => List.mem_cons_of_mem _ member
    · intro use member
      cases List.mem_cons.mp member with
      | inl here =>
        subst here
        exact .inr ⟨rfl, Nat.le_add_right _ _⟩
      | inr there => exact .inl there
  | inr lands =>
    obtain ⟨position, bound, reads⟩ := lands
    refine ⟨_, _, _, ⟨_, _⟩, reads, ?_, List.mem_cons_self, rfl, ends reads,
      .inr ⟨position, bound, List.mem_cons_self⟩⟩
    constructor
    · exact fun _ => List.mem_cons_of_mem _
    · exact fun _ => List.mem_cons_of_mem _
    · exact fun _ member _ => member
    · exact fun _ => .inl

end Assembled

def IsPlace (base : Nat) (places : List Nat) (label : Label) : Prop :=
  ∃ number ∈ places, label = ⟨base + number⟩

/-- A label that a sequence jumps to. -/
def IsTarget (base : Nat) (labels : List Label) (places : List Nat) (label : Label) : Prop :=
  label ∈ labels ∨ IsPlace base places label

/-- The table of labels has room for the places of a sequence, and has the labels that it jumps
to. -/
structure Reserved (base : Nat) (labels : List Label) (places : List Nat) (code : Code) :
    Prop where
  given : ∀ label ∈ labels, label.index < base
  room : base ≤ code.labels.size
  inside : ∀ number ∈ places, base + number < code.labels.size

section Place

variable {base : Nat} {labels : List Label} {places : List Nat} {code after : Code}
  {listing : List Placed} {pending : List Use} {settled : List Landing} {step : Step}
  {steps : List Step}

theorem Reserved.extends (reserved : Reserved base labels places code)
    (grows : Extends code after) : Reserved base labels places after :=
  ⟨reserved.given, Nat.le_trans reserved.room grows.count,
    fun number member => Nat.lt_of_lt_of_le (reserved.inside number member) grows.count⟩

theorem Reserved.of_known (known : ∀ label ∈ labels, label.index < code.labels.size)
    (fixes : ∀ number ∈ places, .bind (.inner number) ∈ steps) :
    Reserved code.labels.size labels places (code.reserve (Step.innerCount steps)) := by
  refine ⟨known, ?_, ?_⟩
  · rw [reserve, Array.size_append]
    exact Nat.le_add_right _ _
  · intro number member
    have counted := Step.innerPlaces_le (fixes number member)
    rw [reserve, Array.size_append, Array.size_replicate]
    exact Nat.add_lt_add_left counted _

theorem Reserved.known (reserved : Reserved base labels places code) {target : Target}
    {distance : Distance} (known : target.Known labels places distance) :
    (resolve base target).index < code.labels.size ∧
      IsTarget base labels places (resolve base target) := by
  cases target with
  | label label =>
    exact ⟨Nat.lt_of_lt_of_le (reserved.given label known.1) reserved.room, .inl known.1⟩
  | inner number => exact ⟨reserved.inside number known, .inr ⟨number, known, rfl⟩⟩
  | missing => cases known

theorem Assembled.emit_ok (assembled : Assembled code listing pending settled)
    {instruction : Instruction} (declared : instruction.Declared)
    (fine : (code.emit instruction).error = none) :
    Assembled (code.emit instruction) (⟨code.size, .plain instruction⟩ :: listing) pending settled ∧
      (code.emit instruction).size = code.size + instruction.length := by
  obtain ⟨sound, bytes, encodes⟩ := emit_clean fine
  rw [Code.emit, encodes, Instruction.length_eq encodes]
  exact ⟨assembled.emit declared encodes, size_append sound⟩

theorem mem_landings {target : Label} {field : Field} (waits : ⟨field, target⟩ ∈ pending)
    (position : Nat) : ⟨field, position⟩ ∈ landings pending target position :=
  List.mem_map_of_mem (List.mem_filter.mpr ⟨waits, by simp⟩)

theorem continued_bind {fixed : Label → Prop} {fresh : Use → Prop} {target : Label}
    (fixes : fixed target) (position : Nat) : Continued fixed fresh listing pending settled listing
      (waiting pending target) (landings pending target position ++ settled) := by
  constructor
  · exact fun _ => id
  · exact fun _ => List.mem_append_right _
  · intro use member free
    refine List.mem_filter.mpr ⟨member, ?_⟩
    have apart : use.target ≠ target := fun same => free (same ▸ fixes)
    simpa using apart
  · exact fun use member => .inl (List.mem_filter.mp member).1

theorem Assembled.placeStep (assembled : Assembled code listing pending settled)
    (reserved : Reserved base labels places code) (resolves : step.Resolves labels places)
    (fine : (Code.placeStep base code step).error = none)
    (small : (Code.placeStep base code step).size < 2147483648) :
    ∃ more uses landings, Assembled (Code.placeStep base code step) more uses landings ∧
      Continued (fun label => ∃ target, step = .bind target ∧ label = resolve base target)
        (fun use => IsTarget base labels places use.target ∧ code.size ≤ use.site)
        listing pending settled more uses landings := by
  cases step with
  | emit instruction =>
    exact ⟨_, _, _, (assembled.emit_ok resolves fine).1, fun _ => List.mem_cons_of_mem _,
      fun _ => id, fun _ member _ => member, fun _ => .inl⟩
  | jump target distance =>
    obtain ⟨known, aims⟩ := reserved.known resolves
    have declared : ∀ given ∈ (none : Option Condition), given.code < 16 := nofun
    obtain ⟨_, _, _, _, reads, goes, _⟩ := assembled.placeJump declared known fine small
    exact ⟨_, _, _, reads, goes.mono (fun _ => False.elim)
      fun _ named => ⟨named.1 ▸ aims, named.2⟩⟩
  | jumpIf condition target distance =>
    obtain ⟨known, aims⟩ := reserved.known resolves.2
    have declared : ∀ given ∈ some condition, given.code < 16 := by simpa using resolves.1
    obtain ⟨_, _, _, _, reads, goes, _⟩ := assembled.placeJump declared known fine small
    exact ⟨_, _, _, reads, goes.mono (fun _ => False.elim)
      fun _ named => ⟨named.1 ▸ aims, named.2⟩⟩
  | bind target =>
    obtain ⟨number, member, rfl⟩ := resolves
    have shorter := (Extends.placeStep base code (.bind (.inner number))).size
    exact ⟨_, _, _, assembled.bind (reserved.inside number member) fine
      (Nat.lt_of_le_of_lt shorter small), continued_bind ⟨_, rfl, rfl⟩ _⟩
  | fail error => exact absurd fine (fail_error code error)

theorem isPlace_of_bind (resolves : step.Resolves labels places) {label : Label}
    (fixes : ∃ target, step = .bind target ∧ label = resolve base target) :
    IsPlace base places label := by
  obtain ⟨target, rfl, rfl⟩ := fixes
  obtain ⟨number, member, rfl⟩ := resolves
  exact ⟨number, member, rfl⟩

theorem Assembled.placeSteps (assembled : Assembled code listing pending settled)
    (reserved : Reserved base labels places code)
    (resolves : ∀ step ∈ steps, step.Resolves labels places)
    (fine : (steps.foldl (Code.placeStep base) code).error = none)
    (small : (steps.foldl (Code.placeStep base) code).size < 2147483648) :
    ∃ more uses landings, Assembled (steps.foldl (Code.placeStep base) code) more uses landings ∧
      Continued (IsPlace base places) (fun use => IsTarget base labels places use.target)
        listing pending settled more uses landings := by
  induction steps generalizing code listing pending settled with
  | nil => exact ⟨_, _, _, assembled, .refl⟩
  | cons step rest ih =>
    have grows := Extends.placeStep base code step
    have others := Extends.placeSteps base rest (Code.placeStep base code step)
    have here := resolves step List.mem_cons_self
    obtain ⟨_, _, _, reads, goes⟩ := assembled.placeStep reserved here (others.error fine)
      (Nat.lt_of_le_of_lt others.size small)
    obtain ⟨_, _, _, final, further⟩ := ih reads (reserved.extends grows)
      (fun step member => resolves step (List.mem_cons_of_mem _ member)) fine small
    exact ⟨_, _, _, final,
      (goes.mono (fun _ => isPlace_of_bind here) fun _ => And.left).trans further⟩

/-- A label that has its position is not fixed again. -/
theorem not_mem_bind {number : Nat} (bound : (code.label ⟨base + number⟩).isBound = true)
    (fine : (steps.foldl (Code.placeStep base) code).error = none) :
    .bind (.inner number) ∉ steps := by
  induction steps generalizing code with
  | nil => exact List.not_mem_nil
  | cons step rest ih =>
    have grows := Extends.placeStep base code step
    have others := Extends.placeSteps base rest (Code.placeStep base code step)
    intro member
    cases List.mem_cons.mp member with
    | inl here =>
      obtain ⟨position, state⟩ := LabelInfo.isBound_iff.mp bound
      have clean := others.error fine
      rw [← here] at clean
      change (code.bind ⟨base + number⟩).error = none at clean
      rw [(bound_refused state).2.2] at clean
      exact fail_error code _ clean
    | inr there => exact ih (grows.isBound bound) fine there

theorem isBound_placed (reserved : Reserved base labels places code) {number : Nat}
    (known : number ∈ places) (member : .bind (.inner number) ∈ steps) :
    ((steps.foldl (Code.placeStep base) code).label ⟨base + number⟩).isBound = true := by
  induction steps generalizing code with
  | nil => cases member
  | cons step rest ih =>
    have grows := Extends.placeStep base code step
    have others := Extends.placeSteps base rest (Code.placeStep base code step)
    cases List.mem_cons.mp member with
    | inl here =>
      rw [← here] at others
      subst here
      exact others.isBound (isBound_bind (reserved.inside number known))
    | inr there => exact ih (reserved.extends grows) there

theorem Linked.index_lt (linked : Linked code pending settled) {use : Use}
    (waits : use ∈ pending) : use.target.index < code.labels.size := by
  apply Nat.lt_of_not_le
  intro outside
  have none : code.label use.target = {} := by
    rw [Code.label, Array.getElem?_eq_none outside]
    rfl
  have latest := linked.latest use.distance use.target
  have member : use.site ∈ sites pending use.distance use.target := mem_sites.mpr waits
  have empty : (sites pending use.distance use.target).head? = Option.none := by
    rw [← latest, none]
    cases use.distance with
    | near => rfl
    | far => rfl
  rw [List.head?_eq_none_iff.mp empty] at member
  cases member

theorem label_place (resolves : ∀ step ∈ steps, step.Resolves labels places) {label : Label}
    (known : label.index < code.labels.size) :
    (code.place steps).label label = ((steps.foldl (Code.placeStep code.labels.size)
      (code.reserve (Step.innerCount steps))).label label) := by
  rw [place_eq resolves]
  exact (label_shrink _ code.labels.size label).resolve_right fun dropped => dropped.1 known

/-- A placed sequence has its places fixed and drops them from the table: what waits are fields
that did before and fields that wait for the labels of the sequence. -/
theorem Assembled.drop_places (assembled : Assembled code listing pending settled)
    (resolves : ∀ step ∈ steps, step.Resolves labels places)
    (fixes : ∀ number ∈ places, .bind (.inner number) ∈ steps)
    (known : ∀ label ∈ labels, label.index < code.labels.size) {more : List Placed}
    {uses : List Use} {landings : List Landing}
    (reads : Assembled (steps.foldl (Code.placeStep code.labels.size)
      (code.reserve (Step.innerCount steps))) more uses landings)
    (goes : Continued (IsPlace code.labels.size places)
      (fun use => IsTarget code.labels.size labels places use.target)
      listing pending settled more uses landings) :
    Assembled (code.place steps) more uses landings ∧
      Continued (fun _ => False) (fun use => use.target ∈ labels)
        listing pending settled more uses landings := by
  have waits : ∀ use ∈ uses, use ∈ pending ∨ use.target ∈ labels := by
    intro use member
    refine (goes.later use member).imp_right fun named => named.resolve_right ?_
    rintro ⟨number, place, same⟩
    have bound := isBound_placed (Reserved.of_known known fixes) place (fixes number place)
    have unbound := reads.linked.unbound use member
    rw [same, bound] at unbound
    cases unbound
  have inside : ∀ use ∈ uses, use.target.index < code.labels.size := fun use member =>
    (waits use member).elim assembled.linked.index_lt (known _)
  rw [place_eq resolves]
  constructor
  · refine reads.relabel fun target => ?_
    refine (label_shrink _ code.labels.size target).imp_right fun dropped => ⟨dropped.2, ?_⟩
    intro use member same
    exact dropped.1 (same ▸ inside use member)
  · refine ⟨goes.items, goes.positions, fun use member _ => goes.waits use member ?_, waits⟩
    rintro ⟨number, _, same⟩
    have outer := assembled.linked.index_lt member
    have inner : use.target.index = code.labels.size + number := congrArg Label.index same
    omega

/-- Making room for places changes nothing that is listed. -/
theorem Assembled.reserve (assembled : Assembled code listing pending settled) (count : Nat) :
    (code.reserve count).Assembled listing pending settled :=
  assembled.relabel fun target => .inl (label_reserve code count target)

theorem Assembled.place (assembled : Assembled code listing pending settled)
    (closed : Sequence.Closed labels steps)
    (known : ∀ label ∈ labels, label.index < code.labels.size)
    (fine : (code.place steps).error = none) (small : (code.place steps).size < 2147483648) :
    ∃ more uses landings, Assembled (code.place steps) more uses landings ∧
      Continued (fun _ => False) (fun use => use.target ∈ labels)
        listing pending settled more uses landings := by
  obtain ⟨places, resolves, fixes⟩ := closed
  rw [place_eq resolves] at fine small
  obtain ⟨_, _, _, reads, goes⟩ := (assembled.reserve (Step.innerCount steps)).placeSteps
    (Reserved.of_known known fixes) resolves fine small
  exact ⟨_, _, _, assembled.drop_places resolves fixes known reads goes⟩

theorem placeStep_jump {condition : Option Condition} {target : Target} {distance : Distance}
    (jumps : step.jump? = some (condition, target, distance)) :
    Code.placeStep base code step = code.jumpWith (Item.jumpOpcode condition .near)
      (Item.jumpOpcode condition .far) (resolve base target) distance := by
  cases step with
  | jump | jumpIf =>
    cases jumps
    rfl
  | emit | bind | fail => cases jumps

theorem known_of_jump {condition : Option Condition} {target : Target} {distance : Distance}
    (jumps : step.jump? = some (condition, target, distance))
    (resolves : step.Resolves labels places) :
    target.Known labels places distance ∧ ∀ given ∈ condition, given.code < 16 := by
  cases step with
  | jump =>
    cases jumps
    exact ⟨resolves, nofun⟩
  | jumpIf =>
    cases jumps
    exact ⟨resolves.2, fun _ same => Option.some.inj same ▸ resolves.1⟩
  | emit | bind | fail => cases jumps

end Place

/-! ## Buffers that are built on -/

/-- A buffer to which labels are added, and behind which closed sequences are placed and labels
fixed. -/
inductive Later (code : Code) : Code → Prop
  | refl : Later code code
  | newLabel {after : Code} (later : Later code after) : Later code after.newLabel.2
  | place {after : Code} {labels : List Label} {steps : List Step} (later : Later code after)
      (closed : Sequence.Closed labels steps)
      (known : ∀ label ∈ labels, label.index < after.labels.size) : Later code (after.place steps)
  | bind {after : Code} {target : Label} (later : Later code after)
      (known : target.index < after.labels.size) : Later code (after.bind target)

section Later

variable {code after : Code} {listing : List Placed} {pending : List Use}
  {settled : List Landing}

theorem Later.extends (later : Later code after) : Extends code after := by
  induction later with
  | refl => exact .refl code
  | newLabel _ ih => exact ih.trans (.newLabel _)
  | place _ _ _ ih => exact ih.trans (.place _ _)
  | bind _ _ ih => exact ih.trans (.bind _ _)

/-- A buffer that is built on keeps its items and positions, and its fields go on to wait or lead
to the positions of their labels. -/
theorem Assembled.later (assembled : Assembled code listing pending settled)
    (later : Later code after) (fine : after.error = none) (small : after.size < 2147483648) :
    ∃ more uses landings, Assembled after more uses landings ∧
      (∀ placed ∈ listing, placed ∈ more) ∧ (∀ landing ∈ settled, landing ∈ landings) ∧
      ∀ use ∈ pending, use ∈ uses ∨ ∃ position,
        (after.label use.target).state = .bound position ∧ ⟨use.toField, position⟩ ∈ landings := by
  induction later with
  | refl => exact ⟨_, _, _, assembled, fun _ => id, fun _ => id, fun _ => .inl⟩
  | @newLabel middle later ih =>
    obtain ⟨_, _, _, reads, items, positions, waits⟩ := ih fine small
    have same : ∀ target, middle.newLabel.2.label target = middle.label target := by
      intro target
      rw [← label_reserve middle 1 target]
      simp [Code.newLabel, Code.reserve]
    refine ⟨_, _, _, reads.relabel fun target => .inl (same target), items, positions, ?_⟩
    intro use member
    rw [same]
    exact waits use member
  | @place middle labels steps later closed known ih =>
    have grows := Extends.place middle steps
    obtain ⟨_, _, _, reads, items, positions, waits⟩ :=
      ih (grows.error fine) (Nat.lt_of_le_of_lt grows.size small)
    obtain ⟨_, _, _, final, goes⟩ := reads.place closed known fine small
    refine ⟨_, _, _, final, fun placed member => goes.items _ (items _ member),
      fun landing member => goes.positions _ (positions _ member), fun use member => ?_⟩
    cases waits use member with
    | inl still => exact .inl (goes.waits use still id)
    | inr leads =>
      obtain ⟨position, bound, landed⟩ := leads
      exact .inr ⟨position, grows.bound _ _ bound, goes.positions _ landed⟩
  | @bind middle target later known ih =>
    have grows := Extends.bind middle target
    have before := Nat.lt_of_le_of_lt grows.size small
    obtain ⟨_, _, _, reads, items, positions, waits⟩ := ih (grows.error fine) before
    obtain ⟨unbound, _⟩ := reads.linked.bind_fine before fine
    refine ⟨_, _, _, reads.bind known fine before, items,
      fun landing member => List.mem_append_right _ (positions _ member), fun use member => ?_⟩
    cases waits use member with
    | inr leads =>
      obtain ⟨position, bound, landed⟩ := leads
      exact .inr ⟨position, grows.bound _ _ bound, List.mem_append_right _ landed⟩
    | inl still =>
      by_cases here : use.target = target
      · refine .inr ⟨middle.size, ?_, List.mem_append_left _ ?_⟩
        · rw [label_bind known unbound, if_pos here]
        · exact mem_landings (here ▸ still) _
      · exact .inl (List.mem_filter.mpr ⟨still, by simpa using here⟩)

end Later

end Code

end WasmX64
