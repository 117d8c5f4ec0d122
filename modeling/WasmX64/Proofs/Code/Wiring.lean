import Mathlib.Data.List.TakeWhile
import WasmX64.Proofs.Code.Listing
import WasmX64.Proofs.Sequence.Closed

/-!
# Wired code

`Wired` describes a buffer by conditions on its fields: which of them may wait for which
label, and which may lead to the very end of the code, where no instruction stands yet.
Placing a closed sequence keeps such conditions; behind an instruction or a jump no field
leads to the end.
-/

namespace WasmX64

namespace Step

variable {labels : List Label} {places : List Nat}

theorem Resolves.isComplete {step : Step}
    (resolves : step.Resolves labels places) : step.isComplete = true := by
  cases step with
  | emit instruction => rfl
  | fail error => rfl
  | jump target distance =>
    cases target with
    | missing => cases resolves
    | _ => rfl
  | jumpIf condition target distance =>
    cases target with
    | missing => cases resolves.2
    | _ => rfl
  | bind target =>
    obtain ⟨number, _, rfl⟩ := resolves
    rfl

/-- The number of inner places that a sequence makes necessary. -/
def innerCount (steps : List Step) : Nat :=
  steps.foldl (fun count step => max count step.innerPlaces) 0

theorem innerPlaces_le {steps : List Step} {step : Step} (member : step ∈ steps) :
    step.innerPlaces ≤ innerCount steps := by
  have grows : ∀ (list : List Step) (count : Nat), count ≤
      list.foldl (fun count step => max count step.innerPlaces) count := by
    intro list
    induction list with
    | nil => exact fun count => Nat.le_refl _
    | cons head rest ih => exact fun count => Nat.le_trans (Nat.le_max_left _ _) (ih _)
  unfold innerCount
  generalize 0 = count
  induction steps generalizing count with
  | nil => cases member
  | cons head rest ih =>
    cases List.mem_cons.mp member with
    | inl here =>
      subst here
      exact Nat.le_trans (Nat.le_max_right _ _) (grows rest _)
    | inr there => exact ih there _

end Step

namespace Code

/-- A buffer that has a listing with given items, whose waiting fields and whose fields that
lead to the end of the code meet conditions. -/
def Wired (kept : List Placed) (accepts : Use → Prop) (lands : Landing → Prop)
    (code : Code) : Prop :=
  ∃ listing pending settled, Assembled code listing pending settled ∧
    (∀ placed ∈ kept, placed ∈ listing) ∧ (∀ use ∈ pending, accepts use) ∧
    ∀ landing ∈ settled, landing.position = code.size → lands landing

/-- More labels at the end of the table. -/
def reserve (code : Code) (count : Nat) : Code :=
  { code with labels := code.labels ++ Array.replicate count {} }

theorem label_reserve (code : Code) (count : Nat) (target : Label) :
    (code.reserve count).label target = code.label target := by
  simp only [Code.label, reserve, Array.getElem?_append, Array.getElem?_replicate]
  split
  · rfl
  · rename_i outside
    rw [Array.getElem?_eq_none (Nat.le_of_not_lt outside)]
    split
    · rfl
    · rfl

/-- What is cut off the table of labels is not known any more. -/
theorem label_shrink (code : Code) (base : Nat) (target : Label) :
    Code.label { code with labels := code.labels.shrink base } target = code.label target ∨
      ¬ target.index < base ∧
        Code.label { code with labels := code.labels.shrink base } target = {} := by
  simp only [Code.label, Array.shrink_eq_take, Array.take_eq_extract, Array.getElem?_extract]
  by_cases inside : target.index < base
  · left
    simp only [Nat.sub_zero, Nat.zero_add]
    split
    · rfl
    · rename_i outside
      rw [Array.getElem?_eq_none (by omega)]
  · right
    refine ⟨inside, ?_⟩
    rw [if_neg (by omega)]
    rfl

/-- No field leads to the end of the code. -/
def nowhere (_ : Landing) : Prop := False

/-- Labels of the table that far fields behind an offset may name: they have their position,
or may be waited for. -/
def Permits (accepts : Use → Prop) (start : Nat) (labels : List Label) (code : Code) : Prop :=
  ∀ label ∈ labels, label.index < code.labels.size ∧
    ((code.label label).isBound = true ∨
      ∀ field : Field, field.distance = .far → start ≤ field.site → accepts ⟨field, label⟩)

theorem size_labels_bind (code : Code) (target : Label) :
    (code.bind target).labels.size = code.labels.size := by
  cases bound : (code.label target).isBound with
  | true =>
    obtain ⟨position, state⟩ := LabelInfo.isBound_iff.mp bound
    rw [(bound_refused state).2.2, (Rewrites.fail code _).same.labels]
  | false =>
    rw [bind_eq bound, setLabel, Array.size_setIfInBounds]
    exact congrArg Array.size (Rewrites.fillIn code target).same.labels

theorem size_bind (code : Code) (target : Label) : (code.bind target).size = code.size := by
  cases bound : (code.label target).isBound with
  | true =>
    obtain ⟨position, state⟩ := LabelInfo.isBound_iff.mp bound
    rw [(bound_refused state).2.2]
    exact (Rewrites.fail code _).same.size
  | false =>
    rw [bind_eq bound]
    exact (Rewrites.fillIn code target).same.size

theorem label_bind_other {code : Code} {target other : Label}
    (known : target.index < code.labels.size) (different : other ≠ target) :
    (code.bind target).label other = code.label other := by
  cases bound : (code.label target).isBound with
  | true =>
    obtain ⟨position, state⟩ := LabelInfo.isBound_iff.mp bound
    rw [(bound_refused state).2.2, Code.label, (Rewrites.fail code _).same.labels]
    rfl
  | false => rw [label_bind known bound, if_neg different]

theorem bound_jumpWith {code : Code} {short long : List UInt8} {target label : Label}
    {distance : Distance} {position : Nat} (known : target.index < code.labels.size)
    (fine : (code.jumpWith short long target distance).error = none)
    (bound : ((code.jumpWith short long target distance).label label).state = .bound position) :
    (code.label label).state = .bound position := by
  cases state : (code.label target).isBound with
  | false =>
    rw [jumpWith_unbound state] at fine bound
    obtain ⟨unbound, _, same⟩ := await_fine fine
    rw [same] at bound
    exact Assembled.bound_link known unbound bound
  | true =>
    obtain ⟨there, state⟩ := LabelInfo.isBound_iff.mp state
    cases jumpWith_bound state fine with
    | inl short =>
      rw [short.1, Code.label, land, labels_append] at bound
      exact bound
    | inr long =>
      rw [long, Code.label, land, labels_append] at bound
      exact bound

namespace Wired

variable {kept : List Placed} {accepts : Use → Prop} {lands : Landing → Prop} {code : Code}

theorem mono {more : Use → Prop} {further : Landing → Prop}
    (wired : Wired kept accepts lands code) (uses : ∀ use, accepts use → more use)
    (ends : ∀ landing, lands landing → further landing) : Wired kept more further code := by
  obtain ⟨listing, pending, settled, assembled, within, accepted, landed⟩ := wired
  refine ⟨listing, pending, settled, assembled, within, ?_, ?_⟩
  · intro use member
    exact uses use (accepted use member)
  · intro landing member here
    exact ends landing (landed landing member here)

theorem anywhere (wired : Wired kept accepts nowhere code) : Wired kept accepts lands code :=
  wired.mono (fun _ => id) fun _ => False.elim

theorem sound (wired : Wired kept accepts lands code) : code.error = none := by
  obtain ⟨listing, pending, settled, assembled, _⟩ := wired
  exact assembled.linked.sound

/-- Behind a further item no field leads to the end. -/
theorem beyond {after : Code} {placed : Placed} {listing : List Placed} {pending : List Use}
    {settled : List Landing} (assembled : Assembled after (placed :: listing) pending settled)
    (within : ∀ other ∈ kept, other ∈ listing) (accepted : ∀ use ∈ pending, accepts use)
    (behind : ∀ landing ∈ settled, landing.position ≤ placed.offset) :
    Wired (placed :: kept) accepts nowhere after := by
  refine ⟨_, pending, settled, assembled, ?_, accepted, ?_⟩
  · intro other member
    cases List.mem_cons.mp member with
    | inl here => exact here ▸ List.mem_cons_self
    | inr there => exact List.mem_cons_of_mem _ (within other there)
  · intro landing member here
    have below := behind landing member
    cases assembled.listed with
    | cons before stands =>
      have above := Placed.offset_lt stands
      rw [nowhere]
      omega

theorem fewer {placed : Placed} (wired : Wired (placed :: kept) accepts lands code) :
    Wired kept accepts lands code := by
  obtain ⟨listing, pending, settled, assembled, within, rest⟩ := wired
  exact ⟨listing, pending, settled, assembled,
    fun other member => within other (List.mem_cons_of_mem _ member), rest⟩

theorem behind {listing : List Placed} {pending : List Use} {settled : List Landing}
    (assembled : Assembled code listing pending settled) {landing : Landing}
    (member : landing ∈ settled) : landing.position ≤ code.size := by
  cases assembled.leads landing member with
  | inl here => exact Nat.le_of_eq here
  | inr starts =>
    obtain ⟨placed, found, same⟩ := starts
    obtain ⟨last, stands, below⟩ := assembled.listed.mem_stands found
    have above := Placed.offset_lt stands
    omega

theorem emit (wired : Wired kept accepts lands code) {instruction : Instruction}
    (declared : instruction.Declared) (fine : (code.emit instruction).error = none) :
    Wired (⟨code.size, .plain instruction⟩ :: kept) accepts nowhere (code.emit instruction) := by
  obtain ⟨listing, pending, settled, assembled, within, accepted, _⟩ := wired
  cases encodes : instruction.encode with
  | error error =>
    rw [Code.emit, encodes] at fine
    exact absurd fine (fail_error code error)
  | ok bytes =>
    rw [Code.emit, encodes]
    apply beyond (assembled.emit declared encodes) within accepted
    intro landing member
    exact behind assembled member

/-- Instructions one behind the other; behind the last no field leads to the end. -/
theorem emitAll (wired : Wired kept accepts lands code) {instructions : List Instruction}
    (declared : ∀ instruction ∈ instructions, instruction.Declared)
    {bytes : List UInt8} (encodes : Instruction.encodeAll instructions = .ok bytes) :
    Wired (Placed.row code.size instructions ++ kept) accepts
      (fun landing => instructions = [] ∧ lands landing) (code.append bytes) := by
  induction instructions generalizing code lands kept bytes with
  | nil =>
    cases encodes
    rw [append_nil]
    exact wired.mono (fun _ => id) fun _ ends => ⟨rfl, ends⟩
  | cons instruction rest ih =>
    obtain ⟨first, others, encoded, further, rfl⟩ := Instruction.encodeAll_cons_ok encodes
    have emitted : code.emit instruction = code.append first := by rw [Code.emit, encoded]
    have size : (code.append first).size = code.size + instruction.length := by
      rw [size_append wired.sound, Instruction.length_eq encoded]
    have fine : (code.emit instruction).error = none := by
      rw [emitted, error_append]
      exact wired.sound
    obtain ⟨known, later⟩ := List.forall_mem_cons.mp declared
    have placed := wired.emit known fine
    rw [emitted] at placed
    have rows := ih placed later further
    rw [append_append, size] at rows
    obtain ⟨listing, pending, settled, assembled, within, accepted, landed⟩ := rows
    refine ⟨listing, pending, settled, assembled, ?_, accepted, ?_⟩
    · intro other member
      apply within
      simp only [Placed.row, List.cons_append, List.mem_cons, List.mem_append] at member ⊢
      exact or_left_comm.mp member
    · intro landing member here
      exact (landed landing member here).2.elim

theorem jump (wired : Wired kept accepts lands code) {condition : Option Condition}
    (declared : ∀ given ∈ condition, given.code < 16)
    {target : Label} {distance : Distance} (known : target.index < code.labels.size)
    (uses : (code.label target).isBound = false → ∀ field : Field, field.distance = distance →
      code.size ≤ field.site → accepts ⟨field, target⟩)
    (fine : (code.jumpWith (Item.jumpOpcode condition .near) (Item.jumpOpcode condition .far)
      target distance).error = none)
    (small : (code.jumpWith (Item.jumpOpcode condition .near) (Item.jumpOpcode condition .far)
      target distance).size < 2147483648) :
    Wired kept accepts nowhere (code.jumpWith (Item.jumpOpcode condition .near)
      (Item.jumpOpcode condition .far) target distance) := by
  obtain ⟨listing, pending, settled, assembled, within, accepted, _⟩ := wired
  obtain ⟨width, jumped⟩ := assembled.jump declared known fine small
  cases jumped with
  | inl waits =>
    obtain ⟨unbound, rfl, waits⟩ := waits
    refine (beyond waits within ?_ fun landing member => behind assembled member).fewer
    intro use member
    cases List.mem_cons.mp member with
    | inl here =>
      subst here
      exact uses unbound _ rfl (Nat.le_add_right _ _)
    | inr there => exact accepted use there
  | inr lands =>
    obtain ⟨position, bound, leads⟩ := lands
    refine (beyond leads within accepted ?_).fewer
    intro landing member
    cases List.mem_cons.mp member with
    | inl here =>
      subst here
      exact assembled.linked.behind target position bound
    | inr there => exact behind assembled there

theorem bind (wired : Wired kept accepts lands code) {target : Label}
    (known : target.index < code.labels.size) (fine : (code.bind target).error = none)
    (small : code.size < 2147483648) :
    Wired kept (fun use => accepts use ∧ use.target ≠ target)
      (fun landing => lands landing ∨ accepts ⟨landing.toField, target⟩) (code.bind target) := by
  obtain ⟨listing, pending, settled, assembled, within, accepted, landed⟩ := wired
  have size := size_bind code target
  refine ⟨listing, _, _, assembled.bind known fine small, within, ?_, ?_⟩
  · intro use member
    obtain ⟨waits, different⟩ := List.mem_filter.mp member
    exact ⟨accepted use waits, by simpa using different⟩
  · intro landing member here
    rw [size] at here
    cases List.mem_append.mp member with
    | inl fresh =>
      obtain ⟨use, waits, rfl⟩ := List.mem_map.mp fresh
      obtain ⟨waits, same⟩ := List.mem_filter.mp waits
      have same : use.target = target := by simpa using same
      exact .inr (same ▸ accepted use waits)
    | inr there => exact .inl (landed landing there here)

/-- Labels without a use are added to the table. -/
theorem grow (wired : Wired kept accepts lands code) (count : Nat) :
    Wired kept accepts lands (code.reserve count) := by
  obtain ⟨listing, pending, settled, assembled, rest⟩ := wired
  exact ⟨listing, pending, settled,
    assembled.relabel fun target => .inl (label_reserve code count target), rest⟩

/-- Labels that no field waits for are dropped from the end of the table. -/
theorem shrink (wired : Wired kept accepts lands code) {base : Nat}
    (within : ∀ use, accepts use → use.target.index < base) :
    Wired kept accepts lands { code with labels := code.labels.shrink base } := by
  obtain ⟨listing, pending, settled, assembled, items, accepted, landed⟩ := wired
  refine ⟨listing, pending, settled, assembled.relabel ?_, items, accepted, landed⟩
  intro target
  refine (label_shrink code base target).imp_right fun dropped => ⟨dropped.2, ?_⟩
  intro use member same
  exact dropped.1 (same ▸ within use (accepted use member))

end Wired

namespace Extends

theorem placeStep (base : Nat) (code : Code) (step : Step) :
    Extends code (placeStep base code step) := by
  cases step with
  | emit instruction => exact emit code instruction
  | jump target distance => exact jumpWith code _ _ _ _
  | jumpIf condition target distance => exact jumpWith code _ _ _ _
  | bind target => exact bind code _
  | fail error => exact fail code error

theorem placeSteps (base : Nat) (steps : List Step) (code : Code) :
    Extends code (steps.foldl (Code.placeStep base) code) := by
  induction steps generalizing code with
  | nil => exact refl code
  | cons step rest ih => exact (placeStep base code step).trans (ih _)

theorem grow (code : Code) (count : Nat) :
    Extends code (code.reserve count) := by
  constructor
  · exact id
  · exact Nat.le_refl _
  · simp [reserve]
  · intro label position bound
    simp only [Code.label, reserve, Array.getElem?_append] at bound ⊢
    split
    · exact bound
    · rename_i outside
      rw [Array.getElem?_eq_none (Nat.le_of_not_lt outside)] at bound
      cases bound

theorem newLabel (code : Code) : Extends code code.newLabel.2 := by
  have table : code.newLabel.2 = code.reserve 1 := by simp [Code.newLabel, reserve]
  rw [table]
  exact grow code 1

theorem place (code : Code) (steps : List Step) : Extends code (code.place steps) := by
  unfold Code.place
  dsimp only
  generalize steps.takeWhile Step.isComplete = complete
  generalize complete.foldl (fun count step => max count step.innerPlaces) 0 = inner
  have grown : Extends code (complete.foldl (Code.placeStep code.labels.size)
      { code with labels := code.labels ++ Array.replicate inner {} }) :=
    (grow code inner).trans (placeSteps code.labels.size complete _)
  constructor
  · exact grown.error
  · exact grown.size
  · have count := grown.count
    simp only [Array.shrink_eq_take, Array.take_eq_extract, Array.size_extract]
    omega
  · intro label position bound
    have inside : label.index < code.labels.size := by
      apply Nat.lt_of_not_le
      intro outside
      rw [Code.label, Array.getElem?_eq_none outside] at bound
      cases bound
    have still := grown.bound label position bound
    have count := grown.count
    simp only [Code.label, Array.shrink_eq_take, Array.take_eq_extract, Array.getElem?_extract] at still ⊢
    rw [if_pos (by omega), Nat.zero_add]
    exact still

end Extends

theorem Permits.extends {accepts : Use → Prop} {start : Nat} {labels : List Label}
    {first second : Code} (permits : Permits accepts start labels first)
    (grows : Extends first second) : Permits accepts start labels second := by
  intro label member
  obtain ⟨known, uses⟩ := permits label member
  refine ⟨Nat.lt_of_lt_of_le known grows.count, uses.imp_left ?_⟩
  intro bound
  obtain ⟨position, state⟩ := LabelInfo.isBound_iff.mp bound
  exact LabelInfo.isBound_iff.mpr ⟨position, grows.bound _ _ state⟩

theorem place_eq {code : Code} {labels : List Label} {places : List Nat} {steps : List Step}
    (resolves : ∀ step ∈ steps, step.Resolves labels places) :
    code.place steps =
      { steps.foldl (placeStep code.labels.size) (code.reserve (Step.innerCount steps)) with
        labels := (steps.foldl (placeStep code.labels.size)
          (code.reserve (Step.innerCount steps))).labels.shrink code.labels.size } := by
  have complete : steps.takeWhile Step.isComplete = steps := by
    rw [List.takeWhile_eq_self_iff]
    intro step member
    exact (resolves step member).isComplete
  unfold place
  rw [complete]
  rfl

theorem place_bind (code : Code) (target : Label) :
    code.place [.bind (.label target)] = code.bind target := by
  have table := size_labels_bind code target
  have placed : code.place [.bind (.label target)] =
      { code.bind target with labels := (code.bind target).labels.shrink code.labels.size } := by
    simp [place, Step.isComplete, Step.target?, Step.innerPlaces, placeStep, resolve]
  rw [placed, ← table]
  simp

theorem loadWide_eq (code : Code) (target : Register) (imm : UInt64) :
    (code.loadWide target imm).2 = code.emit (.movabs target imm) := by
  unfold loadWide
  dsimp only
  split
  · rfl
  · rfl

theorem encode_movabs {target : Register} (general : target.isGp = true) (imm : UInt64) :
    (Instruction.movabs target imm).encode =
      .ok (Instruction.shortForm true 0xb8 target ++ bytes64 imm) := by
  simp [Instruction.encode, Instruction.needGp, general]

theorem length_wideForm (opcode : UInt8) (target : Register) :
    (Instruction.shortForm true opcode target).length = 2 := by
  unfold Instruction.shortForm
  cases target.high <;> rfl

/-- The immediate lies behind the two bytes of the opcode. -/
theorem offset_loadWide {code : Code} (sound : code.error = none) {target : Register}
    (general : target.isGp = true) (imm : UInt64) :
    (code.loadWide target imm).1 = code.size + 2 := by
  have sized : (code.emit (.movabs target imm)).size = code.size + 10 := by
    rw [Code.emit, encode_movabs general]
    refine (size_append sound).trans ?_
    rw [List.length_append, length_wideForm]
    rfl
  unfold loadWide fieldOffset
  dsimp only
  rw [if_pos general, sized, sound]
  simp

theorem isBound_bind {code : Code} {target : Label} (known : target.index < code.labels.size) :
    ((code.bind target).label target).isBound = true := by
  cases bound : (code.label target).isBound with
  | true => exact (Extends.bind code target).isBound bound
  | false =>
    rw [label_bind known bound, if_pos rfl]
    rfl

namespace Wired

/-- The uses that may wait while a sequence is being placed: those of its inner places, which
count from `base`, among them. -/
def Inner (accepts : Use → Prop) (start base : Nat) (places : List Nat) (use : Use) : Prop :=
  accepts use ∨ start ≤ use.site ∧ ∃ number ∈ places, use.target = ⟨base + number⟩

section Place

variable {kept : List Placed} {accepts : Use → Prop} {lands : Landing → Prop} {code : Code}
  {labels : List Label} {places : List Nat} {start base : Nat}

theorem placeJump (wired : Wired kept (Inner accepts start base places) lands code)
    {condition : Option Condition} (declared : ∀ given ∈ condition, given.code < 16)
    {distance : Distance} {target : Target}
    (permits : Permits accepts start labels code)
    (later : start ≤ code.size)
    (inner : ∀ number ∈ places, base + number < code.labels.size)
    (resolves : target.Known labels places distance)
    (fine : (code.jumpWith (Item.jumpOpcode condition .near) (Item.jumpOpcode condition .far)
      (resolve base target) distance).error = none)
    (small : (code.jumpWith (Item.jumpOpcode condition .near) (Item.jumpOpcode condition .far)
      (resolve base target) distance).size < 2147483648) :
    Wired kept (Inner accepts start base places) nowhere
      (code.jumpWith (Item.jumpOpcode condition .near) (Item.jumpOpcode condition .far)
        (resolve base target) distance) := by
  cases target with
  | missing => cases resolves
  | label label =>
    obtain ⟨member, rfl⟩ := resolves
    obtain ⟨known, uses⟩ := permits label member
    apply wired.jump declared known _ fine small
    intro unbound field far behind
    cases uses with
    | inl bound =>
      rw [bound] at unbound
      cases unbound
    | inr uses => exact .inl (uses field far (Nat.le_trans later behind))
  | inner number =>
    apply wired.jump declared (inner number resolves) _ fine small
    intro _ field _ behind
    exact .inr ⟨Nat.le_trans later behind, number, resolves, rfl⟩

/-- One step of a sequence; behind it no field leads to the end unless it fixes a place. -/
theorem placeStep {step : Step} (wired : Wired kept (Inner accepts start base places) lands code)
    (within : ∀ use, accepts use → use.target.index < base)
    (permits : Permits accepts start labels code)
    (later : start ≤ code.size)
    (inner : ∀ number ∈ places, base + number < code.labels.size)
    (resolves : step.Resolves labels places)
    (fine : (Code.placeStep base code step).error = none)
    (small : (Code.placeStep base code step).size < 2147483648) :
    Wired kept (Inner accepts start base places)
        (fun landing => (∃ target, step = .bind target) ∧ (lands landing ∨ start ≤ landing.site))
        (Code.placeStep base code step) ∧
      ∀ number, step = .bind (.inner number) →
        ((Code.placeStep base code step).label ⟨base + number⟩).isBound = true := by
  cases step with
  | emit instruction =>
    refine ⟨?_, by simp⟩
    exact (wired.emit resolves fine).fewer.anywhere
  | jump target distance =>
    have declared : ∀ given ∈ (none : Option Condition), given.code < 16 := nofun
    have jumps := wired.placeJump declared permits later inner resolves fine small
    exact ⟨jumps.anywhere, by simp⟩
  | jumpIf condition target distance =>
    have declared : ∀ given ∈ some condition, given.code < 16 := by simpa using resolves.1
    have jumps := wired.placeJump declared permits later inner resolves.2 fine small
    exact ⟨jumps.anywhere, by simp⟩
  | fail error => exact absurd fine (fail_error code error)
  | bind target =>
    obtain ⟨number, member, rfl⟩ := resolves
    have shorter := (Extends.bind code (resolve base (.inner number))).size
    have bound := wired.bind (inner number member) fine (Nat.lt_of_le_of_lt shorter small)
    constructor
    · apply bound.mono
      · intro use accepted
        exact accepted.1
      · intro landing ends
        refine ⟨⟨_, rfl⟩, ends.imp_right ?_⟩
        intro waits
        cases waits with
        | inl outer =>
          have below := within _ outer
          dsimp only [resolve] at below
          omega
        | inr inner => exact inner.1
    · intro other same
      cases same
      exact isBound_bind (inner number member)

theorem placeSteps {steps : List Step}
    (wired : Wired kept (Inner accepts start base places) lands code)
    (within : ∀ use, accepts use → use.target.index < base)
    (permits : Permits accepts start labels code)
    (ends : ∀ landing : Landing, start ≤ landing.site → lands landing)
    (later : start ≤ code.size)
    (inner : ∀ number ∈ places, base + number < code.labels.size)
    (resolves : ∀ step ∈ steps, step.Resolves labels places)
    (fine : (steps.foldl (Code.placeStep base) code).error = none)
    (small : (steps.foldl (Code.placeStep base) code).size < 2147483648) :
    Wired kept (Inner accepts start base places) lands
        (steps.foldl (Code.placeStep base) code) ∧
      ∀ number, Step.bind (.inner number) ∈ steps →
        ((steps.foldl (Code.placeStep base) code).label ⟨base + number⟩).isBound = true := by
  induction steps generalizing code with
  | nil => exact ⟨wired, by simp⟩
  | cons step rest ih =>
    have first := Extends.placeStep base code step
    have others := Extends.placeSteps base rest (Code.placeStep base code step)
    obtain ⟨placed, fixed⟩ := wired.placeStep within permits later inner
      (resolves step List.mem_cons_self) (others.error fine)
      (Nat.lt_of_le_of_lt others.size small)
    have stays : Wired kept (Inner accepts start base places) lands
        (Code.placeStep base code step) := by
      apply placed.mono (fun _ => id)
      intro landing reaches
      exact reaches.2.elim id (ends landing)
    obtain ⟨final, bound⟩ := ih stays (permits.extends first) (Nat.le_trans later first.size)
      (fun number member => Nat.lt_of_lt_of_le (inner number member) first.count)
      (fun other member => resolves other (List.mem_cons_of_mem _ member)) fine small
    refine ⟨final, ?_⟩
    intro number member
    cases List.mem_cons.mp member with
    | inl here =>
      obtain ⟨position, state⟩ := LabelInfo.isBound_iff.mp (fixed number here.symm)
      exact LabelInfo.isBound_iff.mpr ⟨position, others.bound _ _ state⟩
    | inr there => exact bound number there

theorem placeForward {steps : List Step} (wired : Wired kept accepts lands code)
    (within : ∀ use, accepts use → use.target.index < base)
    (permits : Permits accepts start labels code)
    (later : start ≤ code.size) (resolves : ∀ step ∈ steps, step.Resolves labels [])
    (fine : (steps.foldl (Code.placeStep base) code).error = none)
    (small : (steps.foldl (Code.placeStep base) code).size < 2147483648) :
    Wired kept accepts (fun landing => steps = [] ∧ lands landing)
      (steps.foldl (Code.placeStep base) code) := by
  induction steps generalizing code lands with
  | nil => exact wired.mono (fun _ => id) fun _ ends => ⟨rfl, ends⟩
  | cons step rest ih =>
    have first := Extends.placeStep base code step
    have others := Extends.placeSteps base rest (Code.placeStep base code step)
    have opened : Wired kept (Inner accepts start base []) lands code :=
      wired.mono (fun _ => .inl) fun _ => id
    have here := resolves step List.mem_cons_self
    obtain ⟨placed, _⟩ := opened.placeStep within permits later (by simp) here
      (others.error fine) (Nat.lt_of_le_of_lt others.size small)
    have grown : Wired kept accepts nowhere (Code.placeStep base code step) := by
      apply placed.mono
      · intro use accepted
        cases accepted with
        | inl outer => exact outer
        | inr inner => simp at inner
      · rintro landing ⟨⟨target, rfl⟩, _⟩
        obtain ⟨number, member, _⟩ := here
        cases member
    have final := ih grown (permits.extends first) (Nat.le_trans later first.size)
      (fun other member => resolves other (List.mem_cons_of_mem _ member)) fine small
    exact final.mono (fun _ => id) fun _ ends => ends.2.elim

end Place

section Sequence

variable {kept : List Placed} {accepts : Use → Prop} {lands : Landing → Prop} {code : Code}
  {labels : List Label} {steps : List Step}

theorem place (wired : Wired kept accepts lands code) (closed : Sequence.Closed labels steps)
    (within : ∀ use, accepts use → use.target.index < code.labels.size)
    (permits : Permits accepts code.size labels code)
    (ends : ∀ landing : Landing, code.size ≤ landing.site → lands landing)
    (fine : (code.place steps).error = none) (small : (code.place steps).size < 2147483648) :
    Wired kept accepts lands (code.place steps) := by
  obtain ⟨places, resolves, fixes⟩ := closed
  have inner : ∀ number ∈ places, code.labels.size + number <
      (code.reserve (Step.innerCount steps)).labels.size := by
    intro number member
    have counted := Step.innerPlaces_le (fixes number member)
    rw [reserve, Array.size_append, Array.size_replicate]
    exact Nat.add_lt_add_left counted _
  rw [place_eq resolves] at fine small ⊢
  have opened : Wired kept (Inner accepts code.size code.labels.size places) lands
      (code.reserve (Step.innerCount steps)) :=
    (wired.grow _).mono (fun _ => .inl) fun _ => id
  obtain ⟨placed, bound⟩ := opened.placeSteps within (permits.extends (.grow code _)) ends
    (Nat.le_refl _) inner resolves fine small
  apply Wired.shrink _ within
  obtain ⟨listing, pending, settled, assembled, items, accepted, landed⟩ := placed
  refine ⟨listing, pending, settled, assembled, items, ?_, landed⟩
  intro use member
  cases accepted use member with
  | inl outer => exact outer
  | inr inside =>
    -- the places of the sequence are fixed, so nothing waits for them
    obtain ⟨_, number, place, target⟩ := inside
    have unbound := assembled.linked.unbound use member
    rw [target, bound number (fixes number place)] at unbound
    cases unbound

/-- Behind a sequence that fixes no place no field leads to the end. -/
theorem place_forward (wired : Wired kept accepts lands code)
    (resolves : ∀ step ∈ steps, step.Resolves labels [])
    (within : ∀ use, accepts use → use.target.index < code.labels.size)
    (permits : Permits accepts code.size labels code)
    (fine : (code.place steps).error = none) (small : (code.place steps).size < 2147483648) :
    Wired kept accepts (fun landing => steps = [] ∧ lands landing) (code.place steps) := by
  rw [place_eq resolves] at fine small ⊢
  apply Wired.shrink _ within
  exact (wired.grow _).placeForward within (permits.extends (.grow code _)) (Nat.le_refl _)
    resolves fine small

end Sequence

end Wired

end Code

end WasmX64
