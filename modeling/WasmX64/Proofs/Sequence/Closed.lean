import WasmX64.Compile.Memory
import WasmX64.Compile.Numeric
import WasmX64.Compile.Variable
import WasmX64.Proofs.Machine.Shapes

/-!
# Where the jumps of a sequence lead

A sequence is closed when its jumps lead to given labels or to places that the sequence
itself fixes, and the codes of its instructions and conditions are declared ones.  All
sequences that instructions are lowered to are closed; most have no jump at all.
-/

namespace WasmX64

/-- A target among given labels, which are jumped to from far only, and places. -/
def Target.Known (labels : List Label) (places : List Nat) (distance : Distance) : Target → Prop
  | .label given => given ∈ labels ∧ distance = .far
  | .inner number => number ∈ places
  | .missing => False

/-- The condition of a jump and the codes of an instruction are declared ones. -/
def Step.Declared : Step → Prop
  | .emit instruction => instruction.Declared
  | .jumpIf condition _ _ => condition.code < 16
  | _ => True

/-- A declared step jumps to given labels and places only and fixes places only. -/
def Step.Resolves (labels : List Label) (places : List Nat) : Step → Prop
  | .emit instruction => instruction.Declared
  | .jump target distance => target.Known labels places distance
  | .jumpIf condition target distance => condition.code < 16 ∧ target.Known labels places distance
  | .bind target => ∃ number ∈ places, target = .inner number
  | .fail _ => True

theorem Instruction.declared_mov (type : ValueType) (dst src : Register) :
    (mov type dst src).Declared := by
  change Option.isSome (if type.isFloat then _ else _) = true
  split
  · rfl
  · rfl

theorem Instruction.declared_shiftCl {op : ShiftOp} (known : op.operation?.isSome = true)
    (type : ValueType) (reg : Register) : (shiftCl op type reg).Declared :=
  Option.isSome_map.trans known

theorem Instruction.declared_setcc {condition : Condition} (known : condition.code < 16)
    (dst : Register) : (setcc condition dst).Declared := by
  change Option.isSome (if _ then _ else _) = true
  rw [if_pos known]
  rfl

namespace Sequence

variable {labels : List Label} {first second steps : List Step}

/-- A declared sequence without jumps and places. -/
def Straight (steps : List Step) : Prop := ∀ step ∈ steps, step.target? = none ∧ step.Declared

/-- A sequence that jumps to given labels or to places that it fixes. -/
def Closed (labels : List Label) (steps : List Step) : Prop :=
  ∃ places, (∀ step ∈ steps, step.Resolves labels places) ∧
    ∀ number ∈ places, Step.bind (.inner number) ∈ steps

theorem Straight.resolves {places : List Nat} (straight : Straight steps) :
    ∀ step ∈ steps, step.Resolves labels places := by
  intro step member
  obtain ⟨free, declared⟩ := straight step member
  cases step with
  | emit instruction => exact declared
  | fail error => trivial
  | jump target distance => cases free
  | jumpIf condition target distance => cases free
  | bind target => cases free

theorem Straight.closed (straight : Straight steps) : Closed labels steps :=
  ⟨[], straight.resolves, (by simp)⟩

theorem straight_nil : Straight [] :=
  fun _ member => absurd member List.not_mem_nil

theorem Straight.append (left : Straight first) (right : Straight second) :
    Straight (first ++ second) := by
  intro step member
  cases List.mem_append.mp member with
  | inl here => exact left step here
  | inr there => exact right step there

theorem Straight.ite {condition : Prop} [Decidable condition] (left : Straight first)
    (right : Straight second) : Straight (if condition then first else second) := by
  split
  · exact left
  · exact right

theorem Straight.emit (straight : Straight steps) {instruction : Instruction}
    (declared : instruction.Declared) : Straight (.emit instruction :: steps) :=
  List.forall_mem_cons.mpr ⟨⟨rfl, declared⟩, straight⟩

section Short

variable {first second third : Instruction}

theorem straight_one (declared : first.Declared) : Straight [.emit first] :=
  straight_nil.emit declared

theorem straight_two (declared : first.Declared ∧ second.Declared) :
    Straight [.emit first, .emit second] :=
  (straight_one declared.2).emit declared.1

theorem straight_three (declared : first.Declared ∧ second.Declared ∧ third.Declared) :
    Straight [.emit first, .emit second, .emit third] :=
  (straight_two declared.2).emit declared.1

end Short

theorem straight_fail (error : CodeError) : Straight [.fail error] := by
  simp [Straight, Step.target?, Step.Declared]

theorem straight_move (type : ValueType) (dst src : Register) : Straight (move type dst src) :=
  straight_nil.ite (straight_one (Instruction.declared_mov _ _ _))

theorem straight_loadRun (type : ValueType) (dst : Register) (bits : Nat) :
    Straight (loadRun type dst bits) :=
  ((straight_one (by rfl)).append (straight_nil.ite (straight_one (by rfl)))).append
    (straight_nil.ite (straight_one (by rfl)))

theorem straight_loadInteger (type : ValueType) (dst : Register) (bits : UInt64) :
    Straight (loadInteger type dst bits) :=
  (straight_one (by rfl)).ite ((straight_one (by rfl)).ite (straight_one (by rfl)))

theorem straight_loadFloat (type word : ValueType) (dst : Register) (bits : UInt64) :
    Straight (loadFloat type word dst bits) :=
  (straight_one (by rfl)).ite ((straight_loadRun type dst _).ite (straight_two ⟨by rfl, by rfl⟩))

theorem straight_loadConstant (type : ValueType) (dst : Register) (bits : UInt64) :
    Straight (loadConstant type dst bits) := by
  cases type with
  | i32 => exact straight_loadInteger _ dst bits
  | i64 => exact straight_loadInteger _ dst bits
  | f32 => exact straight_loadFloat _ _ dst _
  | f64 => exact straight_loadFloat _ _ dst _
  | unknown code => exact straight_fail _

theorem straight_spill (type : ValueType) (index : Int) (src : Register) :
    Straight (spill type index src) :=
  (straight_one (by rfl)).ite (straight_one (by rfl))

theorem straight_spillConstant (type : ValueType) (index : Int) (bits : UInt64) :
    Straight (spillConstant type index bits) := by
  cases type with
  | i32 => exact straight_one (by rfl)
  | i64 => exact (straight_one (by rfl)).ite (straight_two ⟨by rfl, by rfl⟩)
  | f32 => exact straight_fail _
  | f64 => exact straight_fail _
  | unknown code => exact straight_fail _

theorem straight_loadFrom (type : ValueType) (dst : Register) (address : Address) :
    Straight (loadFrom type dst address) :=
  (straight_one (by rfl)).ite (straight_one (by rfl))

theorem straight_memoryAddress (base index : Register) (offset : UInt32) :
    Straight (memoryAddress base index offset).2 := by
  unfold memoryAddress
  split
  · split
    · exact straight_nil
    · exact straight_nil
  · exact (straight_one (by rfl)).append (straight_nil.ite (straight_one (by rfl)))

theorem straight_read (type : ValueType) (bytes : UInt8) (signed : Bool) (dst : Register)
    (address : Address) : Straight (read type bytes signed dst address) :=
  have either {condition : Prop} [Decidable condition] {load other : Instruction}
      (declared : load.Declared ∧ other.Declared) :
      Straight (if condition then [.emit load] else [.emit other]) :=
    (straight_one declared.1).ite (straight_one declared.2)
  (straight_one (by rfl)).ite ((either ⟨by rfl, by rfl⟩).ite ((either ⟨by rfl, by rfl⟩).ite
    ((either ⟨by rfl, by rfl⟩).ite ((straight_one (by rfl)).ite (straight_fail _)))))

theorem straight_write (type : ValueType) (bytes : UInt8) (address : Address)
    (src : Register) : Straight (write type bytes address src) :=
  (straight_one (by rfl)).ite ((straight_one (by rfl)).ite ((straight_one (by rfl)).ite
    ((straight_one (by rfl)).ite ((straight_one (by rfl)).ite (straight_fail _)))))

theorem straight_pushValue (type : ValueType) (src : Register) :
    Straight (pushValue type src) :=
  (straight_two ⟨by rfl, by rfl⟩).ite (straight_one (by rfl))

theorem straight_epilogue : Straight epilogue :=
  straight_three ⟨by rfl, by rfl, by rfl⟩

theorem straight_prologue : Straight prologue :=
  straight_three ⟨by rfl, by rfl, by rfl⟩

theorem straight_setCondition (type : ValueType) {condition : Condition}
    (known : condition.code < 16) (dst left right : Register) :
    Straight (setCondition type condition dst left right) :=
  straight_three ⟨rfl, Instruction.declared_setcc known dst, rfl⟩

theorem straight_hardwareDivision (type : ValueType) (signed : Bool) (divisor : Register) :
    Straight (hardwareDivision type signed divisor) :=
  (straight_two ⟨by split <;> rfl, by rfl⟩).ite (straight_two ⟨by rfl, by rfl⟩)

theorem straight_shift {op : ShiftOp} (known : op.operation?.isSome = true) (type : ValueType)
    (dst src amount : Register) (live : Bool) :
    Straight (shift op type dst src amount live) := by
  have fetch : Straight (if amount = .rcx then [] else [Step.emit (.mov .i64 .rcx amount)]) :=
    straight_nil.ite (straight_one (by rfl))
  unfold shift
  dsimp only
  split
  · exact ((straight_move _ _ _).append fetch).append (straight_two
      ⟨Instruction.declared_shiftCl known _ _, Instruction.declared_mov _ _ _⟩)
  · exact (((((straight_one (by rfl)).ite straight_nil).append fetch).append (straight_move _ _ _)).append
      (straight_one (Instruction.declared_shiftCl known _ _))).append
      ((straight_one (by rfl)).ite straight_nil)

theorem straight_commutative (op : Register → Register → Instruction) (type : ValueType)
    (dst left right : Register)
    (declared : ∀ dst src, (op dst src).Declared) :
    Straight (commutative op type dst left right) :=
  (straight_one (declared _ _)).ite
    ((straight_move _ _ _).append (straight_one (declared _ _)))

theorem straight_ordered (op : SseOp) (type : ValueType) (dst left right : Register)
    (declared : ∀ src, (Instruction.sse op type dst src).Declared) :
    Straight (ordered op type dst left right) :=
  (((straight_move _ _ _).append (straight_move _ _ _)).append (straight_one (declared _))).ite
    ((straight_move _ _ _).append (straight_one (declared _)))

theorem straight_addition (type : ValueType) (dst left right : Register) :
    Straight (addition type dst left right) :=
  (straight_one (by rfl)).ite ((straight_one (by rfl)).ite (straight_one (by rfl)))

theorem straight_subtraction (type : ValueType) (dst left right : Register) :
    Straight (subtraction type dst left right) :=
  (straight_two ⟨by rfl, by rfl⟩).ite ((straight_move _ _ _).append (straight_one (by rfl)))

theorem straight_absOrNeg (type : ValueType) (negate : Bool) (dst src : Register) :
    Straight (absOrNeg type negate dst src) :=
  straight_three ⟨rfl, rfl, by cases negate <;> rfl⟩

theorem straight_copysign (type : ValueType) (dst left right : Register) :
    Straight (copysign type dst left right) :=
  (straight_loadConstant _ _ _).append (((straight_three
    ⟨by rfl, by rfl, Instruction.declared_mov _ _ _⟩).emit (by rfl)).emit (Instruction.declared_mov _ _ _))

section Jumps

theorem resolves_append {places : List Nat}
    (left : ∀ step ∈ first, step.Resolves labels places)
    (right : ∀ step ∈ second, step.Resolves labels places) :
    ∀ step ∈ first ++ second, step.Resolves labels places := by
  intro step member
  cases List.mem_append.mp member with
  | inl here => exact left step here
  | inr there => exact right step there

theorem closed_scanOr (width : Int64) (op : ScanOp) (type : ValueType) (dst src : Register)
    {adjust : List Step} (straight : Straight adjust) :
    Closed labels (scanOr width op type dst src adjust) := by
  refine ⟨[0, 1], ?_, ?_⟩
  · apply resolves_append
    · apply resolves_append
      · simp +decide [Step.Resolves, Target.Known]
        exact ⟨rfl, rfl, rfl⟩
      · exact straight.resolves
    · simp [Step.Resolves]
  · simp [scanOr]

theorem closed_leadingZeros (type : ValueType) (dst src : Register) :
    Closed labels (leadingZeros type dst src) := by
  unfold leadingZeros
  split
  · exact closed_scanOr _ _ _ _ _ (straight_one (by rfl))
  · exact closed_scanOr _ _ _ _ _ (straight_one (by rfl))

theorem closed_trailingZeroCount (type : ValueType) (dst src : Register) :
    Closed labels (trailingZeroCount type dst src) :=
  closed_scanOr _ _ _ _ _ straight_nil

theorem closed_floatSetCondition (type : ValueType) {condition : Condition}
    (known : condition.code < 16) (dst left right : Register) :
    Closed labels (floatSetCondition type condition dst left right) := by
  refine ⟨[0, 1], ?_, ?_⟩
  · unfold floatSetCondition
    split
    · simp +decide [Step.Resolves, Target.Known]
      exact ⟨rfl, rfl, Instruction.declared_setcc known dst, rfl⟩
    · simp +decide [Step.Resolves, Target.Known]
      exact ⟨rfl, rfl, Instruction.declared_setcc known dst, rfl⟩
  · simp [floatSetCondition]

theorem closed_minMax (type : ValueType) (minimum : Bool) (dst left right : Register) :
    Closed labels (minMax type minimum dst left right) := by
  refine ⟨[0, 1, 2, 3], ?_, ?_⟩
  · unfold minMax
    apply resolves_append
    · apply resolves_append
      · apply resolves_append
        · apply resolves_append
          · simp +decide [Step.Resolves, Target.Known]
            exact ⟨rfl, rfl, rfl, rfl, rfl⟩
          · exact (straight_move _ _ _).resolves
        · simp [Step.Resolves, Target.Known]
      · exact (straight_move _ _ _).resolves
    · simp [Step.Resolves]
  · simp [minMax]

theorem resolves_compareAndJump {label : Label} {condition : Condition} {places : List Nat}
    (known : condition.code < 16) (type : ValueType) (left right : Register)
    (member : label ∈ labels) :
    ∀ step ∈ compareAndJump condition (.label label) type left right,
      step.Resolves labels places := by
  unfold compareAndJump
  split
  · simp [Step.Resolves, Target.Known, member, known]
    rfl
  · simp [Step.Resolves, Target.Known, member, known]
    rfl

theorem closed_compareAndJump {label : Label} {condition : Condition}
    (known : condition.code < 16) (type : ValueType) (left right : Register)
    (member : label ∈ labels) :
    Closed labels (compareAndJump condition (.label label) type left right) :=
  ⟨[], resolves_compareAndJump known type left right member, by simp⟩

/-- The inner places of a division. -/
def divisionPlaces (part : DivisionPart) : Bool → List Nat
  | false => []
  | true =>
    match part with
    | .quotient => [1]
    | .remainder => [0, 1]

theorem closed_division (part : DivisionPart) (type : ValueType) (signed : Bool)
    (dst left right : Register) {divideByZero overflow : Label} (zero : divideByZero ∈ labels)
    (overflows : overflow ∈ labels) :
    Closed labels (division part type signed dst left right divideByZero overflow) := by
  unfold division
  split
  · exact (straight_fail _).closed
  split
  · exact (straight_fail _).closed
  refine ⟨divisionPlaces part signed, ?_, ?_⟩
  · apply resolves_append
    · apply resolves_append
      · apply resolves_append
        · apply resolves_append
          · apply resolves_append
            · apply resolves_append
              · exact ((straight_one (Instruction.declared_mov _ _ _)).ite straight_nil).resolves
              · simp +decide [Step.Resolves, Target.Known, zero]
                rfl
            · cases signed with
              | false => exact straight_nil.resolves
              | true =>
                cases part with
                | quotient =>
                  simp +decide [signedDivisionChecks, divisionPlaces, Step.Resolves, Target.Known,
                    overflows]
                  exact ⟨rfl, rfl⟩
                | remainder =>
                  simp +decide [signedDivisionChecks, divisionPlaces, Step.Resolves, Target.Known]
                  exact ⟨rfl, rfl⟩
          · exact (straight_move _ _ _).resolves
        · exact (straight_hardwareDivision _ _ _).resolves
      · cases part with
        | quotient => exact (straight_move _ _ _).resolves
        | remainder => exact (straight_move _ _ _).resolves
    · cases signed with
      | false => exact straight_nil.resolves
      | true =>
        cases part with
        | quotient => exact straight_nil.resolves
        | remainder => simp [divisionPlaces, Step.Resolves]
  · cases signed with
    | false => simp [divisionPlaces]
    | true =>
      cases part with
      | quotient => simp [signedDivisionChecks, divisionPlaces]
      | remainder => simp [signedDivisionChecks, divisionPlaces]

theorem closed_truncate (target source : ValueType) (signed : Bool) (dst src : Register)
    {trap : Label} (member : trap ∈ labels) :
    Closed labels (truncate target source signed dst src (.label trap)) := by
  unfold truncate
  split
  · refine ⟨[0], ?_, ?_⟩
    · unfold truncateUnsigned64
      apply resolves_append
      · apply resolves_append
        · simp +decide [Step.Resolves, Target.Known]
          exact ⟨rfl, rfl⟩
        · exact (straight_loadConstant _ _ _).resolves
      · simp +decide [Step.Resolves, Target.Known, member]
        exact ⟨rfl, rfl, rfl, rfl, rfl⟩
    · simp [truncateUnsigned64]
  · refine ⟨[], ?_, (by simp)⟩
    apply resolves_append
    · apply Straight.resolves
      exact (straight_one (by rfl)).append
        ((straight_two ⟨by rfl, by rfl⟩).ite ((straight_three ⟨by rfl, by rfl, by rfl⟩).ite
          (straight_two ⟨by rfl, by rfl⟩)))
    · simp +decide [Step.Resolves, Target.Known, member]
      rfl

theorem closed_convertUnsigned64 (type : ValueType) (dst src : Register) :
    Closed labels (convertUnsigned64 type dst src) := by
  refine ⟨[0, 1], ?_, ?_⟩
  · simp +decide [convertUnsigned64, Step.Resolves, Target.Known]
    exact ⟨rfl, rfl, rfl, rfl, rfl, rfl, rfl⟩
  · simp [convertUnsigned64]

theorem closed_conversion (op : Conversion) (dst src : Register) {trap : Target}
    (known : ∀ result source signed, op = .truncate result source signed →
      ∃ label ∈ labels, trap = .label label) :
    Closed labels (conversion op dst src trap) := by
  unfold conversion
  split
  case h_2 result source signed =>
    obtain ⟨label, member, rfl⟩ := known result source signed rfl
    exact closed_truncate _ _ _ _ _ member
  case h_8 => exact closed_convertUnsigned64 _ _ _
  case h_6 => exact (straight_two ⟨by rfl, by rfl⟩).closed
  all_goals exact (straight_one (by rfl)).closed

theorem closed_intUnary (op : IntUnary) (type : ValueType) (dst src : Register) :
    Closed labels (op.steps type dst src) := by
  cases op with
  | clz => exact closed_leadingZeros _ _ _
  | ctz => exact closed_trailingZeroCount _ _ _
  | popcnt => exact (straight_one (by rfl)).closed

theorem straight_floatUnary (op : FloatUnary) (type : ValueType) (dst src : Register) :
    Straight (op.steps type dst src) := by
  cases op with
  | abs => exact straight_absOrNeg _ _ _ _
  | neg => exact straight_absOrNeg _ _ _ _
  | _ => exact straight_one (by rfl)

theorem closed_floatBinary (op : FloatBinary) (type : ValueType) (dst left right : Register) :
    Closed labels (op.steps type dst left right) := by
  cases op with
  | add => exact (straight_commutative _ _ _ _ _ fun _ _ => by rfl).closed
  | mul => exact (straight_commutative _ _ _ _ _ fun _ _ => by rfl).closed
  | sub => exact (straight_ordered _ _ _ _ _ fun _ => by rfl).closed
  | div => exact (straight_ordered _ _ _ _ _ fun _ => by rfl).closed
  | min => exact closed_minMax _ _ _ _ _
  | max => exact closed_minMax _ _ _ _ _
  | copysign => exact (straight_copysign _ _ _ _).closed

end Jumps

end Sequence

end WasmX64
