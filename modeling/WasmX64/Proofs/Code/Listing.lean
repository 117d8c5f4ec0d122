import WasmX64.Proofs.Code.Jump
import WasmX64.Proofs.Machine.Shapes

/-!
# Listings

Finished code reads as instructions and jumps, each right behind the one before it.
`Listed` is such a reading, latest item first.  Instructions are known by their encoding and
have declared codes, so that their bytes are taken for no other item; of a jump the opcode
stands in the code and the rest is its displacement, so filling in displacements keeps a
listing valid.  `Assembled` joins a listing with the fields that wait
for labels and those that lead to a position: every jump is among them, and every position
is the start of an item or the end of the code.
-/

namespace WasmX64

/-- What code is made of. -/
inductive Item where
  | plain (instruction : Instruction)
  | jump (condition : Option Condition) (distance : Distance)
deriving DecidableEq, Repr

/-- The bytes of a jump before its displacement. -/
def Item.jumpOpcode : Option Condition → Distance → List UInt8
  | none => Code.opcode [0xeb] [0xe9]
  | some condition => Code.opcode [0x70 ||| condition.code] [0x0f, 0x80 ||| condition.code]

/-- An item at an offset of the code. -/
structure Placed where
  offset : Nat
  item : Item
deriving DecidableEq, Repr

namespace Placed

/-- The displacement of a jump. -/
def field? (placed : Placed) : Option Field :=
  match placed.item with
  | .plain _ => none
  | .jump condition distance =>
    some ⟨distance, placed.offset + (Item.jumpOpcode condition distance).length⟩

/-- The code has an item at its offset, up to another offset. -/
inductive Stands (code : Code) : Placed → Nat → Prop
  | plain {offset : Nat} {instruction : Instruction} {bytes : List UInt8}
      (declared : instruction.Declared) (encodes : instruction.encode = .ok bytes)
      (holds : code.Holds offset bytes) :
      Stands code ⟨offset, .plain instruction⟩ (offset + bytes.length)
  | jump {offset : Nat} {condition : Option Condition} {distance : Distance}
      (declared : ∀ given ∈ condition, given.code < 16)
      (holds : code.Holds offset (Item.jumpOpcode condition distance)) :
      Stands code ⟨offset, .jump condition distance⟩
        (offset + (Item.jumpOpcode condition distance).length + distance.width)

end Placed

/-- Items one behind the other from the start of the code up to an offset, latest first. -/
inductive Code.Listed (code : Code) : List Placed → Nat → Prop
  | nil : Listed code [] 0
  | cons {placed : Placed} {rest : List Placed} {finish : Nat}
      (before : Listed code rest placed.offset) (stands : placed.Stands code finish) :
      Listed code (placed :: rest) finish

def Starts (listing : List Placed) (position : Nat) : Prop :=
  ∃ placed ∈ listing, placed.offset = position

theorem Starts.cons {listing : List Placed} {position : Nat} (starts : Starts listing position)
    (placed : Placed) : Starts (placed :: listing) position := by
  obtain ⟨other, member, same⟩ := starts
  exact ⟨other, List.mem_cons_of_mem _ member, same⟩

section Length

/-- An encoding, if there is one, has a byte. -/
def Fills (result : Except CodeError (List UInt8)) : Prop := result ≠ .ok []

variable {α : Type}

theorem fills_bind {first : Except CodeError α} {next : α → Except CodeError (List UInt8)}
    (fills : ∀ value, Fills (next value)) : Fills (first >>= next) := by
  cases first with
  | error error => exact fun same => nomatch same
  | ok value => exact fills value

theorem fills_ok {bytes : List UInt8} (some : bytes ≠ []) : Fills (.ok bytes) :=
  fun same => some (Except.ok.inj same)

theorem fills_pure {bytes : List UInt8} (some : bytes ≠ []) : Fills (pure bytes) :=
  fills_ok some

theorem OpcodeForm.bytes_ne_nil (form : OpcodeForm) (reg : UInt8) (operand : RmOperand) :
    form.bytes reg operand ≠ [] := by
  simp [OpcodeForm.bytes, RmOperand.bytes]

@[simp] theorem OpcodeForm.withReg_ne_nil (form : OpcodeForm) (reg : UInt8) (rm : Register) :
    form.withReg reg rm ≠ [] :=
  form.bytes_ne_nil reg _

theorem fills_withAddress (form : OpcodeForm) (reg : UInt8) (address : Address) :
    Fills (form.withAddress reg address) := by
  unfold OpcodeForm.withAddress
  split
  · exact fills_ok (form.bytes_ne_nil reg _)
  · exact fun same => nomatch same

@[simp] theorem bytes32_ne_nil (word : UInt32) : bytes32 word ≠ [] :=
  List.cons_ne_nil _ _

@[simp] theorem bytes64_ne_nil (word : UInt64) : bytes64 word ≠ [] :=
  List.append_ne_nil_of_left_ne_nil (bytes32_ne_nil _) _

@[simp] theorem shortForm_ne_nil (wide : Bool) (opcode : UInt8) (reg : Register) :
    Instruction.shortForm wide opcode reg ≠ [] := by
  simp [Instruction.shortForm]

theorem fills_withImm (imm : Int32) (short long : Except CodeError (List UInt8)) :
    Fills (Instruction.withImm imm short long) := by
  unfold Instruction.withImm
  split
  · exact fills_bind fun _ => fills_pure (by simp)
  · exact fills_bind fun _ => fills_pure (by simp)

@[simp] theorem moveConstant_ne_nil (dst : Register) (imm : Int64) :
    Instruction.moveConstant dst imm ≠ [] := by
  unfold Instruction.moveConstant
  split
  · simp
  · split
    · simp
    · simp

/-- Every instruction with an encoding takes a byte. -/
theorem Instruction.encode_fills (instruction : Instruction) : Fills instruction.encode := by
  cases instruction
  case mov type dst src =>
    rw [encode]
    split
    · exact fills_bind fun _ => fills_pure (by simp)
    · exact fills_bind fun _ => fills_bind fun _ => fills_pure (by simp)
  case movImm type dst imm =>
    refine fills_bind fun _ => fills_bind fun _ => ?_
    split
    · exact fills_pure (by simp)
    · exact fills_pure (by simp)
  all_goals
    rw [encode]
    repeat' first
      | exact fills_withAddress _ _ _
      | exact fills_withImm _ _ _
      | exact fills_pure (by simp)
      | exact fills_ok (by simp)
      | refine fills_bind fun _ => ?_

end Length
namespace Placed

theorem offset_lt {code : Code} {placed : Placed} {finish : Nat}
    (stands : placed.Stands code finish) : placed.offset < finish := by
  cases stands with
  | @plain offset instruction bytes _ encodes holds =>
    have some : bytes ≠ [] := by
      intro none
      rw [none] at encodes
      exact instruction.encode_fills encodes
    have := List.length_pos_iff.mpr some
    dsimp only
    omega
  | @jump offset condition distance _ holds =>
    have := distance.width_pos
    dsimp only
    omega

theorem field_inside {code : Code} {placed : Placed} {finish : Nat} {field : Field}
    (stands : placed.Stands code finish) (jumps : placed.field? = some field) :
    placed.offset ≤ field.site ∧ field.finish = finish := by
  cases stands with
  | plain _ encodes holds => cases jumps
  | jump _ holds =>
    cases jumps
    exact ⟨Nat.le_add_right _ _, rfl⟩

theorem Stands.congr {code after : Code} {placed : Placed} {finish : Nat}
    (stands : placed.Stands code finish)
    (same : ∀ offset, placed.offset ≤ offset → offset < finish →
      after.bytes[offset]? = code.bytes[offset]?) : placed.Stands after finish := by
  have moves : ∀ bytes, code.Holds placed.offset bytes →
      placed.offset + bytes.length ≤ finish → after.Holds placed.offset bytes := by
    intro bytes holds short index byte found
    have inside := (List.getElem?_eq_some_iff.mp found).1
    rw [same _ (Nat.le_add_right _ _) (by omega)]
    exact holds index byte found
  cases stands with
  | plain declared encodes holds => exact .plain declared encodes (moves _ holds (Nat.le_refl _))
  | jump declared holds => exact .jump declared (moves _ holds (by dsimp only; omega))

/-- Where an item ends is known from the item. -/
theorem Stands.unique {code after : Code} {placed : Placed} {first second : Nat}
    (one : placed.Stands code first) (other : placed.Stands after second) : first = second := by
  cases one with
  | plain _ encodes holds =>
    cases other with
    | plain _ again _ =>
      rw [encodes] at again
      cases again
      rfl
  | jump =>
    cases other with
    | jump => rfl

end Placed

/-- The number of bytes of an instruction. -/
def Instruction.length (instruction : Instruction) : Nat :=
  (instruction.encode.toOption.getD []).length

theorem Instruction.length_eq {instruction : Instruction} {bytes : List UInt8}
    (encodes : instruction.encode = .ok bytes) : instruction.length = bytes.length := by
  rw [length, encodes]
  rfl

theorem Instruction.encodeAll_cons_ok {instruction : Instruction} {rest : List Instruction}
    {bytes : List UInt8} (encodes : encodeAll (instruction :: rest) = .ok bytes) :
    ∃ first others, instruction.encode = .ok first ∧ encodeAll rest = .ok others ∧
      bytes = first ++ others := by
  rw [encodeAll] at encodes
  split at encodes
  case h_1 first others encoded further =>
    cases encodes
    exact ⟨first, others, encoded, further, rfl⟩
  case h_2 => cases encodes
  case h_3 => cases encodes

def Placed.row (offset : Nat) : List Instruction → List Placed
  | [] => []
  | instruction :: rest =>
    ⟨offset, .plain instruction⟩ :: row (offset + instruction.length) rest

namespace Code

namespace Listed

variable {code after : Code} {listing : List Placed} {finish : Nat}

theorem mem_stands (listed : code.Listed listing finish) {placed : Placed}
    (member : placed ∈ listing) : ∃ last, placed.Stands code last ∧ last ≤ finish := by
  induction listed with
  | nil => cases member
  | @cons head rest finish before stands ih =>
    cases List.mem_cons.mp member with
    | inl here =>
      subst here
      exact ⟨finish, stands, Nat.le_refl _⟩
    | inr there =>
      obtain ⟨last, found, below⟩ := ih there
      exact ⟨last, found, Nat.le_trans below (Nat.le_of_lt (Placed.offset_lt stands))⟩

theorem field_le (listed : code.Listed listing finish) {placed : Placed} {field : Field}
    (member : placed ∈ listing) (jumps : placed.field? = some field) : field.finish ≤ finish := by
  obtain ⟨last, stands, below⟩ := listed.mem_stands member
  rw [(Placed.field_inside stands jumps).2]
  exact below

/-- Items do not overlap. -/
theorem apart (listed : code.Listed listing finish) {one other : Placed} {first second : Nat}
    (here : one ∈ listing) (there : other ∈ listing) (different : one ≠ other)
    (ends : one.Stands code first) (stops : other.Stands code second) :
    first ≤ other.offset ∨ second ≤ one.offset := by
  induction listed with
  | nil => cases here
  | @cons head rest finish before stands ih =>
    cases List.mem_cons.mp here with
    | inl latest =>
      subst latest
      have earlier := (List.mem_cons.mp there).resolve_left (Ne.symm different)
      obtain ⟨last, stood, below⟩ := before.mem_stands earlier
      exact .inr (stops.unique stood ▸ below)
    | inr earlier =>
      cases List.mem_cons.mp there with
      | inl latest =>
        subst latest
        obtain ⟨last, stood, below⟩ := before.mem_stands earlier
        exact .inl (ends.unique stood ▸ below)
      | inr further => exact ih earlier further

/-- Bytes outside all displacements decide whether a listing is valid. -/
theorem congr (listed : code.Listed listing finish)
    (same : ∀ offset < finish,
      (∀ placed ∈ listing, ∀ field, placed.field? = some field → ¬ field.Covers offset) →
      after.bytes[offset]? = code.bytes[offset]?) :
    after.Listed listing finish := by
  induction listed with
  | nil => exact .nil
  | @cons head rest finish before stands ih =>
    have earlier : ∀ placed ∈ rest, ∀ field, placed.field? = some field →
        field.finish ≤ head.offset := by
      intro placed member field jumps
      exact before.field_le member jumps
    have starts := Placed.offset_lt stands
    have moves : ∀ bytes, code.Holds head.offset bytes →
        head.offset + bytes.length ≤ finish →
        (∀ index < bytes.length, ∀ field, head.field? = some field →
          ¬ field.Covers (head.offset + index)) →
        after.Holds head.offset bytes := by
      intro bytes holds short outside index byte found
      have inside := (List.getElem?_eq_some_iff.mp found).1
      rw [same (head.offset + index) (by omega)]
      · exact holds index byte found
      · intro placed member field jumps covers
        cases List.mem_cons.mp member with
        | inl here =>
          subst here
          exact outside index inside field jumps covers
        | inr there =>
          have below := earlier placed there field jumps
          have above := covers.2
          omega
    constructor
    · apply ih
      intro offset below outside
      apply same offset (by omega)
      intro placed member field jumps covers
      cases List.mem_cons.mp member with
      | inl here =>
        subst here
        have above := (Placed.field_inside stands jumps).1
        have reached := covers.1
        omega
      | inr there => exact outside placed there field jumps covers
    · cases stands with
      | plain declared encodes holds =>
        refine .plain declared encodes (moves _ holds (Nat.le_refl _) ?_)
        intro index inside field jumps
        cases jumps
      | jump declared holds =>
        refine .jump declared (moves _ holds (by dsimp only; omega) ?_)
        intro index inside field jumps covers
        cases jumps
        have reached := covers.1
        dsimp only at reached
        omega

theorem replace (listed : code.Listed listing finish) {placed other : Placed} {last : Nat}
    (member : placed ∈ listing) (stands : placed.Stands code last)
    (written : other.Stands after last) (offset : other.offset = placed.offset)
    (same : ∀ offset, offset < placed.offset ∨ last ≤ offset →
      after.bytes[offset]? = code.bytes[offset]?) :
    after.Listed (listing.map fun item => if item = placed then other else item) finish := by
  induction listed with
  | nil => cases member
  | @cons head rest finish before here ih =>
    rw [List.map_cons]
    by_cases found : head = placed
    · subst found
      have ends := stands.unique here
      have earlier : rest.map (fun item => if item = head then other else item) = rest := by
        rw [List.map_congr_left, List.map_id]
        intro item among
        obtain ⟨stop, stood, below⟩ := before.mem_stands among
        have starts := Placed.offset_lt stood
        apply if_neg
        rintro rfl
        omega
      rw [if_pos rfl, earlier]
      subst ends
      refine .cons ?_ written
      rw [offset]
      apply before.congr
      intro place inside _
      exact same place (.inl inside)
    · have there : placed ∈ rest := (List.mem_cons.mp member).resolve_left (Ne.symm found)
      obtain ⟨stop, stood, below⟩ := before.mem_stands there
      have ends := stands.unique stood
      rw [if_neg found]
      refine .cons (ih there) (here.congr ?_)
      intro place above _
      exact same place (.inr (by omega))

theorem append (listed : code.Listed listing code.size) (bytes : List UInt8) :
    (code.append bytes).Listed listing code.size := by
  apply listed.congr
  intro offset inside _
  exact getElem?_append_left inside

theorem holds_row (listed : code.Listed listing finish) {offset : Nat}
    {instructions : List Instruction} {bytes : List UInt8}
    (encodes : Instruction.encodeAll instructions = .ok bytes)
    (among : ∀ placed ∈ Placed.row offset instructions, placed ∈ listing) :
    code.Holds offset bytes := by
  induction instructions generalizing offset bytes with
  | nil =>
    cases encodes
    exact fun index byte found => nomatch found
  | cons instruction rest ih =>
    obtain ⟨first, others, encoded, further, rfl⟩ := Instruction.encodeAll_cons_ok encodes
    obtain ⟨last, stands, _⟩ := listed.mem_stands (among _ List.mem_cons_self)
    cases stands with
    | plain _ again holds =>
      rw [encoded] at again
      cases again
      apply holds_append_iff.mpr
      refine ⟨holds, ih further ?_⟩
      intro placed member
      apply among placed
      rw [Placed.row, Instruction.length_eq encoded]
      exact List.mem_cons_of_mem _ member

end Listed

/-- A buffer read as a listing, with the fields that wait for labels and those that lead to
a position. -/
structure Assembled (code : Code) (listing : List Placed) (pending : List Use)
    (settled : List Landing) : Prop where
  linked : code.Linked pending settled
  listed : code.Listed listing code.size
  waits : ∀ use ∈ pending, ∃ placed ∈ listing, placed.field? = some use.toField
  jumps : ∀ placed ∈ listing, ∀ field, placed.field? = some field →
    (∃ use ∈ pending, use.toField = field) ∨ ∃ landing ∈ settled, landing.toField = field
  leads : ∀ landing ∈ settled, landing.position = code.size ∨ Starts listing landing.position
  fixed : ∀ label position, (code.label label).state = .bound position →
    position = code.size ∨ Starts listing position

theorem assembled_empty : Assembled {} [] [] [] := by
  have fresh : ∀ target, ({} : Code).label target = {} := by simp [Code.label]
  have linked : ({} : Code).Linked [] [] := by
    constructor
    · rfl
    · exact .nil
    · simp
    · simp
    · simp
    · intro distance target
      rw [fresh]
      cases distance with
      | far => rfl
      | near => rfl
    · intro distance target
      trivial
    · simp
    · simp
    · intro target position bound
      rw [fresh] at bound
      cases bound
  refine ⟨linked, .nil, by simp, by simp, by simp, ?_⟩
  intro label position bound
  rw [fresh] at bound
  cases bound

namespace Assembled

variable {code after : Code} {listing : List Placed} {pending : List Use}
  {settled : List Landing}

theorem starts_next {position : Nat} (item : Item)
    (known : position = code.size ∨ Starts listing position) :
    Starts (⟨code.size, item⟩ :: listing) position := by
  cases known with
  | inl here => exact ⟨_, List.mem_cons_self, here.symm⟩
  | inr there => exact there.cons _

theorem emit (assembled : Assembled code listing pending settled) {instruction : Instruction}
    {bytes : List UInt8} (declared : instruction.Declared)
    (encodes : instruction.encode = .ok bytes) :
    Assembled (code.append bytes) (⟨code.size, .plain instruction⟩ :: listing) pending
      settled := by
  have sound := assembled.linked.sound
  constructor
  · exact assembled.linked.append bytes
  · rw [size_append sound]
    exact .cons (assembled.listed.append bytes) (.plain declared encodes (holds_append sound))
  · intro use member
    obtain ⟨placed, found, jumps⟩ := assembled.waits use member
    exact ⟨placed, List.mem_cons_of_mem _ found, jumps⟩
  · intro placed member field jumps
    cases List.mem_cons.mp member with
    | inl here =>
      subst here
      cases jumps
    | inr there => exact assembled.jumps placed there field jumps
  · intro landing member
    exact .inr (starts_next _ (assembled.leads landing member))
  · intro label position bound
    rw [Code.label, labels_append] at bound
    exact .inr (starts_next _ (assembled.fixed label position bound))

section Jump

variable {target : Label} {distance width : Distance} {condition : Option Condition}
  {tail : List UInt8}

theorem opcode_jumpOpcode (condition : Option Condition) (width : Distance) :
    opcode (Item.jumpOpcode condition .near) (Item.jumpOpcode condition .far) width =
      Item.jumpOpcode condition width := by
  cases width with
  | near => rfl
  | far => rfl

theorem listed_jump (assembled : Assembled code listing pending settled)
    (declared : ∀ given ∈ condition, given.code < 16)
    (appends : after.bytes = (code.append (Item.jumpOpcode condition width ++ tail)).bytes)
    (length : tail.length = width.width) :
    after.Listed (⟨code.size, .jump condition width⟩ :: listing) after.size := by
  have sound := assembled.linked.sound
  have size : after.size =
      code.size + (Item.jumpOpcode condition width).length + width.width := by
    rw [Code.size, appends, ← Code.size, size_append sound, List.length_append, length,
      Nat.add_assoc]
  rw [size]
  constructor
  · apply assembled.listed.congr
    intro offset inside _
    rw [appends]
    exact getElem?_append_left inside
  · apply Placed.Stands.jump declared
    intro index byte found
    rw [appends]
    exact (holds_append_iff.mp (holds_append sound)).1 index byte found

/-- A jump that waits fixes no label. -/
theorem bound_link {bytes : List UInt8} (known : target.index < code.labels.size)
    (unbound : ((code.append bytes).label target).isBound = false) {label : Label}
    {position : Nat}
    (bound : (((code.append bytes).link target distance).label label).state = .bound position) :
    (code.label label).state = .bound position := by
  rw [Code.link, label_setLabel _ (by rw [labels_append, labels_append]; exact known)] at bound
  split at bound
  · have still := LabelInfo.isBound_use _ (code.append bytes).size distance unbound
    rw [LabelInfo.isBound, bound] at still
    cases still
  · simp only [Code.label, labels_append] at bound ⊢
    exact bound

theorem wait (assembled : Assembled code listing pending settled)
    (declared : ∀ given ∈ condition, given.code < 16)
    (known : target.index < code.labels.size)
    (fine : ((code.append (Item.jumpOpcode condition distance)).await target distance).error =
      none)
    (small : ((code.append (Item.jumpOpcode condition distance)).await target distance).size <
      2147483648) :
    Assembled ((code.append (Item.jumpOpcode condition distance)).await target distance)
      (⟨code.size, .jump condition distance⟩ :: listing)
      (⟨⟨distance, code.size + (Item.jumpOpcode condition distance).length⟩, target⟩ :: pending)
      settled := by
  obtain ⟨unbound, _, same⟩ := await_fine fine
  have linked := (assembled.linked.await known fine small).2
  rw [same] at linked ⊢
  have appends : ((code.append (Item.jumpOpcode condition distance)).link target distance).bytes =
      (code.append (Item.jumpOpcode condition distance ++ distance.bytes
        ((code.append (Item.jumpOpcode condition distance)).reference target distance))).bytes := by
    rw [← append_append]
    rfl
  constructor
  · exact linked
  · exact assembled.listed_jump declared appends (distance.length_bytes _)
  · intro use member
    cases List.mem_cons.mp member with
    | inl here =>
      subst here
      exact ⟨_, List.mem_cons_self, rfl⟩
    | inr there =>
      obtain ⟨placed, found, jumps⟩ := assembled.waits use there
      exact ⟨placed, List.mem_cons_of_mem _ found, jumps⟩
  · intro placed member field jumps
    cases List.mem_cons.mp member with
    | inl here =>
      subst here
      cases jumps
      exact .inl ⟨_, List.mem_cons_self, rfl⟩
    | inr there =>
      apply (assembled.jumps placed there field jumps).imp_left
      rintro ⟨use, waiting, same⟩
      exact ⟨use, List.mem_cons_of_mem _ waiting, same⟩
  · intro landing member
    exact .inr (starts_next _ (assembled.leads landing member))
  · intro label position bound
    exact .inr (starts_next _ (assembled.fixed label position (bound_link known unbound bound)))

theorem land (assembled : Assembled code listing pending settled)
    (declared : ∀ given ∈ condition, given.code < 16) {position : Nat}
    (bound : (code.label target).state = .bound position)
    (linked : (code.land (Item.jumpOpcode condition width) width position).Linked pending
      (⟨⟨width, code.size + (Item.jumpOpcode condition width).length⟩, position⟩ :: settled)) :
    Assembled (code.land (Item.jumpOpcode condition width) width position)
      (⟨code.size, .jump condition width⟩ :: listing) pending
      (⟨⟨width, code.size + (Item.jumpOpcode condition width).length⟩, position⟩ ::
        settled) := by
  constructor
  · exact linked
  · exact assembled.listed_jump declared rfl (width.length_bytes _)
  · intro use member
    obtain ⟨placed, found, jumps⟩ := assembled.waits use member
    exact ⟨placed, List.mem_cons_of_mem _ found, jumps⟩
  · intro placed member field jumps
    cases List.mem_cons.mp member with
    | inl here =>
      subst here
      cases jumps
      exact .inr ⟨_, List.mem_cons_self, rfl⟩
    | inr there =>
      apply (assembled.jumps placed there field jumps).imp_right
      rintro ⟨landing, landed, same⟩
      exact ⟨landing, List.mem_cons_of_mem _ landed, same⟩
  · intro landing member
    cases List.mem_cons.mp member with
    | inl here =>
      subst here
      exact .inr (starts_next _ (assembled.fixed target position bound))
    | inr there => exact .inr (starts_next _ (assembled.leads landing there))
  · intro label place found
    rw [Code.label, Code.land, labels_append] at found
    exact .inr (starts_next _ (assembled.fixed label place found))

theorem jump (assembled : Assembled code listing pending settled)
    (declared : ∀ given ∈ condition, given.code < 16)
    (known : target.index < code.labels.size)
    (fine : (code.jumpWith (Item.jumpOpcode condition .near) (Item.jumpOpcode condition .far)
      target distance).error = none)
    (small : (code.jumpWith (Item.jumpOpcode condition .near) (Item.jumpOpcode condition .far)
      target distance).size < 2147483648) :
    ∃ width, (code.label target).isBound = false ∧ width = distance ∧
      Assembled (code.jumpWith (Item.jumpOpcode condition .near)
          (Item.jumpOpcode condition .far) target distance)
        (⟨code.size, .jump condition width⟩ :: listing)
        (⟨⟨width, code.size + (Item.jumpOpcode condition width).length⟩, target⟩ :: pending)
        settled ∨
      ∃ position, (code.label target).state = .bound position ∧
        Assembled (code.jumpWith (Item.jumpOpcode condition .near)
            (Item.jumpOpcode condition .far) target distance)
          (⟨code.size, .jump condition width⟩ :: listing) pending
          (⟨⟨width, code.size + (Item.jumpOpcode condition width).length⟩, position⟩ ::
            settled) := by
  cases bound : (code.label target).isBound with
  | false =>
    rw [jumpWith_unbound bound, opcode_jumpOpcode] at fine small ⊢
    exact ⟨distance, .inl ⟨rfl, rfl, assembled.wait declared known fine small⟩⟩
  | true =>
    obtain ⟨position, state⟩ := LabelInfo.isBound_iff.mp bound
    have behind := assembled.linked.behind target position state
    cases jumpWith_bound state fine with
    | inl shortForm =>
      obtain ⟨same, fits⟩ := shortForm
      rw [same]
      exact ⟨.near, .inr ⟨position, state,
        assembled.land declared state (assembled.linked.land fits)⟩⟩
    | inr same =>
      rw [same] at small ⊢
      refine ⟨.far, .inr ⟨position, state,
        assembled.land declared state (assembled.linked.land ?_)⟩⟩
      rw [Code.land, size_append assembled.linked.sound, List.length_append,
        Distance.length_bytes] at small
      simp only [Distance.Fits, Distance.width] at small ⊢
      omega

end Jump

theorem bind (assembled : Assembled code listing pending settled) {target : Label}
    (known : target.index < code.labels.size) (fine : (code.bind target).error = none)
    (small : code.size < 2147483648) :
    Assembled (code.bind target) listing (waiting pending target)
      (landings pending target code.size ++ settled) := by
  obtain ⟨unbound, close⟩ := assembled.linked.bind_fine small fine
  have same := assembled.linked.fillIn_same target small
  have size : (code.bind target).size = code.size := by
    rw [bind_eq unbound]
    exact same.size
  constructor
  · exact assembled.linked.bind small known unbound close
  · rw [size]
    apply assembled.listed.congr
    intro offset _ outside
    rw [bind_eq unbound]
    apply same.bytes
    rintro ⟨use, member, _, covers⟩
    obtain ⟨placed, found, jumps⟩ := assembled.waits use member
    exact outside placed found _ jumps covers
  · intro use member
    exact assembled.waits use (List.mem_filter.mp member).1
  · intro placed member field jumps
    cases assembled.jumps placed member field jumps with
    | inr leads =>
      obtain ⟨landing, landed, same⟩ := leads
      exact .inr ⟨landing, List.mem_append_right _ landed, same⟩
    | inl waits =>
      obtain ⟨use, waiting, same⟩ := waits
      by_cases here : use.target = target
      · refine .inr ⟨⟨use.toField, code.size⟩, List.mem_append_left _ ?_, same⟩
        exact List.mem_map_of_mem (List.mem_filter.mpr ⟨waiting, by simpa using here⟩)
      · exact .inl ⟨use, List.mem_filter.mpr ⟨waiting, by simpa using here⟩, same⟩
  · intro landing member
    rw [size]
    cases List.mem_append.mp member with
    | inl here =>
      obtain ⟨use, _, rfl⟩ := List.mem_map.mp here
      exact .inl rfl
    | inr there => exact assembled.leads landing there
  · intro label position bound
    rw [size]
    rw [label_bind known unbound] at bound
    split at bound
    · cases bound
      exact .inl rfl
    · exact assembled.fixed label position bound

/-- Labels that no field waits for may be added to the table and dropped from it. -/
theorem relabel (assembled : Assembled code listing pending settled) {labels : Array LabelInfo}
    (others : ∀ target, Code.label { code with labels } target = code.label target ∨
      Code.label { code with labels } target = {} ∧ ∀ use ∈ pending, use.target ≠ target) :
    Assembled { code with labels } listing pending settled := by
  have linked := assembled.linked
  constructor
  · constructor
    · exact linked.sound
    · exact linked.descends
    · exact linked.apart
    · exact linked.waits
    · exact linked.leads
    · intro distance target
      cases others target with
      | inl same =>
        rw [same]
        exact linked.latest distance target
      | inr dropped =>
        have none : sites pending distance target = [] := by
          apply List.eq_nil_iff_forall_not_mem.mpr
          intro site member
          exact dropped.2 _ (mem_sites.mp member) rfl
        rw [dropped.1, none]
        cases distance with
        | near => rfl
        | far => rfl
    · intro distance target
      apply Chained.congr ?_ (linked.chained distance target)
      intro site _
      rfl
    · exact linked.reads
    · intro use member
      cases others use.target with
      | inl same =>
        rw [same]
        exact linked.unbound use member
      | inr dropped => exact absurd rfl (dropped.2 use member)
    · intro target position bound
      cases others target with
      | inl same =>
        rw [same] at bound
        exact linked.behind target position bound
      | inr dropped =>
        rw [dropped.1] at bound
        cases bound
  · exact assembled.listed.congr fun _ _ _ => rfl
  · exact assembled.waits
  · exact assembled.jumps
  · exact assembled.leads
  · intro target position bound
    cases others target with
    | inl same =>
      rw [same] at bound
      exact assembled.fixed target position bound
    | inr dropped =>
      rw [dropped.1] at bound
      cases bound

end Assembled

end Code

end WasmX64
