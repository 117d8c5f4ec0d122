import WasmX64.Proofs.Layout.Sound
import WasmX64.Proofs.Compile.Logic

/-!
# Laying out a region of a join

What `joinRegion` does to a region of a join.  A value gets its own register when
that is free, so afterwards every register of the source region is in use; and two
slots of the region end in one register only if the source keeps them in one.
-/

namespace WasmX64.Layout

/-- Whether a rule keeps a slot as it is. -/
def RegionRule.keeps (rule : RegionRule) (place : Place) : Bool :=
  match place with
  | .frame => rule.keepFrame
  | .const _ => rule.keepConst
  | _ => false

theorem slot?_ofNat (layout : Layout) (index : Nat) :
    layout.slot? index = layout.slots[index]? := by
  simp [slot?]

/-- The register that stands for a source register and the source register are both
taken, and no register stands for two. -/
structure SharedIn (join : Layout) (shared : List (Register × Register)) : Prop where
  taken : ∀ own reg, shared.lookup own = some reg →
    join.used.has own = true ∧ join.used.has reg = true
  suits : ∀ own reg, shared.lookup own = some reg →
    reg.isAllocable = true ∧ reg.regClass = own.regClass
  injective : ∀ left right reg, shared.lookup left = some reg →
    shared.lookup right = some reg → left = right

theorem SharedIn.nil (join : Layout) : SharedIn join [] :=
  ⟨by simp, by simp, by simp⟩

theorem lookup_cons_register (own reg other : Register)
    (shared : List (Register × Register)) :
    List.lookup other ((own, reg) :: shared) =
      if other = own then some reg else shared.lookup other := by
  rw [List.lookup_cons]
  by_cases same : other = own
  · simp [same]
  · have different : (other == own) = false := by simpa using same
    simp [same, different]

theorem SharedIn.mono {join after : Layout} {shared : List (Register × Register)}
    (sharing : SharedIn join shared)
    (grows : ∀ reg, join.used.has reg = true → after.used.has reg = true) :
    SharedIn after shared :=
  ⟨fun own reg found =>
      ⟨grows own (sharing.taken own reg found).1, grows reg (sharing.taken own reg found).2⟩,
    sharing.suits, sharing.injective⟩

theorem has_unused {join : Layout} {bank : RegClass} {pinned : RegSet} {reg : Register} :
    (join.unused bank pinned).has reg = true ↔
      reg.isMachine = true ∧ reg.regClass = bank ∧ join.used.has reg = false ∧
        pinned.has reg = false := by
  simp only [unused, RegSet.has_diff, Bool.and_eq_true, Bool.not_eq_true',
    RegSet.has_ofClass, decide_eq_true_eq]
  constructor
  · rintro ⟨⟨⟨machine, bank⟩, unused⟩, unpinned⟩
    exact ⟨machine, bank, unused, unpinned⟩
  · rintro ⟨machine, bank, unused, unpinned⟩
    exact ⟨⟨⟨machine, bank⟩, unused⟩, unpinned⟩

theorem isFree_of_unused {join : Layout} {bank : RegClass} {pinned : RegSet}
    {reg : Register} (first : (join.unused bank pinned).first? = some reg) :
    join.isFree reg = true ∧ reg.regClass = bank := by
  obtain ⟨machine, same, unused, _⟩ := has_unused.mp (RegSet.has_of_first? first)
  exact ⟨by simp [isFree, machine, unused], same⟩

/-- Where a register for a slot comes from. -/
inductive Granted (join : Layout) (rule : RegionRule) (merged : RegSet)
    (shared : List (Register × Register)) (slot : Slot) (reg : Register) : Prop where
  | own (held : slot.place = .reg reg) (free : join.isFree reg = true)
  | standIn (own : Register) (held : slot.place = .reg own) (sharing : rule.share = true)
      (taken : join.isFree own = false) (found : shared.lookup own = some reg)
  | spare (first : (join.unused slot.type.regClass merged).first? = some reg)
      (taken : ∀ own, slot.place = .reg own → join.isFree own = false)

theorem granted_of_joinRegister? {join : Layout} {rule : RegionRule} {merged : RegSet}
    {shared : List (Register × Register)} {slot : Slot} {reg : Register}
    (found : joinRegister? join rule merged shared slot = some reg) :
    Granted join rule merged shared slot reg := by
  unfold joinRegister? at found
  cases held : slot.reg? with
  | none =>
    have nowhere : ∀ own, slot.place ≠ .reg own := by
      intro own place
      rw [Slot.reg?_eq_some_iff.mpr place] at held
      cases held
    simp only [held, Option.filter_none, Option.bind_none, ite_self, Option.or_none,
      Option.none_or] at found
    exact .spare found fun own place => absurd place (nowhere own)
  | some own =>
    have place := Slot.reg?_eq_some_iff.mp held
    cases free : join.isFree own with
    | true =>
      simp only [held, Option.filter_some, free, if_true, Option.some_or,
        Option.some.injEq] at found
      subst found
      exact .own place free
    | false =>
      simp only [held, Option.filter_some, free, Bool.false_eq_true, if_false,
        Option.bind_some, Option.none_or] at found
      cases sharing : rule.share with
      | false =>
        simp only [sharing, Bool.false_eq_true, if_false, Option.none_or] at found
        refine .spare found fun other otherPlace => ?_
        rw [place] at otherPlace
        cases otherPlace
        exact free
      | true =>
        simp only [sharing, if_true] at found
        cases stands : shared.lookup own with
        | some standing =>
          simp only [stands, Option.some_or, Option.some.injEq] at found
          subst found
          exact .standIn own place sharing free stands
        | none =>
          simp only [stands, Option.none_or] at found
          refine .spare found fun other otherPlace => ?_
          rw [place] at otherPlace
          cases otherPlace
          exact free

/-- A slot goes to the frame only when its register is taken. -/
theorem isFree_of_joinRegister?_eq_none {join : Layout} {rule : RegionRule} {merged : RegSet}
    {shared : List (Register × Register)} {slot : Slot} {own : Register}
    (missing : joinRegister? join rule merged shared slot = none)
    (place : slot.place = .reg own) : join.isFree own = false := by
  simp only [joinRegister?, Option.or_eq_none_iff] at missing
  have ownTaken := missing.1.1
  cases free : join.isFree own with
  | false => rfl
  | true => simp [Slot.reg?_eq_some_iff.mpr place, free] at ownTaken

/-- The registers that stand for others once a slot has got a register. -/
def standIns (slot : Slot) (reg : Register) (shared : List (Register × Register)) :
    List (Register × Register) :=
  match slot.reg? with
  | some own => (own, reg) :: shared
  | none => shared

theorem lookup_standIns (slot : Slot) (reg other : Register)
    (shared : List (Register × Register)) :
    (standIns slot reg shared).lookup other =
      if slot.place = .reg other then some reg else shared.lookup other := by
  unfold standIns
  cases held : slot.reg? with
  | none =>
    have elsewhere : slot.place ≠ .reg other := by
      intro place
      rw [Slot.reg?_eq_some_iff.mpr place] at held
      cases held
    simp [elsewhere]
  | some own =>
    have place := Slot.reg?_eq_some_iff.mp held
    rw [lookup_cons_register, place]
    by_cases same : other = own
    · simp [same]
    · have different : ¬ own = other := fun equality => same equality.symm
      simp [same, different]

theorem joinRegion_zero (rule : RegionRule) (merged : RegSet) (source join : Layout)
    (joinIndex sourceIndex : Int) (shared : List (Register × Register)) :
    joinRegion rule merged source 0 joinIndex sourceIndex shared join = .ok () join := by
  rw [joinRegion, EStateM.pure_run]

theorem joinRegion_succ {rule : RegionRule} {merged : RegSet} {source join : Layout}
    {count : Nat} {joinIndex sourceIndex : Nat} {shared : List (Register × Register)}
    {slot old : Slot} (found : source.slots[sourceIndex]? = some slot)
    (room : join.slots[joinIndex]? = some old) :
    joinRegion rule merged source (count + 1) joinIndex sourceIndex shared join =
      if rule.keeps slot.place then
        joinRegion rule merged source count (joinIndex + 1 : Nat) (sourceIndex + 1 : Nat)
          shared (join.setSlot joinIndex slot)
      else
        match joinRegister? join rule merged shared slot with
        | none =>
          joinRegion rule merged source count (joinIndex + 1 : Nat)
            (sourceIndex + 1 : Nat) shared
            (join.setSlot joinIndex (.inFrame slot.type))
        | some reg =>
          joinRegion rule merged source count (joinIndex + 1 : Nat)
            (sourceIndex + 1 : Nat) (standIns slot reg shared)
            ((join.retain reg).setSlot joinIndex (.inReg slot.type reg)) := by
  rw [joinRegion]
  simp only [demandSlot, slot?_ofNat, found, room, EStateM.bind_run, EStateM.pure_run,
    EStateM.get_run, EStateM.ite_run, EStateM.modify_run, Int.toNat_natCast]
  change (if rule.keeps slot.place = true then _ else _) = _
  cases joinRegister? join rule merged shared slot with
  | none => rfl
  | some reg =>
    unfold standIns
    cases slot.reg? <;> rfl

/-- A slot of a join that stands for a slot of the source. -/
structure LaidOut (rule : RegionRule) (slot placed : Slot) : Prop where
  type : placed.type = slot.type
  kept : rule.keeps slot.place = true → placed.place = slot.place
  moved : rule.keeps slot.place = false →
    placed.place = .frame ∨ ∃ reg, placed.place = .reg reg

/-- What laying out one slot makes of a join and of the registers that stand for
others. -/
structure SlotDone (rule : RegionRule) (merged : RegSet) (index : Nat) (slot : Slot)
    (shared : List (Register × Register)) (join : Layout) (placed : Slot)
    (known : List (Register × Register)) (next : Layout) : Prop where
  sound : next.Sound
  base : next.base = join.base
  slots : next.slots = join.slots.setIfInBounds index placed
  grows : ∀ reg, join.used.has reg = true → next.used.has reg = true
  sharing : SharedIn next known
  laidOut : LaidOut rule slot placed
  occupied : ∀ own, slot.place = .reg own → next.used.has own = true
  taken : ∀ reg, placed.place = .reg reg → next.used.has reg = true
  fresh : ∀ reg, placed.place = .reg reg → join.used.has reg = false ∨
    rule.share = true ∧ ∃ own, slot.place = .reg own ∧ shared.lookup own = some reg
  recorded : ∀ own reg, slot.place = .reg own → placed.place = .reg reg →
    known.lookup own = some reg
  unrecorded : ∀ other, slot.place ≠ .reg other ∨ placed.place = .frame →
    known.lookup other = shared.lookup other

/-- What laying out `count` slots from `joinIndex` after those of the source from
`sourceIndex` makes of a join. -/
structure RegionDone (rule : RegionRule) (merged : RegSet) (source : Layout)
    (count joinIndex sourceIndex : Nat) (shared : List (Register × Register))
    (join after : Layout) : Prop where
  sound : after.Sound
  height : after.height = join.height
  base : after.base = join.base
  outside : ∀ index, index < joinIndex ∨ joinIndex + count ≤ index →
    after.slots[index]? = join.slots[index]?
  grows : ∀ reg, join.used.has reg = true → after.used.has reg = true
  laidOut : ∀ place < count, ∃ slot placed,
    source.slots[sourceIndex + place]? = some slot ∧
    after.slots[joinIndex + place]? = some placed ∧ LaidOut rule slot placed
  /-- The register of a source slot is in use afterwards. -/
  occupied : ∀ place < count, ∀ slot own,
    source.slots[sourceIndex + place]? = some slot → slot.place = .reg own →
    after.used.has own = true
  /-- A register was free before or stands for the one of the source. -/
  fresh : ∀ place < count, ∀ slot placed reg,
    source.slots[sourceIndex + place]? = some slot →
    after.slots[joinIndex + place]? = some placed → placed.place = .reg reg →
    join.used.has reg = false ∨
      rule.share = true ∧ ∃ own, slot.place = .reg own ∧ shared.lookup own = some reg
  /-- One register in the join means one register in the source. -/
  apart : ∀ left < count, ∀ right < count, ∀ leftPlaced rightPlaced reg,
    after.slots[joinIndex + left]? = some leftPlaced → leftPlaced.place = .reg reg →
    after.slots[joinIndex + right]? = some rightPlaced → rightPlaced.place = .reg reg →
    left = right ∨ rule.share = true ∧ ∃ leftSlot rightSlot own,
      source.slots[sourceIndex + left]? = some leftSlot ∧ leftSlot.place = .reg own ∧
      source.slots[sourceIndex + right]? = some rightSlot ∧ rightSlot.place = .reg own

theorem used_of_isFree_eq_false {join : Layout} {reg : Register}
    (machine : reg.isMachine = true) (taken : join.isFree reg = false) :
    join.used.has reg = true := by
  simpa [isFree, machine] using taken

theorem used_eq_false_of_isFree {join : Layout} {reg : Register}
    (free : join.isFree reg = true) : join.used.has reg = false := by
  simp only [isFree, Bool.and_eq_true, Bool.not_eq_true'] at free
  exact free.2

/-- A slot may be replaced when the books already describe the exchange. -/
theorem Sound.setSlot {layout : Layout} {index : Nat} {slot old : Slot}
    {held : List Register} (fits : ∀ other ∈ layout.slots, other.Fits)
    (balanced : layout.Balanced held) (found : layout.slots[index]? = some old)
    (slotFits : slot.Fits)
    (counts : (layout.registers ++ slot.reg?.toList).Perm (held ++ old.reg?.toList)) :
    (layout.setSlot index slot).Sound := by
  have exchanged := registers_setSlot slot found
  refine ⟨?_, ?_⟩
  · intro other member
    rcases Array.mem_or_eq_of_mem_setIfInBounds member with before | same
    · exact fits other before
    · exact same ▸ slotFits
  · have kept : held.Perm (layout.setSlot index slot).registers :=
      ((List.perm_append_right_iff _).mp (exchanged.trans counts)).symm
    exact (balanced.perm kept).congr rfl rfl

section OneSlot

variable {rule : RegionRule} {merged : RegSet} {index : Nat} {slot old : Slot}
  {shared : List (Register × Register)} {join : Layout}

/-- Replacing a slot without a register by another one. -/
theorem sound_setSlot_plain {placed : Slot} (sound : join.Sound)
    (room : join.slots[index]? = some old) (oldFrame : old.place = .frame)
    (plain : ∀ reg, placed.place ≠ .reg reg) : (join.setSlot index placed).Sound := by
  have oldPlain : old.reg? = none := by simp [Slot.reg?, oldFrame]
  have placedPlain : placed.reg? = none := by
    cases held : placed.reg? with
    | none => rfl
    | some reg => exact absurd (Slot.reg?_eq_some_iff.mp held) (plain reg)
  refine Sound.setSlot sound.fits sound.balanced room ?_ ?_
  · intro reg place
    exact absurd place (plain reg)
  · simp [oldPlain, placedPlain]

theorem slotDone_kept (sound : join.Sound) (sharing : SharedIn join shared)
    (room : join.slots[index]? = some old) (oldFrame : old.place = .frame)
    (keeps : rule.keeps slot.place = true) :
    SlotDone rule merged index slot shared join slot shared (join.setSlot index slot) := by
  have plain : ∀ reg, slot.place ≠ .reg reg := by
    intro reg place
    simp [RegionRule.keeps, place] at keeps
  constructor
  case sound => exact sound_setSlot_plain sound room oldFrame plain
  case base => rfl
  case slots => rfl
  case grows => exact fun reg used => used
  case sharing => exact sharing.mono fun reg used => used
  case laidOut => exact ⟨rfl, fun _ => rfl, fun moved => by rw [keeps] at moved; cases moved⟩
  case occupied => exact fun own place => absurd place (plain own)
  case taken => exact fun reg place => absurd place (plain reg)
  case fresh => exact fun reg place => absurd place (plain reg)
  case recorded => exact fun own _ place _ => absurd place (plain own)
  case unrecorded => exact fun _ _ => rfl

theorem slotDone_frame (sound : join.Sound) (sharing : SharedIn join shared)
    (room : join.slots[index]? = some old) (oldFrame : old.place = .frame)
    (slotFits : slot.Fits) (keeps : rule.keeps slot.place = false)
    (missing : joinRegister? join rule merged shared slot = none) :
    SlotDone rule merged index slot shared join (.inFrame slot.type) shared
      (join.setSlot index (.inFrame slot.type)) := by
  have used : ∀ own, slot.place = .reg own → join.used.has own = true := by
    intro own place
    have machine := Register.isMachine_of_isAllocable (slotFits own place).1
    exact used_of_isFree_eq_false machine (isFree_of_joinRegister?_eq_none missing place)
  have plain : ∀ reg, (Slot.inFrame slot.type).place ≠ .reg reg := by
    intro reg place
    cases place
  constructor
  case sound => exact sound_setSlot_plain sound room oldFrame plain
  case base => rfl
  case slots => rfl
  case grows => exact fun reg used => used
  case sharing => exact sharing.mono fun reg used => used
  case laidOut =>
    refine ⟨rfl, fun kept => ?_, fun _ => .inl rfl⟩
    rw [keeps] at kept
    cases kept
  case occupied => exact used
  case taken => exact fun reg place => absurd place (plain reg)
  case fresh => exact fun reg place => absurd place (plain reg)
  case recorded => exact fun _ reg _ place => absurd place (plain reg)
  case unrecorded => exact fun _ _ => rfl

theorem Granted.suits (granted : Granted join rule merged shared slot reg)
    (sound : join.Sound) (sharing : SharedIn join shared) (slotFits : slot.Fits) :
    reg.isAllocable = true ∧ reg.regClass = slot.type.regClass := by
  cases granted with
  | own held free => exact slotFits reg held
  | standIn own held share taken found =>
    obtain ⟨allocable, bank⟩ := sharing.suits own reg found
    exact ⟨allocable, bank.trans (slotFits own held).2⟩
  | spare first taken =>
    obtain ⟨free, bank⟩ := isFree_of_unused first
    exact ⟨sound.balanced.isAllocable_of_isFree free, bank⟩

theorem Granted.source_eq (granted : Granted join rule merged shared slot reg)
    (sharing : SharedIn join shared) {own other : Register} (place : slot.place = .reg own)
    (known : shared.lookup other = some reg) : other = own := by
  have used := (sharing.taken other reg known).2
  cases granted with
  | own _ free =>
    rw [used_eq_false_of_isFree free] at used
    cases used
  | standIn third held _ _ found =>
    rw [place] at held
    cases held
    exact sharing.injective other own reg known found
  | spare first _ =>
    rw [used_eq_false_of_isFree (isFree_of_unused first).1] at used
    cases used

/-- Once a slot has got its register, the one it has in the source is in use. -/
theorem Granted.used_retain (granted : Granted join rule merged shared slot reg)
    (slotFits : slot.Fits) {own : Register} (place : slot.place = .reg own) :
    (join.retain reg).used.has own = true := by
  have machine := Register.isMachine_of_isAllocable (slotFits own place).1
  cases free : join.isFree own with
  | false => simp [used_of_isFree_eq_false machine free]
  | true =>
    cases granted with
    | own held _ =>
      rw [place] at held
      cases held
      simp [machine]
    | standIn other held _ taken _ =>
      rw [place] at held
      cases held
      rw [free] at taken
      cases taken
    | spare _ taken =>
      rw [taken own place] at free
      cases free

theorem Granted.sharedIn (granted : Granted join rule merged shared slot reg)
    (sound : join.Sound) (sharing : SharedIn join shared) (slotFits : slot.Fits) :
    SharedIn (join.retain reg) (standIns slot reg shared) := by
  obtain ⟨allocable, bank⟩ := granted.suits sound sharing slotFits
  have machine := Register.isMachine_of_isAllocable allocable
  constructor
  case taken =>
    intro own other known
    rw [lookup_standIns] at known
    split at known
    case isTrue place =>
      cases known
      exact ⟨granted.used_retain slotFits place, by simp [machine]⟩
    case isFalse =>
      obtain ⟨first, second⟩ := sharing.taken _ _ known
      simp [first, second]
  case suits =>
    intro own other known
    rw [lookup_standIns] at known
    split at known
    case isTrue place =>
      cases known
      exact ⟨allocable, bank.trans (slotFits own place).2.symm⟩
    case isFalse => exact sharing.suits own other known
  case injective =>
    intro left right other leftKnown rightKnown
    rw [lookup_standIns] at leftKnown rightKnown
    split at leftKnown <;> split at rightKnown
    case isTrue.isTrue leftPlace rightPlace =>
      rw [leftPlace] at rightPlace
      cases rightPlace
      rfl
    case isTrue.isFalse leftPlace rightPlace =>
      cases leftKnown
      exact (granted.source_eq sharing leftPlace rightKnown).symm
    case isFalse.isTrue leftPlace rightPlace =>
      cases rightKnown
      exact granted.source_eq sharing rightPlace leftKnown
    case isFalse.isFalse => exact sharing.injective left right other leftKnown rightKnown

theorem slotDone_register (sound : join.Sound) (sharing : SharedIn join shared)
    (room : join.slots[index]? = some old) (oldFrame : old.place = .frame)
    (slotFits : slot.Fits) (keeps : rule.keeps slot.place = false)
    (found : joinRegister? join rule merged shared slot = some reg) :
    SlotDone rule merged index slot shared join (.inReg slot.type reg)
      (standIns slot reg shared) ((join.retain reg).setSlot index (.inReg slot.type reg)) := by
  have granted := granted_of_joinRegister? found
  obtain ⟨allocable, bank⟩ := granted.suits sound sharing slotFits
  have oldPlain : old.reg? = none := by simp [Slot.reg?, oldFrame]
  constructor
  case sound =>
    have books := sound.balanced.retain allocable
    refine Sound.setSlot sound.fits books room ?_ ?_
    · intro other place
      cases place
      exact ⟨allocable, bank⟩
    · simp only [oldPlain, Option.toList_none, List.append_nil]
      exact List.perm_append_singleton reg _
  case base => rfl
  case slots => rfl
  case grows =>
    intro other used
    simp [used]
  case sharing => exact (granted.sharedIn sound sharing slotFits).mono fun _ used => used
  case laidOut =>
    refine ⟨rfl, fun kept => ?_, fun _ => .inr ⟨reg, rfl⟩⟩
    rw [keeps] at kept
    cases kept
  case occupied => exact fun own place => granted.used_retain slotFits place
  case taken =>
    intro other place
    cases place
    simp [Register.isMachine_of_isAllocable allocable]
  case fresh =>
    intro other place
    cases place
    cases granted with
    | own _ free => exact .inl (used_eq_false_of_isFree free)
    | standIn own held share _ known => exact .inr ⟨share, own, held, known⟩
    | spare first _ => exact .inl (used_eq_false_of_isFree (isFree_of_unused first).1)
  case recorded =>
    intro own other place placed
    cases placed
    rw [lookup_standIns, if_pos place]
  case unrecorded =>
    rintro other (elsewhere | placed)
    · rw [lookup_standIns, if_neg elsewhere]
    · cases placed

end OneSlot

section Region

variable {rule : RegionRule} {merged : RegSet} {source join next after : Layout}
  {count joinIndex sourceIndex : Nat} {shared known : List (Register × Register)}

theorem RegionDone.nil (sound : join.Sound) :
    RegionDone rule merged source 0 joinIndex sourceIndex shared join join := by
  constructor
  case sound => exact sound
  case height => rfl
  case base => rfl
  case outside => exact fun _ _ => rfl
  case grows => exact fun _ used => used
  all_goals intros; omega

theorem SlotDone.lookup_cases {slot placed : Slot}
    (first : SlotDone rule merged joinIndex slot shared join placed known next)
    {own reg : Register} (stands : known.lookup own = some reg) :
    (slot.place = .reg own ∧ placed.place = .reg reg) ∨ shared.lookup own = some reg := by
  by_cases held : slot.place = .reg own
  · rcases first.laidOut.moved (by simp [RegionRule.keeps, held]) with frame | ⟨other, place⟩
    · right
      rw [← first.unrecorded own (.inr frame)]
      exact stands
    · left
      rw [first.recorded own other held place] at stands
      cases stands
      exact ⟨held, place⟩
  · right
    rw [← first.unrecorded own (.inl held)]
    exact stands

section Step

variable {slot placed other otherPlaced : Slot} {place : Nat} {reg : Register}
  (first : SlotDone rule merged joinIndex slot shared join placed known next)
include first

/-- A register that stands for that of a later slot did so before, or is that of the first slot,
which then had it. -/
theorem SlotDone.fresh_later
    (fresh : next.used.has reg = false ∨
      rule.share = true ∧ ∃ own, other.place = .reg own ∧ known.lookup own = some reg) :
    join.used.has reg = false ∨
      rule.share = true ∧ ∃ own, other.place = .reg own ∧ shared.lookup own = some reg := by
  rcases fresh with free | ⟨share, own, held, stands⟩
  · left
    cases used : join.used.has reg with
    | false => rfl
    | true =>
      rw [first.grows reg used] at free
      cases free
  · rcases first.lookup_cases stands with ⟨slotHeld, placedHeld⟩ | before
    · rcases first.fresh reg placedHeld with free | ⟨_, third, thirdHeld, before⟩
      · exact .inl free
      · rw [slotHeld] at thirdHeld
        cases thirdHeld
        exact .inr ⟨share, own, held, before⟩
    · exact .inr ⟨share, own, held, before⟩

/-- The register of the first slot is taken, so a later slot that gets it too found it standing
for its own. -/
theorem RegionDone.shares_first (sharing : SharedIn join shared)
    (rest : RegionDone rule merged source count (joinIndex + 1) (sourceIndex + 1) known next after)
    (inRegion : place < count) (placedHeld : placed.place = .reg reg)
    (otherDone : after.slots[joinIndex + 1 + place]? = some otherPlaced)
    (otherHeld : otherPlaced.place = .reg reg) :
    rule.share = true ∧ ∃ other own, slot.place = .reg own ∧
      source.slots[sourceIndex + 1 + place]? = some other ∧ other.place = .reg own := by
  obtain ⟨other, _, otherFound, _, _⟩ := rest.laidOut place inRegion
  rcases rest.fresh place inRegion other otherPlaced reg otherFound otherDone otherHeld
    with free | ⟨share, own, ownPlace, stands⟩
  · rw [first.taken reg placedHeld] at free
    cases free
  · refine ⟨share, other, own, ?_, otherFound, ownPlace⟩
    rcases first.lookup_cases stands with ⟨slotHeld, _⟩ | before
    · exact slotHeld
    · rcases first.fresh reg placedHeld with free | ⟨_, third, thirdHeld, known⟩
      · rw [(sharing.taken own reg before).2] at free
        cases free
      · rw [sharing.injective own third reg before known]
        exact thirdHeld

theorem SlotDone.getElem?_next (inside : joinIndex < join.height) (index : Nat) :
    next.slots[index]? = if joinIndex = index then some placed else join.slots[index]? := by
  rw [first.slots, Array.getElem?_setIfInBounds]
  by_cases same : joinIndex = index
  · subst same
    have small : joinIndex < join.slots.size := inside
    simp [small]
  · simp [same]

theorem RegionDone.cons (found : source.slots[sourceIndex]? = some slot)
    (inside : joinIndex < join.height) (sharing : SharedIn join shared)
    (rest : RegionDone rule merged source count (joinIndex + 1) (sourceIndex + 1) known
      next after) :
    RegionDone rule merged source (count + 1) joinIndex sourceIndex shared join after := by
  have firstSlot : after.slots[joinIndex]? = some placed := by
    rw [rest.outside joinIndex (.inl (by omega)), first.getElem?_next inside, if_pos rfl]
  have shiftJoin : ∀ place, joinIndex + (place + 1) = joinIndex + 1 + place := by omega
  have shiftSource : ∀ place, sourceIndex + (place + 1) = sourceIndex + 1 + place := by
    omega
  constructor
  case sound => exact rest.sound
  case height =>
    rw [rest.height]
    simp [Layout.height, first.slots]
  case base => rw [rest.base, first.base]
  case outside =>
    intro index out
    rw [rest.outside index (by omega), first.getElem?_next inside, if_neg (by omega)]
  case grows => exact fun reg used => rest.grows reg (first.grows reg used)
  case laidOut =>
    intro place inRegion
    cases place with
    | zero => exact ⟨slot, placed, found, firstSlot, first.laidOut⟩
    | succ place =>
      rw [shiftJoin, shiftSource]
      exact rest.laidOut place (by omega)
  case occupied =>
    intro place inRegion other own otherFound held
    cases place with
    | zero =>
      rw [Nat.add_zero, found] at otherFound
      cases otherFound
      exact rest.grows own (first.occupied own held)
    | succ place =>
      rw [shiftSource] at otherFound
      exact rest.occupied place (by omega) other own otherFound held
  case fresh =>
    intro place inRegion other otherPlaced reg otherFound otherDone held
    cases place with
    | zero =>
      rw [Nat.add_zero, found] at otherFound
      rw [Nat.add_zero, firstSlot] at otherDone
      cases otherFound
      cases otherDone
      exact first.fresh reg held
    | succ place =>
      rw [shiftSource] at otherFound
      rw [shiftJoin] at otherDone
      exact first.fresh_later
        (rest.fresh place (by omega) other otherPlaced reg otherFound otherDone held)
  case apart =>
    intro left leftIn right rightIn leftPlaced rightPlaced reg leftDone leftHeld rightDone
      rightHeld
    cases left with
    | zero =>
      rw [Nat.add_zero, firstSlot] at leftDone
      cases leftDone
      cases right with
      | zero => exact .inl rfl
      | succ right =>
        rw [shiftJoin] at rightDone
        obtain ⟨share, other, own, slotHeld, otherFound, otherHeld⟩ :=
          rest.shares_first first sharing (by omega) leftHeld rightDone rightHeld
        exact .inr ⟨share, slot, other, own, found, slotHeld,
          shiftSource right ▸ otherFound, otherHeld⟩
    | succ left =>
      rw [shiftJoin] at leftDone
      cases right with
      | zero =>
        rw [Nat.add_zero, firstSlot] at rightDone
        cases rightDone
        obtain ⟨share, other, own, slotHeld, otherFound, otherHeld⟩ :=
          rest.shares_first first sharing (by omega) rightHeld leftDone leftHeld
        exact .inr ⟨share, other, slot, own, shiftSource left ▸ otherFound, otherHeld,
          found, slotHeld⟩
      | succ right =>
        rw [shiftJoin] at rightDone
        rcases rest.apart left (by omega) right (by omega) leftPlaced rightPlaced reg
          leftDone leftHeld rightDone rightHeld with same | sources
        · exact .inl (by omega)
        · rw [shiftSource left, shiftSource right]
          exact .inr sources

end Step

/-- Laying out a region never fails and does what `RegionDone` says. -/
theorem joinRegion_done (rule : RegionRule) (merged : RegSet) (sourceFits : ∀ slot ∈ source.slots, slot.Fits)
    (sound : join.Sound) (sharing : SharedIn join shared)
    (sourceRoom : sourceIndex + count ≤ source.height)
    (joinRoom : joinIndex + count ≤ join.height)
    (blank : ∀ place < count, ∀ old, join.slots[joinIndex + place]? = some old →
      old.place = .frame) :
    ∃ after, joinRegion rule merged source count joinIndex sourceIndex shared join =
        .ok () after ∧
      RegionDone rule merged source count joinIndex sourceIndex shared join after := by
  induction count generalizing join joinIndex sourceIndex shared with
  | zero => exact ⟨join, joinRegion_zero _ _ _ _ _ _ _, .nil sound⟩
  | succ count ih =>
    have inSource : sourceIndex < source.slots.size := by
      have := sourceRoom
      unfold height at this
      omega
    have inJoin : joinIndex < join.slots.size := by
      have := joinRoom
      unfold height at this
      omega
    have found := Array.getElem?_eq_getElem inSource
    have room := Array.getElem?_eq_getElem inJoin
    have slotFits := sourceFits _ (Array.getElem_mem inSource)
    have oldFrame := blank 0 (by omega) _ room
    -- every way of laying out the first slot leaves the rest of the region blank
    have proceed : ∀ {placed : Slot} {known : List (Register × Register)}
        {next : Layout},
        SlotDone rule merged joinIndex source.slots[sourceIndex] shared join placed known
          next →
        ∃ after, joinRegion rule merged source count (joinIndex + 1 : Nat)
            (sourceIndex + 1 : Nat) known next = .ok () after ∧
          RegionDone rule merged source (count + 1) joinIndex sourceIndex shared join
            after := by
      intro placed known next first
      have nextHeight : next.height = join.height := by
        simp [Layout.height, first.slots]
      have sourceRest : sourceIndex + 1 + count ≤ source.height := by omega
      have joinRest : joinIndex + 1 + count ≤ next.height := by omega
      have nextBlank : ∀ place < count, ∀ old,
          next.slots[joinIndex + 1 + place]? = some old → old.place = .frame := by
        intro place inRegion old oldFound
        rw [first.slots, Array.getElem?_setIfInBounds, if_neg (by omega)] at oldFound
        refine blank (place + 1) (by omega) old ?_
        rw [← oldFound]
        congr 1
        omega
      obtain ⟨after, runs, rest⟩ :=
        ih first.sound first.sharing sourceRest joinRest nextBlank
      exact ⟨after, runs, .cons first found (by omega) sharing rest⟩
    rw [joinRegion_succ found room]
    cases keeps : rule.keeps source.slots[sourceIndex].place with
    | true => exact proceed (slotDone_kept sound sharing room oldFrame keeps)
    | false =>
      cases granted : joinRegister? join rule merged shared source.slots[sourceIndex] with
      | none =>
        exact proceed
          (slotDone_frame sound sharing room oldFrame slotFits keeps granted)
      | some reg =>
        exact proceed
          (slotDone_register sound sharing room oldFrame slotFits keeps granted)

end Region

end WasmX64.Layout
