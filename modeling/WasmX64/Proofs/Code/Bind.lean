import Mathlib.Data.List.Pairwise
import WasmX64.Proofs.Code.Walk

/-!
# Fixing a label

Fixing a label at the end of the code walks the chain of its four-byte uses, then that of
its one-byte uses.  Both walks end by themselves and write into fields of the label only.
Afterwards the fields lead to the label, unless a one-byte use is too far away; then the
buffer has an error.
-/

/-!
## Labels and the fields that wait for them

`Linked` describes a buffer by two lists of fields: those that wait for the position of a
label, and those whose displacement leads to a position already.  The table of labels and
the placeholders in the code agree with the first list.  Every operation on labels is
described by what it does to the two lists.
-/

namespace WasmX64

/-- A field that waits for a label. -/
structure Use extends Field where
  target : Label
deriving DecidableEq, Repr

/-- A field that leads to a position. -/
structure Landing extends Field where
  position : Nat
deriving DecidableEq, Repr

/-- The latest use of a label in fields of a width. -/
def LabelInfo.latest (info : LabelInfo) : Distance → Option Nat
  | .near => info.near
  | .far =>
    match info.state with
    | .linked site => some site
    | _ => none

/-- The label with its latest use in fields of a width replaced. -/
def LabelInfo.use (info : LabelInfo) (site : Nat) : Distance → LabelInfo
  | .near => { info with near := some site }
  | .far => { info with state := .linked site }

@[simp] theorem LabelInfo.latest_use (info : LabelInfo) (site : Nat) (distance : Distance) :
    (info.use site distance).latest distance = some site := by
  cases distance with
  | near => rfl
  | far => rfl

theorem LabelInfo.latest_use_of_ne (info : LabelInfo) (site : Nat) {distance other : Distance}
    (different : distance ≠ other) :
    (info.use site distance).latest other = info.latest other := by
  cases distance with
  | near =>
    cases other with
    | near => exact absurd rfl different
    | far => rfl
  | far =>
    cases other with
    | near => rfl
    | far => exact absurd rfl different

theorem LabelInfo.isBound_iff {info : LabelInfo} :
    info.isBound = true ↔ ∃ position, info.state = .bound position := by
  cases info with
  | mk state near =>
    cases state with
    | unused => simp [isBound]
    | linked site => simp [isBound]
    | bound position => simp [isBound]

theorem LabelInfo.isBound_use (info : LabelInfo) (site : Nat) (distance : Distance)
    (unbound : info.isBound = false) : (info.use site distance).isBound = false := by
  cases distance with
  | near => exact unbound
  | far => rfl

namespace Code

/-- What a placeholder behind the code holds: the offset of the use before it, or the way
back to it; its own offset, or no way, if it is the first. -/
def reference (code : Code) (target : Label) (distance : Distance) : Int :=
  let before := ((code.label target).latest distance).getD code.size
  match distance with
  | .far => before
  | .near => (before : Int) - code.size

/-- A placeholder for a label appended to the code. -/
def link (code : Code) (target : Label) (distance : Distance) : Code :=
  (code.append (distance.bytes (code.reference target distance))).setLabel target
    ((code.label target).use code.size distance)

theorem previous_of_reference {code after : Code} {target : Label} {distance : Distance}
    (reads : after.displacement ⟨distance, code.size⟩ = code.reference target distance) :
    after.previous ⟨distance, code.size⟩ =
      (((code.label target).latest distance).getD code.size : Nat) := by
  cases distance with
  | far => exact reads
  | near =>
    simp only [previous, reads, reference]
    omega

theorem linkFar_eq {code : Code} {target : Label} (unbound : (code.label target).isBound = false) :
    code.linkFar target = code.link target .far := by
  unfold linkFar link reference LabelInfo.latest
  generalize code.label target = info at unbound ⊢
  cases info with
  | mk state near =>
    cases state with
    | unused => rfl
    | linked site => rfl
    | bound position => cases unbound

/-- A one-byte use is refused exactly when the latest one is too far back. -/
theorem linkNear_eq {code : Code} {target : Label}
    (unbound : (code.label target).isBound = false) :
    code.linkNear target =
      if code.reference target .near < -128 then code.fail .nearRange
      else code.link target .near := by
  have placeholder : (0 : UInt8) = byteOf ((code.size : Int) - code.size) := by
    rw [Int.sub_self]
    rfl
  unfold linkNear link reference LabelInfo.latest
  generalize code.label target = info at unbound ⊢
  cases info with
  | mk state near =>
    cases near with
    | some before =>
      cases state with
      | unused => rfl
      | linked site => rfl
      | bound position => cases unbound
    | none =>
      cases state with
      | unused => simp [LabelInfo.use, Distance.bytes, placeholder]
      | linked site => simp [LabelInfo.use, Distance.bytes, placeholder]
      | bound position => cases unbound

/-- The sites that wait for a label in fields of a width, latest first. -/
def sites (pending : List Use) (distance : Distance) (target : Label) : List Nat :=
  (pending.filter fun use => use.target = target ∧ use.distance = distance).map fun use =>
    use.site

/-- The fields of a label that wait for it, as they lead to a position. -/
def landings (pending : List Use) (target : Label) (position : Nat) : List Landing :=
  (pending.filter fun use => use.target = target).map fun use => ⟨use.toField, position⟩

/-- The fields that wait for other labels. -/
def waiting (pending : List Use) (target : Label) : List Use :=
  pending.filter fun use => use.target ≠ target

/-- A buffer with the fields that wait for labels, latest first, and the fields that lead
to a position. -/
structure Linked (code : Code) (pending : List Use) (settled : List Landing) : Prop where
  sound : code.error = none
  descends : pending.Pairwise fun later earlier => earlier.finish ≤ later.site
  apart : ∀ use ∈ pending, ∀ landing ∈ settled, use.toField.Apart landing.toField
  waits : ∀ use ∈ pending, use.finish ≤ code.size
  leads : ∀ landing ∈ settled, landing.finish ≤ code.size
  latest : ∀ distance target,
    (code.label target).latest distance = (sites pending distance target).head?
  chained : ∀ distance target, Chained code distance (sites pending distance target)
  reads : ∀ landing ∈ settled,
    code.displacement landing.toField = landing.position - landing.finish
  unbound : ∀ use ∈ pending, (code.label use.target).isBound = false
  behind : ∀ target position, (code.label target).state = .bound position →
    position ≤ code.size

theorem mem_sites {pending : List Use} {distance : Distance} {target : Label} {site : Nat} :
    site ∈ sites pending distance target ↔ ⟨⟨distance, site⟩, target⟩ ∈ pending := by
  simp only [sites, List.mem_map, List.mem_filter, decide_eq_true_eq]
  constructor
  · intro found
    obtain ⟨⟨⟨_, _⟩, _⟩, ⟨member, rfl, rfl⟩, rfl⟩ := found
    exact member
  · intro member
    exact ⟨_, ⟨member, rfl, rfl⟩, rfl⟩

theorem sites_cons (use : Use) (pending : List Use) (distance : Distance) (target : Label) :
    sites (use :: pending) distance target =
      if use.target = target ∧ use.distance = distance then
        use.site :: sites pending distance target
      else sites pending distance target := by
  by_cases same : use.target = target ∧ use.distance = distance
  · simp [sites, same]
  · simp [sites, same]

theorem sites_waiting {pending : List Use} {bound target : Label} {distance : Distance} :
    sites (waiting pending bound) distance target =
      if target = bound then [] else sites pending distance target := by
  simp only [sites, waiting, List.filter_filter]
  by_cases same : target = bound
  · subst same
    rw [if_pos rfl, List.filter_eq_nil_iff.mpr, List.map_nil]
    intro use _
    simp
    intro here _
    exact here
  · rw [if_neg same]
    congr 2
    funext use
    by_cases here : use.target = target
    · subst here
      simp [same]
    · simp [here]

theorem label_setLabel {code : Code} {label : Label} (info : LabelInfo)
    (known : label.index < code.labels.size) (other : Label) :
    (code.setLabel label info).label other = if other = label then info else code.label other := by
  unfold Code.label setLabel
  simp only [Array.getElem?_setIfInBounds]
  by_cases same : other = label
  · subst same
    simp [known]
  · have different : ¬ label.index = other.index := by
      intro equal
      apply same
      cases other
      cases label
      simp_all
    simp [same, different]

namespace Linked

variable {code : Code} {pending : List Use} {settled : List Landing}

theorem descending (linked : Linked code pending settled) (distance : Distance)
    (target : Label) : Descending distance (sites pending distance target) := by
  apply List.Pairwise.map
  · intro later earlier below
    exact below
  · apply (linked.descends.filter _).imp_of_mem
    intro later earlier _ member below
    have width : earlier.distance = distance := by
      simp only [List.mem_filter, decide_eq_true_eq] at member
      exact member.2.2
    rw [Field.finish, width] at below
    exact below

/-- A buffer with the same table of labels and the same bytes in all fields. -/
theorem congr {after : Code} (linked : Linked code pending settled)
    (sound : after.error = none) (labels : after.labels = code.labels)
    (grows : code.size ≤ after.size)
    (fields : ∀ field : Field, field.finish ≤ code.size →
      after.displacement field = code.displacement field) :
    Linked after pending settled := by
  constructor
  · exact sound
  · exact linked.descends
  · exact linked.apart
  · intro use member
    exact Nat.le_trans (linked.waits use member) grows
  · intro landing member
    exact Nat.le_trans (linked.leads landing member) grows
  · intro distance target
    rw [← linked.latest distance target]
    simp only [Code.label, labels]
  · intro distance target
    apply (linked.chained distance target).congr
    intro site member
    exact fields _ (linked.waits _ (mem_sites.mp member))
  · intro landing member
    rw [fields _ (linked.leads landing member)]
    exact linked.reads landing member
  · intro use member
    rw [← linked.unbound use member]
    simp only [Code.label, labels]
  · intro target position bound
    simp only [Code.label, labels] at bound
    exact Nat.le_trans (linked.behind target position bound) grows

theorem append (linked : Linked code pending settled) (bytes : List UInt8) :
    Linked (code.append bytes) pending settled := by
  apply linked.congr
  · rw [error_append]
    exact linked.sound
  · exact labels_append code bytes
  · rw [size_append linked.sound]
    omega
  · intro field inside
    exact displacement_append inside

theorem land {opcode : List UInt8} {distance : Distance} {position : Nat}
    (linked : Linked code pending settled)
    (fits : distance.Fits (position - (code.size + opcode.length + distance.width : Nat))) :
    Linked
      (code.append (opcode ++
        distance.bytes (position - (code.size + opcode.length + distance.width : Nat))))
      pending (⟨⟨distance, code.size + opcode.length⟩, position⟩ :: settled) := by
  have grown := linked.append
    (opcode ++ distance.bytes (position - (code.size + opcode.length + distance.width : Nat)))
  constructor
  · exact grown.sound
  · exact grown.descends
  · intro use member landing landed
    cases List.mem_cons.mp landed with
    | inl here =>
      subst here
      have before := linked.waits use member
      exact .inl (Nat.le_trans before (Nat.le_add_right _ _))
    | inr there => exact linked.apart use member landing there
  · exact grown.waits
  · intro landing landed
    cases List.mem_cons.mp landed with
    | inl here =>
      subst here
      rw [size_append linked.sound]
      simp only [Field.finish, List.length_append, Distance.length_bytes]
      omega
    | inr there => exact grown.leads landing there
  · exact grown.latest
  · exact grown.chained
  · intro landing landed
    cases List.mem_cons.mp landed with
    | inl here =>
      subst here
      apply Holds.displacement fits
      exact (holds_append_iff.mp (holds_append linked.sound)).2
    | inr there => exact grown.reads landing there
  · exact grown.unbound
  · exact grown.behind

theorem link {distance : Distance} {target : Label} (linked : Linked code pending settled)
    (known : target.index < code.labels.size)
    (unbound : (code.label target).isBound = false)
    (fits : distance.Fits (code.reference target distance)) :
    Linked (code.link target distance) (⟨⟨distance, code.size⟩, target⟩ :: pending) settled := by
  have grown := linked.append (distance.bytes (code.reference target distance))
  have known' : target.index <
      (code.append (distance.bytes (code.reference target distance))).labels.size := by
    rw [labels_append]
    exact known
  have chains : ∀ other label,
      Chained (code.link target distance) other (sites pending other label) := by
    intro other label
    apply Chained.congr ?_ (grown.chained other label)
    intro site _
    rfl
  constructor
  · exact grown.sound
  · apply List.Pairwise.cons
    · intro use member
      exact linked.waits use member
    · exact linked.descends
  · intro use member landing landed
    cases List.mem_cons.mp member with
    | inl here =>
      subst here
      exact .inr (linked.leads landing landed)
    | inr there => exact linked.apart use there landing landed
  · intro use member
    cases List.mem_cons.mp member with
    | inl here =>
      subst here
      change code.size + distance.width ≤ (code.append _).size
      exact Nat.le_of_eq (by rw [size_append linked.sound, Distance.length_bytes])
    | inr there => exact grown.waits use there
  · exact grown.leads
  · intro other label
    rw [Code.link, label_setLabel _ known', sites_cons]
    by_cases sameLabel : label = target
    · subst sameLabel
      rw [if_pos rfl]
      by_cases sameWidth : distance = other
      · subst sameWidth
        simp
      · rw [LabelInfo.latest_use_of_ne _ _ sameWidth, linked.latest]
        simp [sameWidth]
    · have swapped : ¬ target = label := fun equal => sameLabel equal.symm
      rw [if_neg sameLabel, grown.latest]
      simp [swapped]
  · intro other label
    rw [sites_cons]
    split
    · rename_i here
      obtain ⟨rfl, rfl⟩ := here
      constructor
      · rw [← linked.latest]
        apply previous_of_reference
        exact (holds_append linked.sound).displacement fits
      · exact chains _ _
    · exact chains _ _
  · exact grown.reads
  · intro use member
    rw [Code.link, label_setLabel _ known']
    by_cases same : use.target = target
    · rw [if_pos same]
      exact LabelInfo.isBound_use _ _ _ unbound
    · rw [if_neg same]
      cases List.mem_cons.mp member with
      | inl here => exact absurd (congrArg Use.target here) same
      | inr there => exact grown.unbound use there
  · intro label position bound
    rw [Code.link, label_setLabel _ known'] at bound
    by_cases same : label = target
    · rw [if_pos same] at bound
      have still := LabelInfo.isBound_use _ code.size distance unbound
      rw [LabelInfo.isBound, bound] at still
      cases still
    · rw [if_neg same] at bound
      exact grown.behind label position bound

end Linked

end Code

end WasmX64

namespace WasmX64.Code

/-- One of the two walks along the uses of a label, from the latest use on. -/
def walk (code : Code) (position : Nat) (first : Option Nat) : Distance → Code
  | .far => first.elim code fun site => code.fillFar position code.chainBound site
  | .near => first.elim code fun site => code.fillNear position code.chainBound site

/-- One round of a walk. -/
def round (position : Nat) : Distance → Int → Code → Code ⊕ (Int × Code)
  | .far => fun site code => code.farRound position site
  | .near => fun site code => code.nearRound position site

/-- A walk without a bound on its rounds comes to an end. -/
def Walks (position : Nat) (first : Option Nat) (distance : Distance) (before after : Code) :
    Prop :=
  first.elim (after = before) fun site => Ends (round position distance) site before after

/-- Both walks along the uses of a label, to the end of the code. -/
def fillIn (code : Code) (target : Label) : Code :=
  (code.walk code.size ((code.label target).latest .far) .far).walk code.size
    ((code.label target).latest .near) .near

theorem Rewrites.walk (code : Code) (position : Nat) (first : Option Nat) (distance : Distance) :
    Rewrites code (code.walk position first distance) := by
  cases first with
  | none =>
    cases distance with
    | near => exact Rewrites.refl code
    | far => exact Rewrites.refl code
  | some site =>
    cases distance with
    | near => exact fillNear position _ site code
    | far => exact fillFar position _ site code

theorem Rewrites.fillIn (code : Code) (target : Label) : Rewrites code (code.fillIn target) :=
  (Rewrites.walk ..).trans (Rewrites.walk ..)

theorem bind_eq {code : Code} {target : Label} (unbound : (code.label target).isBound = false) :
    code.bind target =
      (code.fillIn target).setLabel target { state := .bound code.size, near := none } := by
  unfold bind fillIn LabelInfo.latest
  generalize code.label target = info at unbound ⊢
  cases info with
  | mk state near =>
    cases state with
    | bound position => cases unbound
    | unused =>
      cases near with
      | none => rfl
      | some site => rfl
    | linked far =>
      cases near with
      | none => rfl
      | some site => rfl

theorem label_bind {code : Code} {target : Label} (known : target.index < code.labels.size)
    (unbound : (code.label target).isBound = false) (other : Label) :
    (code.bind target).label other =
      if other = target then { state := .bound code.size, near := none }
      else code.label other := by
  have labels := (Rewrites.fillIn code target).same.labels
  rw [bind_eq unbound, label_setLabel _ (labels ▸ known)]
  simp only [Code.label, labels]

/-- Sites of fields that do not overlap are no more than the bytes before the last one's
end. -/
theorem Descending.length_le {distance : Distance} {sites : List Nat} {size : Nat}
    (descends : Descending distance sites) (inside : ∀ site ∈ sites, site < size) :
    sites.length ≤ size := by
  induction sites generalizing size with
  | nil => exact Nat.zero_le size
  | cons site rest ih =>
    have here := inside site List.mem_cons_self
    have others : rest.length ≤ site := by
      apply ih descends.of_cons
      intro other member
      have below := List.rel_of_pairwise_cons descends member
      have positive := distance.width_pos
      omega
    rw [List.length_cons]
    omega

/-- An offset in a field that waits for a label. -/
def Touches (pending : List Use) (target : Label) (offset : Nat) : Prop :=
  ∃ use ∈ pending, use.target = target ∧ use.Covers offset

/-- A one-byte field that waits for a label and cannot reach a position. -/
def Strays (pending : List Use) (target : Label) (position : Nat) : Prop :=
  ∃ use ∈ pending, use.target = target ∧ use.distance = .near ∧ use.finish + 127 < position

theorem within_sites {pending : List Use} {distance : Distance} {target : Label} {offset : Nat}
    (within : Within distance (sites pending distance target) offset) :
    Touches pending target offset := by
  obtain ⟨site, member, covered⟩ := within
  exact ⟨_, mem_sites.mp member, rfl, covered⟩

namespace Linked

variable {code : Code} {pending : List Use} {settled : List Landing} {target : Label}

theorem apart_of_ne (linked : Linked code pending settled) {first second : Use}
    (here : first ∈ pending) (there : second ∈ pending) (different : first ≠ second) :
    first.toField.Apart second.toField := by
  have pairs : pending.Pairwise fun left right => left.toField.Apart right.toField := by
    apply linked.descends.imp
    intro later earlier below
    exact .inr below
  have symmetric : Std.Symm fun left right : Use => left.toField.Apart right.toField := by
    constructor
    intro left right apart
    exact apart.symm
  exact pairs.forall here there different

theorem sites_inside (linked : Linked code pending settled) (distance : Distance)
    (target : Label) : ∀ site ∈ sites pending distance target,
      site + distance.width ≤ code.size := by
  intro site member
  exact linked.waits _ (mem_sites.mp member)

/-- There are fewer uses than the walks make rounds. -/
theorem length_sites_le (linked : Linked code pending settled) (distance : Distance)
    (target : Label) : (sites pending distance target).length ≤ code.size := by
  apply (linked.descending distance target).length_le
  intro site member
  have inside := linked.sites_inside distance target site member
  have positive := distance.width_pos
  omega

/-- The walk along the four-byte uses. -/
theorem walk_far (linked : Linked code pending settled) (small : code.size < 2147483648)
    (target : Label) :
    Filled .far code.size (sites pending .far target) code
        (code.walk code.size ((code.label target).latest .far) .far) ∧
      Walks code.size ((code.label target).latest .far) .far code
        (code.walk code.size ((code.label target).latest .far) .far) := by
  have chain := linked.chained .far target
  have descends := linked.descending .far target
  have inside := linked.sites_inside .far target
  have count := linked.length_sites_le .far target
  rw [linked.latest]
  cases found : sites pending .far target with
  | nil => exact ⟨.nil _ _ _, rfl⟩
  | cons site rest =>
    rw [found] at chain descends inside count
    rw [List.length_cons] at count
    apply fillFar_fills chain descends inside
    · omega
    · exact Nat.le_refl _
    · exact linked.sound
    · unfold chainBound
      omega

section Near

variable {middle : Code} (linked : Linked code pending settled)
  (filled : Filled .far code.size (sites pending .far target) code middle)

include linked filled

/-- The walk along the four-byte uses leaves the chain of one-byte uses alone. -/
theorem near_chained : Chained middle .near (sites pending .near target) := by
  apply (linked.chained .near target).congr
  intro site member
  apply filled.same.displacement
  intro offset covered within
  obtain ⟨other, there, inside⟩ := within
  have apart := linked.apart_of_ne (mem_sites.mp member) (mem_sites.mp there) (by simp)
  exact apart.not_covers covered inside

theorem near_inside : ∀ site ∈ sites pending .near target, site + 1 ≤ middle.size := by
  intro site member
  rw [filled.same.size]
  exact linked.sites_inside .near target site member

/-- The walk along the one-byte uses, all of them close. -/
theorem walk_near (close : ¬ Strays pending target code.size) :
    Filled .near code.size (sites pending .near target) middle
        (middle.walk code.size ((code.label target).latest .near) .near) ∧
      Walks code.size ((code.label target).latest .near) .near middle
        (middle.walk code.size ((code.label target).latest .near) .near) := by
  have chain := linked.near_chained filled
  have descends := linked.descending .near target
  have inside := linked.near_inside filled
  have later := linked.sites_inside .near target
  have count := linked.length_sites_le .near target
  have reach : ∀ site ∈ sites pending .near target, code.size ≤ site + 128 := by
    intro site member
    apply Nat.le_of_not_lt
    intro beyond
    exact close ⟨_, mem_sites.mp member, rfl, rfl, Nat.add_right_comm site 1 127 ▸ beyond⟩
  rw [linked.latest]
  cases found : sites pending .near target with
  | nil => exact ⟨.nil _ _ _, rfl⟩
  | cons site rest =>
    rw [found] at chain descends inside count later reach
    rw [List.length_cons] at count
    apply fillNear_fills chain descends inside later reach
    · exact filled.error.trans linked.sound
    · have size := filled.same.size
      unfold chainBound
      omega

/-- The walk along the one-byte uses, one of them too far away. -/
theorem walk_near_strays (strays : Strays pending target code.size) :
    (SameBut (Within .near (sites pending .near target)) middle
        (middle.walk code.size ((code.label target).latest .near) .near) ∧
      (middle.walk code.size ((code.label target).latest .near) .near).error =
        some .nearRange) ∧
      Walks code.size ((code.label target).latest .near) .near middle
        (middle.walk code.size ((code.label target).latest .near) .near) := by
  have chain := linked.near_chained filled
  have descends := linked.descending .near target
  have inside := linked.near_inside filled
  have later := linked.sites_inside .near target
  have count := linked.length_sites_le .near target
  have beyond : ∃ site ∈ sites pending .near target, site + 128 < code.size := by
    obtain ⟨⟨⟨_, site⟩, _⟩, member, rfl, rfl, far⟩ := strays
    exact ⟨site, mem_sites.mpr member, far⟩
  rw [linked.latest]
  cases found : sites pending .near target with
  | nil =>
    rw [found] at beyond
    obtain ⟨_, absent, _⟩ := beyond
    cases absent
  | cons site rest =>
    rw [found] at chain descends inside count later beyond
    rw [List.length_cons] at count
    rw [and_assoc]
    apply fillNear_refuses chain descends inside later beyond
    · exact filled.error.trans linked.sound
    · have size := filled.same.size
      unfold chainBound
      omega

end Near

/-- Both walks write into fields of the label only. -/
theorem fillIn_same (linked : Linked code pending settled) (target : Label)
    (small : code.size < 2147483648) :
    SameBut (Touches pending target) code (code.fillIn target) := by
  have far := (linked.walk_far small target).1
  apply (far.same.mono fun offset => within_sites).trans
  by_cases strays : Strays pending target code.size
  · exact (linked.walk_near_strays far strays).1.1.mono fun offset => within_sites
  · exact (linked.walk_near far strays).1.same.mono fun offset => within_sites

/-- Both walks come to an end. -/
theorem fillIn_walks (linked : Linked code pending settled) (small : code.size < 2147483648) :
    ∃ middle, Walks code.size ((code.label target).latest .far) .far code middle ∧
      Walks code.size ((code.label target).latest .near) .near middle (code.fillIn target) := by
  obtain ⟨far, ends⟩ := linked.walk_far small target
  refine ⟨_, ends, ?_⟩
  by_cases strays : Strays pending target code.size
  · exact (linked.walk_near_strays far strays).2
  · exact (linked.walk_near far strays).2

theorem fillIn_error (linked : Linked code pending settled) (small : code.size < 2147483648) :
    (code.fillIn target).error = some .nearRange ↔ Strays pending target code.size := by
  have far := (linked.walk_far small target).1
  by_cases strays : Strays pending target code.size
  · exact iff_of_true (linked.walk_near_strays far strays).1.2 strays
  · have error := (linked.walk_near far strays).1.error
    apply iff_of_false _ strays
    rw [fillIn, error, far.error, linked.sound]
    simp

theorem fillIn_reads (linked : Linked code pending settled) (small : code.size < 2147483648)
    (close : ¬ Strays pending target code.size) {use : Use} (member : use ∈ pending)
    (same : use.target = target) :
    (code.fillIn target).displacement use.toField = code.size - use.finish := by
  have far := (linked.walk_far small target).1
  have near := (linked.walk_near far close).1
  cases use with
  | mk field label =>
    cases field with
    | mk distance site =>
      subst same
      cases distance with
      | near => exact near.reads site (mem_sites.mpr member)
      | far =>
        rw [← Filled.reads far site (mem_sites.mpr member)]
        apply near.same.displacement
        intro offset covered within
        obtain ⟨other, there, inside⟩ := within
        have apart := linked.apart_of_ne member (mem_sites.mp there) (by simp)
        exact apart.not_covers covered inside

/-- Fields that lead somewhere, and fields that wait for other labels, are not touched. -/
theorem fillIn_displacement (linked : Linked code pending settled)
    (small : code.size < 2147483648) {field : Field}
    (apart : ∀ use ∈ pending, use.target = target → use.toField.Apart field) :
    (code.fillIn target).displacement field = code.displacement field := by
  apply (linked.fillIn_same target small).displacement
  intro offset covered touched
  obtain ⟨use, member, same, inside⟩ := touched
  exact (apart use member same).not_covers inside covered

theorem bind (linked : Linked code pending settled) (small : code.size < 2147483648)
    (known : target.index < code.labels.size) (unbound : (code.label target).isBound = false)
    (close : ¬ Strays pending target code.size) :
    Linked (code.bind target) (waiting pending target)
      (landings pending target code.size ++ settled) := by
  have same := linked.fillIn_same target small
  have far := (linked.walk_far small target).1
  have near := (linked.walk_near far close).1
  have displacement : ∀ field, (code.bind target).displacement field =
      (code.fillIn target).displacement field := by
    intro field
    rw [bind_eq unbound]
    rfl
  have size : (code.bind target).size = code.size := by
    rw [bind_eq unbound]
    exact same.size
  have kept : ∀ use ∈ waiting pending target, use ∈ pending ∧ use.target ≠ target := by
    intro use member
    simpa [waiting] using member
  have landed : ∀ landing ∈ landings pending target code.size, ∃ use ∈ pending,
      use.target = target ∧ landing = ⟨use.toField, code.size⟩ := by
    intro landing member
    simp only [landings, List.mem_map, List.mem_filter, decide_eq_true_eq] at member
    obtain ⟨use, ⟨there, here⟩, equal⟩ := member
    exact ⟨use, there, here, equal.symm⟩
  have different : ∀ use ∈ waiting pending target, ∀ other ∈ pending, other.target = target →
      other.toField.Apart use.toField := by
    intro use member other there here
    apply linked.apart_of_ne there (kept use member).1
    intro equal
    exact (kept use member).2 (equal ▸ here)
  constructor
  · rw [bind_eq unbound]
    exact (near.error.trans far.error).trans linked.sound
  · exact linked.descends.filter _
  · intro use member landing found
    cases List.mem_append.mp found with
    | inl new =>
      obtain ⟨other, there, here, rfl⟩ := landed landing new
      exact (different use member other there here).symm
    | inr old => exact linked.apart use (kept use member).1 landing old
  · intro use member
    rw [size]
    exact linked.waits use (kept use member).1
  · intro landing found
    rw [size]
    cases List.mem_append.mp found with
    | inl new =>
      obtain ⟨other, there, _, rfl⟩ := landed landing new
      exact linked.waits other there
    | inr old => exact linked.leads landing old
  · intro distance other
    rw [label_bind known unbound, sites_waiting]
    split
    · cases distance with
      | near => rfl
      | far => rfl
    · exact linked.latest distance other
  · intro distance other
    rw [sites_waiting]
    split
    · trivial
    · rename_i elsewhere
      apply Chained.congr ?_ (linked.chained distance other)
      intro site member
      rw [displacement]
      apply linked.fillIn_displacement small
      intro use there here
      apply linked.apart_of_ne there (mem_sites.mp member)
      intro equal
      rw [equal] at here
      exact elsewhere here
  · intro landing found
    rw [displacement]
    cases List.mem_append.mp found with
    | inl new =>
      obtain ⟨other, there, here, rfl⟩ := landed landing new
      exact linked.fillIn_reads small close there here
    | inr old =>
      rw [linked.fillIn_displacement small]
      · exact linked.reads landing old
      · intro use there _
        exact linked.apart use there landing old
  · intro use member
    rw [label_bind known unbound, if_neg (kept use member).2]
    exact linked.unbound use (kept use member).1
  · intro other position bound
    rw [size]
    rw [label_bind known unbound] at bound
    split at bound
    · cases bound
      exact Nat.le_refl _
    · exact linked.behind other position bound

end Linked

end WasmX64.Code
