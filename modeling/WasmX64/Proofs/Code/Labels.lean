import Mathlib.Data.List.Induction
import WasmX64.Proofs.Code.Jump

/-!
# Label resolution

Sequences of operations on one buffer with any number of labels.  Whatever the order of
the operations, as long as no error occurs every use of a label that has a position leads
to it.  Fixing a label at the end of such a buffer touches fields of that label only, ends,
and fails exactly when a one-byte use is out of reach.
-/

namespace WasmX64

/-- An operation on a buffer with a number of labels. -/
inductive Edit (labels : Nat) where
  | emit (bytes : List UInt8)
  | jump (target : Fin labels) (distance : Distance)
  | jumpIf (condition : Condition) (target : Fin labels) (distance : Distance)
  | linkFar (target : Fin labels)
  | linkNear (target : Fin labels)
  | bind (target : Fin labels)
deriving DecidableEq, Repr

namespace Edit

variable {labels : Nat}

/-- The buffer after an operation. -/
def apply (code : Code) : Edit labels → Code
  | .emit bytes => code.append bytes
  | .jump target distance => code.jump ⟨target⟩ distance
  | .jumpIf condition target distance => code.jumpIf condition ⟨target⟩ distance
  | .linkFar target => code.linkFar ⟨target⟩
  | .linkNear target => code.linkNear ⟨target⟩
  | .bind target => code.bind ⟨target⟩

/-- The displacement of a jump, which ends it: one byte in a jump of two bytes, four bytes
in a longer one. -/
def tail (before after : Code) : Field :=
  if after.size = before.size + 2 then ⟨.near, after.size - 1⟩ else ⟨.far, after.size - 4⟩

/-- The use of a label that an operation adds to the code. -/
def use? (before after : Code) : Edit labels → Option Use
  | .emit _ => none
  | .jump target _ => some ⟨tail before after, ⟨target⟩⟩
  | .jumpIf _ target _ => some ⟨tail before after, ⟨target⟩⟩
  | .linkFar target => some ⟨⟨.far, before.size⟩, ⟨target⟩⟩
  | .linkNear target => some ⟨⟨.near, before.size⟩, ⟨target⟩⟩
  | .bind _ => none

/-- The buffer after one more operation, with all uses of labels so far. -/
def record (log : Code × List Use) (edit : Edit labels) : Code × List Use :=
  let after := edit.apply log.1
  (after, (edit.use? log.1 after).toList ++ log.2)

/-- The buffer after a sequence of operations, with all uses of labels. -/
def run (edits : List (Edit labels)) : Code × List Use :=
  edits.foldl record ({ labels := Array.replicate labels {} }, [])

end Edit

/-- A buffer with all uses of its labels so far: those of a label without position wait
for it and the others lead to its position. -/
structure Tracked (labels : Nat) (code : Code) (uses pending : List Use)
    (settled : List Landing) : Prop where
  linked : code.Linked pending settled
  count : labels ≤ code.labels.size
  waits : ∀ use ∈ pending, use ∈ uses
  resolved : ∀ use ∈ uses, use ∈ pending ∨
    ∃ position, (code.label use.target).state = .bound position ∧
      ⟨use.toField, position⟩ ∈ settled

namespace Tracked

variable {labels : Nat} {code after : Code} {uses pending : List Use} {settled : List Landing}

theorem start (labels : Nat) :
    Tracked labels { labels := Array.replicate labels {} } [] [] [] := by
  have fresh : ∀ target, Code.label { labels := Array.replicate labels {} } target = {} := by
    intro target
    simp only [Code.label, Array.getElem?_replicate]
    split
    · rfl
    · rfl
  constructor
  · constructor
    · rfl
    · exact .nil
    · simp
    · simp
    · simp
    · intro distance target
      rw [fresh]
      cases distance with
      | near => rfl
      | far => rfl
    · intro distance target
      trivial
    · simp
    · simp
    · intro target position bound
      rw [fresh] at bound
      cases bound
  · exact Nat.le_of_eq Array.size_replicate.symm
  · simp
  · simp

theorem known (tracked : Tracked labels code uses pending settled) (target : Fin labels) :
    target.1 < code.labels.size :=
  Nat.lt_of_lt_of_le target.2 tracked.count

theorem keeps (tracked : Tracked labels code uses pending settled)
    (grown : code.Extends after) {more : List Landing}
    (kept : ∀ landing ∈ settled, landing ∈ more) {use : Use} (member : use ∈ uses) :
    use ∈ pending ∨ ∃ position, (after.label use.target).state = .bound position ∧
      ⟨use.toField, position⟩ ∈ more := by
  cases tracked.resolved use member with
  | inl waits => exact .inl waits
  | inr leads =>
    obtain ⟨position, bound, found⟩ := leads
    exact .inr ⟨position, grown.bound _ _ bound, kept _ found⟩

theorem emit (tracked : Tracked labels code uses pending settled) (bytes : List UInt8) :
    Tracked labels (code.append bytes) uses pending settled := by
  have grown := Code.Extends.append code bytes
  constructor
  · exact tracked.linked.append bytes
  · exact Nat.le_trans tracked.count grown.count
  · exact tracked.waits
  · intro use member
    exact tracked.keeps grown (fun _ found => found) member

theorem wait (tracked : Tracked labels code uses pending settled)
    (grown : code.Extends after) {use : Use}
    (linked : after.Linked (use :: pending) settled) :
    Tracked labels after (use :: uses) (use :: pending) settled := by
  constructor
  · exact linked
  · exact Nat.le_trans tracked.count grown.count
  · intro other member
    cases List.mem_cons.mp member with
    | inl here => exact List.mem_cons.mpr (.inl here)
    | inr there => exact List.mem_cons_of_mem _ (tracked.waits other there)
  · intro other member
    cases List.mem_cons.mp member with
    | inl here => exact .inl (List.mem_cons.mpr (.inl here))
    | inr there =>
      exact (tracked.keeps grown (fun _ found => found) there).imp_left
        (List.mem_cons_of_mem _)

theorem land (tracked : Tracked labels code uses pending settled)
    (grown : code.Extends after) {use : Use} {position : Nat}
    (bound : (code.label use.target).state = .bound position)
    (linked : after.Linked pending (⟨use.toField, position⟩ :: settled)) :
    Tracked labels after (use :: uses) pending (⟨use.toField, position⟩ :: settled) := by
  constructor
  · exact linked
  · exact Nat.le_trans tracked.count grown.count
  · intro other member
    exact List.mem_cons_of_mem _ (tracked.waits other member)
  · intro other member
    cases List.mem_cons.mp member with
    | inl here =>
      subst here
      exact .inr ⟨position, grown.bound _ _ bound, List.mem_cons_self⟩
    | inr there => exact tracked.keeps grown (fun _ => List.mem_cons_of_mem _) there

/-- A jump with an opcode of one byte before a one-byte displacement. -/
theorem jumpWith (tracked : Tracked labels code uses pending settled) {short long : List UInt8}
    {distance : Distance} (target : Fin labels) (single : short.length = 1)
    (fine : (code.jumpWith short long ⟨target⟩ distance).error = none)
    (small : (code.jumpWith short long ⟨target⟩ distance).size < 2147483648) :
    ∃ pending settled, Tracked labels (code.jumpWith short long ⟨target⟩ distance)
      (⟨Edit.tail code (code.jumpWith short long ⟨target⟩ distance), ⟨target⟩⟩ :: uses)
      pending settled := by
  have grown := Code.Extends.jumpWith code short long ⟨target⟩ distance
  obtain ⟨width, size, outcome⟩ := tracked.linked.jumpWith (tracked.known target) fine small
  have tail : Edit.tail code (code.jumpWith short long ⟨target⟩ distance) =
      ⟨width, code.size + (Code.opcode short long width).length⟩ := by
    unfold Edit.tail
    rw [size]
    cases width with
    | near => simp [Code.opcode, Distance.width, single]
    | far =>
      have longer : ¬ code.size + long.length + 4 = code.size + 2 := by omega
      simp [Code.opcode, Distance.width, longer]
  rw [tail]
  cases outcome with
  | inl waits => exact ⟨_, _, tracked.wait grown waits.2⟩
  | inr lands =>
    obtain ⟨position, bound, linked⟩ := lands
    exact ⟨_, _, tracked.land grown bound linked⟩

theorem await (tracked : Tracked labels code uses pending settled) (distance : Distance)
    (target : Fin labels) (fine : (code.await ⟨target⟩ distance).error = none)
    (small : (code.await ⟨target⟩ distance).size < 2147483648) :
    Tracked labels (code.await ⟨target⟩ distance) (⟨⟨distance, code.size⟩, ⟨target⟩⟩ :: uses)
      (⟨⟨distance, code.size⟩, ⟨target⟩⟩ :: pending) settled := by
  have grown : code.Extends (code.await ⟨target⟩ distance) := by
    cases distance with
    | near => exact .linkNear code _
    | far => exact .linkFar code _
  apply tracked.wait grown
  have same := Code.append_nil code
  have waits := (tracked.linked.await (tracked.known target) (same.symm ▸ fine)
    (same.symm ▸ small)).2
  rw [same] at waits
  exact waits

theorem bind (tracked : Tracked labels code uses pending settled) (target : Fin labels)
    (fine : (code.bind ⟨target⟩).error = none) (small : code.size < 2147483648) :
    Tracked labels (code.bind ⟨target⟩) uses (Code.waiting pending ⟨target⟩)
      (Code.landings pending ⟨target⟩ code.size ++ settled) := by
  have grown := Code.Extends.bind code ⟨target⟩
  obtain ⟨unbound, close⟩ := tracked.linked.bind_fine small fine
  have fixed := Code.label_bind (tracked.known target) unbound
  constructor
  · exact tracked.linked.bind small (tracked.known target) unbound close
  · exact Nat.le_trans tracked.count grown.count
  · intro use member
    exact tracked.waits use (List.mem_filter.mp member).1
  · intro use member
    by_cases same : use.target = ⟨target⟩
    · right
      refine ⟨code.size, by rw [fixed, if_pos same], ?_⟩
      cases tracked.resolved use member with
      | inl waits =>
        apply List.mem_append_left
        exact List.mem_map_of_mem (List.mem_filter.mpr ⟨waits, by simpa using same⟩)
      | inr leads =>
        obtain ⟨position, bound, _⟩ := leads
        rw [same] at bound
        rw [LabelInfo.isBound, bound] at unbound
        cases unbound
    · apply (tracked.keeps grown (fun _ => List.mem_append_right _) member).imp_left
      intro waits
      exact List.mem_filter.mpr ⟨waits, by simpa using same⟩

theorem apply (tracked : Tracked labels code uses pending settled) (edit : Edit labels)
    (fine : (edit.apply code).error = none) (small : (edit.apply code).size < 2147483648) :
    ∃ pending settled, Tracked labels (edit.apply code)
      ((edit.use? code (edit.apply code)).toList ++ uses) pending settled := by
  cases edit with
  | emit bytes => exact ⟨_, _, tracked.emit bytes⟩
  | jump target distance => exact tracked.jumpWith target rfl fine small
  | jumpIf condition target distance => exact tracked.jumpWith target rfl fine small
  | linkFar target => exact ⟨_, _, tracked.await .far target fine small⟩
  | linkNear target => exact ⟨_, _, tracked.await .near target fine small⟩
  | bind target =>
    have shorter := (Code.Extends.bind code ⟨target⟩).size
    exact ⟨_, _, tracked.bind target fine (Nat.lt_of_le_of_lt shorter small)⟩

end Tracked

namespace Edit

variable {labels : Nat}

theorem extends_apply (code : Code) (edit : Edit labels) : code.Extends (edit.apply code) := by
  cases edit with
  | emit bytes => exact .append code bytes
  | jump target distance => exact .jumpWith code _ _ _ _
  | jumpIf condition target distance => exact .jumpWith code _ _ _ _
  | linkFar target => exact .linkFar code _
  | linkNear target => exact .linkNear code _
  | bind target => exact .bind code _

theorem run_concat (edits : List (Edit labels)) (edit : Edit labels) :
    run (edits ++ [edit]) = record (run edits) edit :=
  List.foldl_append

/-- A sequence of operations keeps track of all uses. -/
theorem run_tracked (edits : List (Edit labels)) (fine : (run edits).1.error = none)
    (small : (run edits).1.size < 2147483648) :
    ∃ pending settled, Tracked labels (run edits).1 (run edits).2 pending settled := by
  induction edits using List.reverseRecOn with
  | nil => exact ⟨_, _, Tracked.start labels⟩
  | append_singleton edits edit ih =>
    rw [run_concat] at fine small ⊢
    have grown := extends_apply (run edits).1 edit
    obtain ⟨pending, settled, tracked⟩ :=
      ih (grown.error fine) (Nat.lt_of_le_of_lt grown.size small)
    exact tracked.apply edit fine small

end Edit

/-- What fixing a label at the end of a buffer comes to, with the uses of labels so far. -/
structure Fixes (code : Code) (uses : List Use) (target : Label) : Prop where
  /-- Only fields of the label are written to. -/
  touches : ∀ offset, (code.bind target).bytes[offset]? ≠ code.bytes[offset]? →
    ∃ use ∈ uses, use.target = target ∧ use.Covers offset
  size : (code.bind target).size = code.size
  label : ∀ other, (code.bind target).label other =
    if other = target then { state := .bound code.size, near := none } else code.label other
  /-- The loops along the two chains come to an end without a bound on their rounds. -/
  ends : ∃ middle last,
    Code.Walks code.size ((code.label target).latest .far) .far code middle ∧
      Code.Walks code.size ((code.label target).latest .near) .near middle last ∧
      code.bind target = last.setLabel target { state := .bound code.size, near := none }
  /-- A one-byte use that is more than 127 bytes away is the only error. -/
  error : (code.bind target).error = none ∨ (code.bind target).error = some .nearRange
  strays : (code.bind target).error = some .nearRange ↔
    ∃ use ∈ uses, use.target = target ∧ use.distance = .near ∧
      127 < (code.size : Int) - use.finish
  /-- One more one-byte use is refused only when the latest reaches nothing from here on. -/
  refuses : (code.linkNear target).error = some .nearRange ↔
    ∃ use ∈ uses, use.target = target ∧ use.distance = .near ∧
      (∀ other ∈ uses, other.target = target → other.distance = .near →
        other.site ≤ use.site) ∧
      ∀ position, code.size ≤ position → 127 < (position : Int) - use.finish

namespace Tracked

variable {labels : Nat} {code : Code} {uses pending : List Use} {settled : List Landing}

theorem mem_iff (tracked : Tracked labels code uses pending settled) {use : Use}
    (unbound : (code.label use.target).isBound = false) : use ∈ uses ↔ use ∈ pending := by
  constructor
  · intro member
    cases tracked.resolved use member with
    | inl waits => exact waits
    | inr leads =>
      obtain ⟨position, bound, _⟩ := leads
      rw [LabelInfo.isBound, bound] at unbound
      cases unbound
  · exact tracked.waits use

theorem leads (tracked : Tracked labels code uses pending settled) {use : Use}
    (member : use ∈ uses) {position : Nat}
    (bound : (code.label use.target).state = .bound position) :
    use.finish + code.displacement use.toField = position := by
  cases tracked.resolved use member with
  | inl waits =>
    have unbound := tracked.linked.unbound use waits
    rw [LabelInfo.isBound, bound] at unbound
    cases unbound
  | inr lands =>
    obtain ⟨place, same, found⟩ := lands
    rw [bound] at same
    cases same
    have reads := tracked.linked.reads _ found
    simp only at reads
    omega

theorem strays_iff (tracked : Tracked labels code uses pending settled) {target : Label}
    (unbound : (code.label target).isBound = false) :
    Code.Strays pending target code.size ↔
      ∃ use ∈ uses, use.target = target ∧ use.distance = .near ∧
        127 < (code.size : Int) - use.finish := by
  constructor
  · intro strays
    obtain ⟨use, member, same, near, far⟩ := strays
    exact ⟨use, tracked.waits use member, same, near, by omega⟩
  · intro strays
    obtain ⟨use, member, same, near, far⟩ := strays
    exact ⟨use, (tracked.mem_iff (same ▸ unbound)).mp member, same, near, by omega⟩

theorem refuses_iff (tracked : Tracked labels code uses pending settled) {target : Label}
    (unbound : (code.label target).isBound = false) :
    (code.linkNear target).error = some .nearRange ↔
      ∃ use ∈ uses, use.target = target ∧ use.distance = .near ∧
        (∀ other ∈ uses, other.target = target → other.distance = .near →
          other.site ≤ use.site) ∧
        ∀ position, code.size ≤ position → 127 < (position : Int) - use.finish := by
  have refused : (code.linkNear target).error = some .nearRange ↔
      code.reference target .near < -128 := by
    rw [Code.linkNear_eq unbound]
    split
    · rename_i beyond
      simp [Code.fail, tracked.linked.sound, beyond]
    · rename_i reaches
      rw [Code.link_error, tracked.linked.sound]
      exact iff_of_false (by simp) reaches
  have head := tracked.linked.latest .near target
  have descends := tracked.linked.descending .near target
  rw [refused, Code.reference, head]
  constructor
  · intro beyond
    cases found : Code.sites pending .near target with
    | nil =>
      rw [found] at beyond
      simp at beyond
    | cons site rest =>
      rw [found] at beyond descends
      have first : site ∈ Code.sites pending .near target := found ▸ List.mem_cons_self
      refine ⟨_, tracked.waits _ (Code.mem_sites.mp first), rfl, rfl, ?_, ?_⟩
      · intro other member same near
        have waits := (tracked.mem_iff (same ▸ unbound)).mp member
        have listed : other.site ∈ Code.sites pending .near target := by
          rw [Code.mem_sites, ← same, ← near]
          exact waits
        rw [found] at listed
        cases List.mem_cons.mp listed with
        | inl here => exact Nat.le_of_eq here
        | inr there =>
          have below := List.rel_of_pairwise_cons descends there
          exact Nat.le_of_succ_le below
      · intro position later
        simp only [List.head?_cons, Option.getD_some] at beyond
        simp only [Field.finish, Distance.width]
        omega
  · intro lost
    obtain ⟨use, member, same, near, last, unreached⟩ := lost
    have listed : use.site ∈ Code.sites pending .near target := by
      rw [Code.mem_sites, ← same, ← near]
      exact (tracked.mem_iff (same ▸ unbound)).mp member
    have beyond := unreached code.size (Nat.le_refl _)
    cases found : Code.sites pending .near target with
    | nil => simp [found] at listed
    | cons site rest =>
      have first : site ∈ Code.sites pending .near target := found ▸ List.mem_cons_self
      have before : site ≤ use.site :=
        last _ (tracked.waits _ (Code.mem_sites.mp first)) rfl rfl
      simp only [List.head?_cons, Option.getD_some]
      simp only [Field.finish, near, Distance.width] at beyond
      omega

theorem fixes (tracked : Tracked labels code uses pending settled)
    (small : code.size < 2147483648) (target : Fin labels)
    (unbound : (code.label ⟨target⟩).isBound = false) : Fixes code uses ⟨target⟩ := by
  have linked := tracked.linked
  have same := linked.fillIn_same ⟨target⟩ small
  constructor
  · intro offset changed
    rw [Code.bind_eq unbound] at changed
    by_cases touched : Code.Touches pending ⟨target⟩ offset
    · obtain ⟨use, member, rest⟩ := touched
      exact ⟨use, tracked.waits use member, rest⟩
    · exact absurd (same.bytes offset touched) changed
  · rw [Code.bind_eq unbound]
    exact same.size
  · exact Code.label_bind (tracked.known target) unbound
  · obtain ⟨middle, far, near⟩ := linked.fillIn_walks small
    exact ⟨middle, _, far, near, Code.bind_eq unbound⟩
  · by_cases strays : Code.Strays pending ⟨target⟩ code.size
    · right
      rw [Code.bind_eq unbound]
      exact (linked.fillIn_error small).mpr strays
    · left
      exact (linked.bind small (tracked.known target) unbound strays).sound
  · rw [← tracked.strays_iff unbound, Code.bind_eq unbound]
    exact linked.fillIn_error small
  · exact tracked.refuses_iff unbound

end Tracked

/-- Labels are resolved.  After any sequence of operations that records no error, every use
of a label that has a position leads there, and a label that has none can be fixed. -/
theorem labels_resolved {labels : Nat} (edits : List (Edit labels))
    (fine : (Edit.run edits).1.error = none)
    (small : (Edit.run edits).1.size < 2147483648) :
    (∀ use ∈ (Edit.run edits).2, ∀ position,
        ((Edit.run edits).1.label use.target).state = .bound position →
        use.finish + (Edit.run edits).1.displacement use.toField = position) ∧
      ∀ target : Fin labels, ((Edit.run edits).1.label ⟨target⟩).isBound = false →
        Fixes (Edit.run edits).1 (Edit.run edits).2 ⟨target⟩ := by
  obtain ⟨pending, settled, tracked⟩ := Edit.run_tracked edits fine small
  constructor
  · intro use member position bound
    exact tracked.leads member bound
  · intro target unbound
    exact tracked.fixes small target unbound

/-- Three labels in turns, the last one without position. -/
def crossing : List (Edit 3) :=
  [.jump 0 .far, .jump 1 .near, .emit [0x90], .jumpIf .equal 0 .far, .jump 2 .near,
    .jump 1 .near, .linkFar 2, .bind 1, .jump 1 .far, .linkNear 2, .bind 0, .jumpIf .equal 0 .near]

theorem labels_resolved_crossing :
    (Edit.run crossing).1.error = none ∧ (Edit.run crossing).1.size < 2147483648 ∧
      (∀ use ∈ (Edit.run crossing).2, ∀ position,
        ((Edit.run crossing).1.label use.target).state = .bound position →
        use.finish + (Edit.run crossing).1.displacement use.toField = position) ∧
      Fixes (Edit.run crossing).1 (Edit.run crossing).2 ⟨2⟩ :=
  have fine : (Edit.run crossing).1.error = none := by decide +kernel
  have small : (Edit.run crossing).1.size < 2147483648 := by decide +kernel
  ⟨fine, small, (labels_resolved crossing fine small).1,
    (labels_resolved crossing fine small).2 2 (by decide +kernel)⟩

end WasmX64
