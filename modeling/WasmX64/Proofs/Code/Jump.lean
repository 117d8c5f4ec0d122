import WasmX64.Proofs.Code.Bind

/-!
# Growing buffers

No operation on a buffer withdraws an error, drops a byte, forgets a label or moves a
label that has its position.
-/

namespace WasmX64.Code

/-- A buffer goes on from another one. -/
structure Extends (before after : Code) : Prop where
  error : after.error = none → before.error = none
  size : before.size ≤ after.size
  count : before.labels.size ≤ after.labels.size
  bound : ∀ label position, (before.label label).state = .bound position →
    (after.label label).state = .bound position

/-- A label with a position is neither used nor fixed again. -/
theorem bound_refused {code : Code} {target : Label} {position : Nat}
    (bound : (code.label target).state = .bound position) :
    code.linkFar target = code.fail (.linkAfterBind position) ∧
      code.linkNear target = code.fail (.linkAfterBind position) ∧
      code.bind target = code.fail .labelBound := by
  simp [linkFar, linkNear, Code.bind, bound]

namespace Extends

variable {first second third code : Code} {target : Label}

theorem isBound (grows : Extends first second) (bound : (first.label target).isBound = true) :
    (second.label target).isBound = true := by
  obtain ⟨position, found⟩ := LabelInfo.isBound_iff.mp bound
  exact LabelInfo.isBound_iff.mpr ⟨position, grows.bound _ _ found⟩

theorem refl (code : Code) : Extends code code := by
  constructor
  · exact id
  · exact Nat.le_refl _
  · exact Nat.le_refl _
  · intro label position bound
    exact bound

theorem trans (left : Extends first second) (right : Extends second third) :
    Extends first third := by
  constructor
  · intro fine
    exact left.error (right.error fine)
  · exact Nat.le_trans left.size right.size
  · exact Nat.le_trans left.count right.count
  · intro label position bound
    exact right.bound label position (left.bound label position bound)

/-- Operations that leave the table of labels alone. -/
theorem of_labels (error : second.error = none → first.error = none)
    (size : first.size ≤ second.size) (labels : second.labels = first.labels) :
    Extends first second := by
  constructor
  · exact error
  · exact size
  · exact Nat.le_of_eq (congrArg Array.size labels.symm)
  · intro label position bound
    simp only [Code.label, labels]
    exact bound

theorem append (code : Code) (bytes : List UInt8) : Extends code (code.append bytes) := by
  apply of_labels
  · rw [error_append]
    exact id
  · cases failed : code.error with
    | some error => simp [Code.append, failed]
    | none =>
      rw [size_append failed]
      exact Nat.le_add_right _ _
  · exact labels_append code bytes

theorem of_rewrites (rewrites : Rewrites first second) : Extends first second :=
  of_labels rewrites.error (Nat.le_of_eq rewrites.same.size.symm) rewrites.same.labels

theorem fail (code : Code) (error : CodeError) : Extends code (code.fail error) :=
  of_rewrites (.fail code error)

theorem patch (code : Code) (offset : Int) (bytes : List UInt8) :
    Extends code (code.patch offset bytes) :=
  of_rewrites (.patch code offset bytes)

/-- A label without position gets new contents. -/
theorem setLabel (info : LabelInfo) (unbound : (code.label target).isBound = false) :
    Extends code (code.setLabel target info) := by
  constructor
  · exact id
  · exact Nat.le_refl _
  · simp [Code.setLabel]
  · intro label position bound
    simp only [Code.label, Code.setLabel, Array.getElem?_setIfInBounds]
    split
    · rename_i same
      have equal : target = label := by
        cases target
        cases label
        exact congrArg Label.mk same
      rw [equal, LabelInfo.isBound, bound] at unbound
      cases unbound
    · exact bound

theorem link {distance : Distance} (unbound : (code.label target).isBound = false) :
    Extends code (code.link target distance) := by
  apply (append code _).trans
  apply setLabel
  simp only [Code.label, labels_append] at unbound ⊢
  exact unbound

theorem linkFar (code : Code) (target : Label) : Extends code (code.linkFar target) := by
  cases bound : (code.label target).isBound with
  | true =>
    obtain ⟨position, state⟩ := LabelInfo.isBound_iff.mp bound
    rw [(bound_refused state).1]
    exact fail code _
  | false =>
    rw [linkFar_eq bound]
    exact link bound

theorem linkNear (code : Code) (target : Label) : Extends code (code.linkNear target) := by
  cases bound : (code.label target).isBound with
  | true =>
    obtain ⟨position, state⟩ := LabelInfo.isBound_iff.mp bound
    rw [(bound_refused state).2.1]
    exact fail code _
  | false =>
    rw [linkNear_eq bound]
    split
    · exact fail code _
    · exact link bound

theorem bind (code : Code) (target : Label) : Extends code (code.bind target) := by
  cases bound : (code.label target).isBound with
  | true =>
    obtain ⟨position, state⟩ := LabelInfo.isBound_iff.mp bound
    rw [(bound_refused state).2.2]
    exact fail code _
  | false =>
    rw [bind_eq bound]
    apply (of_rewrites (.fillIn code target)).trans
    apply setLabel
    rw [Code.label, (Rewrites.fillIn code target).same.labels]
    exact bound

theorem jumpWith (code : Code) (short long : List UInt8) (target : Label)
    (distance : Distance) : Extends code (code.jumpWith short long target distance) := by
  unfold Code.jumpWith
  split
  · dsimp only
    split
    · exact append code _
    · split
      · exact fail code _
      · exact append code _
  · split
    · exact (append code short).trans (linkNear _ target)
    · exact (append code long).trans (linkFar _ target)

theorem emit (code : Code) (instruction : Instruction) : Extends code (code.emit instruction) := by
  unfold Code.emit
  split
  · exact append code _
  · exact fail code _

end Extends

end WasmX64.Code

/-! ## Uses of labels

Jumps and placeholders behind the code.  One that records no error either leads to the
position of its label or joins the fields that wait for it.
-/

namespace WasmX64

namespace Code

/-- What stands before the displacement of a jump. -/
def opcode (short long : List UInt8) : Distance → List UInt8
  | .near => short
  | .far => long

/-- A placeholder for a label, if the label can still be used. -/
def await (code : Code) (target : Label) : Distance → Code
  | .near => code.linkNear target
  | .far => code.linkFar target

/-- A jump to a position behind the end of the code by a displacement. -/
def land (code : Code) (opcode : List UInt8) (distance : Distance) (position : Nat) : Code :=
  code.append (opcode ++
    distance.bytes (position - (code.size + opcode.length + distance.width : Nat)))

section Errors

variable {code : Code} {target : Label} {distance : Distance}

theorem link_error : (code.link target distance).error = code.error :=
  error_append

/-- A use that is not refused is a placeholder that reaches the use before it. -/
theorem await_fine (fine : (code.await target distance).error = none) :
    (code.label target).isBound = false ∧
      (distance = .near → ¬ code.reference target .near < -128) ∧
      code.await target distance = code.link target distance := by
  have unbound : (code.label target).isBound = false := by
    apply Bool.eq_false_iff.mpr
    intro bound
    obtain ⟨position, state⟩ := LabelInfo.isBound_iff.mp bound
    obtain ⟨far, near, _⟩ := bound_refused state
    cases distance with
    | near =>
      rw [await, near] at fine
      exact fail_error code _ fine
    | far =>
      rw [await, far] at fine
      exact fail_error code _ fine
  refine ⟨unbound, ?_⟩
  cases distance with
  | far => exact ⟨(by simp), linkFar_eq unbound⟩
  | near =>
    simp only [await, linkNear_eq unbound] at fine ⊢
    split at fine
    · exact absurd fine (fail_error code _)
    · rename_i reaches
      exact ⟨fun _ => reaches, if_neg reaches⟩

end Errors

section Jumps

variable {code : Code} {target : Label} {short long : List UInt8} {distance : Distance}

theorem jumpWith_unbound (unbound : (code.label target).isBound = false) :
    code.jumpWith short long target distance =
      (code.append (opcode short long distance)).await target distance := by
  unfold jumpWith LabelInfo.isBound at *
  generalize (code.label target).state = state at unbound ⊢
  cases state with
  | bound position => cases unbound
  | unused =>
    cases distance with
    | near => rfl
    | far => rfl
  | linked site =>
    cases distance with
    | near => rfl
    | far => rfl

theorem jumpWith_bound {position : Nat} (bound : (code.label target).state = .bound position)
    (fine : (code.jumpWith short long target distance).error = none) :
    (code.jumpWith short long target distance = code.land short .near position ∧
      Distance.near.Fits (position - (code.size + short.length + 1 : Nat))) ∨
      code.jumpWith short long target distance = code.land long .far position := by
  have shorter : (position : Int) - code.size - (short.length + 1) =
      position - (code.size + short.length + 1 : Nat) := by omega
  have longer : (position : Int) - code.size - (long.length + 4) =
      position - (code.size + long.length + 4 : Nat) := by omega
  unfold jumpWith at fine ⊢
  simp only [bound, shorter, longer] at fine ⊢
  split
  · rename_i fits
    left
    refine ⟨rfl, ?_⟩
    simpa [fitsInt8, Distance.Fits] using fits
  · rename_i misfits
    rw [if_neg misfits] at fine
    split
    · rename_i near
      rw [if_pos near] at fine
      exact absurd fine (fail_error code _)
    · exact .inr rfl

end Jumps

namespace Linked

variable {code : Code} {pending : List Use} {settled : List Landing} {target : Label}
  {short long : List UInt8} {distance : Distance}

theorem latest_le (linked : Linked code pending settled) {site : Nat}
    (found : (code.label target).latest distance = some site) : site ≤ code.size := by
  rw [linked.latest] at found
  have inside := linked.sites_inside distance target site (List.mem_of_mem_head? found)
  omega

theorem reference_fits (linked : Linked code pending settled)
    (small : code.size < 2147483648)
    (close : distance = .near → ¬ code.reference target .near < -128) :
    distance.Fits (code.reference target distance) := by
  have before : ((code.label target).latest distance).getD code.size ≤ code.size := by
    cases found : (code.label target).latest distance with
    | none => exact Nat.le_refl _
    | some site => exact linked.latest_le found
  cases distance with
  | far =>
    simp only [reference, Distance.Fits]
    omega
  | near =>
    have close := close rfl
    simp only [reference, Distance.Fits] at close ⊢
    omega

/-- A label is fixed without error only if it had no position and all its one-byte uses
are close. -/
theorem bind_fine (linked : Linked code pending settled) (small : code.size < 2147483648)
    (fine : (code.bind target).error = none) :
    (code.label target).isBound = false ∧ ¬ Strays pending target code.size := by
  have unbound : (code.label target).isBound = false := by
    apply Bool.eq_false_iff.mpr
    intro bound
    obtain ⟨position, state⟩ := LabelInfo.isBound_iff.mp bound
    rw [(bound_refused state).2.2] at fine
    exact fail_error code _ fine
  refine ⟨unbound, ?_⟩
  intro strays
  have error := (linked.fillIn_error small).mpr strays
  rw [bind_eq unbound] at fine
  cases error.symm.trans fine

/-- A use behind an opcode joins the fields that wait. -/
theorem await {opcode : List UInt8} (linked : Linked code pending settled)
    (known : target.index < code.labels.size)
    (fine : ((code.append opcode).await target distance).error = none)
    (small : ((code.append opcode).await target distance).size < 2147483648) :
    ((code.append opcode).await target distance).size =
        code.size + opcode.length + distance.width ∧
      Linked ((code.append opcode).await target distance)
        (⟨⟨distance, code.size + opcode.length⟩, target⟩ :: pending) settled := by
  have grown := linked.append opcode
  obtain ⟨unbound, close, same⟩ := await_fine fine
  rw [same] at small ⊢
  have size : ((code.append opcode).link target distance).size =
      code.size + opcode.length + distance.width := by
    change ((code.append opcode).append _).size = _
    rw [size_append grown.sound, size_append linked.sound, Distance.length_bytes]
  refine ⟨size, ?_⟩
  rw [← size_append linked.sound]
  apply grown.link
  · rw [labels_append]
    exact known
  · exact unbound
  · apply grown.reference_fits _ close
    rw [size_append linked.sound]
    omega

theorem jumpWith (linked : Linked code pending settled)
    (known : target.index < code.labels.size)
    (fine : (code.jumpWith short long target distance).error = none)
    (small : (code.jumpWith short long target distance).size < 2147483648) :
    ∃ width, (code.jumpWith short long target distance).size =
        code.size + (opcode short long width).length + width.width ∧
      ((code.label target).isBound = false ∧
          Linked (code.jumpWith short long target distance)
            (⟨⟨width, code.size + (opcode short long width).length⟩, target⟩ :: pending)
            settled ∨
        ∃ position, (code.label target).state = .bound position ∧
          Linked (code.jumpWith short long target distance) pending
            (⟨⟨width, code.size + (opcode short long width).length⟩, position⟩ ::
              settled)) := by
  cases bound : (code.label target).isBound with
  | false =>
    rw [jumpWith_unbound bound] at fine small ⊢
    obtain ⟨size, waits⟩ := linked.await known fine small
    exact ⟨distance, size, .inl ⟨rfl, waits⟩⟩
  | true =>
    obtain ⟨position, state⟩ := LabelInfo.isBound_iff.mp bound
    have behind := linked.behind target position state
    cases jumpWith_bound state fine with
    | inl shortForm =>
      obtain ⟨same, fits⟩ := shortForm
      rw [same] at small ⊢
      refine ⟨.near, ?_, .inr ⟨position, state, linked.land fits⟩⟩
      rw [Code.land, size_append linked.sound, List.length_append, Distance.length_bytes]
      exact (Nat.add_assoc _ _ _).symm
    | inr same =>
      rw [same] at small ⊢
      have size : (code.land long .far position).size = code.size + long.length + 4 := by
        rw [Code.land, size_append linked.sound, List.length_append, Distance.length_bytes]
        exact (Nat.add_assoc _ _ _).symm
      refine ⟨.far, size, .inr ⟨position, state, linked.land ?_⟩⟩
      simp only [Distance.Fits, Distance.width]
      omega

end Linked

end Code

end WasmX64
