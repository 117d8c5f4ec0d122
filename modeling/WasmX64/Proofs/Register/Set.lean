import WasmX64.Machine.Register

/-!
# Membership in register sets

A set is a mask of bits, but every later argument speaks about its members.
The laws below say what each operation does to membership, and that the first
member is found exactly when there is one.
-/

namespace WasmX64

namespace Register

theorem code_lt_of_isMachine {reg : Register} (machine : reg.isMachine = true) :
    reg.code.toNat < 32 := by
  have below : reg.code < 32 := by simpa [isMachine] using machine
  exact UInt8.lt_iff_toNat_lt.mp below

theorem eq_of_toNat_eq {left right : Register}
    (equality : left.code.toNat = right.code.toNat) : left = right := by
  cases left
  cases right
  simp only [Register.mk.injEq]
  exact UInt8.toNat_inj.mp equality

theorem mem_all {reg : Register} : reg ∈ all ↔ reg.isMachine = true := by
  constructor
  · intro member
    obtain ⟨index, inRange, rfl⟩ := List.mem_map.mp member
    have small : index < 32 := List.mem_range.mp inRange
    simp only [isMachine, decide_eq_true_eq, UInt8.lt_iff_toNat_lt,
      UInt8.toNat_ofNat']
    change index % 256 < 32
    omega
  · intro machine
    refine List.mem_map.mpr ⟨reg.code.toNat, ?_, ?_⟩
    · exact List.mem_range.mpr (code_lt_of_isMachine machine)
    · exact eq_of_toNat_eq (by simp)

theorem isMachine_of_isFp {reg : Register} (vector : reg.isFp = true) :
    reg.isMachine = true := by
  simp only [isFp, isMachine, Bool.and_eq_true] at *
  exact vector.2

theorem isGp_of_regClass {reg : Register} (machine : reg.isMachine = true)
    (bank : reg.regClass = .gp) : reg.isGp = true := by
  have notVector : reg.isFp = false := by
    cases vector : reg.isFp with
    | false => rfl
    | true => simp [regClass, vector] at bank
  simp only [isFp, isGp, isMachine, Bool.and_eq_false_iff, decide_eq_false_iff_not,
    decide_eq_true_eq, UInt8.lt_iff_toNat_lt, UInt8.le_iff_toNat_le] at *
  change reg.code.toNat < 16
  change ¬ 16 ≤ reg.code.toNat ∨ ¬ reg.code.toNat < 32 at notVector
  change reg.code.toNat < 32 at machine
  omega

theorem isFp_of_regClass {reg : Register} (bank : reg.regClass = .fp) :
    reg.isFp = true := by
  cases vector : reg.isFp with
  | true => rfl
  | false => simp [regClass, vector] at bank

end Register

namespace RegSet

theorem ext_mask {left right : RegSet} (equality : left.mask = right.mask) :
    left = right := by
  cases left
  cases right
  simpa using equality

theorem isMachine_of_has {set : RegSet} {reg : Register}
    (member : set.has reg = true) : reg.isMachine = true := by
  simp only [has, Bool.and_eq_true] at member
  exact member.1

@[simp] theorem has_empty (reg : Register) : empty.has reg = false := by
  simp [has, empty]

theorem has_single (reg other : Register) :
    (single reg).has other = (reg.isMachine && decide (other = reg)) := by
  unfold has single
  by_cases machine : reg.isMachine = true
  · simp only [machine, if_true, Bool.true_and]
    by_cases same : other = reg
    · subst same
      have small := Register.code_lt_of_isMachine machine
      simp [machine, small]
    · have different : other.code.toNat ≠ reg.code.toNat := fun equality =>
        same (Register.eq_of_toNat_eq equality)
      have unset : (1#32 <<< reg.code.toNat).getLsbD other.code.toNat = false := by
        simp only [BitVec.getLsbD_shiftLeft, BitVec.getLsbD_one]
        simp only [Bool.and_eq_false_iff, decide_eq_false_iff_not]
        by_cases below : other.code.toNat < reg.code.toNat
        · simp [below]
        · right
          right
          omega
      simp [same, unset]
  · simp [machine, empty]

@[simp] theorem has_insert (set : RegSet) (reg other : Register) :
    (set.insert reg).has other =
      (set.has other || (reg.isMachine && decide (other = reg))) := by
  rw [← has_single]
  simp only [has, insert, BitVec.getLsbD_or]
  cases other.isMachine <;> simp

@[simp] theorem has_erase (set : RegSet) (reg other : Register) :
    (set.erase reg).has other = (set.has other && decide (other ≠ reg)) := by
  by_cases machine : other.isMachine = true
  · have small := Register.code_lt_of_isMachine machine
    have unset : (single reg).has other = (reg.isMachine && decide (other = reg)) :=
      has_single reg other
    simp only [has, machine, Bool.true_and] at unset
    simp only [has, erase, machine, Bool.true_and, BitVec.getLsbD_and,
      BitVec.getLsbD_not, small, decide_true, unset]
    by_cases same : other = reg
    · subst same
      simp [machine]
    · simp [same]
  · simp [has, machine]

@[simp] theorem has_inter (left right : RegSet) (reg : Register) :
    (left.inter right).has reg = (left.has reg && right.has reg) := by
  simp only [has, inter, BitVec.getLsbD_and]
  cases reg.isMachine <;> simp

@[simp] theorem has_diff (left right : RegSet) (reg : Register) :
    (left.diff right).has reg = (left.has reg && !right.has reg) := by
  by_cases machine : reg.isMachine = true
  · have small := Register.code_lt_of_isMachine machine
    simp [has, diff, machine, small]
  · simp [has, machine]

theorem ext {left right : RegSet}
    (same : ∀ reg, left.has reg = right.has reg) : left = right := by
  apply ext_mask
  apply BitVec.eq_of_getLsbD_eq
  intro index small
  have machine : (⟨UInt8.ofNat index⟩ : Register).isMachine = true :=
    Register.mem_all.mp (List.mem_map.mpr ⟨index, List.mem_range.mpr small, rfl⟩)
  have agreed := same ⟨UInt8.ofNat index⟩
  have round : (UInt8.ofNat index).toNat = index := by
    simp only [UInt8.toNat_ofNat']
    change index % 256 = index
    omega
  simpa [has, machine, round] using agreed

theorem mem_toList {set : RegSet} {reg : Register} :
    reg ∈ set.toList ↔ set.has reg = true := by
  constructor
  · intro member
    exact (List.mem_filter.mp member).2
  · intro member
    exact List.mem_filter.mpr ⟨Register.mem_all.mpr (isMachine_of_has member), member⟩

theorem nodup_toList (set : RegSet) : set.toList.Nodup := by
  have distinct : Register.all.Nodup := by decide +kernel
  exact distinct.sublist List.filter_sublist

theorem has_of_first? {set : RegSet} {reg : Register}
    (found : set.first? = some reg) : set.has reg = true :=
  mem_toList.mp (List.mem_of_mem_head? found)

theorem first?_eq_none_iff {set : RegSet} :
    set.first? = none ↔ ∀ reg, set.has reg = false := by
  constructor
  · intro nothing reg
    have noMember : set.toList = [] := List.head?_eq_none_iff.mp nothing
    cases member : set.has reg with
    | false => rfl
    | true =>
      have listed := mem_toList.mpr member
      rw [noMember] at listed
      cases listed
  · intro nothing
    apply List.head?_eq_none_iff.mpr
    apply List.eq_nil_iff_forall_not_mem.mpr
    intro reg member
    rw [mem_toList, nothing reg] at member
    cases member

theorem isEmpty_iff {set : RegSet} :
    set.isEmpty = true ↔ ∀ reg, set.has reg = false := by
  constructor
  · intro blank reg
    have zero : set.mask = 0 := by simpa [isEmpty] using blank
    simp [has, zero]
  · intro nothing
    have blank : set = empty := ext fun reg => by simp [nothing reg]
    simp [isEmpty, blank, empty]

theorem subset_iff {left right : RegSet} :
    left.subset right = true ↔
      ∀ reg, left.has reg = true → right.has reg = true := by
  have asInter : left.subset right = decide (left.inter right = left) := by
    simp only [subset, inter]
    congr 1
    exact propext ⟨fun equality => ext_mask equality, fun equality =>
      congrArg RegSet.mask equality⟩
  rw [asInter, decide_eq_true_eq]
  constructor
  · intro equality reg member
    have both := congrArg (fun set => set.has reg) equality
    simp only [has_inter, member, Bool.true_and] at both
    exact both
  · intro included
    apply ext
    intro reg
    cases member : left.has reg with
    | false => simp [member]
    | true => simp [member, included reg member]

theorem has_first {set : RegSet} (nonempty : set.isEmpty = false) :
    set.has set.first = true := by
  unfold first
  cases found : set.first? with
  | some reg => exact has_of_first? found
  | none =>
    rw [isEmpty_iff.mpr (first?_eq_none_iff.mp found)] at nonempty
    cases nonempty

theorem has_ofClass {bank : RegClass} {reg : Register} :
    (ofClass bank).has reg = (reg.isMachine && decide (reg.regClass = bank)) := by
  by_cases machine : reg.isMachine = true
  · have listed := Register.mem_all.mpr machine
    have everywhere : ∀ bank' ∈ [RegClass.gp, .fp], ∀ reg' ∈ Register.all,
        (ofClass bank').has reg' =
          (reg'.isMachine && decide (reg'.regClass = bank')) := by
      decide +kernel
    exact everywhere bank (by cases bank <;> simp) reg listed
  · simp [has, machine]

end RegSet

end WasmX64
