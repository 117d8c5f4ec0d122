import WasmX64.Wasm.Module
import Mathlib.Data.List.Basic

/-!
# Canonical types

Signatures are compared by the index of the first type that is equal to them.  A search finds
that index, and so does the table that validation fills: two types have one canonical index
exactly if they are equal.
-/

namespace WasmX64

namespace FuncType

variable {types : Array FuncType} {type : FuncType} {index : Nat}

theorem firstBefore_le : firstBefore types type index ≤ index :=
  Nat.le_trans List.idxOf_le_length (List.length_take_le index types.toList)

theorem firstBefore_eq (found : types[index]? = some type) :
    firstBefore types type index = types.toList.idxOf type := by
  obtain ⟨inside, here⟩ := Array.getElem?_eq_some_iff.mp found
  have split : types.toList = types.toList.take index ++ type :: types.toList.drop (index + 1) := by
    have opened := List.take_append_drop index types.toList
    rw [List.drop_eq_getElem_cons (by simpa using inside), Array.getElem_toList, here] at opened
    exact opened.symm
  have length : (types.toList.take index).length = index := by
    simp
    omega
  unfold firstBefore
  by_cases earlier : type ∈ types.toList.take index
  · rw [split, List.idxOf_append_of_mem (by simpa using earlier)]
    simp [length]
  · rw [List.idxOf_eq_length earlier, length]
    conv_rhs => rw [split]
    rw [List.idxOf_append_of_notMem earlier, List.idxOf_cons_self, length, Nat.add_zero]

theorem size_firstPlaces : (firstPlaces types).size = types.size := by
  simp [firstPlaces]

theorem firstPlaces_at (found : types[index]? = some type) :
    (firstPlaces types)[index]? = some (UInt32.ofNat (firstBefore types type index)) := by
  simp [firstPlaces, found]

end FuncType

namespace Module

variable {module : Module} {index other : UInt32} {type : FuncType}

theorem canonicalType_eq (found : module.types[index.toNat]? = some type) :
    module.canonicalType index = UInt32.ofNat (module.types.toList.idxOf type) := by
  have searched := FuncType.firstBefore_eq found
  unfold canonicalType
  rw [found]
  dsimp only
  split
  · rename_i tabulated
    cases module.canonical_eq with
    | inl blank =>
      rw [blank] at tabulated
      have empty : module.types = #[] := Array.eq_empty_of_size_eq_zero tabulated.symm
      rw [empty] at found
      cases found
    | inr table => rw [table, FuncType.firstPlaces_at found, Option.getD_some, searched]
  · rw [searched]

theorem toNat_canonicalType (found : module.types[index.toNat]? = some type) :
    (module.canonicalType index).toNat = module.types.toList.idxOf type := by
  have least : module.types.toList.idxOf type ≤ index.toNat :=
    FuncType.firstBefore_eq found ▸ FuncType.firstBefore_le
  rw [canonicalType_eq found]
  exact UInt32.toNat_ofNat_of_lt' (Nat.lt_of_le_of_lt least index.toNat_lt)

theorem canonicalType_of_none (missing : module.types[index.toNat]? = none) :
    module.canonicalType index = index := by
  rw [canonicalType, missing]

theorem types_canonicalType (found : module.types[index.toNat]? = some type) :
    module.types[(module.canonicalType index).toNat]? = some type := by
  rw [toNat_canonicalType found, ← Array.getElem?_toList]
  exact List.getElem?_idxOf (List.mem_of_getElem? (by simpa using found))

theorem canonicalType_inj {left right : FuncType}
    (first : module.types[index.toNat]? = some left)
    (second : module.types[other.toNat]? = some right) :
    module.canonicalType index = module.canonicalType other ↔ left = right := by
  constructor
  · intro same
    have stands := types_canonicalType first
    rw [same, types_canonicalType second] at stands
    exact (Option.some.inj stands).symm
  · rintro rfl
    rw [canonicalType_eq first, canonicalType_eq second]

theorem canonicalType_congr {first second : Module} (types : first.types = second.types) :
    first.canonicalType = second.canonicalType := by
  funext index
  cases found : first.types[index.toNat]? with
  | none => rw [canonicalType_of_none found, canonicalType_of_none (types ▸ found)]
  | some type => rw [canonicalType_eq found, canonicalType_eq (types ▸ found), types]

end Module

end WasmX64
