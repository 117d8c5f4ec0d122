import WasmX64.Proofs.Machine.Fields

/-!
# Memory operands

An address has an encoding exactly if its registers and its factor can be encoded.  The encoding
is read back as the address, and of all encodings of the same address with the same base and
index none has a shorter displacement field.
-/

namespace WasmX64

open Decode

namespace Decode

/-- One way to write an r/m operand: the bits of a REX byte, a ModRM byte, a SIB byte if the ModRM
byte calls for one, and a displacement field. -/
structure Spelling where
  rex : Rex
  modrm : UInt8
  sib : Option UInt8
  disp : List UInt8
  scaled : sib.isSome = true ↔ modrm &&& 7 = 4

namespace Spelling

/-- The bytes from the ModRM byte on. -/
def bytes (spelling : Spelling) : List UInt8 :=
  spelling.modrm :: (spelling.sib.toList ++ spelling.disp)

/-- Read back, a spelling is a memory operand with an address, whatever follows it. -/
def Denotes (spelling : Spelling) (address : Address) : Prop :=
  ∀ rest, ∃ reg, readModRM spelling.rex (spelling.bytes ++ rest) =
    some (⟨reg, .memory address⟩, rest)

end Spelling

theorem low_extendBits {bits : UInt8} (small : bits.toNat < 8) (high : Bool) :
    Register.low ⟨extendBits bits high⟩ = bits ∧ (⟨extendBits bits high⟩ : Register) ≠ .absent := by
  cases high with
  | false =>
    exact byte_cases (fun bits => Register.low ⟨extendBits bits false⟩ = bits ∧
      (⟨extendBits bits false⟩ : Register) ≠ .absent) 8 (by decide) small
  | true =>
    exact byte_cases (fun bits => Register.low ⟨extendBits bits true⟩ = bits ∧
      (⟨extendBits bits true⟩ : Register) ≠ .absent) 8 (by decide) small

/-- The mode bits of a ModRM byte are a number below four. -/
theorem mode_cases (modrm : UInt8) :
    modrm >>> 6 = 0 ∨ modrm >>> 6 = 1 ∨ modrm >>> 6 = 2 ∨ modrm >>> 6 = 3 :=
  byte_cases (fun modrm => modrm >>> 6 = 0 ∨ modrm >>> 6 = 1 ∨ modrm >>> 6 = 2 ∨ modrm >>> 6 = 3)
    256 (by decide +kernel) (UInt8.toNat_lt modrm)

theorem readWord_length {bytes rest : List UInt8} {word : UInt32}
    (read : readWord bytes = some (word, rest)) : bytes.length = rest.length + 4 := by
  unfold readWord at read
  split at read
  · cases read
    rfl
  · cases read

end Decode

namespace Address

/-- The number of displacement bytes that an address needs. -/
def dispLength (address : Address) : Nat :=
  if address.base = .absent then 4 else (displacement address.base address.disp).2.length

theorem displacement_length_le (base : Register) (disp : Int32) :
    (displacement base disp).2.length ≤ 4 := by
  unfold displacement
  split
  · exact Nat.zero_le 4
  · split
    · exact (by decide : 1 ≤ 4)
    · exact Nat.le_refl 4

theorem displacement_length_read {base : Register} {disp : Int32} {mode : UInt8}
    {bytes rest : List UInt8} (read : readDisplacement mode false bytes = some (disp, rest))
    (based : mode ≠ 1 → mode ≠ 2 → base.low ≠ 5) :
    (displacement base disp).2.length + rest.length ≤ bytes.length := by
  unfold readDisplacement at read
  split at read
  · obtain ⟨⟨word, after⟩, reads, same⟩ := Option.map_eq_some_iff.mp read
    cases same
    have most := displacement_length_le base word.toInt32
    have length := readWord_length reads
    dsimp only at length ⊢
    omega
  · rename_i notWord
    split at read
    · obtain ⟨⟨byte, after⟩, reads, same⟩ := Option.map_eq_some_iff.mp read
      cases same
      have fits : fitsInt8 byte.toInt8.toInt32.toInt = true := by
        have least := Int8.le_toInt byte.toInt8
        have most := Int8.toInt_lt byte.toInt8
        rw [Int8.toInt_toInt32]
        simp only [fitsInt8, Bool.and_eq_true, decide_eq_true_eq]
        omega
      have few : (displacement base byte.toInt8.toInt32).2.length ≤ 1 := by
        unfold displacement
        rw [if_pos fits]
        split
        · exact Nat.zero_le 1
        · exact Nat.le_refl 1
      cases bytes with
      | nil => cases reads
      | cons first others =>
        cases reads
        exact Nat.le_trans (Nat.add_le_add_right few _) (Nat.le_of_eq (Nat.add_comm 1 _))
    · rename_i notByte
      cases read
      have none : displacement base 0 = (0x00, []) :=
        if_pos ⟨rfl, based notByte fun two => notWord (.inl two)⟩
      rw [none]
      simp

theorem dispLength_based {address : Address} {low : UInt8} (high : Bool) {mode : UInt8}
    {bytes : List UInt8} {disp : Int32} (small : low.toNat < 8)
    (base : address.base = ⟨extendBits low high⟩) (same : address.disp = disp)
    (read : readDisplacement mode false bytes = some (disp, []))
    (based : mode ≠ 1 → mode ≠ 2 → low ≠ 5) : address.dispLength ≤ bytes.length := by
  obtain ⟨lowBits, present⟩ := low_extendBits small high
  rw [← lowBits] at based
  have length := displacement_length_read read based
  rw [dispLength, base, same, if_neg present]
  simpa using length

theorem dispLength_le {address : Address} {spelling : Spelling}
    (denotes : spelling.Denotes address) : address.dispLength ≤ spelling.disp.length := by
  obtain ⟨reg, read⟩ := denotes []
  have sibPresent := spelling.scaled
  have modes := mode_cases spelling.modrm
  rw [List.append_nil, Spelling.bytes, readModRM] at read
  obtain ⟨⟨rm, after⟩, reads, same⟩ := Option.map_eq_some_iff.mp read
  cases same
  unfold readRm at reads
  split at reads
  · cases reads
  · rename_i direct
    split at reads
    · rename_i four
      obtain ⟨sib, found⟩ := Option.isSome_iff_exists.mp (sibPresent.mpr four)
      rw [found, Option.toList_some, List.cons_append, List.nil_append, readScaled] at reads
      obtain ⟨⟨disp, after⟩, dispReads, same⟩ := Option.map_eq_some_iff.mp reads
      obtain ⟨addressEq, rfl⟩ := Prod.mk.inj same
      have addressEq := RmField.memory.inj addressEq
      by_cases baseless : sib &&& 7 = 5 ∧ spelling.modrm >>> 6 = 0
      · rw [decide_eq_true baseless, readDisplacement, if_pos (.inr rfl)] at dispReads
        obtain ⟨⟨word, after⟩, reads, same⟩ := Option.map_eq_some_iff.mp dispReads
        cases same
        rw [readWord_length reads, dispLength]
        split
        · exact Nat.le_refl 4
        · exact displacement_length_le _ _
      · rw [decide_eq_false baseless] at dispReads addressEq
        refine dispLength_based spelling.rex.base (low_lt sib) ?_ ?_ dispReads ?_
        · rw [← addressEq]
          split
          · rfl
          · rfl
        · rw [← addressEq]
          split
          · rfl
          · rfl
        · intro notOne notTwo five
          exact baseless ⟨five, by simpa [notOne, notTwo, direct] using modes⟩
    · rename_i notFour
      have none := Option.not_isSome_iff_eq_none.mp (mt sibPresent.mp notFour)
      rw [none, Option.toList_none, List.nil_append] at reads
      split at reads
      · obtain ⟨_, _, same⟩ := Option.map_eq_some_iff.mp reads
        cases same
      · rename_i kept
        obtain ⟨⟨disp, after⟩, dispReads, same⟩ := Option.map_eq_some_iff.mp reads
        cases same
        refine dispLength_based spelling.rex.base (low_lt spelling.modrm) rfl rfl dispReads ?_
        intro notOne notTwo five
        exact kept ⟨five, by simpa [notOne, notTwo, direct] using modes⟩

/-- The low bits of a ModRM byte beside the mode bits of a displacement. -/
theorem low_displacement {low : UInt8} (small : low.toNat < 8) (base : Register) (disp : Int32) :
    (low ||| (displacement base disp).1) &&& 7 = low := by
  simpa using (modrm_fields small (displacement_known base disp) 0).2.2

theorem sib_encodeBase (base : Register) (disp : Int32) :
    (encodeBase base disp).sib.isSome = true ↔ (encodeBase base disp).modrm &&& 7 = 4 := by
  change (if base.low = 4 then some (0x24 : UInt8) else none).isSome = true ↔
    (base.low ||| (displacement base disp).1) &&& 7 = 4
  rw [low_displacement base.low_lt]
  split
  · rename_i four
    exact iff_of_true rfl four
  · rename_i notFour
    exact iff_of_false nofun notFour

theorem shape_encodeIndexed (address : Address) (scale : UInt8) :
    (address.encodeIndexed scale).disp.length = address.dispLength ∧
      (address.encodeIndexed scale).sib.isSome = true ∧
      (address.encodeIndexed scale).modrm &&& 7 = 4 := by
  unfold encodeIndexed dispLength
  by_cases baseless : address.base = .absent
  · simp only [if_pos baseless]
    exact ⟨rfl, rfl, rfl⟩
  · simp only [if_neg baseless]
    exact ⟨trivial, rfl, low_displacement (by decide) _ _⟩

/-- An encoded address has the displacement bytes that the address needs, and a SIB byte exactly
where its ModRM byte calls for one. -/
theorem shape_of_encode {address : Address} {operand : RmOperand}
    (encoded : address.encode = .ok operand) :
    operand.disp.length = address.dispLength ∧
      (operand.sib.isSome = true ↔ operand.modrm &&& 7 = 4) := by
  unfold encode at encoded
  split at encoded
  · cases encoded
  · rename_i some
    split at encoded
    · cases encoded
    · split at encoded
      · rename_i lone
        have based : address.base ≠ .absent := fun none => some ⟨none, lone⟩
        cases encoded
        rw [dispLength, if_neg based]
        exact ⟨rfl, sib_encodeBase ..⟩
      · split at encoded
        · cases encoded
        · split at encoded
          · cases encoded
          · split at encoded
            · cases encoded
            · cases encoded
              obtain ⟨length, sib, modrm⟩ := shape_encodeIndexed address _
              exact ⟨length, iff_of_true sib modrm⟩

theorem dispLength_normal (address : Address) : address.normal.dispLength = address.dispLength := by
  unfold normal
  split
  · rfl
  · split
    · rfl
    · rfl

end Address

/-- Encoding an address succeeds exactly if a base or an index is present, both are
general-purpose, the index is not the stack pointer and its factor is 0, 1, 2, 4 or 8.  The bytes
and the two REX bits then stand for the same base, index, factor and displacement, for memory and
not relative to the next instruction, whatever the register field, the other REX bits and the
bytes that follow; and whatever else stands for that address has a displacement field as long. -/
theorem addresses_encoded (address : Address) :
    ((∃ operand, address.encode = .ok operand) ↔ address.Encodable) ∧
      ∀ operand, address.encode = .ok operand →
        (∀ (rex : Rex) (reg : UInt8) (rest : List UInt8),
          rex.index = decide (operand.rex &&& 2 ≠ 0) → rex.base = decide (operand.rex &&& 1 ≠ 0) →
          readModRM rex (operand.bytes reg ++ rest) =
            some (⟨extendBits (reg &&& 7) rex.reg, .memory address.normal⟩, rest)) ∧
        (operand.sib.isSome = true ↔ operand.modrm &&& 7 = 4) ∧
        ∀ spelling : Spelling, spelling.Denotes address.normal →
          operand.disp.length ≤ spelling.disp.length := by
  have accepted : (∃ operand, address.encode = .ok operand) ↔ address.Encodable := by
    constructor
    · rintro ⟨operand, encoded⟩
      refine Classical.byContradiction fun refused => ?_
      obtain ⟨cause, error⟩ := Address.encode_refuses refused
      rw [encoded] at error
      cases error
    · intro encodable
      obtain ⟨operand, encoded, _⟩ := Address.encode_reads encodable
      exact ⟨operand, encoded⟩
  refine ⟨accepted, fun operand encoded => ?_⟩
  obtain ⟨other, again, reads⟩ := Address.encode_reads (accepted.mp ⟨operand, encoded⟩)
  obtain rfl : operand = other := Except.ok.inj (encoded.symm.trans again)
  obtain ⟨length, sib⟩ := Address.shape_of_encode encoded
  refine ⟨reads.fields, sib, fun spelling denotes => ?_⟩
  rw [length, ← address.dispLength_normal]
  exact Address.dispLength_le denotes

/-- The address `[r13 + r12]`, where neither register number leaves the displacement out. -/
theorem addresses_encoded_extended :
    (Address.mk ⟨13⟩ ⟨12⟩ 0 0).encode = .ok ⟨0x44, some 0x25, [0], 3⟩ ∧
      readModRM ⟨true, true, true, true, true⟩ [0x6c, 0x25, 0x00, 0x90] =
        some (⟨13, .memory ⟨⟨13⟩, ⟨12⟩, 1, 0⟩⟩, [0x90]) ∧
      ∀ spelling : Spelling, spelling.Denotes ⟨⟨13⟩, ⟨12⟩, 1, 0⟩ →
        1 ≤ spelling.disp.length := by
  have encoded : (Address.mk ⟨13⟩ ⟨12⟩ 0 0).encode = .ok ⟨0x44, some 0x25, [0], 3⟩ := rfl
  obtain ⟨reads, _, least⟩ := (addresses_encoded ⟨⟨13⟩, ⟨12⟩, 0, 0⟩).2 _ encoded
  exact ⟨encoded, reads ⟨true, true, true, true, true⟩ 13 [0x90] (by decide) (by decide), least⟩

end WasmX64
