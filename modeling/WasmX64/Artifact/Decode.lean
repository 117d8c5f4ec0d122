import WasmX64.Artifact.Encode

/-!
# Reading artifacts

The way back from bytes to an artifact.  Lengths are bounded, so that a broken file
asks for no more than it can hold; bytes behind the last record are ignored.
-/

namespace WasmX64

inductive ReadError where
  /-- Nothing is left. -/
  | ended
  /-- Less is left than is asked for. -/
  | cut
  /-- A length beyond the bound. -/
  | length (count : UInt32)
  | valueType (code : UInt8)
deriving DecidableEq, Repr

def ReadError.message : ReadError → String
  | .ended => "EOF"
  | .cut => "unexpected EOF"
  | .length count => s!"artifact: bad format: length {count.toNat}"
  | .valueType code => s!"artifact: bad format: value type {code.toNat}"

inductive ArtifactError where
  | header (cause : ReadError)
  | magic (found : List UInt8)
  | version (found : UInt32)
  | records (cause : ReadError)
deriving DecidableEq, Repr

def ArtifactError.message : ArtifactError → String
  | .header cause => "artifact: read header: " ++ cause.message
  | .magic found => "artifact: bad format: magic " ++ Text.quoteBytes found
  | .version found => s!"artifact: bad format: version {found.toNat}"
  | .records cause => "artifact: read: " ++ cause.message

abbrev ByteReader := StateT (List UInt8) (Except ReadError)

namespace Artifact

def maxLength : UInt32 := 67108864

def takeBytes (count : Nat) : ByteReader (List UInt8) := do
  let bytes ← get
  let taken := bytes.take count
  if taken.length < count then throw (if taken.isEmpty then .ended else .cut)
  set (bytes.drop count)
  return taken

/-- The little-endian word of four bytes. -/
def wordOfBytes (bytes : List UInt8) : UInt32 :=
  bytes.foldr (fun byte word => word <<< 8 ||| byte.toUInt32) 0

def readWord : ByteReader UInt32 := return wordOfBytes (← takeBytes 4)

def readNumber : ByteReader Int := return ((← readWord).toNat : Int)

def readLength : ByteReader Nat := do
  let count ← readWord
  if maxLength < count then throw (.length count)
  return count.toNat

def readItems {α : Type} (item : ByteReader α) : Nat → ByteReader (List α)
  | 0 => return []
  | count + 1 => return (← item) :: (← readItems item count)

def readList {α : Type} (item : ByteReader α) : ByteReader (List α) := do
  readItems item (← readLength)

def readTypes : ByteReader (List ValueType) := do
  let bytes ← takeBytes (← readLength)
  bytes.mapM fun code => do
    let type := ValueType.ofCode code
    if !type.isValid then throw (.valueType code)
    return type

def readReference : ByteReader Reference := do
  let offset ← readNumber
  let kind ← readWord
  let index ← readWord
  return ⟨offset, .ofCode kind.toUInt8, index⟩

def readTrap : ByteReader TrapSite := do
  let kind ← readWord
  let instr ← readNumber
  let offset ← readNumber
  return ⟨.ofCode kind, instr, offset⟩

def readSource : ByteReader SourceEntry := do
  let offset ← readNumber
  let instr ← readNumber
  let op ← readWord
  return ⟨offset, instr, .ofCode op.toUInt16⟩

def readFunction : ByteReader StoredFunction := do
  let index ← readWord
  let params ← readTypes
  let results ← readTypes
  let frameSlots ← readNumber
  let code ← takeBytes (← readLength)
  let refs ← readList readReference
  let traps ← readList readTrap
  let sources ← readList readSource
  return { index, type := ⟨params, results⟩, code, refs, frameSlots, traps, sources }

def decode (payload : List UInt8) : Except ReadError Artifact := do
  let count ← readWord payload
  let (functions, _) ← readItems readFunction count.1.toNat count.2
  return ⟨functions⟩

def checkHeader (header : List UInt8) : Except ArtifactError Unit := do
  let (bytes, _) ← (takeBytes 8 header).mapError .header
  if bytes.take 4 ≠ artifactMagic then throw (.magic (bytes.take 4))
  let version := wordOfBytes (bytes.drop 4)
  if version ≠ artifactVersion then throw (.version version)

def read (header payload : List UInt8) : Except ArtifactError Artifact := do
  checkHeader header
  (decode payload).mapError .records

end Artifact

end WasmX64
