import PowerArm.Lib.ByteProg

/-!
# Cache segment files

`SegmentHeader`, `SegmentBlock` and `Relocation` as `CodeCache.cpp` and
`Relocations.h` lay them out in a file, and `CacheSegment::Open`, `Find` and
`Validate` over an image of arbitrary bytes. A `Segment` carries the bounds
`Open` checked as fields.
-/

namespace PowerArm.CodeCache

open Lib

/-! ## Layout -/

def headerSize : Nat := 112
def blockSize : Nat := 56
def relocSize : Nat := 48
def blockAlignment : Nat := 16
def jitCodeHeaderSize : Nat := 4
def jitCodeTailSize : Nat := 48

def int32 (v : Nat) : Int := if v < 2 ^ 31 then v else (v : Int) - 2 ^ 32

structure SegmentBlock where
  guestOffset : Nat
  guestHash : Nat
  codeOffset : Nat
  guestLength : Nat
  codeSize : Nat
  entryOffset : Nat
  relocBegin : Nat
  relocCount : Nat
  coldSize : Nat
  entryHash : Nat

def SegmentBlock.view (m : Mem) (a _ : Nat) : SegmentBlock where
  guestOffset := m.number a 8
  guestHash := m.number (a + 8) 8
  codeOffset := m.number (a + 16) 8
  guestLength := m.number (a + 24) 4
  codeSize := m.number (a + 28) 4
  entryOffset := m.number (a + 32) 4
  relocBegin := m.number (a + 36) 4
  relocCount := m.number (a + 40) 4
  coldSize := m.number (a + 44) 4
  entryHash := m.number (a + 48) 8

def SegmentBlock.hotSize (b : SegmentBlock) : Nat := b.codeSize - b.coldSize

/-- `RelocLinkRecord`: deltas from the record to the words its linker patches. -/
structure LinkRecord where
  callerDelta : Int
  thunkDelta : Int
  origCallerWord : Nat
  origThunkWord : Nat
  linkBranchDelta : Int
  linkedEntryDelta : Int
  finalDelta : Int
  finalPlainBranch : Nat
  deriving DecidableEq, Repr

inductive RelocKind where
  | namedSymbolLiteral (symbol : Nat)
  | namedThunkMove (registerIndex symbol : Nat)
  | guestRIPLiteral (guestRIP : Nat)
  | guestRIPMove (registerIndex instructions guestRIP : Nat)
  | linkRecord (l : LinkRecord)
  | unknown (type : Nat)
  deriving DecidableEq, Repr

structure Relocation where
  offset : Nat
  kind : RelocKind
  deriving DecidableEq, Repr

def LinkRecord.view (m : Mem) (a : Nat) : LinkRecord where
  callerDelta := int32 (m.number (a + 12) 4)
  thunkDelta := int32 (m.number (a + 16) 4)
  origCallerWord := m.number (a + 20) 4
  origThunkWord := m.number (a + 24) 4
  linkBranchDelta := int32 (m.number (a + 28) 4)
  linkedEntryDelta := int32 (m.number (a + 32) 4)
  finalDelta := int32 (m.number (a + 36) 4)
  finalPlainBranch := m.number (a + 40) 4

def RelocKind.view (m : Mem) (a : Nat) : Nat → RelocKind
  | 0 => .namedSymbolLiteral (m.number (a + 12) 4)
  | 1 => .namedThunkMove (m.number (a + 12) 4) (m.number (a + 16) 32)
  | 2 => .guestRIPLiteral (m.number (a + 16) 8)
  | 3 => .guestRIPMove (m.number (a + 12) 1) (m.number (a + 13) 1) (m.number (a + 16) 8)
  | 4 => .linkRecord (LinkRecord.view m a)
  | type => .unknown type

def Relocation.view (m : Mem) (a _ : Nat) : Relocation where
  offset := m.number a 8
  kind := RelocKind.view m a (m.number (a + 8) 4)

/-! ## Open -/

/-- What `Open` compares a header with. `hash` is XXH3. -/
structure Config where
  magic : Nat
  version : Nat
  configId : Nat
  fileId : Nat
  buildHash : List UInt8
  bootId : List UInt8
  forceVerify : Bool
  hash : List UInt8 → Nat

structure SegmentHeader where
  magic : Nat
  version : Nat
  configId : Nat
  fileId : Nat
  buildHash : List UInt8
  numBlocks : Nat
  numRelocs : Nat
  bootId : List UInt8
  indexOffset : Nat
  relocOffset : Nat
  codeOffset : Nat
  codeSize : Nat
  headerHash : Nat
  /-- The bytes `HashHeader` covers. -/
  hashed : List UInt8

def SegmentHeader.view (m : Mem) (a _ : Nat) : SegmentHeader where
  magic := m.number a 4
  version := m.number (a + 4) 4
  configId := m.number (a + 8) 8
  fileId := m.number (a + 16) 8
  buildHash := m.slice (a + 24) 20
  numBlocks := m.number (a + 44) 4
  numRelocs := m.number (a + 48) 4
  bootId := m.slice (a + 56) 16
  indexOffset := m.number (a + 72) 8
  relocOffset := m.number (a + 80) 8
  codeOffset := m.number (a + 88) 8
  codeSize := m.number (a + 96) 8
  headerHash := m.number (a + 104) 8
  hashed := m.slice a 104

def SegmentHeader.Own (h : SegmentHeader) (cfg : Config) : Prop :=
  h.magic = cfg.magic ∧ h.version = cfg.version ∧ h.configId = cfg.configId ∧
    h.fileId = cfg.fileId ∧ h.buildHash = cfg.buildHash ∧ h.headerHash = cfg.hash h.hashed

/-- Every count and offset of the header lies inside a file of `size` bytes. -/
def SegmentHeader.Bounded (h : SegmentHeader) (size : Nat) : Prop :=
  h.indexOffset = headerSize ∧ h.numBlocks ≤ (size - h.indexOffset) / blockSize ∧
    h.relocOffset % 8 = 0 ∧ h.relocOffset ≤ size ∧
    h.numRelocs ≤ (size - h.relocOffset) / relocSize ∧
    h.codeOffset % blockAlignment = 0 ∧ h.codeOffset ≤ size ∧ h.codeSize ≤ size - h.codeOffset

instance (h : SegmentHeader) : Decidable (h.Own cfg) := inferInstanceAs (Decidable (_ ∧ _))

instance (h : SegmentHeader) : Decidable (h.Bounded size) := inferInstanceAs (Decidable (_ ∧ _))

/-- An opened segment, with the bounds `Open` established. -/
structure Segment where
  image : Image
  numBlocks : Nat
  numRelocs : Nat
  relocOffset : Nat
  codeOffset : Nat
  codeSize : Nat
  checkHashes : Bool
  hash : List UInt8 → Nat
  index_le : headerSize + numBlocks * blockSize ≤ image.size
  relocs_le : relocOffset + numRelocs * relocSize ≤ image.size
  code_le : codeOffset + codeSize ≤ image.size

section
variable {h : SegmentHeader} (hb : h.Bounded size)
include hb

theorem SegmentHeader.Bounded.index_le
    (hsize : headerSize ≤ size) : headerSize + h.numBlocks * blockSize ≤ size := by
  have hdiv := (Nat.le_div_iff_mul_le (by decide : 0 < blockSize)).mp hb.2.1
  rw [hb.1] at hdiv
  omega

theorem SegmentHeader.Bounded.relocs_le :
    h.relocOffset + h.numRelocs * relocSize ≤ size := by
  have hle := hb.2.2.2.1
  have hdiv := (Nat.le_div_iff_mul_le (by decide : 0 < relocSize)).mp hb.2.2.2.2.1
  omega

theorem SegmentHeader.Bounded.code_le :
    h.codeOffset + h.codeSize ≤ size := by
  have hle := hb.2.2.2.2.2.2.1
  have hcode := hb.2.2.2.2.2.2.2
  omega

end

def openSegment (cfg : Config) (img : Image) : Prog Segment :=
  if hsize : headerSize ≤ img.size then do
    let h ← Prog.fetch img 0 headerSize SegmentHeader.view
    if hb : h.Bounded img.size then do
      Prog.require (h.Own cfg)
      pure {
        image := img
        numBlocks := h.numBlocks
        numRelocs := h.numRelocs
        relocOffset := h.relocOffset
        codeOffset := h.codeOffset
        codeSize := h.codeSize
        -- entries of a file of this boot are exactly what was written
        checkHashes := cfg.forceVerify || h.bootId != cfg.bootId || cfg.bootId == List.replicate 16 0
        hash := cfg.hash
        index_le := hb.index_le hsize
        relocs_le := hb.relocs_le
        code_le := hb.code_le }
    else
      Prog.refuse
  else
    Prog.refuse

/-! ## Find and Validate -/

namespace Segment

def blockAddress (_ : Segment) (i : Nat) : Nat := headerSize + i * blockSize

variable (s : Segment)

def relocAddress (i : Nat) : Nat := s.relocOffset + i * relocSize

def block (i : Nat) : SegmentBlock := SegmentBlock.view s.image.byte (s.blockAddress i) blockSize

def reloc (i : Nat) : Relocation := Relocation.view s.image.byte (s.relocAddress i) relocSize

def relocs (b : SegmentBlock) : List Relocation :=
  (List.range b.relocCount).map fun i => s.reloc (b.relocBegin + i)

def fetchBlock (i : Nat) : Prog SegmentBlock :=
  Prog.fetch s.image (s.blockAddress i) blockSize SegmentBlock.view

/-- `std::lower_bound` over the index: `len` entries from `first` are left. -/
def lowerBound (s : Segment) (guestOffset : Nat) : Nat → Nat → Nat → Prog Nat
  | 0, first, _ => pure first
  | fuel + 1, first, len =>
    if len = 0 then
      pure first
    else do
      let mid := first + len / 2
      let b ← s.fetchBlock mid
      if b.guestOffset < guestOffset then
        s.lowerBound guestOffset fuel (mid + 1) (len - len / 2 - 1)
      else
        s.lowerBound guestOffset fuel first (len / 2)

def find (guestOffset : Nat) : Prog (Option Nat) := do
  let i ← s.lowerBound guestOffset s.numBlocks 0 s.numBlocks
  if i ≠ s.numBlocks then
    let b ← s.fetchBlock i
    pure (if b.guestOffset = guestOffset then some i else none)
  else
    pure none

def Fits (b : SegmentBlock) : Prop :=
  b.codeOffset ≤ s.codeSize ∧ b.codeSize ≤ s.codeSize - b.codeOffset ∧
    b.codeSize % blockAlignment = 0 ∧ b.coldSize ≤ b.codeSize ∧ b.coldSize % 16 = 0 ∧
    jitCodeHeaderSize + 4 ≤ b.codeSize - b.coldSize ∧ jitCodeTailSize ≤ b.coldSize ∧
    b.entryOffset < b.codeSize - b.coldSize ∧
    b.relocBegin ≤ s.numRelocs ∧ b.relocCount ≤ s.numRelocs - b.relocBegin

instance (s : Segment) : Decidable (s.Fits b) := inferInstanceAs (Decidable (_ ∧ _))

/-- The bytes `HashBlock` covers: the entry up to its hash, the code and the
relocations. -/
def hashBlock (i : Nat) (b : SegmentBlock) : Prog Nat := do
  let entry ← Prog.fetch s.image (s.blockAddress i) 48 Mem.slice
  let code ← Prog.fetch s.image (s.codeOffset + b.codeOffset) b.codeSize Mem.slice
  let relocs ← Prog.fetch s.image (s.relocAddress b.relocBegin) (b.relocCount * relocSize) Mem.slice
  pure (s.hash (entry ++ code ++ relocs))

def validate (i : Nat) : Prog Bool := do
  let b ← s.fetchBlock i
  if s.Fits b then
    if s.checkHashes then
      let h ← s.hashBlock i b
      pure (h == b.entryHash)
    else
      pure true
  else
    pure false

end Segment

def lookup (guestOffset : Nat) : List Segment → Prog (Option (Segment × SegmentBlock))
  | [] => pure none
  | s :: rest => do
    match ← s.find guestOffset with
    | some i =>
      if ← s.validate i then
        let b ← s.fetchBlock i
        pure (some (s, b))
      else
        lookup guestOffset rest
    | none => lookup guestOffset rest

end PowerArm.CodeCache
