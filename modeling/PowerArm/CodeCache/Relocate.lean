import PowerArm.CodeCache.Segment
import PowerArm.Ppc.LoadImm

/-!
# The split relocator

`ApplyCodeRelocationsSplit`: link records first, then every other relocation,
over a hot and a cold destination span of the code buffer. Addresses are offsets
into the buffer.
-/

namespace PowerArm.CodeCache

open Lib

structure Host where
  exitFunctionLinker : Nat
  exitFunctionLinkerWithRecord : Nat
  lookupThunk : Nat → Nat
  disableShiftedImm32 : Bool

/-- `GetNamedSymbolLiteral`; the process dies on any other symbol. -/
def Host.namedSymbolLiteral (host : Host) : Nat → Option Nat
  | 0 => some host.exitFunctionLinker
  | 1 => some host.exitFunctionLinkerWithRecord
  | _ => none

def relocWidth : RelocKind → Nat
  | .namedSymbolLiteral _ => 8
  | .guestRIPLiteral _ => 8
  | .linkRecord _ => 8
  | .guestRIPMove _ instructions _ =>
    if instructions ≠ 0 then instructions * 4 else Ppc.loadConstantFixedBytes
  | .namedThunkMove _ _ => Ppc.loadConstantFixedBytes
  | .unknown _ => Ppc.loadConstantFixedBytes

def int64 (v : Int) : Nat := (v % 2 ^ 64).toNat

def branchDisplacementInRange (delta : Int) : Prop := delta % 4 = 0 ∧ -0x2000000 ≤ delta ∧ delta ≤ 0x1FFFFFC

instance : Decidable (branchDisplacementInRange delta) := inferInstanceAs (Decidable (_ ∧ _))

def encodeBranch (delta : Int) : Nat := 0x48000000 ||| ((delta % 2 ^ 32).toNat &&& 0x03FFFFFC)

def wordBytes (words : List Ppc.Word) : List UInt8 := words.flatMap fun w => numberBytes 4 w.toNat

/-- The words of a guest RIP move of `width` bytes, padded with nops. -/
def paddedMove (words : List Ppc.Word) (width : Nat) : List Ppc.Word :=
  words ++ List.replicate (width / 4 - words.length) Ppc.nop

def linkRecordSize : Nat := 56
def linkThunkSize : Nat := 112

/-- A delta of the record that names a place in the hot code, zero when absent. -/
def patchOffset (hot cold : Span) (field record : Nat) (offset : Nat) (delta : Int) (tag : Nat) : Prog Unit :=
  if delta ≠ 0 then do
    let place : Int := offset + delta
    Prog.require (0 ≤ place ∧ place < hot.size)
    Prog.store [hot, cold] field (numberBytes 8 (int64 (hot.base + place - record) ||| tag))
  else
    Prog.store [hot, cold] field (numberBytes 8 0)

/-- The word the record keeps for unlinking: the branch just written when that is
the caller word, and otherwise the word of the process that compiled the block. -/
def unlinkedCallerWord (hot cold : Span) (caller linkBranch origCallerWord : Nat) : Prog Nat :=
  if caller = linkBranch then Prog.load [hot, cold] caller 4 else pure origCallerWord

def patchLink (host : Host) (hot cold : Span) (offset : Nat) (l : LinkRecord) : Prog Unit := do
  Prog.require (hot.size ≤ offset ∧ offset < hot.size + cold.size)
  Prog.require (offset - hot.size + linkRecordSize ≤ cold.size)
  let record := cold.base + (offset - hot.size)
  let thunkOff : Int := (offset - hot.size : Nat) + l.thunkDelta
  Prog.require (0 ≤ thunkOff ∧ thunkOff + linkThunkSize ≤ cold.size)
  let thunk := cold.base + thunkOff.toNat
  let callerOff : Int := offset + l.callerDelta
  Prog.require (0 ≤ callerOff ∧ callerOff + 4 ≤ hot.size)
  let caller := hot.base + callerOff.toNat
  let linkBranchOff : Int := offset + l.linkBranchDelta
  Prog.require (0 ≤ linkBranchOff ∧ linkBranchOff + 4 ≤ hot.size)
  let linkBranch := hot.base + linkBranchOff.toNat
  let thunkWord ← Prog.load [hot, cold] thunk 4
  let hostCode ← Prog.load [hot, cold] record 8
  Prog.require (hostCode = 0 ∧ thunkWord = l.origThunkWord)
  let branchDelta : Int := (thunk + 0x14 : Nat) - (linkBranch : Int)
  Prog.require (branchDisplacementInRange branchDelta)
  Prog.store [hot, cold] linkBranch (numberBytes 4 (encodeBranch branchDelta))
  Prog.store [hot, cold] (record + 16) (numberBytes 8 (int64 (caller - record)))
  let callerWord ← unlinkedCallerWord hot cold caller linkBranch l.origCallerWord
  Prog.store [hot, cold] (record + 24) (numberBytes 4 callerWord)
  Prog.store [hot, cold] (record + 28) (numberBytes 4 l.origThunkWord)
  Prog.store [hot, cold] (record + 32) (numberBytes 8 host.exitFunctionLinkerWithRecord)
  patchOffset hot cold (record + 40) record offset l.linkedEntryDelta 0
  patchOffset hot cold (record + 48) record offset l.finalDelta (if l.finalPlainBranch ≠ 0 then 1 else 0)

def relocDest (hot cold : Span) (offset width : Nat) : Prog Nat :=
  if offset < hot.size then do
    Prog.require (width ≤ hot.size - offset)
    pure (hot.base + offset)
  else do
    Prog.require (offset - hot.size < cold.size ∧ width ≤ cold.size - (offset - hot.size))
    pure (cold.base + (offset - hot.size))

def patchAt (host : Host) (guestEntry : Nat) (hot cold : Span) (ptr : Nat) : RelocKind → Prog Unit
  | .namedSymbolLiteral symbol =>
    match host.namedSymbolLiteral symbol with
    | some pointer => Prog.store [hot, cold] ptr (numberBytes 8 pointer)
    | none => Prog.abort
  | .namedThunkMove register symbol => do
    let pointer := host.lookupThunk symbol
    Prog.require (pointer ≠ 0 ∧ pointer ≠ 2 ^ 64 - 1)
    Prog.store [hot, cold] ptr (wordBytes (Ppc.loadImm64Fixed (BitVec.ofNat 32 register) (BitVec.ofNat 64 pointer)))
  | .guestRIPLiteral guestRIP => Prog.store [hot, cold] ptr (numberBytes 8 (guestEntry + guestRIP))
  | .guestRIPMove register instructions guestRIP =>
    let pointer := BitVec.ofNat 64 (guestRIP + guestEntry)
    if instructions = 0 then
      Prog.store [hot, cold] ptr (wordBytes (Ppc.loadImm64Fixed (BitVec.ofNat 32 register) pointer))
    else do
      let width := instructions * 4
      let words := Ppc.loadImm64 host.disableShiftedImm32 (BitVec.ofNat 32 register) pointer
      Prog.require (words.length * 4 ≤ width ∧ width ≤ Ppc.loadConstantFixedBytes + 4)
      Prog.store [hot, cold] ptr (wordBytes (paddedMove words width))
  | .linkRecord _ => pure ()
  | .unknown _ => Prog.refuse

def relocateLink (host : Host) (hot cold : Span) (r : Relocation) : Prog Unit :=
  match r.kind with
  | .linkRecord l => patchLink host hot cold r.offset l
  | _ => pure ()

def relocateOther (host : Host) (guestEntry : Nat) (hot cold : Span) (r : Relocation) : Prog Unit :=
  match r.kind with
  | .linkRecord _ => pure ()
  | kind => do
    let ptr ← relocDest hot cold r.offset (relocWidth kind)
    patchAt host guestEntry hot cold ptr kind

def applyCodeRelocationsSplit (host : Host) (guestEntry : Nat) (hot cold : Span)
    (relocs : List Relocation) : Prog Unit := do
  if jitCodeHeaderSize ≤ hot.size then
    Prog.store [hot, cold] hot.base (numberBytes 4 (((cold.base : Int) - hot.base) % 2 ^ 32).toNat)
  relocs.forM (relocateLink host hot cold)
  relocs.forM (relocateOther host guestEntry hot cold)

end PowerArm.CodeCache
