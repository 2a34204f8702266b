import PowerArm.Lib.LittleEndian

/-!
# The table from host to guest addresses

At the end of a unit the JIT writes, for each guest instruction, how far the host and
the guest address have moved since the last one. A pair of movements takes 1, 2, 9 or
17 bytes (`vl64pair`). `WalkBlockRIPTable` adds the movements up again until it has
passed the host address. The bytes after the table are unknown.
-/

namespace PowerArm.Utils

open Lib (toBytes ofBytes)

/-! ## One pair -/

namespace Vl64pair

/-- The guest moves by 1 to 8 bytes and the host by 1 to 16 instructions. -/
def canEncodeVl8 (arm rip : BitVec 64) : Bool :=
  1 ≤ rip ∧ rip ≤ 8 ∧ arm &&& 3 = 0 ∧ 1 ≤ (arm >>> 2).toInt ∧ (arm >>> 2).toInt ≤ 16

def canEncodeVl16 (arm rip : BitVec 64) : Bool :=
  -32 ≤ rip.toInt ∧ rip.toInt ≤ 31 ∧ arm &&& 3 = 0 ∧ -128 ≤ (arm.sshiftRight 2).toInt ∧
    (arm.sshiftRight 2).toInt ≤ 127

def canEncodeVl32 (arm rip : BitVec 64) : Bool :=
  -2 ^ 31 ≤ rip.toInt ∧ rip.toInt < 2 ^ 31 ∧ -2 ^ 31 ≤ arm.toInt ∧ arm.toInt < 2 ^ 31

def vl32Header : BitVec 8 := 0b11000000
def vl64Header : BitVec 8 := 0b11100000

def encode (arm rip : BitVec 64) : List (BitVec 8) :=
  if canEncodeVl8 arm rip then [0#1 ++ (rip - 1).setWidth 3 ++ ((arm - 1) >>> 2).setWidth 4]
  else if canEncodeVl16 arm rip then [0b10#2 ++ rip.setWidth 6, (arm.sshiftRight 2).setWidth 8]
  else if canEncodeVl32 arm rip then
    vl32Header :: (toBytes 4 (arm.setWidth 32) ++ toBytes 4 (rip.setWidth 32))
  else vl64Header :: (toBytes 8 arm ++ toBytes 8 rip)

structure Decoded where
  integerARMPC : BitVec 64
  integerX86RIP : BitVec 64
  size : Nat
deriving DecidableEq, Repr

def decode (data : List (BitVec 8)) : Decoded :=
  let first := data.headD 0
  if first.extractLsb' 7 1 = 0 then
    ⟨((first.extractLsb' 0 4).setWidth 64 + 1) <<< 2, (first.extractLsb' 4 3).setWidth 64 + 1, 1⟩
  else if first.extractLsb' 6 2 = 0b10 then
    -- the shift is one of `int`
    ⟨((data.getD 1 0).signExtend 32 <<< 2).signExtend 64, (first.extractLsb' 0 6).signExtend 64, 2⟩
  else if first = vl32Header then
    ⟨(ofBytes 32 ((data.drop 1).take 4)).signExtend 64, (ofBytes 32 ((data.drop 5).take 4)).signExtend 64, 9⟩
  else ⟨ofBytes 64 ((data.drop 1).take 8), ofBytes 64 ((data.drop 9).take 8), 17⟩

end Vl64pair

/-! ## The table of a unit -/

structure DebugDataGuestOpcode where
  guestEntryOffset : BitVec 64
  hostEntryOffset : BitVec 64
deriving DecidableEq, Repr

/-- The guest offset as the loop reads it: a signed word of 32 bits. -/
def DebugDataGuestOpcode.ripOffset (g : DebugDataGuestOpcode) : BitVec 64 :=
  (g.guestEntryOffset.setWidth 32).signExtend 64

def encodeEntries (prevPCOffset prevRIPOffset : BitVec 64) : List DebugDataGuestOpcode → List (BitVec 8)
  | [] => []
  | g :: opcodes =>
    Vl64pair.encode (g.hostEntryOffset - prevPCOffset) (g.ripOffset - prevRIPOffset) ++
      encodeEntries g.hostEntryOffset g.ripOffset opcodes

/-- The bytes of the array the entries are written to: on the stack, or the scratch
vector of the thread, which has `scratch` bytes from earlier units. -/
def entrySpace (scratch : Nat) (opcodes : List DebugDataGuestOpcode) : Nat :=
  let maxEntriesSize := opcodes.length * 17
  if 2048 < maxEntriesSize then (if scratch < maxEntriesSize then maxEntriesSize else scratch) else 2048

/-- What the tail of a unit says of its entries, and the bytes from the first entry on. -/
structure RIPTable where
  rip : BitVec 64
  numberOfRIPEntries : BitVec 32
  ripEntries : List (BitVec 8)
deriving DecidableEq, Repr

/-- The table that `CompileCode` leaves behind the unit; `rest` is what follows it. -/
def publishRIPTable (entry : BitVec 64) (opcodes : List DebugDataGuestOpcode) (rest : List (BitVec 8)) :
    RIPTable where
  rip := entry
  numberOfRIPEntries := BitVec.ofNat 32 opcodes.length
  ripEntries := encodeEntries 0 0 opcodes ++ rest

def walkEntries (hostPC : BitVec 64) :
    (count : Nat) → (ripEntry : List (BitVec 8)) → (startingHostPC startingGuestRIP : BitVec 64) → BitVec 64
  | 0, _, _, startingGuestRIP => startingGuestRIP
  | count + 1, ripEntry, startingHostPC, startingGuestRIP =>
    let offset := Vl64pair.decode ripEntry
    if startingHostPC + offset.integerARMPC ≤ hostPC then
      walkEntries hostPC count (ripEntry.drop offset.size) (startingHostPC + offset.integerARMPC)
        (startingGuestRIP + offset.integerX86RIP)
    else startingGuestRIP

def walkBlockRIPTable (blockBegin : BitVec 64) (tail : RIPTable) (hostPC : BitVec 64) : BitVec 64 :=
  walkEntries hostPC tail.numberOfRIPEntries.toNat tail.ripEntries blockBegin tail.rip

end PowerArm.Utils
