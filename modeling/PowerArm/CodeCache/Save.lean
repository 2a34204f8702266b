import PowerArm.CodeCache.Load

/-!
# Saving live blocks

`CollectLiveBlocks` for one block: the checks on the live block, the relocations
re-expressed for the stored layout (hot bytes, then cold bytes), and
`ApplyCodeRelocations` returning the copy to its storage form.
-/

namespace PowerArm.CodeCache

open Lib

/-! ## Relocations of the stored layout -/

/-- A block in the code buffer: where its hot and cold bytes are, the buffer's
bytes, and its relocations by buffer offset with absolute guest RIPs. -/
structure Live where
  start : Nat
  size : Nat
  coldBase : Nat
  coldSize : Nat
  mem : Mem
  relocs : List Relocation

def wrap32 (v : Int) : Int := int32 (v % 2 ^ 32).toNat

namespace Live

def codeSize (v : Live) : Nat := v.size + v.coldSize

def InHot (v : Live) (a n : Nat) : Prop := v.start ≤ a ∧ a + n ≤ v.start + v.size

def InCold (v : Live) (a n : Nat) : Prop := v.coldBase ≤ a ∧ a + n ≤ v.coldBase + v.coldSize

def HasWord (v : Live) (record : Nat) (delta : Int) : Prop :=
  (v.start : Int) ≤ record + delta ∧ record + delta + 4 ≤ v.start + v.size

def LinkCacheable (v : Live) (record : Nat) (l : LinkRecord) : Prop :=
  v.HasWord record l.callerDelta ∧ v.HasWord record l.linkBranchDelta ∧
    (l.linkedEntryDelta ≠ 0 → (v.start : Int) ≤ record + l.linkedEntryDelta ∧
      record + l.linkedEntryDelta < v.start + v.size) ∧
    (l.finalDelta ≠ 0 → v.HasWord record l.finalDelta)

def Cacheable (v : Live) (r : Relocation) : Prop :=
  (match r.kind with
    | .namedThunkMove _ _ => False
    | .linkRecord l => v.LinkCacheable r.offset l
    | _ => True) ∧
  (v.InHot r.offset (relocWidth r.kind) ∨ v.InCold r.offset (relocWidth r.kind))

instance (v : Live) : Decidable (v.InHot a n) := inferInstanceAs (Decidable (_ ∧ _))
instance (v : Live) : Decidable (v.InCold a n) := inferInstanceAs (Decidable (_ ∧ _))
instance (v : Live) : Decidable (v.HasWord record delta) := inferInstanceAs (Decidable (_ ∧ _))
instance (v : Live) : Decidable (v.LinkCacheable record l) := inferInstanceAs (Decidable (_ ∧ _))

instance (v : Live) (r : Relocation) : Decidable (v.Cacheable r) := by
  unfold Cacheable
  cases r.kind <;> infer_instance

/-- The deltas of a link record at cold offset `coldOff`, in the stored layout.
Zero stands for "absent" on both sides. -/
def storedLink (v : Live) (coldOff : Nat) (l : LinkRecord) : LinkRecord :=
  let liveRecord : Int := v.coldBase + coldOff
  let storedRecord : Int := v.size + coldOff
  let liveLinkedEntry := if l.linkedEntryDelta ≠ 0 then liveRecord + l.linkedEntryDelta else 0
  let liveFinal := if l.finalDelta ≠ 0 then liveRecord + l.finalDelta else 0
  let hotLinkedEntry := if liveLinkedEntry ≠ 0 then liveLinkedEntry - v.start else 0
  let hotFinal := if liveFinal ≠ 0 then liveFinal - v.start else 0
  { l with
    callerDelta := wrap32 (liveRecord + l.callerDelta - v.start - storedRecord)
    linkBranchDelta := wrap32 (liveRecord + l.linkBranchDelta - v.start - storedRecord)
    linkedEntryDelta := if hotLinkedEntry ≠ 0 then wrap32 (hotLinkedEntry - storedRecord) else 0
    finalDelta := if hotFinal ≠ 0 then wrap32 (hotFinal - storedRecord) else 0 }

end Live

def RelocKind.rebased (fileStartVA : Nat) : RelocKind → RelocKind
  | .guestRIPLiteral rip => .guestRIPLiteral (int64 (rip - fileStartVA))
  | .guestRIPMove register instructions rip => .guestRIPMove register instructions (int64 (rip - fileStartVA))
  | kind => kind

def Live.stored (v : Live) (fileStartVA : Nat) (r : Relocation) : Relocation :=
  if v.start ≤ r.offset ∧ r.offset < v.start + v.size then
    { offset := r.offset - v.start, kind := r.kind.rebased fileStartVA }
  else
    let coldOff := r.offset - v.coldBase
    { offset := v.size + coldOff
      kind := match r.kind with
        | .linkRecord l => .linkRecord (v.storedLink coldOff l)
        | kind => kind.rebased fileStartVA }

/-! ## The storage form -/

def trapWord : Nat := 0x7FE00008

/-- `LinkSites` succeeds: the record's first words, the caller and the thunk word
are inside a copy of `size` bytes. -/
def LinkSites (size : Nat) (record : Nat) (l : LinkRecord) : Prop :=
  record + 32 ≤ size ∧ (0 ≤ record + l.callerDelta ∧ record + l.callerDelta + 4 ≤ size) ∧
    0 ≤ record + l.thunkDelta ∧ record + l.thunkDelta + 4 ≤ size

instance : Decidable (LinkSites size record l) := inferInstanceAs (Decidable (_ ∧ _))

/-- The first loop: a record and the words its linker patched, unlinked again. -/
def unlink (size : Nat) (r : Relocation) : Prog Unit :=
  match r.kind with
  | .linkRecord l => do
    Prog.require (LinkSites size r.offset l)
    let whole : List Span := [⟨0, size⟩]
    Prog.store whole (r.offset + l.callerDelta).toNat (numberBytes 4 l.origCallerWord)
    Prog.store whole (r.offset + l.thunkDelta).toNat (numberBytes 4 l.origThunkWord)
    Prog.store whole r.offset (numberBytes 8 0)
    let final : Int := r.offset + l.finalDelta
    if l.finalDelta ≠ 0 ∧ l.finalDelta ≠ l.callerDelta ∧ 0 ≤ final ∧ final + 4 ≤ size then
      Prog.store whole final.toNat (numberBytes 4 trapWord)
  | _ => pure ()

/-- The storage form of the bytes a relocation covers: no host pointers, guest
RIPs relative to the file, variable moves as nops. -/
def storageBytes : RelocKind → Prog (List UInt8)
  | .namedSymbolLiteral _ => pure (numberBytes 8 0)
  | .namedThunkMove register _ => pure (wordBytes (Ppc.loadImm64Fixed (BitVec.ofNat 32 register) 0))
  | .guestRIPLiteral rip => pure (numberBytes 8 rip)
  | .guestRIPMove register instructions rip =>
    if instructions = 0 then
      pure (wordBytes (Ppc.loadImm64Fixed (BitVec.ofNat 32 register) (BitVec.ofNat 64 rip)))
    else do
      Prog.require (instructions * 4 ≤ Ppc.loadConstantFixedBytes + 4)
      pure (wordBytes (List.replicate instructions Ppc.nop))
  | .linkRecord _ => pure []
  | .unknown _ => Prog.refuse

def toStorage (size : Nat) (r : Relocation) : Prog Unit := do
  Prog.require (r.offset ≤ size ∧ relocWidth r.kind ≤ size - r.offset)
  let bytes ← storageBytes r.kind
  Prog.store [⟨0, size⟩] r.offset bytes

def recordWords (size : Nat) (r : Relocation) : Prog Unit :=
  match r.kind with
  | .linkRecord l => do
    Prog.require (LinkSites size r.offset l)
    let whole : List Span := [⟨0, size⟩]
    let callerWord ← Prog.load whole (r.offset + l.callerDelta).toNat 4
    let thunkWord ← Prog.load whole (r.offset + l.thunkDelta).toNat 4
    Prog.store whole (r.offset + 24) (numberBytes 4 callerWord)
    Prog.store whole (r.offset + 28) (numberBytes 4 thunkWord)
  | _ => pure ()

/-- `ApplyCodeRelocations` with `ForStorage`. -/
def applyCodeRelocations (size : Nat) (relocs : List Relocation) : Prog Unit := do
  relocs.forM (unlink size)
  relocs.forM (toStorage size)
  relocs.forM (recordWords size)

def Live.copy (v : Live) : Mem := fun x =>
  if x < v.size then v.mem (v.start + x) else v.mem (v.coldBase + (x - v.size))

/-- The code section's copy of the block: storage form, header and futex reset. -/
def Live.save (v : Live) (fileStartVA : Nat) : Prog Unit := do
  Prog.require (∀ r ∈ v.relocs, v.Cacheable r)
  applyCodeRelocations v.codeSize (v.relocs.map (v.stored fileStartVA))
  Prog.store [⟨0, v.codeSize⟩] 0 (numberBytes 4 v.size)
  Prog.store [⟨0, v.codeSize⟩] (v.size + 32) (numberBytes 4 0)

end PowerArm.CodeCache
