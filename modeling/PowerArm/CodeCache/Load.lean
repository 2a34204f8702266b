import PowerArm.CodeCache.Relocate

/-!
# Loading blocks and looking host addresses up

The code buffer's two-ended chunk allocator (`EnsureHeadroom`,
`AllocateColdThunkBytes`), `TryLoadBlock`, and the host-PC to guest-RIP lookup
of an installed block (`FindBlockHeader`, `RestoreRIPFromHostPC`,
`WalkBlockRIPTable`). Every access to the code buffer goes through the spans of
the block it is about.
-/

namespace PowerArm.CodeCache

open Lib

/-! ## The code buffer -/

def alignUp (v size : Nat) : Nat := (v + size - 1) / size * size

/-- `CodeBufferManager`: offsets into the `usable` bytes at host address `ptr`. -/
structure Buffer where
  ptr : Nat
  usable : Nat
  chunkBase : Nat
  chunkEnd : Nat
  latestOffset : Nat
  coldOffset : Nat
  deriving DecidableEq, Repr

namespace Buffer

def kChunkSize : Nat := 16 * 1024 * 1024

def firstChunk (b : Buffer) : Buffer :=
  if b.chunkEnd = 0 then
    { b with chunkBase := 0, chunkEnd := min kChunkSize b.usable, latestOffset := 0,
             coldOffset := min kChunkSize b.usable }
  else b

def nextChunk (b : Buffer) : Buffer :=
  { b with chunkBase := b.chunkEnd, chunkEnd := min (b.chunkEnd + kChunkSize) b.usable,
           latestOffset := b.chunkEnd, coldOffset := min (b.chunkEnd + kChunkSize) b.usable }

def headroomLoop (need : Nat) : Nat → Buffer → Buffer × Bool
  | 0, b => (b, false)
  | fuel + 1, b =>
    if b.coldOffset < b.latestOffset + need then
      if b.usable ≤ b.chunkEnd then (b, false) else headroomLoop need fuel b.nextChunk
    else (b, true)

/-- The chunk end grows in every round, so this much fuel is never used up. -/
def ensureHeadroom (b : Buffer) (need : Nat) : Buffer × Bool :=
  headroomLoop need (b.usable + 1 - b.firstChunk.chunkEnd) b.firstChunk

def allocateColdThunkBytes (b : Buffer) (bytes : Nat) : Buffer :=
  { b with coldOffset := b.coldOffset - alignUp bytes 16 }

end Buffer

/-! ## State -/

structure Installed where
  offset : Nat
  hot : Span
  cold : Span
  deriving DecidableEq, Repr

def Installed.spans (b : Installed) : List Span := [b.hot, b.cold]

structure State where
  buf : Buffer
  mem : Mem
  segments : List Segment
  blocks : List Installed

structure Env where
  host : Host
  loadEnabled : Bool
  /-- `LookupExecutableFileSection`: the load base of the file at the guest RIP. -/
  fileStartVA : Option Nat
  /-- `QueryGuestExecutableRange`: base and size. -/
  executableRange : Nat → Nat × Nat
  /-- `GuestCodePageValidateOnly`. -/
  validateOnly : Nat → Bool
  /-- XXH3 of guest bytes: address and length. -/
  guestHash : Nat → Nat → Nat

structure LoadedBlock where
  blockBegin : Nat
  hostCode : Nat
  size : Nat
  startAddr : Nat
  length : Nat
  deriving DecidableEq, Repr

inductive Outcome (α : Type) where
  | fault
  | abort
  | next (s : State) (r : α)

/-! ## TryLoadBlock -/

def maxInstructions : Nat := 1024

def guestPage : Nat := 4096

def executableThrough (query : Nat → Nat × Nat) (stop : Nat) : Nat → Nat → Bool
  | 0, _ => true
  | fuel + 1, address =>
    if address < stop then
      let (base, size) := query address
      if size = 0 ∨ address < base ∨ size ≤ address - base then false
      else executableThrough query stop fuel (base + size)
    else true

def guestPages (rip length : Nat) : List Nat :=
  let first := rip / guestPage * guestPage
  (List.range ((rip + length - first + guestPage - 1) / guestPage)).map fun i => first + i * guestPage

/-- The guest bytes are there, executable, tracked and the ones the entry was
made from. -/
def Env.accepts (env : Env) (guestRIP : Nat) (b : SegmentBlock) : Bool :=
  let length := b.guestLength
  length != 0 && length % 4 == 0 && length ≤ maxInstructions * 4 && guestRIP + length < 2 ^ 64 &&
    executableThrough env.executableRange (guestRIP + length) length guestRIP &&
    (guestPages guestRIP length).all (fun page => !env.validateOnly page) &&
    env.guestHash guestRIP length == b.guestHash

def fetchRelocs (seg : Segment) : Nat → Nat → Prog (List Relocation)
  | _, 0 => pure []
  | i, n + 1 => do
    let r ← Prog.fetch seg.image (seg.relocAddress i) relocSize Relocation.view
    let rest ← fetchRelocs seg (i + 1) n
    pure (r :: rest)

def install (host : Host) (fileStartVA guestRIP : Nat) (seg : Segment) (b : SegmentBlock)
    (hot cold : Span) : Prog Unit := do
  let code := seg.codeOffset + b.codeOffset
  let hotCode ← Prog.fetch seg.image code hot.size Mem.slice
  Prog.store [hot, cold] hot.base hotCode
  let coldCode ← Prog.fetch seg.image (code + hot.size) cold.size Mem.slice
  Prog.store [hot, cold] cold.base coldCode
  let relocs ← fetchRelocs seg b.relocBegin b.relocCount
  applyCodeRelocationsSplit host fileStartVA hot cold relocs
  let rip ← Prog.load [hot, cold] (cold.base + 8) 8
  let guestSize ← Prog.load [hot, cold] (cold.base + 16) 8
  let size ← Prog.load [hot, cold] cold.base 8
  let coldSize ← Prog.load [hot, cold] (cold.base + 40) 4
  Prog.require (rip = guestRIP ∧ guestSize = b.guestLength ∧ size = hot.size ∧ coldSize = cold.size)

/-- `AppendBlock`: the process dies when the index would not grow. -/
def appendBlock (buf : Buffer) (blocks : List Installed) (b : Installed) : Option (List Installed) :=
  if (∃ last ∈ blocks.getLast?, b.offset ≤ last.offset) ∨ buf.usable / 16 + 1 ≤ blocks.length then
    none
  else
    some (blocks ++ [b])

def State.place (s : State) (env : Env) (fileStartVA guestRIP : Nat) (seg : Segment)
    (b : SegmentBlock) : Outcome (Option LoadedBlock) :=
  let (buf, room) := s.buf.ensureHeadroom (b.hotSize + b.coldSize + blockAlignment)
  let hotOffset := alignUp buf.latestOffset blockAlignment
  if room = false ∨ buf.coldOffset < hotOffset ∨ buf.coldOffset - hotOffset < b.hotSize then
    .next { s with buf } none
  else
    let taken := buf.allocateColdThunkBytes b.coldSize
    let hot : Span := ⟨hotOffset, b.hotSize⟩
    let cold : Span := ⟨taken.coldOffset, b.coldSize⟩
    match install env.host fileStartVA guestRIP seg b hot cold s.mem with
    | .fault => .fault
    | .abort => .abort
    | .refused mem => .next { s with buf := { taken with coldOffset := taken.coldOffset + b.coldSize }, mem } none
    | .value _ mem =>
      match appendBlock buf s.blocks ⟨hotOffset % 2 ^ 32, hot, cold⟩ with
      | none => .abort
      | some blocks =>
        .next { s with buf := { taken with latestOffset := hotOffset + b.hotSize }, mem, blocks } (some {
            blockBegin := buf.ptr + hotOffset
            hostCode := buf.ptr + hotOffset + b.entryOffset
            size := b.hotSize
            startAddr := guestRIP
            length := b.guestLength })

def State.tryLoadBlock (s : State) (env : Env) (guestRIP : Nat) : Outcome (Option LoadedBlock) :=
  match env.fileStartVA with
  | none => .next s none
  | some fileStartVA =>
    if env.loadEnabled = false ∨ guestRIP < fileStartVA then
      .next s none
    else
      match lookup (guestRIP - fileStartVA) s.segments s.mem with
      | .fault => .fault
      | .abort => .abort
      | .refused _ => .next s none
      | .value none _ => .next s none
      | .value (some (seg, b)) _ =>
        if env.accepts guestRIP b then s.place env fileStartVA guestRIP seg b
        else .next s none

/-! ## Host PC to guest RIP -/

def upperBound (blocks : List Installed) (target : Nat) : Nat → Nat → Nat → Prog Nat
  | 0, lo, _ => pure lo
  | fuel + 1, lo, hi =>
    if lo < hi then
      let mid := lo + (hi - lo) / 2
      match blocks[mid]? with
      | none => Prog.fault
      | some b =>
        if b.offset ≤ target then upperBound blocks target fuel (mid + 1) hi
        else upperBound blocks target fuel lo mid
    else
      pure lo

/-- `FindBlockHeader`; it refuses where the source returns null. -/
def State.findBlockHeader (s : State) (hostPC : Nat) : Prog Installed := do
  Prog.require (s.buf.ptr ≤ hostPC)
  let byteOffset := hostPC - s.buf.ptr
  Prog.require (byteOffset < s.buf.usable)
  let count := s.blocks.length
  Prog.require (count ≠ 0)
  let target := byteOffset % 2 ^ 32
  let lo ← upperBound s.blocks target count 0 count
  Prog.require (lo ≠ 0)
  match s.blocks[lo - 1]? with
  | none => Prog.fault
  | some b =>
    let offsetToBlockTail ← Prog.load b.spans b.offset 4
    let size ← Prog.load b.spans (b.offset + offsetToBlockTail) 8
    Prog.require (target - b.offset < size)
    pure b

/-- One entry of a RIP table: `vl64pair::Decode`. -/
structure Decoded where
  armPC : Nat
  guestRIP : Nat
  size : Nat

def pairSize (first : Nat) : Nat :=
  if first < 128 then 1 else if first / 64 = 2 then 2 else if first = 0xC0 then 9 else 17

def signExtend (bits v : Nat) : Int := if v < 2 ^ (bits - 1) then v else (v : Int) - 2 ^ bits

def decodePair (spans : List Span) (a : Nat) : Prog Decoded := do
  let first ← Prog.load spans a 1
  if first < 128 then
    pure ⟨(first % 16 + 1) * 4, first / 16 % 8 + 1, 1⟩
  else if first / 64 = 2 then
    let armPC ← Prog.load spans (a + 1) 1
    pure ⟨int64 (signExtend 8 armPC * 4), int64 (signExtend 6 (first % 64)), 2⟩
  else if first = 0xC0 then
    let armPC ← Prog.load spans (a + 1) 4
    let guestRIP ← Prog.load spans (a + 5) 4
    pure ⟨int64 (signExtend 32 armPC), int64 (signExtend 32 guestRIP), 9⟩
  else
    let armPC ← Prog.load spans (a + 1) 8
    let guestRIP ← Prog.load spans (a + 9) 8
    pure ⟨armPC, guestRIP, 17⟩

def walkEntries (spans : List Span) (hostPC : Nat) : Nat → Nat → Nat → Nat → Prog Nat
  | 0, _, _, guestRIP => pure guestRIP
  | n + 1, entry, startPC, guestRIP => do
    let d ← decodePair spans entry
    if (startPC + d.armPC) % 2 ^ 64 ≤ hostPC then
      walkEntries spans hostPC n (entry + d.size) ((startPC + d.armPC) % 2 ^ 64) ((guestRIP + d.guestRIP) % 2 ^ 64)
    else
      pure guestRIP

/-- `RestoreRIPFromHostPC` once the block is known. -/
def State.walkBlock (s : State) (framePC hostPC : Nat) (b : Installed) : Prog Nat := do
  let offsetToBlockTail ← Prog.load b.spans b.offset 4
  let tail := b.offset + offsetToBlockTail
  let numberOfRIPEntries ← Prog.load b.spans (tail + 24) 4
  if numberOfRIPEntries = 0 then
    pure framePC
  else
    let offsetToRIPEntries ← Prog.load b.spans (tail + 28) 4
    let rip ← Prog.load b.spans (tail + 8) 8
    walkEntries b.spans hostPC numberOfRIPEntries (tail + offsetToRIPEntries) ((s.buf.ptr + b.offset) % 2 ^ 64) rip

def State.restoreRIPFromHostPC (s : State) (framePC hostPC : Nat) : Outcome Nat :=
  match s.findBlockHeader hostPC s.mem with
  | .fault => .fault
  | .abort => .abort
  | .refused _ => .next s framePC
  | .value b _ =>
    match s.walkBlock framePC hostPC b s.mem with
    | .fault => .fault
    | .abort => .abort
    | .refused _ => .next s framePC
    | .value rip _ => .next s rip

/-! ## Runs -/

inductive Op where
  | openFile (cfg : Config) (img : Image)
  | load (env : Env) (guestRIP : Nat)
  | lookup (framePC hostPC : Nat)

inductive Answer where
  | opened (ok : Bool)
  | loaded (block : Option LoadedBlock)
  | guestRIP (rip : Nat)
  deriving DecidableEq, Repr

def Outcome.map (f : α → β) : Outcome α → Outcome β
  | .fault => .fault
  | .abort => .abort
  | .next s r => .next s (f r)

def State.openFile (s : State) (cfg : Config) (img : Image) : Outcome Bool :=
  match openSegment cfg img s.mem with
  | .fault => .fault
  | .abort => .abort
  | .refused _ => .next s false
  | .value seg _ => .next { s with segments := s.segments ++ [seg] } true

def State.perform (s : State) : Op → Outcome Answer
  | .openFile cfg img => (s.openFile cfg img).map .opened
  | .load env guestRIP => (s.tryLoadBlock env guestRIP).map .loaded
  | .lookup framePC hostPC => (s.restoreRIPFromHostPC framePC hostPC).map .guestRIP

def State.step (s : State) (op : Op) : Option State :=
  match s.perform op with
  | .next s' _ => some s'
  | _ => none

end PowerArm.CodeCache
