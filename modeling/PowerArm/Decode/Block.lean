import PowerArm.Decode.Table

/-!
# The A64 block decoder

`DecodeInstructionsAtEntry` as a function of the guest (words, executable
ranges, configuration), the decoder object a thread keeps between calls and
one call's arguments. Scratch vectors are total maps from slot numbers; the
`slots` field is their length, which only decides when they are cleared.
-/

namespace PowerArm.Decode

abbrev Addr := BitVec 64

def instructionSize : Addr := 4
def defaultMaxInstructions : Nat := 1024
def thunkMarkerWord : Word := 0xD4400000 ||| (0x0F3F <<< 5)
def thunkHashSize : Addr := 32
def pageOf (a : Addr) : Addr := a &&& ~~~0xFFF

/-! ## Executable ranges -/

structure ExecRange where
  base : Addr
  size : Addr
deriving DecidableEq, Repr

def ExecRange.Contains (r : ExecRange) (a : Addr) : Prop :=
  r.base.toNat ≤ a.toNat ∧ a.toNat < r.base.toNat + r.size.toNat

instance (r : ExecRange) (a : Addr) : Decidable (r.Contains a) := inferInstanceAs (Decidable (_ ∧ _))

/-- The executable mappings: page-aligned, disjoint, below the last page of the
address space, as the kernel hands them out. -/
structure ExecRanges where
  ranges : List ExecRange
  aligned : ∀ r ∈ ranges, r.base.toNat % 4096 = 0 ∧ r.size.toNat % 4096 = 0
  nonempty : ∀ r ∈ ranges, r.size ≠ 0
  below : ∀ r ∈ ranges, r.base.toNat + r.size.toNat < 2 ^ 64
  disjoint : ∀ r ∈ ranges, ∀ r' ∈ ranges, ∀ a, r.Contains a → r'.Contains a → r = r'

/-- `QueryGuestExecutableRange`: the mapping around an address, or the empty range. -/
def ExecRanges.query (rs : ExecRanges) (a : Addr) : ExecRange := (rs.ranges.find? (·.Contains a)).getD ⟨0, 0⟩

structure ExecCache where
  base : Addr := 0
  stop : Addr := 0
deriving DecidableEq, Repr

/-- The loop of `CheckRangeExecutable`; every round but the last shrinks `size`. -/
def checkLoop (rs : ExecRanges) : Nat → ExecCache → Addr → Addr → Bool × ExecCache
  | 0, c, _, _ => (false, c)
  | fuel + 1, c, a, size =>
    if a < c.base ∨ c.stop < a + size then
      let r := rs.query a
      let c : ExecCache := ⟨r.base, r.base + r.size⟩
      if r.size = 0 then (false, c)
      else
        let remaining := c.stop - a
        if remaining < size then checkLoop rs fuel c (a + remaining) (size - remaining)
        else checkLoop rs fuel c a size
    else (true, c)

def checkRangeExecutable (rs : Option ExecRanges) (c : ExecCache) (a size : Addr) : Bool × ExecCache :=
  match rs with
  | none => (true, c)
  | some rs => checkLoop rs (size.toNat + 2) c a size

/-! ## Words that end a block -/

def isISB (word : Word) : Bool := word &&& 0xFFFFF0FF == 0xD50330DF

def endsBlock (word : Word) (isbEndsBlock : Bool) : Bool :=
  (isbEndsBlock && isISB word) ||
  word &&& 0x7C000000 == 0x14000000 ||  -- B, BL
  word &&& 0x7C000000 == 0x34000000 ||  -- CBZ, CBNZ, TBZ, TBNZ
  word &&& 0xFE000000 == 0x54000000 ||  -- B.cond, BC.cond
  word &&& 0xFF000000 == 0xD4000000 ||  -- exception generation
  word &&& 0xFE000000 == 0xD6000000     -- branch to register

def signExtendImm (value : Word) (width : Nat) : Addr := (value.setWidth width).signExtend 64

/-- Targets of the branches a unit may follow; calls are not followed. -/
def getDirectSuccessors (word : Word) (pc : Addr) : List Addr :=
  if word &&& 0xFC000000 = 0x14000000 then
    [pc + signExtendImm (word &&& 0x03FFFFFF) 26 * 4]
  else if word &&& 0x7E000000 = 0x34000000 ∨ word &&& 0x7E000000 = 0x36000000 then
    let imm := if word &&& 0x7E000000 = 0x36000000 then signExtendImm (word >>> 5 &&& 0x3FFF) 14
      else signExtendImm (word >>> 5 &&& 0x7FFFF) 19
    [pc + imm * 4, pc + instructionSize]
  else if word &&& 0xFE000000 = 0x54000000 then
    let taken := pc + signExtendImm (word >>> 5 &&& 0x7FFFF) 19 * 4
    if word &&& 0xF < 0xE then [taken, pc + instructionSize] else [taken]
  else []

/-! ## Guest, configuration, decoder object -/

structure Config where
  maxInstPerBlock : Nat
  multiblock : Bool := true
  smcICache : Bool := false
  regionWindow : Addr := 128
  maxLeaders : Nat := 8

/-- What a sequence of calls is made against. `decode` is `DecodeInstruction`,
`handled` says whether a matcher has a handler. -/
structure Guest where
  mem : Addr → Word
  ranges : Option ExecRanges
  config : Config
  decode : Word → Option InstMatcher
  handled : InstMatcher → Bool

structure Slots where
  stamp : Nat → BitVec 32 := fun _ => 0
  word : Nat → Word := fun _ => 0
  matcher : Nat → Option InstMatcher := fun _ => none

structure Decoder where
  cache : ExecCache := {}
  numSlots : Nat := 0
  slots : Slots := {}
  generation : BitVec 32 := 0

def decodedBit : BitVec 32 := 1 <<< 31
def leaderBit : BitVec 32 := 1 <<< 30
def stopBit : BitVec 32 := 1 <<< 29
def genMask : BitVec 32 := stopBit - 1

def Slots.flags (s : Slots) (gen : BitVec 32) (slot : Nat) : BitVec 32 :=
  if s.stamp slot &&& genMask = gen then s.stamp slot &&& ~~~genMask else 0

def Slots.setFlag (s : Slots) (gen : BitVec 32) (slot : Nat) (flag : BitVec 32) : Slots :=
  let kept := if s.stamp slot &&& genMask = gen then s.stamp slot else gen
  { s with stamp := Function.update s.stamp slot (kept ||| flag) }

def Slots.setWord (s : Slots) (slot : Nat) (word : Word) : Slots :=
  { s with word := Function.update s.word slot word }

def Slots.setMatcher (s : Slots) (slot : Nat) (m : Option InstMatcher) : Slots :=
  { s with matcher := Function.update s.matcher slot m }

/-! ## Region discovery -/

structure Region where
  pc : Addr
  cap : Nat
  gen : BitVec 32
  regionWindow : Addr
  maxLeaders : Nat
  followBranches : Bool
  isbEndsBlock : Bool

namespace Region

def windowLow (r : Region) : Addr := if r.regionWindow ≤ r.pc then r.pc - r.regionWindow else 0
def windowHigh (r : Region) : Addr := r.pc + BitVec.ofNat 64 r.cap * instructionSize + r.regionWindow
def numSlots (r : Region) : Nat := (r.windowHigh - r.windowLow).toNat / 4 + 1
def slotOf (r : Region) (a : Addr) : Nat := (a - r.windowLow).toNat / 4

def InWindow (r : Region) (a : Addr) : Prop := r.windowLow ≤ a ∧ a ≤ r.windowHigh ∧ a &&& 3 = 0

instance (r : Region) (a : Addr) : Decidable (r.InWindow a) := inferInstanceAs (Decidable (_ ∧ _))

end Region

/-- `worklist` is a stack with its top first; `leaders` is in discovery order. -/
structure Walk where
  cache : ExecCache
  slots : Slots
  leaders : List Addr
  worklist : List Addr
  decoded : Nat

namespace Walk

def flags (w : Walk) (r : Region) (a : Addr) : BitVec 32 := w.slots.flags r.gen (r.slotOf a)

def setFlag (w : Walk) (r : Region) (a : Addr) (flag : BitVec 32) : Walk :=
  { w with slots := w.slots.setFlag r.gen (r.slotOf a) flag }

def checkExec (w : Walk) (g : Guest) (a size : Addr) : Bool × Walk :=
  let c := checkRangeExecutable g.ranges w.cache a size
  (c.1, { w with cache := c.2 })

/-- A successor `t` of a branch at `pc` that is no new leader: too far, out of
range, a leader already, or one too many. -/
def Skips (w : Walk) (r : Region) (pc t : Addr) : Prop :=
  r.regionWindow < (if pc < t then t - pc else pc - t) ∨ ¬ r.InWindow t ∨
    w.flags r t &&& leaderBit ≠ 0 ∨ r.maxLeaders ≤ w.leaders.length

instance (w : Walk) (r : Region) (pc t : Addr) : Decidable (w.Skips r pc t) := inferInstanceAs (Decidable (_ ∨ _))

def addLeader (w : Walk) (r : Region) (t : Addr) : Walk :=
  { w.setFlag r t leaderBit with leaders := w.leaders ++ [t], worklist := t :: w.worklist }

def follow (r : Region) (pc : Addr) (w : Walk) (t : Addr) : Walk :=
  if w.Skips r pc t then w else w.addLeader r t

def fetch (w : Walk) (g : Guest) (r : Region) (pc : Addr) : Walk :=
  let w := { w with slots := w.slots.setWord (r.slotOf pc) (g.mem pc) }
  { w.setFlag r pc decodedBit with decoded := w.decoded + 1 }

/-- Look the fetched word up. A thunk marker without a readable hash is no thunk. -/
def matchWord (w : Walk) (g : Guest) (r : Region) (pc : Addr) : Option InstMatcher × Walk :=
  let word := g.mem pc
  if word = thunkMarkerWord then
    let c := w.checkExec g (pc + instructionSize) thunkHashSize
    let m := if c.1 then g.decode word else none
    (m, { c.2 with slots := c.2.slots.setMatcher (r.slotOf pc) m })
  else (g.decode word, { w with slots := w.slots.setMatcher (r.slotOf pc) (g.decode word) })

def endRun (w : Walk) (r : Region) (pc : Addr) (targets : List Addr) : Walk :=
  let w := w.setFlag r pc stopBit
  if r.followBranches then targets.foldl (follow r pc) w else w

def decodeOne (g : Guest) (r : Region) (pc : Addr) (w : Walk) : Walk × Bool :=
  if ¬ r.InWindow pc ∨ w.flags r pc &&& decodedBit ≠ 0 then (w, false)
  else
    let c := if pc = r.pc then (true, w) else w.checkExec g pc instructionSize
    if c.1 then
      let m := (c.2.fetch g r pc).matchWord g r pc
      if m.1.any g.handled then
        if endsBlock (g.mem pc) r.isbEndsBlock then
          (m.2.endRun r pc (getDirectSuccessors (g.mem pc) pc), false)
        else (m.2, true)
      else (m.2.setFlag r pc stopBit, false)
    else (c.2, false)

/-- The inner loop, from `pc` to the end of its run. Its bound is `cap - decoded`. -/
def decodeRun (g : Guest) (r : Region) : Nat → Addr → Walk → Walk
  | 0, _, w => w
  | n + 1, pc, w =>
    let s := decodeOne g r pc w
    if s.2 then decodeRun g r n (pc + instructionSize) s.1 else s.1

/-- The outer loop. `discover_done` says the fuel used never runs out. -/
def discover (g : Guest) (r : Region) : Nat → Walk → Walk
  | 0, w => w
  | fuel + 1, w =>
    match w.worklist with
    | [] => w
    | pc :: rest =>
      if w.decoded < r.cap then
        discover g r fuel (decodeRun g r (r.cap - w.decoded) pc { w with worklist := rest })
      else w

end Walk

/-! ## Layout -/

structure DecodedInst where
  pc : Addr
  word : Word
  matcher : Option InstMatcher
deriving DecidableEq, Repr

inductive DecodedBlockStatus
  | success
  | noexecInst
  | unalignedPC
deriving DecidableEq, Repr

structure DecodedBlock where
  entry : Addr
  size : Addr
  instructions : List DecodedInst
  status : DecodedBlockStatus
  isEntryPoint : Bool
  predCount : Nat := 0
  solePredEntry : Addr := 0
deriving DecidableEq, Repr

/-- `DecodedBlockInformation` with the decoded address range. -/
structure BlockInfo where
  totalInstructionCount : Nat
  blocks : List DecodedBlock
  entryPoints : List Addr
  codePages : List Addr
  minAddress : Addr
  maxAddress : Addr
deriving DecidableEq, Repr

def insertSorted : List Addr → Addr → List Addr
  | [], value => [value]
  | x :: v, value =>
    if x < value then x :: insertSorted v value else if x = value then x :: v else value :: x :: v

structure Pages where
  codePages : List Addr
  lastPage : Addr

def Pages.touch (p : Pages) (page : Addr) : Pages :=
  if page ≠ p.lastPage then ⟨insertSorted p.codePages page, page⟩ else p

structure Emit where
  instructions : List DecodedInst := []
  decodedEnd : Addr
  pages : Pages

def Emit.push (e : Emit) (inst : DecodedInst) : Emit :=
  let pages := e.pages.touch (pageOf inst.pc)
  let next := inst.pc + instructionSize
  if inst.word = thunkMarkerWord ∧ inst.matcher.isSome then
    ⟨e.instructions ++ [inst], next + thunkHashSize, pages.touch (pageOf (next + thunkHashSize - 1))⟩
  else ⟨e.instructions ++ [inst], next, pages⟩

/-- The instructions of one leader's block. The bound counts the addresses of
the window from the leader up. -/
def emitBlock (r : Region) (s : Slots) (leader : Addr) : Nat → Addr → Emit → Emit
  | 0, _, e => e
  | n + 1, pc, e =>
    if r.InWindow pc then
      let f := s.flags r.gen (r.slotOf pc)
      if f &&& decodedBit = 0 ∨ pc ≠ leader ∧ f &&& leaderBit ≠ 0 then e
      else
        let e := e.push ⟨pc, s.word (r.slotOf pc), s.matcher (r.slotOf pc)⟩
        if f &&& stopBit ≠ 0 then e else emitBlock r s leader n (pc + instructionSize) e
    else e

structure Layout where
  blocks : List DecodedBlock := []
  pages : Pages
  minAddress : Addr
  maxAddress : Addr

def layoutLeader (r : Region) (s : Slots) (l : Layout) (leader : Addr) : Layout :=
  if s.flags r.gen (r.slotOf leader) &&& decodedBit = 0 then l
  else
    let e := emitBlock r s leader ((r.windowHigh - leader).toNat / 4 + 1) leader
      { decodedEnd := leader, pages := l.pages }
    { blocks := l.blocks ++
        [⟨leader, BitVec.ofNat 64 e.instructions.length * instructionSize, e.instructions,
          .success, leader = r.pc, 0, 0⟩]
      pages := e.pages
      minAddress := if leader < l.minAddress then leader else l.minAddress
      maxAddress := if l.maxAddress < e.decodedEnd then e.decodedEnd else l.maxAddress }

def sortLeaders : List Addr → List Addr
  | [] => []
  | entry :: rest => entry :: rest.insertionSort (· ≤ ·)

def layoutBlocks (r : Region) (w : Walk) : Layout :=
  (sortLeaders w.leaders).foldl (layoutLeader r w.slots)
    { pages := ⟨[pageOf r.pc], pageOf r.pc⟩, minAddress := r.pc, maxAddress := r.pc }

/-! ## Predecessor census -/

def DecodedBlock.addPred (b : DecodedBlock) (pred : Addr) : DecodedBlock :=
  let n := if b.predCount < 2 then b.predCount + 1 else b.predCount
  { b with predCount := n, solePredEntry := if n = 1 then pred else 0 }

def addPredTo (pred target : Addr) : List DecodedBlock → List DecodedBlock
  | [] => []
  | b :: bs => if b.entry = target then b.addPred pred :: bs else b :: addPredTo pred target bs

/-- The in-unit successors of a block, or its fallthrough when they are not exact. -/
def censusTargets (g : Guest) (b : DecodedBlock) : List Addr :=
  match b.instructions.getLast? with
  | none => []
  | some last =>
    let exact := if b.status = .success ∧ last.matcher.any g.handled
      then getDirectSuccessors last.word last.pc else []
    if exact = [] then [b.entry + b.size] else exact

def census (g : Guest) (blocks : List DecodedBlock) : List DecodedBlock :=
  blocks.foldl (fun acc b => (censusTargets g b).foldl (fun acc t => addPredTo b.entry t acc) acc) blocks

/-! ## One call -/

structure Call where
  pc : Addr
  maxInst : Nat
deriving DecidableEq, Repr

def effectiveCap (config : Config) (maxInst : Nat) : Nat :=
  let cap := if maxInst ≠ 0 then maxInst else config.maxInstPerBlock
  if cap = 0 ∨ defaultMaxInstructions < cap then defaultMaxInstructions else cap

def faultInfo (pc : Addr) (m : Option InstMatcher) (status : DecodedBlockStatus) (l : Layout) : BlockInfo :=
  ⟨1, [⟨pc, 0, [⟨pc, 0, m⟩], status, true, 0, 0⟩], [pc], l.pages.codePages, l.minAddress, l.maxAddress⟩

def emptyLayout (pc : Addr) : Layout := { pages := ⟨[pageOf pc], pageOf pc⟩, minAddress := pc, maxAddress := pc }

def Slots.cleared (s : Slots) : Slots := { s with stamp := fun _ => 0 }

def Decoder.reserve (d : Decoder) (numSlots : Nat) : Decoder :=
  if d.numSlots < numSlots then
    { d with numSlots := numSlots, slots := d.slots.cleared, generation := 0 }
  else d

/-- `++Generation`, clearing the stamps when the counter wraps. -/
def Decoder.bump (d : Decoder) : Decoder :=
  if d.generation + 1 = 0 then { d with slots := d.slots.cleared, generation := 1 }
  else { d with generation := d.generation + 1 }

def regionOf (g : Guest) (c : Call) (gen : BitVec 32) : Region :=
  let cap := effectiveCap g.config c.maxInst
  { pc := c.pc, cap, gen
    regionWindow := g.config.regionWindow
    maxLeaders := g.config.maxLeaders
    followBranches := g.config.multiblock && 1 < cap && 1 < g.config.maxLeaders
    isbEndsBlock := g.config.smcICache }

def entryWalk (r : Region) (d : Decoder) : Walk :=
  { cache := d.cache
    slots := d.slots.setFlag r.gen (r.slotOf r.pc) leaderBit
    leaders := [r.pc]
    worklist := [r.pc]
    decoded := 0 }

def discoverFuel (cap : Nat) : Nat := 2 * cap + 1

def numSlotsOf (g : Guest) (c : Call) : Nat := (regionOf g c 0).numSlots

/-- The region and the walk of a unit, from a decoder whose generation is its own. -/
def Decoder.region (g : Guest) (d : Decoder) (c : Call) : Region := regionOf g c (d.generation &&& genMask)

def Decoder.walk (g : Guest) (d : Decoder) (c : Call) : Walk :=
  (entryWalk (d.region g c) d).discover g (d.region g c) (discoverFuel (effectiveCap g.config c.maxInst))

def infoOf (g : Guest) (pc : Addr) (l : Layout) : BlockInfo :=
  if l.blocks = [] then faultInfo pc none .noexecInst l
  else
    ⟨(l.blocks.map (·.instructions.length)).sum, census g l.blocks, [pc], l.pages.codePages,
      l.minAddress, l.maxAddress⟩

/-- Discovery, layout and census of a unit whose entry can be read. -/
def Decoder.decodeRegion (g : Guest) (d : Decoder) (c : Call) : BlockInfo × Decoder :=
  let d := (d.reserve (numSlotsOf g c)).bump
  let w := d.walk g c
  (infoOf g c.pc (layoutBlocks (d.region g c) w), { d with cache := w.cache, slots := w.slots })

def Decoder.decodeInstructionsAtEntry (g : Guest) (d : Decoder) (c : Call) : BlockInfo × Decoder :=
  if c.pc &&& 3 ≠ 0 then (faultInfo c.pc none .unalignedPC (emptyLayout c.pc), d)
  else
    let e := checkRangeExecutable g.ranges d.cache c.pc instructionSize
    let d := { d with cache := e.2 }
    if e.1 then d.decodeRegion g c
    else (faultInfo c.pc (g.decode 0) .noexecInst (emptyLayout c.pc), d)

def Decoder.after (g : Guest) (d : Decoder) (calls : List Call) : Decoder :=
  calls.foldl (fun d c => (d.decodeInstructionsAtEntry g c).2) d

def Guest.execAt (g : Guest) (a : Addr) : Bool := (checkRangeExecutable g.ranges {} a instructionSize).1

end PowerArm.Decode
