import PowerArm.Lib.LittleEndian
import PowerArm.Lib.Resume

/-!
# The machine translated A64 code runs on

The guest registers, the flags and the software exclusive monitor are one thread's own;
memory is shared, and a translated instruction reaches it one access at a time. An
access to a byte the pages do not allow is refused, which is the guest's fault.
-/

namespace PowerArm.A64

abbrev Value := BitVec 64
abbrev Addr := BitVec 64
abbrev Word := BitVec 32

abbrev Reg := BitVec 5

structure Flags where
  n : Bool
  z : Bool
  c : Bool
  v : Bool
deriving DecidableEq, Repr

structure Monitor where
  addr : Addr := 0
  value : Value := 0
  valueHi : Value := 0
  size : BitVec 8 := 0
  valid : BitVec 8 := 0
deriving DecidableEq, Repr

/-- The guest state of a thread. `gpr 31` is the stack pointer, and `pc` is the guest
address of the last `GuestOpcode` marker passed or of the exit taken. -/
structure Cpu where
  gpr : Reg → Value
  nzcv : Flags
  excl : Monitor
  pc : Addr

inductive OpSize
  | i8Bit
  | i16Bit
  | i32Bit
  | i64Bit
deriving DecidableEq, Repr

def OpSize.bytes : OpSize → Nat
  | .i8Bit => 1
  | .i16Bit => 2
  | .i32Bit => 4
  | .i64Bit => 8

def OpSize.bits (size : OpSize) : Nat := 8 * size.bytes

def OpSize.trunc (size : OpSize) (v : Value) : Value := (v.setWidth size.bits).setWidth 64

/-- `SizeToOpSize(1 << log)` for a two-bit size field. -/
def OpSize.ofLog : Nat → OpSize
  | 0 => .i8Bit
  | 1 => .i16Bit
  | 2 => .i32Bit
  | _ => .i64Bit

/-! ## Memory -/

structure Memory where
  byte : Addr → BitVec 8
  readable : Addr → Bool
  writable : Addr → Bool

namespace Memory

def bytes (m : Memory) (addr : Addr) (n : Nat) : List (BitVec 8) :=
  (List.range n).map fun i => m.byte (addr + BitVec.ofNat 64 i)

def read (m : Memory) (size : OpSize) (addr : Addr) : Value := Lib.ofBytes 64 (m.bytes addr size.bytes)

def put (m : Memory) (addr : Addr) (bs : List (BitVec 8)) : Memory :=
  { m with byte := fun a => bs.getD (a - addr).toNat (m.byte a) }

def write (m : Memory) (size : OpSize) (addr : Addr) (value : Value) : Memory :=
  m.put addr (Lib.toBytes size.bytes value)

def covers (allowed : Addr → Bool) (addr : Addr) (n : Nat) : Bool :=
  (List.range n).all fun i => allowed (addr + BitVec.ofNat 64 i)

def canRead (m : Memory) (addr : Addr) (n : Nat) : Bool := covers m.readable addr n
def canWrite (m : Memory) (addr : Addr) (n : Nat) : Bool := covers m.writable addr n

end Memory

/-! ## Accesses -/

/-- What translated code asks of the rest of the machine, one atomic step each. `signal`
is the break an unallocated encoding turns into. -/
inductive Access
  | load (size : OpSize) (addr : Addr)
  | store (size : OpSize) (addr : Addr) (value : Value)
  | cas (size : OpSize) (expected desired : Value) (addr : Addr)
  | casPair (expectedLo expectedHi desiredLo desiredHi : Value) (addr : Addr)
  | loadReserved (size : OpSize) (addr : Addr)
  | storeConditional (size : OpSize) (value : Value) (addr : Addr)
  | signal
deriving DecidableEq, Repr

/-- What the host decides at a step: whether a reservation still holds, and what the
flags read after an operation that does not keep them. -/
structure Answer where
  reserved : Bool
  flags : Flags
deriving DecidableEq, Repr

structure Reply where
  value : Value := 0
  valueHi : Value := 0
  answer : Answer
deriving DecidableEq, Repr

namespace Memory

/-- The sixteen bytes of a pair are compared and exchanged as two doublewords. -/
def exchangePair (m : Memory) (expectedLo expectedHi desiredLo desiredHi : Value) (addr : Addr) : Memory :=
  if m.read .i64Bit addr = expectedLo ∧ m.read .i64Bit (addr + 8) = expectedHi then
    (m.write .i64Bit addr desiredLo).write .i64Bit (addr + 8) desiredHi
  else m

def exchange (m : Memory) (size : OpSize) (expected desired : Value) (addr : Addr) : Memory :=
  if m.read size addr = size.trunc expected then m.write size addr desired else m

def serve (answer : Answer) (m : Memory) : Access → Option (Reply × Memory)
  | .load size addr =>
    if m.canRead addr size.bytes then some (⟨m.read size addr, 0, answer⟩, m) else none
  | .store size addr value =>
    if m.canWrite addr size.bytes then some (⟨0, 0, answer⟩, m.write size addr value) else none
  | .cas size expected desired addr =>
    if m.canRead addr size.bytes ∧ m.canWrite addr size.bytes then
      some (⟨m.read size addr, 0, answer⟩, m.exchange size expected desired addr)
    else none
  | .casPair expectedLo expectedHi desiredLo desiredHi addr =>
    if m.canRead addr 16 ∧ m.canWrite addr 16 then
      some (⟨m.read .i64Bit addr, m.read .i64Bit (addr + 8), answer⟩,
        m.exchangePair expectedLo expectedHi desiredLo desiredHi addr)
    else none
  | .loadReserved size addr =>
    if m.canRead addr size.bytes then some (⟨m.read size addr, 0, answer⟩, m) else none
  | .storeConditional size value addr =>
    if m.canWrite addr size.bytes then
      some (⟨0, 0, answer⟩, if answer.reserved then m.write size addr value else m)
    else none
  | .signal => none

end Memory

abbrev Prog (α : Type) := Lib.Resume Cpu Access Reply α

/-- Code being translated, each IR operation performed as it is emitted. -/
abbrev Emit (α : Type) := Lib.Act Cpu Access Reply α

end PowerArm.A64
