import PowerArm.A64.ExclusiveLoop

/-!
# Threads over the software exclusive monitor

Several threads run exclusive instructions and other code over one memory, one atomic
access a step. The history of completed instructions says what a monitor that watched
them would hold (`armed`).
-/

namespace PowerArm.A64

/-- What a thread runs. `other` stands for any code that leaves the monitor and memory
alone, by the registers and flags it leaves. -/
inductive Instr
  | loadExclusive (word : Word)
  | loadExclusivePair (word : Word)
  | storeExclusive (word : Word)
  | storeExclusivePair (word : Word)
  | clrex
  | fusedLoop (l : LoopBlock) (fuses : l.Fuses) (fuel : Nat)
  | write (size : OpSize) (addr : Addr) (value : Value)
  | other (gpr : Reg → Value) (nzcv : Flags)

def Instr.code : Instr → Emit Unit
  | .loadExclusive word => do let _ ← A64.loadExclusive word
  | .loadExclusivePair word => do let _ ← A64.loadExclusivePair word
  | .storeExclusive word => do let _ ← A64.storeExclusive word
  | .storeExclusivePair word => do let _ ← A64.storeExclusivePair word
  | .clrex => do let _ ← A64.clrex
  | .fusedLoop l _ fuel => l.fused fuel
  | .write size addr value => storeMem size value addr
  | .other gpr nzcv => Lib.Act.modify fun cpu => { cpu with gpr := gpr, nzcv := nzcv }

abbrev Trace := List (Access × Reply)

structure Running where
  instr : Instr
  trace : Trace
  prog : Prog Unit

structure Completed where
  thread : Nat
  instr : Instr
  trace : Trace
  finished : Bool

structure Thread where
  cpu : Cpu
  running : Option Running := none

structure System where
  mem : Memory
  threads : Nat → Thread
  history : List Completed := []

inductive Event
  | start (t : Nat) (instr : Instr) (answer : Answer)
  | advance (t : Nat) (answer : Answer)

namespace System

def setThread (sys : System) (t : Nat) (th : Thread) : System :=
  { sys with threads := Function.update sys.threads t th }

def complete (sys : System) (t : Nat) (instr : Instr) (trace : Trace) (finished : Bool) (cpu : Cpu) : System :=
  { sys.setThread t ⟨cpu, none⟩ with history := ⟨t, instr, trace, finished⟩ :: sys.history }

def settle (sys : System) (t : Nat) (instr : Instr) (trace : Trace) : Prog Unit → System
  | .ret _ cpu => sys.complete t instr trace true cpu
  | .ask cpu access next => sys.setThread t ⟨cpu, some ⟨instr, trace, .ask cpu access next⟩⟩

def perform (sys : System) (t : Nat) (r : Running) (answer : Answer) : System :=
  match r.prog with
  | .ret _ cpu => sys.complete t r.instr r.trace true cpu
  | .ask cpu access next =>
    match sys.mem.serve answer access with
    | none => sys.complete t r.instr r.trace false cpu
    | some (reply, mem) => settle { sys with mem := mem } t r.instr (r.trace ++ [(access, reply)]) (next reply)

def step (sys : System) : Event → System
  | .start t instr answer =>
    match (sys.threads t).running with
    | none => sys.perform t ⟨instr, [], instr.code (sys.threads t).cpu⟩ answer
    | some _ => sys
  | .advance t answer =>
    match (sys.threads t).running with
    | none => sys
    | some r => sys.perform t r answer

def run (sys : System) (events : List Event) : System := events.foldl step sys

structure Fresh (sys : System) : Prop where
  idle : ∀ t, (sys.threads t).running = none
  clear : ∀ t, (sys.threads t).cpu.excl.valid = 0
  history : sys.history = []

end System

/-! ## The monitor the history describes -/

inductive Record
  | single (size : OpSize) (addr : Addr) (value : Value)
  | pair (addr : Addr) (lo hi : Value)
deriving DecidableEq, Repr

namespace Record

def addr : Record → Addr
  | .single _ addr _ => addr
  | .pair addr _ _ => addr

def bytes : Record → Nat
  | .single size _ _ => size.bytes
  | .pair _ _ _ => 16

def HeldBy (mem : Memory) : Record → Prop
  | .single size addr value => mem.read size addr = value
  | .pair addr lo hi => mem.read .i64Bit addr = lo ∧ mem.read .i64Bit (addr + 8) = hi

end Record

def recordOf : Trace → Option Record
  | [(.load size addr, reply)] => some (.single size addr reply.value)
  | [(.load _ addr, lo), (.load _ _, hi)] => some (.pair addr lo.value hi.value)
  | _ => none

def Instr.arms (prior : Option Record) (trace : Trace) (finished : Bool) : Instr → Option Record
  | .loadExclusive _ | .loadExclusivePair _ => if finished then recordOf trace else prior
  | .storeExclusive _ | .storeExclusivePair _ | .clrex | .fusedLoop _ _ _ => none
  | .write _ _ _ | .other _ _ => prior

/-- The latest exclusive load of `t` that no store-exclusive, `CLREX` or fused loop of `t`
has followed, in a history with the latest instruction first. -/
def armed (t : Nat) : List Completed → Option Record
  | [] => none
  | d :: rest =>
    if d.thread = t then d.instr.arms (armed t rest) d.trace d.finished else armed t rest

/-! ## Store-exclusives -/

structure ExclusiveStore where
  addr : Addr
  bytes : Nat
  status : Reg
  write : Memory → Memory

def Instr.exclusiveStore? (cpu : Cpu) : Instr → Option ExclusiveStore
  | .storeExclusive word =>
    let size := bits word 31 30
    let addr := cpu.gpr (reg word 5)
    some ⟨addr, 1 <<< size, reg word 16, fun m => m.write (OpSize.ofLog size) addr (readX cpu.gpr (reg word 0))⟩
  | .storeExclusivePair word =>
    let addr := cpu.gpr (reg word 5)
    let lo := readX cpu.gpr (reg word 0)
    let hi := readX cpu.gpr (reg word 10)
    if bit word 30 then
      some ⟨addr, 16, reg word 16, fun m => (m.write .i64Bit addr lo).write .i64Bit (addr + 8) hi⟩
    else
      some ⟨addr, 8, reg word 16, fun m => m.write .i64Bit addr (hi.setWidth 32 ++ lo.setWidth 32)⟩
  | _ => none

end PowerArm.A64
