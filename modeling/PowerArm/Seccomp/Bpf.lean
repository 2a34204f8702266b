import Mathlib

/-!
# Classic BPF for seccomp filters

`BPFInterpreter`: the instruction encodings of `linux/filter.h`, the acceptance
check made when a filter is installed and the interpreter that runs an accepted
program over one `seccomp_data`. A read outside the data or the scratch words
is a halt of its own, so that it cannot pass for a value.
-/

namespace PowerArm.Seccomp

structure SockFilter where
  code : BitVec 16
  jt : BitVec 8
  jf : BitVec 8
  k : BitVec 32
deriving BEq, DecidableEq, Repr

/-! ## Encodings -/

inductive Class
  | ld | ldx | st | stx | alu | jmp | ret | misc
deriving DecidableEq, Repr

inductive Mode
  | imm | abs | ind | mem | len | msh | other
deriving DecidableEq, Repr

inductive AluOp
  | add | sub | mul | div | or | and | lsh | rsh | neg | mod | xor | other
deriving DecidableEq, Repr

inductive JmpOp
  | ja | jeq | jgt | jge | jset | other
deriving DecidableEq, Repr

inductive RetVal
  | k | x | a | other
deriving DecidableEq, Repr

inductive MiscOp
  | tax | txa | other
deriving DecidableEq, Repr

namespace SockFilter

def cls (i : SockFilter) : Class :=
  match (i.code &&& 0x07).toNat with
  | 0x00 => .ld
  | 0x01 => .ldx
  | 0x02 => .st
  | 0x03 => .stx
  | 0x04 => .alu
  | 0x05 => .jmp
  | 0x06 => .ret
  | _ => .misc

def isWord (i : SockFilter) : Bool := i.code &&& 0x18 == 0x00

def mode (i : SockFilter) : Mode :=
  match (i.code &&& 0xe0).toNat with
  | 0x00 => .imm
  | 0x20 => .abs
  | 0x40 => .ind
  | 0x60 => .mem
  | 0x80 => .len
  | 0xa0 => .msh
  | _ => .other

def aluOp (i : SockFilter) : AluOp :=
  match (i.code &&& 0xf0).toNat with
  | 0x00 => .add
  | 0x10 => .sub
  | 0x20 => .mul
  | 0x30 => .div
  | 0x40 => .or
  | 0x50 => .and
  | 0x60 => .lsh
  | 0x70 => .rsh
  | 0x80 => .neg
  | 0x90 => .mod
  | 0xa0 => .xor
  | _ => .other

def jmpOp (i : SockFilter) : JmpOp :=
  match (i.code &&& 0xf0).toNat with
  | 0x00 => .ja
  | 0x10 => .jeq
  | 0x20 => .jgt
  | 0x30 => .jge
  | 0x40 => .jset
  | _ => .other

def srcX (i : SockFilter) : Bool := i.code &&& 0x08 == 0x08

def rval (i : SockFilter) : RetVal :=
  match (i.code &&& 0x18).toNat with
  | 0x00 => .k
  | 0x08 => .x
  | 0x10 => .a
  | _ => .other

def miscOp (i : SockFilter) : MiscOp :=
  match (i.code &&& 0xf8).toNat with
  | 0x00 => .tax
  | 0x80 => .txa
  | _ => .other

end SockFilter

def memWords : Nat := 16
def maxInsns : Nat := 4096

/-! ## seccomp_data -/

structure SeccompData where
  nr : BitVec 32
  arch : BitVec 32
  instructionPointer : BitVec 64
  args : Fin 6 → BitVec 64

def seccompDataSize : Nat := 64
def ipOffset : Nat := 8
def argsOffset : Nat := 16

def halfOf (v : BitVec 64) (high : Bool) : BitVec 32 :=
  if high then (v >>> 32).setWidth 32 else v.setWidth 32

/-- The little-endian word at an aligned byte offset; `none` for any other offset. -/
def SeccompData.load (d : SeccompData) (offset : Nat) : Option (BitVec 32) :=
  if offset % 4 ≠ 0 then none
  else if offset = 0 then some d.nr
  else if offset = 4 then some d.arch
  else if offset < argsOffset then some (halfOf d.instructionPointer (offset = 12))
  else if h : offset < seccompDataSize then
    some (halfOf (d.args ⟨(offset - argsOffset) / 8, by
      unfold argsOffset seccompDataSize at *; omega⟩) (offset % 8 = 4))
  else none

/-! ## ValidateProgram -/

def checkInst (numInsts i : Nat) (inst : SockFilter) : Bool :=
  match inst.cls with
  | .ld | .ldx =>
    inst.isWord && match inst.mode with
      | .imm | .len => true
      | .abs => inst.k.toNat % 4 == 0 && inst.k.toNat < seccompDataSize
      | .mem => inst.k.toNat < memWords
      | _ => false
  | .st | .stx => inst.isWord && inst.k.toNat < memWords
  | .alu =>
    match inst.aluOp with
    | .neg => !inst.srcX
    | .other => false
    | _ => true
  | .jmp =>
    match inst.jmpOp with
    | .ja => !inst.srcX && i + inst.k.toNat + 1 < numInsts
    | .other => false
    | _ => i + inst.jt.toNat + 1 < numInsts && i + inst.jf.toNat + 1 < numInsts
  | .ret => inst.rval != .other
  | .misc => inst.miscOp != .other

/-- `ValidateProgram(prog) == 0`, for a program of at least one instruction. -/
def validateProgram (prog : List SockFilter) : Bool :=
  prog.zipIdx.all (fun (inst, i) => checkInst prog.length i inst) && prog.getLast?.any (·.cls == .ret)

/-! ## Execute -/

structure Machine where
  a : BitVec 32 := 0
  x : BitVec 32 := 0
  mem : Nat → BitVec 32 := fun _ => 0
  ip : Nat := 0

/-- How a run ends. All but `ret` return 0; `fault` is a read or write outside
the buffers, `invalid` one of the returns for unvalidated programs. -/
inductive Halt
  | ret (value : BitVec 32)
  | divByZero
  | invalid
  | fellOff
  | fault
deriving DecidableEq, Repr

def Halt.value : Halt → BitVec 32
  | .ret v => v
  | _ => 0

def Machine.next (m : Machine) (skip : Nat) : Machine := { m with ip := (m.ip + skip + 1) % 2 ^ 32 }

def operand (inst : SockFilter) (m : Machine) : BitVec 32 := if inst.srcX then m.x else inst.k

def alu (op : AluOp) (a src : BitVec 32) : Except Halt (BitVec 32) :=
  match op with
  | .add => .ok (a + src)
  | .sub => .ok (a - src)
  | .mul => .ok (a * src)
  | .div => if src = 0 then .error .divByZero else .ok (a / src)
  | .mod => if src = 0 then .error .divByZero else .ok (a % src)
  | .or => .ok (a ||| src)
  | .and => .ok (a &&& src)
  | .xor => .ok (a ^^^ src)
  | .lsh => .ok (a <<< (src &&& 31).toNat)
  | .rsh => .ok (a >>> (src &&& 31).toNat)
  | .neg => .ok (-a)
  | .other => .error .invalid

def loadValue (inst : SockFilter) (data : SeccompData) (m : Machine) : Except Halt (BitVec 32) :=
  match inst.mode with
  | .imm => .ok inst.k
  | .abs =>
    match data.load inst.k.toNat with
    | some v => .ok v
    | none => .error .fault
  | .mem => if inst.k.toNat < memWords then .ok (m.mem inst.k.toNat) else .error .fault
  | .len => .ok (BitVec.ofNat 32 seccompDataSize)
  | _ => .error .invalid

def store (inst : SockFilter) (m : Machine) (value : BitVec 32) : Except Halt Machine :=
  if inst.k.toNat < memWords then
    .ok ({ m with mem := Function.update m.mem inst.k.toNat value }.next 0)
  else .error .fault

def jumpSkip (inst : SockFilter) (m : Machine) : Except Halt Nat :=
  let src := operand inst m
  let branch (c : Bool) := if c then inst.jt.toNat else inst.jf.toNat
  match inst.jmpOp with
  | .ja => .ok inst.k.toNat
  | .jeq => .ok (branch (m.a == src))
  | .jgt => .ok (branch (src < m.a))
  | .jge => .ok (branch (src ≤ m.a))
  | .jset => .ok (branch (m.a &&& src != 0))
  | .other => .error .invalid

def exec (inst : SockFilter) (data : SeccompData) (m : Machine) : Except Halt Machine :=
  match inst.cls with
  | .ld => (loadValue inst data m).map fun v => { m with a := v }.next 0
  | .ldx => (loadValue inst data m).map fun v => { m with x := v }.next 0
  | .st => store inst m m.a
  | .stx => store inst m m.x
  | .alu => (alu inst.aluOp m.a (operand inst m)).map fun v => { m with a := v }.next 0
  | .jmp => (jumpSkip inst m).map m.next
  | .ret =>
    match inst.rval with
    | .k => .error (.ret inst.k)
    | .x => .error (.ret m.x)
    | .a => .error (.ret m.a)
    | .other => .error .invalid
  | .misc =>
    match inst.miscOp with
    | .tax => .ok ({ m with x := m.a }.next 0)
    | .txa => .ok ({ m with a := m.x }.next 0)
    | .other => .error .invalid

/-- The interpreter loop. Accepted programs only jump forward, so a program's
length is enough fuel for it (`run_fuel`). -/
def run (prog : List SockFilter) (data : SeccompData) : Nat → Machine → Halt
  | 0, _ => .fellOff
  | fuel + 1, m =>
    match prog[m.ip]? with
    | none => .fellOff
    | some inst =>
      match exec inst data m with
      | .ok m' => run prog data fuel m'
      | .error h => h

def execute (prog : List SockFilter) (data : SeccompData) : Halt := run prog data prog.length {}

end PowerArm.Seccomp
