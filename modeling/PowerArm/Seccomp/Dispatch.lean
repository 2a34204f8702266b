import PowerArm.Seccomp.Emulator

/-!
# The syscall dispatcher

One attempt of `HandleSyscall`: the seccomp filters of the calling thread, then
the handler that `Definitions` has for the syscall number. Fatal signals to the
caller do not return. A queued SIGSYS waits for the deferred-signal guard, which
the attempt holds to its end, so the attempt goes on. A restarted syscall is
another attempt.
-/

namespace PowerArm.Seccomp

structure SyscallFunctionDefinition where
  handler : Nat
  numArgs : BitVec 8
deriving DecidableEq, Repr

/-- The dispatcher's table, and the syscall that the host-fault test hook waits
for (all ones when it is off). -/
structure Dispatcher where
  definitions : List SyscallFunctionDefinition
  hostFaultInjectSyscall : BitVec 64 := -1

inductive Outcome where
  | hostFault
  | killed (signal : Signal)
  | returned (result : BitVec 64)
  | invoked (handler : Nat) (args : List (BitVec 64)) (queued : Option Signal)
deriving DecidableEq, Repr

def Outcome.handler? : Outcome → Option Nat
  | .invoked handler .. => some handler
  | _ => none

/-- What `std::invoke` is given; `none` for an entry with an unknown count. -/
def SyscallFunctionDefinition.args? (e : SyscallFunctionDefinition) (c : Syscall) : Option (List (BitVec 64)) :=
  if e.numArgs.toNat ≤ 6 then some ((List.ofFn c.args).take e.numArgs.toNat)
  else if e.numArgs = 255 then some [c.nr]
  else none

def Dispatcher.invoke (d : Dispatcher) (c : Syscall) (queued : Option Signal) : Outcome :=
  match d.definitions[c.nr.toNat]? with
  | none => .returned (errno eNOSYS)
  | some e =>
    match e.args? c with
    | none => .returned (-1)
    | some args => .invoked e.handler args queued

def Dispatcher.dispatch (d : Dispatcher) (c : Syscall) (v : Verdict) : Outcome :=
  match v.signal with
  | some (.killProcess signal) => .killed (.killProcess signal)
  | some .killThread => .killed .killThread
  | queued => if v.earlyReturn then .returned v.result else d.invoke c queued

def Emulator.handleSyscallImpl (s : Emulator) (d : Dispatcher) (tid : Tid) (c : Syscall) :
    Option (Outcome × Emulator) :=
  if c.nr = d.hostFaultInjectSyscall then some (.hostFault, s)
  else do
    let t ← s.thread? tid
    if t.filters = [] then return (d.dispatch c {}, s)
    let (v, s) ← s.executeFilter tid c
    return (d.dispatch c v, s)

/-! ## What the filters ask for -/

inductive Action where
  | killProcess | killThread | trap | errno | userNotif | trace | log | allow
deriving DecidableEq, Repr

def Action.precedence : Action → Nat
  | .killProcess => 0
  | .killThread => 1
  | .trap => 2
  | .errno => 3
  | .userNotif => 4
  | .trace => 5
  | .log => 6
  | .allow => 7

/-- The action of a filter's return value; an unknown one counts as the highest. -/
def Action.ofValue (value : BitVec 32) : Action :=
  let action := value &&& retActionFull
  if action = retKillThread then .killThread
  else if action = retTrap then .trap
  else if action = retErrno then .errno
  else if action = retUserNotif then .userNotif
  else if action = retTrace then .trace
  else if action = retLog then .log
  else if action = retAllow then .allow
  else .killProcess

def Action.higher (a b : Action) : Action := if a.precedence < b.precedence then a else b

def highestAction (filters : List Filter) (data : SeccompData) : Action :=
  filters.foldr (fun f a => (Action.ofValue (execute f.program data).value).higher a) .allow

def Blocked (filters : List Filter) (c : Syscall) : Prop :=
  highestAction filters (c.data c.rip) ≠ .allow ∧ highestAction filters (c.data c.rip) ≠ .log

instance (filters : List Filter) (c : Syscall) : Decidable (Blocked filters c) := by
  unfold Blocked
  infer_instance

end PowerArm.Seccomp
